import OsLab.PagingProofs

/-! # Who has waited longest

    A log has an entry for each event of a process, the latest at its end.
    Of two processes the one whose last entry is further back has waited
    longer.  A queue that takes new entries at its end stays ordered by
    waiting time (`Ordered.touch`, `Ordered.enter`). -/

namespace OsWaiting

open OsPaging (since since_append)

variable {α : Type} [DecidableEq α] {log w more : List α} {p q x : α}

/-- There is an entry of `q` behind the last of `p`. -/
def Longer (log : List α) (p q : α) : Prop := q ∈ since log p

/-- The one that has waited longest comes first. -/
def Ordered (log w : List α) : Prop := w.Pairwise (Longer log)

theorem longer_snoc : Longer (log ++ [x]) p q ↔ x ≠ p ∧ (q = x ∨ Longer log p q) := by
  rw [Longer, since_append]
  by_cases hx : x = p
  · rw [if_pos hx]
    exact iff_of_false List.not_mem_nil (fun h => h.1 hx)
  · rw [if_neg hx, List.mem_cons]
    exact ⟨fun h => ⟨hx, h⟩, fun h => h.2⟩

theorem Longer.asymm (h : Longer log p q) : ¬ Longer log q p := by
  induction log using List.reverseRecOn with
  | nil => exact nomatch h
  | append_singleton log x ih =>
      intro h'
      obtain ⟨hxp, hq⟩ := longer_snoc.mp h
      obtain ⟨hxq, hp⟩ := longer_snoc.mp h'
      exact ih (hq.resolve_left (Ne.symm hxq)) (hp.resolve_left (Ne.symm hxp))

/-- Entries of others change nothing. -/
theorem Longer.append (h : Longer log p q) (hp : p ∉ more) : Longer (log ++ more) p q := by
  induction more using List.reverseRecOn with
  | nil =>
      rw [List.append_nil]
      exact h
  | append_singleton more x ih =>
      rw [List.mem_append, List.mem_singleton, not_or] at hp
      rw [← List.append_assoc, longer_snoc]
      exact ⟨fun hx => hp.2 hx.symm, Or.inr (ih hp.1)⟩

/-- **A NEW ENTRY** goes to the end. -/
theorem Ordered.touch (h : Ordered log w) (hx : x ∉ w) : Ordered (log ++ [x]) (w ++ [x]) := by
  have hne : ∀ p ∈ w, x ≠ p := fun p hp heq => hx (heq ▸ hp)
  refine List.pairwise_append.mpr ⟨?_, List.pairwise_singleton _ x, ?_⟩
  · exact List.Pairwise.imp_of_mem (fun hp _ hpq => longer_snoc.mpr ⟨hne _ hp, Or.inr hpq⟩) h
  · intro p hp q hq
    exact longer_snoc.mpr ⟨hne p hp, Or.inl (List.mem_singleton.mp hq)⟩

theorem Ordered.enter (h : Ordered log w) (hnodup : (w ++ more).Nodup) :
    Ordered (log ++ more) (w ++ more) := by
  induction more using List.reverseRecOn with
  | nil =>
      rw [List.append_nil, List.append_nil]
      exact h
  | append_singleton more x ih =>
      rw [← List.append_assoc] at hnodup ⊢
      rw [← List.append_assoc]
      obtain ⟨hbefore, -, hdisjoint⟩ := List.nodup_append.mp hnodup
      exact (ih hbefore).touch (fun hx => hdisjoint x hx x (List.mem_singleton_self x) rfl)

/-- A queue that entered in its own order. -/
theorem ordered_self (h : w.Nodup) : Ordered w w := by
  have hnil : Ordered ([] : List α) [] := List.Pairwise.nil
  exact hnil.enter h

end OsWaiting
