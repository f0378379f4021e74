import OsLab.LoopProofs

/-! # What a program holds

    Locks and references that a program has acquired and not yet released are
    a list, with a resource in it as often as it is held.  Acquiring puts one
    at the front; releasing takes one out, and fails when none is there.

    * What was acquired last is released without a search, and behind other
      resources one by one (`release_top`, `release_under`).
    * A release takes out one of its kind and nothing else (`release_count`),
      so that a balanced program is one that starts and ends with the empty
      list.
    * Releasing what is held, one by one in any order, leaves nothing
      (`releaseAll_perm`). -/

namespace OsLedger

variable {ε ρ : Type} [DecidableEq ρ]

/-- Release one `r`; with none held it fails with `e`. -/
def release (e : ε) (r : ρ) (held : List ρ) : Except ε (List ρ) :=
  if r ∈ held then .ok (held.erase r) else .error e

theorem release_top (e : ε) (r : ρ) (held : List ρ) : release e r (r :: held) = .ok held := by
  rw [release, if_pos List.mem_cons_self, List.erase_cons_head]

/-- A resource under another one. -/
theorem release_under {e : ε} {r q : ρ} {held held' : List ρ} (hne : q ≠ r)
    (h : release e r held = .ok held') : release e r (q :: held) = .ok (q :: held') := by
  rw [release] at h ⊢
  split at h
  · next hmem =>
      cases h
      rw [if_pos (List.mem_cons_of_mem q hmem), List.erase_cons_tail (by simpa using hne)]
  · exact nomatch h

theorem release_fails {e : ε} {r : ρ} {held : List ρ} (h : r ∉ held) :
    release e r held = .error e := if_neg h

theorem release_mem {e : ε} {r : ρ} {held held' : List ρ} (h : release e r held = .ok held') :
    r ∈ held ∧ held' = held.erase r := by
  rw [release] at h
  split at h
  · next hmem =>
      cases h
      exact ⟨hmem, rfl⟩
  · exact nomatch h

/-- **A RELEASE** takes out one of what it names, and nothing else. -/
theorem release_count {e : ε} {r : ρ} {held held' : List ρ} (h : release e r held = .ok held')
    (P : ρ → Bool) : held'.countP P + (if P r then 1 else 0) = held.countP P := by
  obtain ⟨hmem, rfl⟩ := release_mem h
  rw [List.countP_erase]
  by_cases hP : P r = true
  · have hpos := List.countP_pos_iff.mpr ⟨r, hmem, hP⟩
    rw [if_pos ⟨hmem, hP⟩, if_pos hP]
    omega
  · rw [if_neg (fun hboth => hP hboth.2), if_neg hP]
    rfl

/-- Release the resources one after another. -/
def releaseAll (e : ε) : List ρ → List ρ → Except ε (List ρ)
  | [], held => .ok held
  | r :: rs, held => release e r held >>= releaseAll e rs

/-- **EVERYTHING GIVEN BACK**, whatever the order. -/
theorem releaseAll_perm (e : ε) {rs held : List ρ} (h : rs.Perm held) :
    releaseAll e rs held = .ok [] := by
  induction rs generalizing held with
  | nil => rw [List.nil_perm.mp h, releaseAll]
  | cons r rs ih =>
      obtain ⟨hmem, hrest⟩ := List.cons_perm_iff_perm_erase.mp h
      have hfirst : release e r held = .ok (held.erase r) := if_pos hmem
      exact OsLoop.bind_ok.mpr ⟨_, hfirst, ih hrest⟩

end OsLedger
