import OsLab.HeapProofs
import OsLab.LoopProofs

/-! # Heaps with related records

    Two heaps are similar when the same addresses are live in them, in one
    order, and the records there are related.  The order is what an
    allocator sees, so it answers both alike.

    Each heap operation keeps this (`Similar.follow`, `Similar.store`,
    `Similar.alloc`, `Similar.release`), so a program that does the same to
    both stays in step as far as it only looks at what the relation keeps. -/

namespace OsSimilar

open OsHeap OsLoop

variable {α β ε ε' : Type}

/-- The same addresses are live, with related records. -/
structure Similar (r : α → β → Prop) (h : Heap α) (h' : Heap β) : Prop where
  keys : h.keys = h'.keys
  records : ∀ a, Option.Rel r (h.lookup a) (h'.lookup a)

section Operations

variable {r : α → β → Prop} {h : Heap α} {h' : Heap β}

/-- An insertion of related records. -/
theorem Similar.insert (hs : Similar r h h') (a : Addr) {v : α} {v' : β} (hv : r v v') :
    Similar r (h.insert a v) (h'.insert a v') where
  keys := by rw [AList.keys_insert, AList.keys_insert, hs.keys]
  records := by
    intro b
    rw [lookup_insert_if, lookup_insert_if]
    by_cases hb : b = a
    · rw [if_pos hb, if_pos hb]
      exact .some hv
    · rw [if_neg hb, if_neg hb]
      exact hs.records b

theorem Similar.erase (hs : Similar r h h') (a : Addr) : Similar r (h.erase a) (h'.erase a) where
  keys := by rw [AList.keys_erase, AList.keys_erase, hs.keys]
  records := by
    intro b
    rw [lookup_erase_if, lookup_erase_if]
    by_cases hb : b = a
    · rw [if_pos hb, if_pos hb]
      exact .none
    · rw [if_neg hb, if_neg hb]
      exact hs.records b

theorem Similar.cases (hs : Similar r h h') (a : Addr) :
    (h.lookup a = none ∧ h'.lookup a = none) ∨
      ∃ n n', h.lookup a = some n ∧ h'.lookup a = some n' ∧ r n n' := by
  have hrec := hs.records a
  generalize h.lookup a = x at hrec ⊢
  generalize h'.lookup a = y at hrec ⊢
  cases hrec with
  | none => exact Or.inl ⟨rfl, rfl⟩
  | some hn => exact Or.inr ⟨_, _, rfl, rfl, hn⟩

theorem Similar.follow (hs : Similar r h h') (e : ε) (e' : ε') (p : Ptr) :
    Agrees (fun x y => x.1 = y.1 ∧ r x.2 y.2) (follow e h p) (follow e' h' p) := by
  cases p with
  | none => trivial
  | some a =>
      rcases hs.cases a with ⟨hl, hl'⟩ | ⟨n, n', hl, hl', hn⟩
      · rw [OsHeap.follow, OsHeap.follow, hl, hl']
        trivial
      · exact agrees_ok (follow_some hl) (follow_some hl') ⟨rfl, hn⟩

/-- A store of related updates. -/
theorem Similar.store (hs : Similar r h h') (a : Addr) {f : α → α} {g : β → β}
    (hfg : ∀ n n', r n n' → r (f n) (g n')) : Similar r (store h a f) (store h' a g) := by
  rw [OsHeap.store, OsHeap.store]
  rcases hs.cases a with ⟨hl, hl'⟩ | ⟨n, n', hl, hl', hn⟩
  · rw [hl, hl']
    exact hs
  · rw [hl, hl']
    exact hs.insert a (hfg n n' hn)

/-- **THE ALLOCATOR** answers with one address. -/
theorem Similar.alloc (hs : Similar r h h') (m : Malloc) {v : α} {v' : β} (hv : r v v') :
    ∃ a h₁ h₁', alloc m h v = (a, h₁) ∧ alloc m h' v' = (a, h₁') ∧ Similar r h₁ h₁' := by
  refine ⟨_, _, _, rfl, ?_, hs.insert (m.pick h.keys) hv⟩
  rw [OsHeap.alloc, ← hs.keys]

theorem Similar.release (hs : Similar r h h') (e : ε) (e' : ε') (p : Ptr) :
    Agrees (Similar r) (release e h p) (release e' h' p) := by
  cases p with
  | none => exact hs
  | some a =>
      have hmem : a ∈ h ↔ a ∈ h' := by rw [AList.mem_keys, AList.mem_keys, hs.keys]
      rw [OsHeap.release, OsHeap.release]
      by_cases ha : a ∈ h
      · rw [if_pos ha, if_pos (hmem.mp ha)]
        exact hs.erase a
      · rw [if_neg ha, if_neg fun ha' => ha (hmem.mpr ha')]
        trivial

end Operations

end OsSimilar
