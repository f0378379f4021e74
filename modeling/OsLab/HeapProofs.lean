import Mathlib

/-! # A heap of records, and maps that insert on access

    Records live at addresses; `NULL` is the missing pointer.  The allocator
    is any function that answers with an address that is not live
    (`Malloc`), so nothing proved over it depends on the order in which
    addresses are handed out or on whether freed ones are reused.

    `DefMap` is the hash map of the C++ library as the programs use it:
    reading an absent key inserts the default value first (`touch`), which is
    invisible to every later read (`get_touch`). -/

namespace OsHeap

variable {ε α κ ν : Type}

/-- Addresses of live records. -/
abbrev Addr := Nat

/-- A pointer: `NULL` or an address, which may dangle. -/
abbrev Ptr := Option Addr

/-- The live records by address. -/
abbrev Heap (α : Type) := AList (fun _ : Addr => α)

/-- An allocator: it answers with an address that is not live. -/
structure Malloc where
  pick : List Addr → Addr
  fresh : ∀ live, pick live ∉ live

/-- A simple allocator: one past the sum of the live addresses. -/
def bump : Malloc where
  pick := fun live => live.sum + 1
  fresh := by
    intro live hmem
    exact Nat.not_succ_le_self _ (List.le_sum_of_mem hmem)

/-- Follow a pointer to an address and its record; `NULL` and dangling
    pointers fail with `e`. -/
def follow (e : ε) (h : Heap α) : Ptr → Except ε (Addr × α)
  | none => .error e
  | some a =>
      match h.lookup a with
      | none => .error e
      | some n => .ok (a, n)

/-- Update the record at a live address. -/
def store (h : Heap α) (a : Addr) (f : α → α) : Heap α :=
  match h.lookup a with
  | none => h
  | some n => h.insert a (f n)

/-- Place a new record at a fresh address. -/
def alloc (m : Malloc) (h : Heap α) (v : α) : Addr × Heap α :=
  (m.pick h.keys, h.insert (m.pick h.keys) v)

/-- Release a record; `free(NULL)` does nothing, a dangling pointer fails. -/
def release (e : ε) (h : Heap α) : Ptr → Except ε (Heap α)
  | none => .ok h
  | some a => if a ∈ h then .ok (h.erase a) else .error e

theorem follow_ok {e : ε} {h : Heap α} {p : Ptr} {r : Addr × α} :
    follow e h p = .ok r ↔ p = some r.1 ∧ h.lookup r.1 = some r.2 := by
  obtain ⟨b, n⟩ := r
  cases p with
  | none => simp [follow]
  | some a =>
      by_cases hab : a = b
      · subst hab
        cases hl : h.lookup a <;> simp [follow, hl]
      · cases hl : h.lookup a <;> simp [follow, hl, hab]

theorem follow_some {e : ε} {h : Heap α} {a : Addr} {n : α}
    (hl : h.lookup a = some n) : follow e h (some a) = .ok (a, n) :=
  follow_ok.mpr ⟨rfl, hl⟩

theorem lookup_insert_if (h : AList (fun _ : κ => ν)) [DecidableEq κ] (a b : κ) (v : ν) :
    (h.insert a v).lookup b = if b = a then some v else h.lookup b := by
  by_cases hb : b = a
  · rw [if_pos hb, hb, AList.lookup_insert]
  · rw [if_neg hb, AList.lookup_insert_ne hb]

theorem lookup_erase_if (h : AList (fun _ : κ => ν)) [DecidableEq κ] (a b : κ) :
    (h.erase a).lookup b = if b = a then none else h.lookup b := by
  by_cases hb : b = a
  · rw [if_pos hb, hb, AList.lookup_erase]
  · rw [if_neg hb, AList.lookup_erase_ne hb]

/-- A store changes the record at its address only. -/
theorem lookup_store (h : Heap α) (a b : Addr) (f : α → α) :
    (store h a f).lookup b = if b = a then (h.lookup a).map f else h.lookup b := by
  simp only [store]
  cases hl : h.lookup a with
  | none =>
      by_cases hb : b = a
      · rw [if_pos hb, hb]; exact hl
      · rw [if_neg hb]
  | some n =>
      show (h.insert a (f n)).lookup b = _
      rw [lookup_insert_if]
      rfl

/-- An allocated address was not live. -/
theorem alloc_fresh (m : Malloc) (h : Heap α) (v : α) :
    h.lookup (alloc m h v).1 = none :=
  AList.lookup_eq_none.mpr (fun hm => m.fresh h.keys (AList.mem_keys.mp hm))

theorem lookup_alloc (m : Malloc) (h : Heap α) (v : α) (b : Addr) :
    (alloc m h v).2.lookup b = if b = (alloc m h v).1 then some v else h.lookup b :=
  lookup_insert_if h _ b v

theorem release_ok {e : ε} {h h' : Heap α} {a : Addr} :
    release e h (some a) = .ok h' ↔ a ∈ h ∧ h' = h.erase a := by
  simp only [release]
  by_cases ha : a ∈ h
  · simp [ha, eq_comm]
  · simp [ha]

/-- A map that answers nothing is empty. -/
theorem eq_empty {h : AList (fun _ : κ => ν)} [DecidableEq κ] (hn : ∀ a, h.lookup a = none) :
    h = ∅ := by
  refine AList.ext ?_
  cases he : h.entries with
  | nil => rfl
  | cons e rest =>
      have hmem : e.1 ∈ h := by
        rw [AList.mem_keys, AList.keys, he]
        exact List.mem_cons_self
      exact absurd hmem (AList.lookup_eq_none.mp (hn e.1))

/-! ## Maps that insert on access -/

/-- A hash map whose subscript operator inserts the default value. -/
abbrev DefMap (κ ν : Type) := AList (fun _ : κ => ν)

variable [DecidableEq κ] [Inhabited ν]

/-- The value a subscript reads. -/
def get (m : DefMap κ ν) (k : κ) : ν := (m.lookup k).getD default

/-- The map a subscript leaves behind. -/
def touch (m : DefMap κ ν) (k : κ) : DefMap κ ν :=
  if k ∈ m then m else m.insert k default

@[simp] theorem get_insert (m : DefMap κ ν) (k k' : κ) (v : ν) :
    get (m.insert k v) k' = if k' = k then v else get m k' := by
  simp only [get]
  rw [lookup_insert_if]
  by_cases h : k' = k <;> simp [h]

theorem mem_touch {m : DefMap κ ν} {k k' : κ} : k' ∈ touch m k ↔ k' = k ∨ k' ∈ m := by
  rw [touch]
  split
  · next hk =>
    constructor
    · exact Or.inr
    · rintro (rfl | hk')
      · exact hk
      · exact hk'
  · exact AList.mem_insert m

/-- Touching a key that is there changes nothing. -/
theorem touch_of_mem {m : DefMap κ ν} {k : κ} (h : k ∈ m) : touch m k = m := if_pos h

/-- **Touching is invisible** to every later read. -/
@[simp] theorem get_touch (m : DefMap κ ν) (k k' : κ) :
    get (touch m k) k' = get m k' := by
  simp only [touch]
  by_cases hk : k ∈ m
  · rw [if_pos hk]
  · rw [if_neg hk, get_insert]
    by_cases h : k' = k
    · have hn : m.lookup k = none := AList.lookup_eq_none.mpr hk
      rw [if_pos h, h]
      simp [get, hn]
    · rw [if_neg h]

end OsHeap
