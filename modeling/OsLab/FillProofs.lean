import Mathlib

/-! # Filling a buffer with records

    Records of different lengths are put into a buffer one behind the other as
    long as they fit.  `fill` is how many of a list fit and what is left, for a
    buffer some of which is used already, and `place` is where they lie.

    What fits is a prefix (`fill_append`) that stays below the end of the buffer
    (`fill_room`), and the first that is left does not fit behind it
    (`fill_stop`).  A list in two parts is filled one part after the other
    (`fill_over`, `fill_within`).

    `batches` is how the records go through a smaller buffer that is emptied
    when the next one does not fit. -/

namespace OsFill

variable {α : Type} (len : α → Nat) (room : Nat)

/-- The bytes of a list of records. -/
def total (xs : List α) : Nat := (xs.map len).sum

/-- The records that stay below `room`, when `used` bytes are taken, and the
    rest. -/
def fill : Nat → List α → List α × List α
  | _, [] => ([], [])
  | used, x :: xs =>
      if used + len x ≥ room then ([], x :: xs)
      else
        let r := fill (used + len x) xs
        (x :: r.1, r.2)

/-- The records with their offsets, from an offset on. -/
def place : Nat → List α → List (Nat × α)
  | _, [] => []
  | off, x :: xs => (off, x) :: place (off + len x) xs

/-- The bytes of each emptying of a buffer that holds less than `cap`, when it
    has some already; the last one empties it for good. -/
def batches (cap : Nat) : Nat → List Nat → List Nat
  | held, [] => if held = 0 then [] else [held]
  | held, n :: ns => if held + n ≥ cap then held :: batches cap n ns else batches cap (held + n) ns

variable {len room}

section Total

@[simp] theorem total_nil : total len ([] : List α) = 0 := rfl

@[simp] theorem total_cons (x : α) (xs : List α) : total len (x :: xs) = len x + total len xs :=
  List.sum_cons

@[simp] theorem total_append (xs ys : List α) :
    total len (xs ++ ys) = total len xs + total len ys := by
  rw [total, List.map_append, List.sum_append]
  rfl

/-- Without records there are no bytes, and with records that have bytes there
    are some. -/
theorem total_eq_zero (hlen : ∀ x, 0 < len x) {xs : List α} : total len xs = 0 ↔ xs = [] := by
  cases xs with
  | nil => simp
  | cons x xs =>
      have hx := hlen x
      simp
      omega

end Total

section Fill

variable {used : Nat} {xs ys : List α} {x : α}

theorem fill_cons_full (h : used + len x ≥ room) : fill len room used (x :: xs) = ([], x :: xs) :=
  if_pos h

theorem fill_cons_fits (h : ¬ used + len x ≥ room) : fill len room used (x :: xs) =
    (x :: (fill len room (used + len x) xs).1, (fill len room (used + len x) xs).2) :=
  if_neg h

/-- What fits is a prefix. -/
theorem fill_append (len : α → Nat) (room used : Nat) (xs : List α) :
    (fill len room used xs).1 ++ (fill len room used xs).2 = xs := by
  induction xs generalizing used with
  | nil => rfl
  | cons x xs ih =>
      by_cases h : used + len x ≥ room
      · rw [fill_cons_full h]
        rfl
      · rw [fill_cons_fits h]
        exact congrArg (x :: ·) (ih _)

/-- It ends below the end of the buffer. -/
theorem fill_room (h : (fill len room used xs).1 ≠ []) :
    used + total len (fill len room used xs).1 < room := by
  induction xs generalizing used with
  | nil => exact absurd rfl h
  | cons x xs ih =>
      by_cases hx : used + len x ≥ room
      · rw [fill_cons_full hx] at h
        exact absurd rfl h
      · rw [fill_cons_fits hx, total_cons]
        by_cases hrest : (fill len room (used + len x) xs).1 = []
        · rw [hrest, total_nil]
          omega
        · have hroom := ih hrest
          omega

/-- The first that is left does not fit. -/
theorem fill_stop (h : (fill len room used xs).2 = x :: ys) :
    room ≤ used + total len (fill len room used xs).1 + len x := by
  induction xs generalizing used with
  | nil => exact absurd h (List.cons_ne_nil x ys).symm
  | cons z xs ih =>
      by_cases hz : used + len z ≥ room
      · rw [fill_cons_full hz] at h ⊢
        obtain ⟨rfl, -⟩ := List.cons.inj h
        exact hz
      · rw [fill_cons_fits hz] at h ⊢
        have hrest := ih h
        rw [total_cons]
        omega

/-- When a first part does not fit whole, a second does not matter. -/
theorem fill_within (h : (fill len room used xs).2 ≠ []) (ys : List α) :
    fill len room used (xs ++ ys) =
      ((fill len room used xs).1, (fill len room used xs).2 ++ ys) := by
  induction xs generalizing used with
  | nil => exact absurd rfl h
  | cons x xs ih =>
      rw [List.cons_append]
      by_cases hx : used + len x ≥ room
      · rw [fill_cons_full hx, fill_cons_full hx]
        rfl
      · rw [fill_cons_fits hx] at h
        rw [fill_cons_fits hx, fill_cons_fits hx, ih h]

/-- When it does, the second goes behind it. -/
theorem fill_over (h : (fill len room used xs).2 = []) (ys : List α) :
    fill len room used (xs ++ ys) = (xs ++ (fill len room (used + total len xs) ys).1,
      (fill len room (used + total len xs) ys).2) := by
  induction xs generalizing used with
  | nil => rfl
  | cons x xs ih =>
      rw [List.cons_append]
      by_cases hx : used + len x ≥ room
      · rw [fill_cons_full hx] at h
        exact absurd h (List.cons_ne_nil x xs)
      · rw [fill_cons_fits hx] at h
        rw [fill_cons_fits hx, ih h, total_cons, Nat.add_assoc]
        rfl

/-- A list that fits is taken whole. -/
theorem fill_all (h : (fill len room used xs).2 = []) : (fill len room used xs).1 = xs := by
  have happend := fill_append len room used xs
  rw [h, List.append_nil] at happend
  exact happend

end Fill

section Place

variable {off : Nat} {xs ys : List α}

theorem place_append (off : Nat) (xs ys : List α) :
    place len off (xs ++ ys) = place len off xs ++ place len (off + total len xs) ys := by
  induction xs generalizing off with
  | nil => rfl
  | cons x xs ih =>
      rw [List.cons_append, place, place, ih, total_cons, List.cons_append, Nat.add_assoc]

end Place

/-- Emptying a buffer loses no bytes. -/
theorem batches_sum (cap held : Nat) (ns : List Nat) :
    (batches cap held ns).sum = held + ns.sum := by
  induction ns generalizing held with
  | nil =>
      rw [batches]
      split
      · next h0 => rw [h0]; rfl
      · rfl
  | cons n ns ih =>
      rw [batches, List.sum_cons]
      split
      · rw [List.sum_cons, ih]
      · rw [ih, Nat.add_assoc]

theorem batches_ne_nil (cap : Nat) {held : Nat} (hheld : 0 < held) (ns : List Nat) :
    batches cap held ns ≠ [] := by
  intro hnil
  have hsum := batches_sum cap held ns
  rw [hnil, List.sum_nil] at hsum
  omega

end OsFill
