import Mathlib

/-! # Halving a power-of-two range

    A path of left and right turns names a dyadic block of `[0, 2^k)`: every
    turn halves the block it is taken in.  `offset k p` is where the block of
    path `p` starts and `width k p` how long it is.

    Blocks of two paths are disjoint unless one path extends the other
    (`offset_disjoint`), equal blocks have equal paths (`offset_inj`), and
    consecutive blocks tile a range (`Tiles`). -/

namespace OsDyadic

/-- A turn: into the lower or the upper half. -/
inductive Side where
  | left
  | right
  deriving DecidableEq, Repr

/-- A path from the whole range down to a block. -/
abbrev Path := List Side

/-- Where the block of a path starts inside `[0, 2^k)`. -/
def offset : Nat → Path → Nat
  | _, [] => 0
  | k, .left :: p => offset (k - 1) p
  | k, .right :: p => 2 ^ (k - 1) + offset (k - 1) p

/-- How long the block of a path is. -/
def width (k : Nat) (p : Path) : Nat := 2 ^ (k - p.length)

theorem width_pos (k : Nat) (p : Path) : 0 < width k p :=
  Nat.two_pow_pos _

theorem two_pow_pred {k : Nat} (h : 0 < k) : 2 ^ k = 2 ^ (k - 1) + 2 ^ (k - 1) := by
  obtain ⟨j, rfl⟩ : ∃ j, k = j + 1 := ⟨k - 1, by omega⟩
  rw [Nat.add_sub_cancel, pow_succ]
  ring

/-- A block lies inside the whole range. -/
theorem offset_add_width_le {k : Nat} {p : Path} (h : p.length ≤ k) :
    offset k p + width k p ≤ 2 ^ k := by
  induction p generalizing k with
  | nil => simp [offset, width]
  | cons d p ih =>
      simp only [List.length_cons] at h
      have hp := ih (k := k - 1) (by omega)
      have hw : width k (d :: p) = width (k - 1) p := by
        simp only [width, List.length_cons]
        rw [show k - (p.length + 1) = k - 1 - p.length by omega]
      have hk := two_pow_pred (k := k) (by omega)
      rw [hw]
      cases d with
      | left => show offset (k - 1) p + _ ≤ _; omega
      | right => show 2 ^ (k - 1) + offset (k - 1) p + _ ≤ _; omega

/-- **Blocks are disjoint** unless one path extends the other. -/
theorem offset_disjoint {k : Nat} {p q : Path} (hp : p.length ≤ k) (hq : q.length ≤ k)
    (hpq : ¬ p <+: q) (hqp : ¬ q <+: p) :
    offset k p + width k p ≤ offset k q ∨ offset k q + width k q ≤ offset k p := by
  induction p generalizing k q with
  | nil => exact absurd List.nil_prefix hpq
  | cons d p ih =>
      cases q with
      | nil => exact absurd List.nil_prefix hqp
      | cons e q =>
          simp only [List.length_cons] at hp hq
          have hwp : width k (d :: p) = width (k - 1) p := by
            simp only [width, List.length_cons]
            rw [show k - (p.length + 1) = k - 1 - p.length by omega]
          have hwq : width k (e :: q) = width (k - 1) q := by
            simp only [width, List.length_cons]
            rw [show k - (q.length + 1) = k - 1 - q.length by omega]
          have bp := offset_add_width_le (k := k - 1) (p := p) (by omega)
          have bq := offset_add_width_le (k := k - 1) (p := q) (by omega)
          rw [hwp, hwq]
          by_cases hde : d = e
          · subst hde
            rw [List.cons_prefix_cons] at hpq hqp
            have := ih (k := k - 1) (q := q) (by omega) (by omega)
              (fun h => hpq ⟨rfl, h⟩) (fun h => hqp ⟨rfl, h⟩)
            cases d with
            | left => exact this
            | right => simp only [offset]; omega
          · cases d with
            | left =>
                cases e with
                | left => exact absurd rfl hde
                | right => simp only [offset]; omega
            | right =>
                cases e with
                | left => simp only [offset]; omega
                | right => exact absurd rfl hde

/-- Paths of one length with the same start are the same path. -/
theorem offset_inj {k : Nat} {p q : Path} (hlen : p.length = q.length)
    (hp : p.length ≤ k) (h : offset k p = offset k q) : p = q := by
  by_contra hne
  have hpq : ¬ p <+: q := fun hpre => hne (hpre.eq_of_length hlen)
  have hqp : ¬ q <+: p := fun hpre => hne (hpre.eq_of_length hlen.symm).symm
  have hwp := width_pos k p
  have hwq := width_pos k q
  rcases offset_disjoint hp (hlen ▸ hp) hpq hqp with h' | h' <;> omega

/-- Appending a turn keeps the start, or moves it by half the block. -/
theorem offset_snoc {k : Nat} {p : Path} (d : Side) :
    offset k (p ++ [d]) =
      offset k p + (match d with | .left => 0 | .right => 2 ^ (k - p.length - 1)) := by
  induction p generalizing k with
  | nil => cases d <;> simp [offset]
  | cons e p ih =>
      have hl : k - (e :: p).length - 1 = k - 1 - p.length - 1 := by
        simp only [List.length_cons]; omega
      rw [hl]
      cases e with
      | left => exact ih
      | right =>
          show 2 ^ (k - 1) + offset (k - 1) (p ++ [d]) = 2 ^ (k - 1) + offset (k - 1) p + _
          rw [ih, Nat.add_assoc]

/-! ## Tilings -/

/-- The blocks of the paths follow one another from `lo` to `hi`. -/
def Tiles (k : Nat) : Nat → List Path → Nat → Prop
  | lo, [], hi => lo = hi
  | lo, p :: ps, hi => offset k p = lo ∧ Tiles k (lo + width k p) ps hi

/-- Tilings of adjacent ranges join. -/
theorem Tiles.append {k : Nat} {lo mid hi : Nat} {ps qs : List Path}
    (h1 : Tiles k lo ps mid) (h2 : Tiles k mid qs hi) : Tiles k lo (ps ++ qs) hi := by
  induction ps generalizing lo with
  | nil => cases h1; exact h2
  | cons p ps ih => exact ⟨h1.1, ih h1.2⟩

/-- One block tiles its own range. -/
theorem tiles_single (k : Nat) (p : Path) :
    Tiles k (offset k p) [p] (offset k p + width k p) := ⟨rfl, rfl⟩

/-- The two halves of a block meet in the middle. -/
theorem halves {k : Nat} {p : Path} (h : p.length < k) :
    offset k (p ++ [Side.left]) = offset k p ∧
    offset k (p ++ [Side.left]) + width k (p ++ [Side.left]) = offset k (p ++ [Side.right]) ∧
    offset k (p ++ [Side.right]) + width k (p ++ [Side.right]) = offset k p + width k p := by
  have hk := two_pow_pred (k := k - p.length) (by omega)
  have hw : ∀ d, width k (p ++ [d]) = 2 ^ (k - p.length - 1) := by
    intro d
    simp only [width, List.length_append, List.length_cons, List.length_nil]
    rw [show k - (p.length + (0 + 1)) = k - p.length - 1 by omega]
  rw [hw, hw, offset_snoc, offset_snoc]
  simp only [width]
  omega

end OsDyadic
