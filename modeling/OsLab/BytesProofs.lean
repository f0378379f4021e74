import Mathlib

/-! # Byte memories and sparse files

    A byte memory answers a byte at every index.  `overlay` copies a range
    into it; `word` and `setWord` read and write it as little-endian 32-bit
    words, the way a C array of `u32` shares its storage with bytes.

    A sparse file is a size and a byte at every offset, zero from the size
    on; the zeros are part of the type, so that a write that leaves a hole
    behind needs no side condition. -/

namespace OsBytes

/-- Bytes by index. -/
abbrev Mem := Nat → UInt8

/-- Copy `len` bytes of `src` into `m` from `off` on. -/
def overlay (m : Mem) (off len : Nat) (src : Mem) : Mem := fun i =>
  if off ≤ i ∧ i < off + len then src (i - off) else m i

section Overlay

variable {m src : Mem} {off len i : Nat}

theorem overlay_in (h1 : off ≤ i) (h2 : i < off + len) :
    overlay m off len src i = src (i - off) := if_pos ⟨h1, h2⟩

theorem overlay_out (h : i < off ∨ off + len ≤ i) : overlay m off len src i = m i :=
  if_neg (by omega)

@[simp] theorem overlay_zero : overlay m off 0 src = m := by
  funext i
  exact overlay_out (by omega)

/-- A copy into a piece of a memory is a copy into the memory. -/
theorem overlay_shift (m : Mem) (off len : Nat) (src base : Mem) (s x : Nat)
    (h : x < off ∨ off + len ≤ x → base x = m (s + x)) :
    overlay base off len src x = overlay m (s + off) len src (s + x) := by
  by_cases hin : off ≤ x ∧ x < off + len
  · rw [overlay_in hin.1 hin.2, overlay_in (by omega) (by omega)]
    exact congrArg src (by omega)
  · rw [overlay_out (by omega), overlay_out (by omega)]
    exact h (by omega)

/-- Two copies side by side are one. -/
theorem overlay_append (m : Mem) (off a b : Nat) (src : Mem) :
    overlay (overlay m off a src) (off + a) b (fun i => src (a + i)) =
      overlay m off (a + b) src := by
  funext i
  by_cases h1 : i < off
  · rw [overlay_out (Or.inl (by omega)), overlay_out (Or.inl h1), overlay_out (Or.inl h1)]
  · by_cases h2 : i < off + a
    · rw [overlay_out (Or.inl h2), overlay_in (by omega) h2, overlay_in (by omega) (by omega)]
    · by_cases h3 : i < off + a + b
      · rw [overlay_in (by omega) h3, overlay_in (by omega) (by omega)]
        exact congrArg src (by omega)
      · rw [overlay_out (Or.inr (by omega)), overlay_out (Or.inr (by omega)),
          overlay_out (Or.inr (by omega))]

end Overlay

/-! ## Words -/

/-- The `i`-th little-endian 32-bit word. -/
def word (m : Mem) (i : Nat) : Nat :=
  (m (4 * i)).toNat + 256 * (m (4 * i + 1)).toNat + 65536 * (m (4 * i + 2)).toNat +
    16777216 * (m (4 * i + 3)).toNat

/-- Write the `i`-th word. -/
def setWord (m : Mem) (i v : Nat) : Mem := fun x =>
  if x / 4 = i then UInt8.ofNat (v / 256 ^ (x % 4)) else m x

section Words

variable {m m' : Mem} {i j v : Nat}

theorem word_lt (m : Mem) (i : Nat) : word m i < 4294967296 := by
  have h0 := (m (4 * i)).toNat_lt
  have h1 := (m (4 * i + 1)).toNat_lt
  have h2 := (m (4 * i + 2)).toNat_lt
  have h3 := (m (4 * i + 3)).toNat_lt
  simp only [word]
  omega

/-- A word is decided by its four bytes. -/
theorem word_congr (h : ∀ d, d < 4 → m (4 * i + d) = m' (4 * i + d)) : word m i = word m' i := by
  simp only [word]
  rw [show 4 * i = 4 * i + 0 from rfl, h 0 (by omega), h 1 (by omega), h 2 (by omega),
    h 3 (by omega)]

/-- A word is zero when its four bytes are. -/
theorem word_eq_zero : word m i = 0 ↔ ∀ d, d < 4 → m (4 * i + d) = 0 := by
  have hz : ∀ b : UInt8, b.toNat = 0 ↔ b = 0 := fun b =>
    ⟨fun h => UInt8.toNat_inj.mp h, fun h => congrArg UInt8.toNat h⟩
  constructor
  · intro h d hd
    rw [← hz]
    simp only [word] at h
    rcases (by omega : d = 0 ∨ d = 1 ∨ d = 2 ∨ d = 3) with rfl | rfl | rfl | rfl
    · rw [Nat.add_zero]; omega
    · omega
    · omega
    · omega
  · intro h
    have h0 := (hz _).mpr (h 0 (by omega))
    have h1 := (hz _).mpr (h 1 (by omega))
    have h2 := (hz _).mpr (h 2 (by omega))
    have h3 := (hz _).mpr (h 3 (by omega))
    rw [Nat.add_zero] at h0
    simp only [word]
    omega

theorem setWord_byte {d : Nat} (hd : d < 4) :
    (setWord m i v (4 * i + d)).toNat = v / 256 ^ d % 256 := by
  have h1 : (4 * i + d) / 4 = i := by omega
  have h2 : (4 * i + d) % 4 = d := by omega
  rw [setWord, if_pos h1, h2, UInt8.toNat_ofNat']

theorem setWord_out {x : Nat} (h : x / 4 ≠ i) : setWord m i v x = m x := if_neg h

@[simp] theorem word_setWord_same (h : v < 4294967296) : word (setWord m i v) i = v := by
  have h0 := setWord_byte (m := m) (i := i) (v := v) (d := 0) (by omega)
  have h1 := setWord_byte (m := m) (i := i) (v := v) (d := 1) (by omega)
  have h2 := setWord_byte (m := m) (i := i) (v := v) (d := 2) (by omega)
  have h3 := setWord_byte (m := m) (i := i) (v := v) (d := 3) (by omega)
  simp only [Nat.add_zero, Nat.pow_zero, Nat.pow_one, Nat.div_one] at h0 h1
  rw [show 256 ^ 2 = 65536 from rfl] at h2
  rw [show 256 ^ 3 = 16777216 from rfl] at h3
  simp only [word]
  omega

theorem word_setWord_ne (h : j ≠ i) : word (setWord m i v) j = word m j :=
  word_congr (fun d hd => setWord_out (by omega))

/-- **READING A WRITTEN WORD.** -/
theorem word_setWord (h : v < 4294967296) :
    word (setWord m i v) j = if j = i then v else word m j := by
  by_cases hj : j = i
  · rw [if_pos hj, hj, word_setWord_same h]
  · rw [if_neg hj, word_setWord_ne hj]

end Words

/-! ## Sparse files -/

/-- A size and the bytes of a file, zero from the size on. -/
@[ext] structure Sparse where
  size : Nat
  byte : Mem
  beyond : ∀ i, size ≤ i → byte i = 0

/-- A write of `len` bytes at `pos`. -/
structure Write where
  pos : Nat
  len : Nat
  data : Mem

def Write.stop (w : Write) : Nat := w.pos + w.len

/-- A file without bytes. -/
def Sparse.empty : Sparse where
  size := 0
  byte := fun _ => 0
  beyond := fun _ _ => rfl

/-- Overlay a write; the file grows to its end when it lies beyond. -/
def Sparse.write (f : Sparse) (w : Write) : Sparse where
  size := max f.size w.stop
  byte := overlay f.byte w.pos w.len w.data
  beyond := by
    intro i hi
    have h1 : f.size ≤ i := le_trans (le_max_left _ _) hi
    have h2 : w.pos + w.len ≤ i := le_trans (le_max_right _ _) hi
    rw [overlay_out (Or.inr h2)]
    exact f.beyond i h1

/-- Overlay writes in order. -/
def Sparse.writes (f : Sparse) (ws : List Write) : Sparse := ws.foldl Sparse.write f

/-- The first `n` bytes of a memory. -/
def Sparse.ofMem (m : Mem) (n : Nat) : Sparse where
  size := n
  byte := fun i => if i < n then m i else 0
  beyond := fun _ hi => if_neg (Nat.not_lt.mpr hi)

/-- The first `n` bytes of a file, or zeros up to there. -/
def Sparse.truncate (f : Sparse) (n : Nat) : Sparse := .ofMem f.byte n

/-- The largest end of a write. -/
def maxStop : List Write → Nat
  | [] => 0
  | w :: ws => max w.stop (maxStop ws)

section Sparse

variable {f : Sparse} {w : Write} {ws : List Write}

@[simp] theorem Sparse.write_size : (f.write w).size = max f.size w.stop := rfl

@[simp] theorem Sparse.writes_cons : f.writes (w :: ws) = (f.write w).writes ws := rfl

theorem Sparse.writes_append (f : Sparse) (ws vs : List Write) :
    f.writes (ws ++ vs) = (f.writes ws).writes vs := List.foldl_append ..

/-- Writes grow a file to the largest end among them. -/
theorem Sparse.writes_size (f : Sparse) (ws : List Write) :
    (f.writes ws).size = max f.size (maxStop ws) := by
  induction ws generalizing f with
  | nil => exact (Nat.max_zero _).symm
  | cons w ws ih =>
      rw [Sparse.writes_cons, ih, Sparse.write_size, maxStop]
      exact max_assoc _ _ _

end Sparse

end OsBytes
