import OsLab.ImagePassesProofs

/-! # When an edge magnitude is saturated

    `T3` stores the magnitude of a gradient in an `unsigned char`, which
    keeps it modulo 256.  Saturation would keep the smaller of it and 255.
    The two agree exactly if the magnitude is below 256, or wraps to 255
    (`toByte_saturated`). -/

namespace ImageMagnitude

open OsLoop ImageModel ImagePasses

/-! ## The gradient -/

section Gradient

variable (pix : Nat × Nat → Pixel) (p : Nat × Nat)

/-- The red channel of a pixel. -/
def red : Int := (pix p).r.toNat

/-- The column on the left of `p`, less the column on its right. -/
def sobelX : Int :=
  (red pix (p.1 - 1, p.2 - 1) + 2 * red pix (p.1, p.2 - 1) + red pix (p.1 + 1, p.2 - 1)) -
    (red pix (p.1 - 1, p.2 + 1) + 2 * red pix (p.1, p.2 + 1) + red pix (p.1 + 1, p.2 + 1))

/-- The row below `p`, less the row above it. -/
def sobelY : Int :=
  (red pix (p.1 + 1, p.2 - 1) + 2 * red pix (p.1 + 1, p.2) + red pix (p.1 + 1, p.2 + 1)) -
    (red pix (p.1 - 1, p.2 - 1) + 2 * red pix (p.1 - 1, p.2) + red pix (p.1 - 1, p.2 + 1))

/-- The square of the gradient at `p`. -/
def gradient : Nat := (sobelX pix p ^ 2 + sobelY pix p ^ 2).toNat

theorem red_bounds : 0 ≤ red pix p ∧ red pix p ≤ 255 := by
  have hbyte : (pix p).r.toNat < 256 := UInt8.toNat_lt _
  rw [red]
  omega

/-- The loops of `T3` sum up the two differences. -/
theorem sums_eq : sums gxLeft pix p = (sobelX pix p, sobelY pix p) := by
  have hx : (sums gxLeft pix p).1 =
      0 + 1 * red pix (p.1 - 1, p.2 - 1) + 0 * red pix (p.1 - 1, p.2) +
        -1 * red pix (p.1 - 1, p.2 + 1) + 2 * red pix (p.1, p.2 - 1) + 0 * red pix (p.1, p.2) +
        -2 * red pix (p.1, p.2 + 1) + 1 * red pix (p.1 + 1, p.2 - 1) +
        0 * red pix (p.1 + 1, p.2) + -1 * red pix (p.1 + 1, p.2 + 1) := rfl
  have hy : (sums gxLeft pix p).2 =
      0 + -1 * red pix (p.1 - 1, p.2 - 1) + -2 * red pix (p.1 - 1, p.2) +
        -1 * red pix (p.1 - 1, p.2 + 1) + 0 * red pix (p.1, p.2 - 1) + 0 * red pix (p.1, p.2) +
        0 * red pix (p.1, p.2 + 1) + 1 * red pix (p.1 + 1, p.2 - 1) +
        2 * red pix (p.1 + 1, p.2) + 1 * red pix (p.1 + 1, p.2 + 1) := rfl
  refine Prod.ext (hx.trans ?_) (hy.trans ?_)
  · rw [sobelX]
    omega
  · rw [sobelY]
    omega

/-- **THE RANGE OF THE GRADIENT**, of which the root is taken. -/
theorem gradient_le : gradient pix p ≤ 2 * 1020 ^ 2 := by
  have hbounds := red_bounds pix
  have hx : sobelX pix p ^ 2 ≤ 1020 ^ 2 := by
    have := hbounds (p.1 - 1, p.2 - 1)
    have := hbounds (p.1, p.2 - 1)
    have := hbounds (p.1 + 1, p.2 - 1)
    have := hbounds (p.1 - 1, p.2 + 1)
    have := hbounds (p.1, p.2 + 1)
    have := hbounds (p.1 + 1, p.2 + 1)
    refine sq_le_sq' ?_ ?_
    · rw [sobelX]
      omega
    · rw [sobelX]
      omega
  have hy : sobelY pix p ^ 2 ≤ 1020 ^ 2 := by
    have := hbounds (p.1 + 1, p.2 - 1)
    have := hbounds (p.1 + 1, p.2)
    have := hbounds (p.1 + 1, p.2 + 1)
    have := hbounds (p.1 - 1, p.2 - 1)
    have := hbounds (p.1 - 1, p.2)
    have := hbounds (p.1 - 1, p.2 + 1)
    refine sq_le_sq' ?_ ?_
    · rw [sobelY]
      omega
    · rw [sobelY]
      omega
  rw [gradient]
  omega

/-- What `T3` stores at `p` is the root of the gradient, as a byte. -/
theorem sobelAt_eq :
    sobelAt gxLeft pix p = .grey (UInt8.ofNat (Nat.sqrt (gradient pix p))) := by
  rw [sobelAt, sums_eq, magnitude, gradient, pow_two, pow_two]

end Gradient

/-! ## Saturation -/

/-- The root of `g` is below 256, or wraps to 255. -/
def Fits (g : Nat) : Prop :=
  g < 256 ^ 2 ∨ ∃ k, (256 * k + 255) ^ 2 ≤ g ∧ g < (256 * k + 256) ^ 2

/-- **A BYTE IS SATURATED** exactly if the root fits. -/
theorem toByte_saturated (g : Nat) :
    UInt8.ofNat (Nat.sqrt g) = UInt8.ofNat (min 255 (Nat.sqrt g)) ↔ Fits g := by
  have hbyte : UInt8.ofNat (Nat.sqrt g) = UInt8.ofNat (min 255 (Nat.sqrt g)) ↔
      Nat.sqrt g < 256 ∨ Nat.sqrt g % 256 = 255 := by
    rw [← UInt8.toNat_inj, UInt8.toNat_ofNat', UInt8.toNat_ofNat']
    omega
  rw [hbyte, Fits, Nat.sqrt_lt']
  refine or_congr Iff.rfl ⟨fun hmod => ⟨Nat.sqrt g / 256, ?_⟩, ?_⟩
  · rw [← Nat.le_sqrt', ← Nat.sqrt_lt']
    omega
  · rintro ⟨k, hlow, hhigh⟩
    rw [← Nat.le_sqrt'] at hlow
    rw [← Nat.sqrt_lt'] at hhigh
    omega

/-- The image after the pass has saturated magnitudes inside, and the border
    of the image before it. -/
structure Saturated (image out : Image) (h w : Nat) : Prop where
  rows : out.rows = image.rows
  cols : out.cols = image.cols
  inside : ∀ p, Inside h w p →
    out.pix p = .grey (UInt8.ofNat (min 255 (Nat.sqrt (gradient image.pix p))))
  border : ∀ p, p.1 < h ∧ p.2 < w → ¬ Inside h w p → out.pix p = image.pix p
  /-- a larger gradient is never darker -/
  brighter : ∀ p q, Inside h w p → Inside h w q →
    gradient image.pix p ≤ gradient image.pix q → (out.pix p).r ≤ (out.pix q).r

section Pass

variable {image : Image} {h w : Nat}

/-- Saturated magnitudes keep the order of the gradients. -/
theorem saturated_mono {g g' : Nat} (hle : g ≤ g') :
    UInt8.ofNat (min 255 (Nat.sqrt g)) ≤ UInt8.ofNat (min 255 (Nat.sqrt g')) := by
  have hroot : Nat.sqrt g ≤ Nat.sqrt g' := Nat.sqrt_le_sqrt hle
  rw [UInt8.le_iff_toNat_le, UInt8.toNat_ofNat', UInt8.toNat_ofNat']
  omega

theorem fits_of_saturated {out : Image} {p : Nat × Nat} (hs : Sized image h w) (hh : 1 ≤ h)
    (hw : 1 ≤ w) (hok : T3 image = .ok out) (hsat : Saturated image out h w)
    (hp : Inside h w p) : Fits (gradient image.pix p) := by
  cases (T3_ok hs hh hw).symm.trans hok
  have hin := hsat.inside p hp
  dsimp only at hin
  rw [if_pos hp, sobelAt_eq] at hin
  exact (toByte_saturated _).mp (Pixel.mk.inj hin).1

theorem saturated_of_fits (hs : Sized image h w) (hh : 1 ≤ h) (hw : 1 ≤ w)
    (hfits : ∀ p, Inside h w p → Fits (gradient image.pix p)) :
    ∃ out, T3 image = .ok out ∧ Saturated image out h w := by
  have hin : ∀ p, Inside h w p → sobelAt gxLeft image.pix p =
      .grey (UInt8.ofNat (min 255 (Nat.sqrt (gradient image.pix p)))) := by
    intro p hp
    rw [sobelAt_eq, (toByte_saturated _).mpr (hfits p hp)]
  refine ⟨_, T3_ok hs hh hw, rfl, rfl, fun p hp => ?_, fun p _ hp => if_neg hp,
    fun p q hp hq hle => ?_⟩
  · dsimp only
    rw [if_pos hp, hin p hp]
  · dsimp only
    rw [if_pos hp, if_pos hq, hin p hp, hin q hq]
    exact saturated_mono hle

/-- **MAGNITUDES ARE SATURATED** exactly if the root of every inner gradient
    is below 256 or wraps to 255. -/
theorem saturated_exact (hs : Sized image h w) (hh : 3 ≤ h) (hw : 3 ≤ w) :
    (∃ out, T3 image = .ok out ∧ Saturated image out h w) ↔
      ∀ p, Inside h w p → Fits (gradient image.pix p) := by
  have hh' : 1 ≤ h := by omega
  have hw' : 1 ≤ w := by omega
  constructor
  · rintro ⟨out, hok, hsat⟩ p hp
    exact fits_of_saturated hs hh' hw' hok hsat hp
  · exact saturated_of_fits hs hh' hw'

end Pass

/-- Black, but for one pixel on the left. -/
def edge (v : UInt8) : Image where
  rows := 3
  cols := fun _ => 3
  pix := fun p => if p = (1, 0) then .grey v else .grey 0

theorem edge_sized (v : UInt8) : Sized (edge v) 3 3 := ⟨rfl, fun _ _ => rfl, by decide, by decide⟩

theorem saturated_exact_edge : (∃ out, T3 (edge 127) = .ok out ∧ Saturated (edge 127) out 3 3) ↔
    ∀ p, Inside 3 3 p → Fits (gradient (edge 127).pix p) :=
  saturated_exact (edge_sized 127) (by decide) (by decide)

/-- A magnitude of 256 is stored as 0. -/
theorem magnitude_wraps : ¬ ∃ out, T3 (edge 128) = .ok out ∧ Saturated (edge 128) out 3 3 := by
  rintro ⟨out, hok, hsat⟩
  have hg : gradient (edge 128).pix (1, 1) = 256 ^ 2 := rfl
  rcases fits_of_saturated (edge_sized 128) (by decide) (by decide) hok hsat
    (by decide : Inside 3 3 (1, 1)) with hlt | ⟨k, hlow, hhigh⟩
  · rw [hg] at hlt
    exact absurd hlt (lt_irrefl _)
  · rw [hg] at hlow hhigh
    have hk : 256 * k + 255 ≤ 256 := (Nat.pow_le_pow_iff_left (by decide)).mp hlow
    have hk' : 256 < 256 * k + 256 := (Nat.pow_lt_pow_iff_left (by decide)).mp hhigh
    omega

end ImageMagnitude
