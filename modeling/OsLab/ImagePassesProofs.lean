import OsLab.ImageModelProofs
import OsLab.StencilProofs

/-! # What the two passes compute

    On an image whose rows are equally long, the grey pass maps every pixel
    (`T1_ok`), and the Sobel pass fills the interior with the magnitudes
    around each pixel of the image it is given (`T3_ok`).  The sign of `gx`
    makes no difference to a magnitude (`sobelAt_right`). -/

namespace ImagePasses

open OsLoop OsStencil ImageModel

/-- The image has `h` rows of `w` pixels, and both sizes are `int`s. -/
structure Sized (image : Image) (h w : Nat) : Prop where
  rows : image.rows = h
  cols : ∀ y < h, image.cols y = w
  height : h < 2 ^ 31
  width : w < 2 ^ 31

/-- The pixels of an image of `h` by `w`, row by row. -/
def allPixels (h w : Nat) : List (Nat × Nat) :=
  (List.range h).flatMap fun y => (List.range w).map (Prod.mk y)

/-- The pixels that are not on the border. -/
def interior (h w : Nat) : List (Nat × Nat) :=
  (upTo h).flatMap fun y => (upTo w).map (Prod.mk y)

/-- `(y, x)` is not on the border. -/
def Inside (h w : Nat) (p : Nat × Nat) : Prop :=
  (1 ≤ p.1 ∧ p.1 + 1 < h) ∧ 1 ≤ p.2 ∧ p.2 + 1 < w

instance (h w : Nat) (p : Nat × Nat) : Decidable (Inside h w p) :=
  inferInstanceAs (Decidable (_ ∧ _))

section Lists

variable {h w : Nat} {p : Nat × Nat}

theorem mem_allPixels : p ∈ allPixels h w ↔ p.1 < h ∧ p.2 < w := by
  rw [allPixels, List.mem_flatMap]
  constructor
  · rintro ⟨y, hy, hp⟩
    obtain ⟨x, hx, rfl⟩ := List.mem_map.mp hp
    exact ⟨List.mem_range.mp hy, List.mem_range.mp hx⟩
  · rintro ⟨hy, hx⟩
    exact ⟨p.1, List.mem_range.mpr hy, List.mem_map.mpr ⟨p.2, List.mem_range.mpr hx, rfl⟩⟩

theorem mem_upTo {n i : Nat} (hpos : 1 ≤ n) (hn : n < 2 ^ 31) :
    i ∈ upTo n ↔ 1 ≤ i ∧ i + 1 < n := by
  -- `size() - 1` does not wrap, for the vector is not empty
  have hbound : (2 ^ 64 - 1 + n) % 2 ^ 64 = n - 1 := by omega
  rw [upTo, hbound, List.mem_range'_1]
  omega

theorem mem_interior (hh : 1 ≤ h) (hw : 1 ≤ w) (hh' : h < 2 ^ 31) (hw' : w < 2 ^ 31) :
    p ∈ interior h w ↔ Inside h w p := by
  rw [interior, List.mem_flatMap]
  constructor
  · rintro ⟨y, hy, hp⟩
    obtain ⟨x, hx, rfl⟩ := List.mem_map.mp hp
    exact ⟨(mem_upTo hh hh').mp hy, (mem_upTo hw hw').mp hx⟩
  · rintro ⟨hy, hx⟩
    exact ⟨p.1, (mem_upTo hh hh').mpr hy, List.mem_map.mpr ⟨p.2, (mem_upTo hw hw').mpr hx, rfl⟩⟩

/-- The rows and columns of a grid of nodups are nodup. -/
theorem nodup_grid {ys xs : List Nat} (hy : ys.Nodup) (hx : xs.Nodup) :
    (ys.flatMap fun y => xs.map (Prod.mk y)).Nodup := by
  refine List.nodup_flatMap.mpr ⟨fun y _ => hx.map (Prod.mk_right_injective y), ?_⟩
  refine hy.imp (fun {y y'} hne => ?_)
  rw [Function.onFun, List.disjoint_left]
  rintro q hq hq'
  obtain ⟨x, -, rfl⟩ := List.mem_map.mp hq
  obtain ⟨x', -, heq⟩ := List.mem_map.mp hq'
  exact hne (congrArg Prod.fst heq).symm

theorem nodup_allPixels (h w : Nat) : (allPixels h w).Nodup :=
  nodup_grid List.nodup_range List.nodup_range

theorem nodup_interior (h w : Nat) : (interior h w).Nodup :=
  nodup_grid List.nodup_range' List.nodup_range'

end Lists

/-! ## Accesses -/

section Passes

variable {image : Image} {h w : Nat} {p : Nat × Nat} {gx : Kernel} {gray : Pixel → UInt8}

theorem read_ok (hs : Sized image h w) (hp : p.1 < h ∧ p.2 < w) :
    image.read p = .ok (image.pix p) := by
  rw [Image.read, if_pos]
  rw [hs.rows, hs.cols _ hp.1]
  exact hp

theorem write_ok (hs : Sized image h w) (hp : p.1 < h ∧ p.2 < w) (v : Pixel) :
    image.write p v = .ok { image with pix := Function.update image.pix p v } := by
  rw [Image.write, if_pos]
  rw [hs.rows, hs.cols _ hp.1]
  exact hp

theorem rowSize_ok (hs : Sized image h w) {y : Nat} (hy : y < h) : image.rowSize y = .ok w := by
  rw [Image.rowSize, hs.rows, if_pos hy, hs.cols y hy]

/-- The size of an image does not depend on its pixels. -/
theorem Sized.with_pix (hs : Sized image h w) (pix : Nat × Nat → Pixel) :
    Sized { image with pix := pix } h w :=
  ⟨hs.rows, hs.cols, hs.height, hs.width⟩

theorem interior_lt (hs : Sized image h w) (hh : 1 ≤ h) (hw : 1 ≤ w) (hp : p ∈ interior h w) :
    p.1 < h ∧ p.2 < w := by
  obtain ⟨hy, hx⟩ := (mem_interior hh hw hs.height hs.width).mp hp
  omega

/-- One neighbour of `p` added to the two sums. -/
def addNeighbour (gx : Kernel) (pix : Nat × Nat → Pixel) (p : Nat × Nat) (s : Int × Int)
    (o : Fin 3 × Fin 3) : Int × Int :=
  (s.1 + gx o.1 o.2 * (pix (p.1 + o.1 - 1, p.2 + o.2 - 1)).r.toNat,
    s.2 + gy o.1 o.2 * (pix (p.1 + o.1 - 1, p.2 + o.2 - 1)).r.toNat)

/-- `gx_sum` and `gy_sum` around `p`. -/
def sums (gx : Kernel) (pix : Nat × Nat → Pixel) (p : Nat × Nat) : Int × Int :=
  offsets.foldl (addNeighbour gx pix p) (0, 0)

/-- The pixel that the Sobel pass puts at `p`. -/
def sobelAt (gx : Kernel) (pix : Nat × Nat → Pixel) (p : Nat × Nat) : Pixel :=
  .grey (magnitude (sums gx pix p))

theorem sobelSums_ok (hs : Sized image h w) (hh : 1 ≤ h) (hw : 1 ≤ w) (hp : p ∈ interior h w) :
    sobelSums gx image p = .ok (sums gx image.pix p) := by
  obtain ⟨hy, hx⟩ := (mem_interior hh hw hs.height hs.width).mp hp
  -- all nine neighbours of an inner pixel are in the image
  refine runAll_image id (f := addNeighbour gx image.pix p) (fun s o _ => ?_) (0, 0)
  obtain ⟨j, i⟩ := o
  have hread : image.read (p.1 + j - 1, p.2 + i - 1) = .ok (image.pix _) :=
    read_ok hs ⟨by dsimp only; omega, by dsimp only; omega⟩
  exact bind_ok.mpr ⟨_, hread, rfl⟩

theorem sobelPixel_ok {pixels : Image} (hs : Sized image h w) (hpix : Sized pixels h w)
    (hh : 1 ≤ h) (hw : 1 ≤ w) (hp : p ∈ interior h w) : sobelPixel gx image pixels p =
      .ok { pixels with pix := Function.update pixels.pix p (sobelAt gx image.pix p) } := by
  rw [sobelPixel, sobelSums_ok hs hh hw hp]
  exact write_ok hpix (interior_lt hs hh hw hp) _

theorem grayPixel_ok (hs : Sized image h w) (hp : p ∈ allPixels h w) : grayPixel gray image p =
    .ok { image with pix := Function.update image.pix p (.grey (gray (image.pix p))) } := by
  rw [grayPixel, read_ok hs (mem_allPixels.mp hp)]
  exact write_ok hs (mem_allPixels.mp hp) _

/-- The two loops of a pass run its body over a grid. -/
theorem grid_ok {body : Image → Nat × Nat → Except Fault Image}
    {f : (Nat × Nat → Pixel) → Nat × Nat → Nat × Nat → Pixel} {bound : Nat → List Nat}
    {ys : List Nat} (hs : Sized image h w) (hys : ∀ y ∈ ys, y < h)
    (hbody : ∀ pix, ∀ y ∈ ys, ∀ x ∈ bound w,
      body { image with pix := pix } (y, x) = .ok { image with pix := f pix (y, x) }) :
    runAll (fun image y => do
      let n ← image.rowSize y
      runAll (fun image x => body image (y, x)) image (bound n)) image ys =
      .ok { image with
        pix := (ys.flatMap fun y => (bound w).map (Prod.mk y)).foldl f image.pix } := by
  have hrow : ∀ pix, ∀ y ∈ ys, (do
      let n ← { image with pix := pix }.rowSize y
      runAll (fun image x => body image (y, x)) { image with pix := pix } (bound n)) =
      .ok { image with pix := ((bound w).map (Prod.mk y)).foldl f pix } := by
    intro pix y hy
    have hsize := rowSize_ok (hs.with_pix pix) (hys y hy)
    have hpixels : runAll (fun image x => body image (y, x)) { image with pix := pix } (bound w) =
        .ok { image with pix := (bound w).foldl (fun pix x => f pix (y, x)) pix } :=
      runAll_image (fun pix => { image with pix := pix }) (fun pix => hbody pix y hy) pix
    rw [List.foldl_map]
    exact bind_ok.mpr ⟨w, hsize, hpixels⟩
  rw [List.foldl_flatMap]
  refine runAll_image (fun pix => { image with pix := pix }) ?_ image.pix
  exact hrow

/-- **THE GREY PASS** maps every pixel of the image. -/
theorem T1_ok (hs : Sized image h w) : T1 gray image = .ok { image with
    pix := fun p => if p.1 < h ∧ p.2 < w then .grey (gray (image.pix p)) else image.pix p } := by
  have hbody : ∀ pix, ∀ y ∈ List.range h, ∀ x ∈ List.range w,
      grayPixel gray { image with pix := pix } (y, x) = .ok { image with
        pix := Function.update pix (y, x) (.grey (gray (pix (y, x)))) } := by
    intro pix y hy x hx
    exact grayPixel_ok (hs.with_pix pix)
      (mem_allPixels.mpr ⟨List.mem_range.mp hy, List.mem_range.mp hx⟩)
  have hgrid := grid_ok (f := fun pix p => Function.update pix p (.grey (gray (pix p)))) hs
    (fun y hy => List.mem_range.mp hy) hbody
  have hmap := foldl_map_cell (fun q => Pixel.grey (gray q)) (nodup_allPixels h w) image.pix
  refine (congrArg (fun n => runAll _ image (List.range n)) hs.rows).trans (hgrid.trans ?_)
  refine congrArg (fun pix => Except.ok { image with pix := pix }) (hmap.trans ?_)
  funext p
  by_cases hp : p ∈ allPixels h w
  · rw [if_pos hp, if_pos (mem_allPixels.mp hp)]
  · rw [if_neg hp, if_neg (fun hin => hp (mem_allPixels.mpr hin))]

/-- **THE SOBEL PASS** fills the interior with the magnitudes of the image it
    is given. -/
theorem T3_ok (hs : Sized image h w) (hh : 1 ≤ h) (hw : 1 ≤ w) : T3 image = .ok { image with
    pix := fun p => if Inside h w p then sobelAt gxLeft image.pix p else image.pix p } := by
  have hbody : ∀ pix, ∀ y ∈ upTo h, ∀ x ∈ upTo w,
      sobelPixel gxLeft image { image with pix := pix } (y, x) = .ok { image with
        pix := Function.update pix (y, x) (sobelAt gxLeft image.pix (y, x)) } := by
    intro pix y hy x hx
    exact sobelPixel_ok hs (hs.with_pix pix) hh hw
      (List.mem_flatMap.mpr ⟨y, hy, List.mem_map.mpr ⟨x, hx, rfl⟩⟩)
  have hrows : ∀ y ∈ upTo h, y < h := by
    intro y hy
    have := (mem_upTo hh hs.height).mp hy
    omega
  have hgrid := grid_ok
    (f := fun pix p => Function.update pix p (sobelAt gxLeft image.pix p)) hs hrows hbody
  have hfill := foldl_fill_cell (sobelAt gxLeft image.pix) (interior h w) image.pix
  rw [T3]
  refine (congrArg (fun n => runAll _ image (upTo n)) hs.rows).trans (hgrid.trans ?_)
  refine congrArg (fun pix => Except.ok { image with pix := pix }) (hfill.trans ?_)
  have hinside := fun p => mem_interior (p := p) hh hw hs.height hs.width
  funext p
  by_cases hp : p ∈ interior h w
  · rw [if_pos hp, if_pos ((hinside p).mp hp)]
  · rw [if_neg hp, if_neg (fun hin => hp ((hinside p).mpr hin))]

end Passes

/-! ## The magnitude -/

/-- The magnitude at an inner pixel depends on the pixels of the image. -/
theorem sobelAt_congr {gx : Kernel} {h w : Nat} {p : Nat × Nat} {pix pix' : Nat × Nat → Pixel}
    (hp : Inside h w p) (heq : ∀ q, q.1 < h ∧ q.2 < w → pix q = pix' q) :
    sobelAt gx pix p = sobelAt gx pix' p := by
  obtain ⟨hy, hx⟩ := hp
  have hadd : addNeighbour gx pix p = addNeighbour gx pix' p := by
    funext s o
    have hq : pix (p.1 + o.1 - 1, p.2 + o.2 - 1) = pix' (p.1 + o.1 - 1, p.2 + o.2 - 1) :=
      heq _ ⟨by dsimp only; omega, by dsimp only; omega⟩
    rw [addNeighbour, addNeighbour, hq]
  rw [sobelAt, sobelAt, sums, sums, hadd]

/-- Turning `gx` around turns the first sum around. -/
theorem sums_right (pix : Nat × Nat → Pixel) (p : Nat × Nat) :
    sums gxRight pix p = (-(sums gxLeft pix p).1, (sums gxLeft pix p).2) := by
  have hneg : ∀ j i, gxRight j i = -gxLeft j i := by decide
  have hadd : ∀ (s : Int × Int) (o : Fin 3 × Fin 3), addNeighbour gxRight pix p (-s.1, s.2) o =
      (-(addNeighbour gxLeft pix p s o).1, (addNeighbour gxLeft pix p s o).2) := by
    intro s o
    simp only [addNeighbour]
    rw [hneg, Int.neg_mul, Int.neg_add]
  have hfold : ∀ s : Int × Int, offsets.foldl (addNeighbour gxRight pix p) (-s.1, s.2) =
      (-(offsets.foldl (addNeighbour gxLeft pix p) s).1,
        (offsets.foldl (addNeighbour gxLeft pix p) s).2) :=
    fun _ => List.foldl_hom (fun s : Int × Int => (-s.1, s.2)) hadd
  exact hfold (0, 0)

/-- **THE SIGN OF `gx`** makes no difference to a magnitude. -/
theorem sobelAt_right (pix : Nat × Nat → Pixel) (p : Nat × Nat) :
    sobelAt gxRight pix p = sobelAt gxLeft pix p := by
  rw [sobelAt, sobelAt, sums_right, magnitude, magnitude, Int.neg_mul_neg]

end ImagePasses
