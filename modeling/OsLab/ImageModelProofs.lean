import OsLab.LoopProofs

/-! # The image passes, as the code computes them

    An image is a vector of rows, each a vector of pixels; every access
    checks both indices, and one outside is a `Fault`.  `T1` is the grey
    pass, `T2` the blur and `T3` the Sobel pass of `part1.cpp`.

    The luminosity formula is a parameter, any function from pixels to
    bytes.  `sqrt` is the exact integer root, and a magnitude is stored in
    an `unsigned char`, modulo 256.  The bounds `size() - 1` are computed in
    64 bits, so that they wrap for an empty vector. -/

namespace ImageModel

open OsLoop

/-- The ways a program over images does not return. -/
inductive Fault where
  /-- an index outside a row or outside the image -/
  | badIndex
  /-- the value of a variable that was never set -/
  | uninitialised
  /-- `stoi` of a text that is no number -/
  | badNumber
  /-- a vector of a negative length -/
  | badLength
  /-- a loop or a `read` that never ends -/
  | noEnd
  deriving DecidableEq, Repr

structure Pixel where
  r : UInt8
  g : UInt8
  b : UInt8
  deriving DecidableEq, Repr

/-- A pixel with one value on its three channels. -/
def Pixel.grey (v : UInt8) : Pixel := ⟨v, v, v⟩

/-- `rows` rows, of which row `y` has `cols y` pixels; `pix` is at `(y, x)`. -/
structure Image where
  rows : Nat
  cols : Nat → Nat
  pix : Nat × Nat → Pixel

/-- `image[y].size()`. -/
def Image.rowSize (image : Image) (y : Nat) : Except Fault Nat :=
  if y < image.rows then .ok (image.cols y) else .error .badIndex

/-- `image[y][x]`, for `p = (y, x)`. -/
def Image.read (image : Image) (p : Nat × Nat) : Except Fault Pixel :=
  if p.1 < image.rows ∧ p.2 < image.cols p.1 then .ok (image.pix p) else .error .badIndex

/-- `image[y][x] = v`. -/
def Image.write (image : Image) (p : Nat × Nat) (v : Pixel) : Except Fault Image :=
  if p.1 < image.rows ∧ p.2 < image.cols p.1 then
    .ok { image with pix := Function.update image.pix p v }
  else .error .badIndex

/-- The values of `i` in `for (int i = 1; i < n - 1; i++)`, where `n` is a
    `size_t`. -/
def upTo (n : Nat) : List Nat := List.range' 1 ((2 ^ 64 - 1 + n) % 2 ^ 64 - 1)

/-- A 3 by 3 kernel. -/
abbrev Kernel := Fin 3 → Fin 3 → Int

/-- `gx` of `part1.cpp` and of `part2_3.cpp`. -/
def gxLeft : Kernel := ![![1, 0, -1], ![2, 0, -2], ![1, 0, -1]]

/-- `gx` of `part2_1a.cpp`, `part2_1b.cpp` and `part2_2.cpp`. -/
def gxRight : Kernel := ![![-1, 0, 1], ![-2, 0, 2], ![-1, 0, 1]]

def gy : Kernel := ![![-1, -2, -1], ![0, 0, 0], ![1, 2, 1]]

/-- The pairs `(j + 1, i + 1)` of the two inner loops. -/
def offsets : List (Fin 3 × Fin 3) :=
  (List.finRange 3).flatMap fun j => (List.finRange 3).map (Prod.mk j)

/-- The two loops that sum up `gx_sum` and `gy_sum` around `p`. -/
def sobelSums (gx : Kernel) (temp : Image) (p : Nat × Nat) : Except Fault (Int × Int) :=
  runAll (fun sums o => do
    let q ← temp.read (p.1 + o.1 - 1, p.2 + o.2 - 1)
    .ok (sums.1 + gx o.1 o.2 * q.r.toNat, sums.2 + gy o.1 o.2 * q.r.toNat)) (0, 0) offsets

/-- `sqrt(gx_sum * gx_sum + gy_sum * gy_sum)`, as an `unsigned char`. -/
def magnitude (sums : Int × Int) : UInt8 :=
  UInt8.ofNat (Nat.sqrt (sums.1 * sums.1 + sums.2 * sums.2).toNat)

/-- The body of the Sobel loops. -/
def sobelPixel (gx : Kernel) (temp pixels : Image) (p : Nat × Nat) : Except Fault Image := do
  let sums ← sobelSums gx temp p
  pixels.write p (.grey (magnitude sums))

/-- The body of the grey loops. -/
def grayPixel (gray : Pixel → UInt8) (image : Image) (p : Nat × Nat) : Except Fault Image := do
  let q ← image.read p
  image.write p (.grey (gray q))

def T1 (gray : Pixel → UInt8) (image : Image) : Except Fault Image :=
  runAll (fun image y => do
    let n ← image.rowSize y
    runAll (fun image x => grayPixel gray image (y, x)) image (List.range n))
    image (List.range image.rows)

/-- The kernel of the blur, in sixteenths. -/
def boxKernel : Fin 3 → Fin 3 → Nat := ![![1, 2, 1], ![2, 4, 2], ![1, 2, 1]]

/-- The two loops that sum up `sum_r`, `sum_g` and `sum_b` around `p`, in
    sixteenths: these are multiples of 1/16 up to 255, which a `double` holds
    exactly. -/
def boxSums (image : Image) (p : Nat × Nat) : Except Fault (Nat × Nat × Nat) :=
  runAll (fun sums o => do
    let q ← image.read (p.1 + o.1 - 1, p.2 + o.2 - 1)
    .ok (sums.1 + boxKernel o.1 o.2 * q.r.toNat, sums.2.1 + boxKernel o.1 o.2 * q.g.toNat,
      sums.2.2 + boxKernel o.1 o.2 * q.b.toNat)) (0, 0, 0) offsets

/-- The body of the blur loops. -/
def boxPixel (image temp_image : Image) (p : Nat × Nat) : Except Fault Image := do
  let sums ← boxSums image p
  temp_image.write p
    ⟨UInt8.ofNat (sums.1 / 16), UInt8.ofNat (sums.2.1 / 16), UInt8.ofNat (sums.2.2 / 16)⟩

/-- One iteration of the blur: `image` and `temp_image` after it. -/
def blur (s : Image × Image) : Except Fault (Image × Image) := do
  let temp_image ← runAll (fun temp_image y => do
    let n ← s.1.rowSize y
    runAll (fun temp_image x => boxPixel s.1 temp_image (y, x)) temp_image (upTo n))
    s.2 (upTo s.1.rows)
  .ok (temp_image, temp_image)

/-- `T2` of `part1.cpp`, with its 50 iterations. -/
def T2 (image : Image) : Except Fault Image := do
  let s ← runAll (fun s _ => blur s) (image, image) (List.range 50)
  .ok s.1

/-- `T3` of `part1.cpp`. -/
def T3 (pixels : Image) : Except Fault Image :=
  let tempPixels := pixels
  runAll (fun pixels y => do
    let n ← pixels.rowSize y
    runAll (fun pixels x => sobelPixel gxLeft tempPixels pixels (y, x)) pixels (upTo n))
    pixels (upTo pixels.rows)

/-- The passes of `part1.cpp`, one after the other. -/
def part1 (gray : Pixel → UInt8) (image : Image) : Except Fault Image := do
  let image ← T1 gray image
  T3 image

end ImageModel
