import OsLab.ImageModelProofs
import OsLab.ScanProofs

/-! # Reading and writing PPM files, as the code computes it

    `readPPM` and `writePPM` of `part1.cpp`; the other image programs have
    the same `readPPM`.  A file is its bytes, or nothing when it cannot be
    opened.  A variable that was never set is `none`, and to use it is a
    `Fault`.

    A stream that has met the end of the file is no longer good: `getline`
    then leaves the line as it is, and `read` its buffer. -/

namespace PpmModel

open OsLoop OsScan ImageModel

/-- What is left of an input file, and whether the stream is good. -/
structure Stream where
  rest : Bytes
  good : Bool

/-- `getline(inFile, line)`: the line after it, and the stream. -/
def getline (inFile : Stream) (line : Bytes) : Bytes × Stream :=
  if inFile.good then
    match inFile.rest.dropWhile (· ≠ 10) with
    | [] => (inFile.rest, ⟨[], false⟩)
    | _ :: rest => (inFile.rest.takeWhile (· ≠ 10), ⟨rest, true⟩)
  else (line, inFile)

/-- `while (line[0] == '#') getline(inFile, line)`, for at most the given
    number of turns. -/
def skipComments : Nat → Bytes → Stream → Except Fault (Bytes × Stream)
  | 0, _, _ => .error .noEnd
  | n + 1, line, inFile =>
      if line.head? = some 35 then
        let next := getline inFile line
        skipComments n next.1 next.2
      else .ok (line, inFile)

def intMax : Int := 2147483647

def intMin : Int := -2147483648

/-- `ss >> v` on a stream that may have failed: what is stored in `v`, if
    anything is, and the stream. -/
def extract : Option Bytes → Option Int × Option Bytes
  | none => (none, none)
  | some text =>
      match scanInt text with
      | none => (if text.dropWhile isSpace = [] then none else some 0, none)
      | some (n, rest) =>
          if n < intMin then (some intMin, none)
          else if intMax < n then (some intMax, none)
          else (some n, some rest)

def stoi (line : Bytes) : Except Fault Int :=
  match scanInt line with
  | none => .error .badNumber
  | some (n, _) => if intMin ≤ n ∧ n ≤ intMax then .ok n else .error .badNumber

/-- The value of a variable. -/
def known (v : Option Int) : Except Fault Int :=
  match v with
  | none => .error .uninitialised
  | some n => .ok n

/-- The length of a vector, as a `size_t`. -/
def vectorLength (n : Int) : Except Fault Nat :=
  if n < 0 then .error .badLength else .ok n.toNat

/-- `height` rows of `width` zero pixels. -/
def zeroImage (height width : Nat) : Image where
  rows := height
  cols := fun _ => width
  pix := fun _ => .grey 0

/-- The variables of the loop that reads the pixels. -/
structure Reader where
  image : Image
  inFile : Stream
  /-- `char pixel[3]` -/
  pixel : Option UInt8 × Option UInt8 × Option UInt8

/-- `inFile.read(pixel, 3)`. -/
def read3 (inFile : Stream) (pixel : Option UInt8 × Option UInt8 × Option UInt8) :
    (Option UInt8 × Option UInt8 × Option UInt8) × Stream :=
  if inFile.good then
    match inFile.rest with
    | r :: g :: b :: rest => ((some r, some g, some b), ⟨rest, true⟩)
    | [r, g] => ((some r, some g, pixel.2.2), ⟨[], false⟩)
    | [r] => ((some r, pixel.2.1, pixel.2.2), ⟨[], false⟩)
    | [] => (pixel, ⟨[], false⟩)
  else (pixel, inFile)

/-- The body of the loops that read the pixels. -/
def readPixel (s : Reader) (p : Nat × Nat) : Except Fault Reader :=
  let got := read3 s.inFile s.pixel
  match got.1 with
  | (some r, some g, some b) => do
      .ok { image := ← s.image.write p ⟨r, g, b⟩, inFile := got.2, pixel := got.1 }
  | _ => .error .uninitialised

def readPixels (height width : Nat) (inFile : Stream) : Except Fault Image := do
  let s ← runAll (fun s i =>
      runAll (fun s j => readPixel s (i, j)) s (List.range width))
    { image := zeroImage height width, inFile := inFile, pixel := (none, none, none) }
    (List.range height)
  .ok s.image

/-- What a call of `readPPM` leaves in its arguments, and whether it got past
    its checks. -/
structure Parsed where
  accepted : Bool
  image : Image
  width : Option Int
  height : Option Int

/-- `P6`. -/
def magic : Bytes := [80, 54]

/-- `readPPM`, for an empty image and the given variables. -/
def readPPM (file : Option Bytes) (width height : Option Int) : Except Fault Parsed :=
  match file with
  | none => .ok ⟨false, zeroImage 0 0, width, height⟩
  | some bytes =>
      let first := getline ⟨bytes, true⟩ []
      if first.1 ≠ magic then .ok ⟨false, zeroImage 0 0, width, height⟩
      else do
        let second := getline first.2 first.1
        let size ← skipComments (second.2.rest.length + 2) second.1 second.2
        let w := extract (some size.1)
        let h := extract w.2
        let width := w.1.or width
        let height := h.1.or height
        let last := getline size.2 size.1
        let maxVal ← stoi last.1
        if maxVal ≠ 255 then .ok ⟨false, zeroImage 0 0, width, height⟩
        else
          let cols ← vectorLength (← known width)
          let rows ← vectorLength (← known height)
          let image ← readPixels rows cols last.2
          .ok ⟨true, image, width, height⟩

/-- `"P6\n" << width << " " << height << "\n" << 255 << "\n"`. -/
def header (width height : Int) : Bytes :=
  magic ++ [10] ++ decimalInt width ++ [32] ++ decimalInt height ++ [10] ++ decimal 255 ++ [10]

/-- The file that `writePPM` writes. -/
def writePPM (pixels : Image) (width height : Int) : Except Fault Bytes :=
  runAll (fun out i =>
      runAll (fun out j => do
        let p ← pixels.read (i, j)
        .ok (out ++ [p.r, p.g, p.b])) out (List.range width.toNat))
    (header width height) (List.range height.toNat)

/-- `main` of `part1.cpp`: the file it writes. -/
def part1File (gray : Pixel → UInt8) (file : Option Bytes) : Except Fault Bytes := do
  let input ← readPPM file none none
  let image ← part1 gray input.image
  writePPM image (← known input.width) (← known input.height)

end PpmModel
