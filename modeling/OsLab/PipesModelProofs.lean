import OsLab.PpmModelProofs

/-! # The image program with two pipes, as the code computes it

    In `part2_3.cpp` a child runs `T1`: it sends the header of the file,
    which it reads with `fscanf`, and then the grey pixels, which it reads
    with `readPPM`.  Another child runs `T3`: it takes the sizes from the
    header, receives that many pixels, and writes the file.

    A pipe is the list of what was sent, in order.  No process closes its
    ends, so that a `read` of an empty pipe waits for ever.  The variables
    that `fscanf` does not set have whatever values they had before. -/

namespace PipesModel

open OsLoop OsScan ImageModel PpmModel

/-- `struct PPMHEADER`. -/
structure Header where
  height : Int
  width : Int
  maxcolor : Int
  ppmc : Bytes

/-- What was in `height`, `width` and `colormax` of `T1` before `fscanf`. -/
structure Junk where
  height : Int
  width : Int
  colormax : Int

/-- The number that `%d` stores: it is read in 64 bits, saturating, and the
    low 32 are kept. -/
def asInt (n : Int) : Int := (max (-2 ^ 63) (min n (2 ^ 63 - 1))).bmod (2 ^ 32)

/-- One `%d` of `fscanf`, unless an earlier one failed: what it stores, and
    what is left. -/
def scanfInt : Option Bytes → Option Int × Option Bytes
  | none => (none, none)
  | some text =>
      match scanInt text with
      | none => (none, none)
      | some (n, rest) => (some (asInt n), some rest)

/-- `fscanf(inputImage, "%s%d%d%d", ...)`, and the header made of it. -/
def scanHeader (junk : Junk) (bytes : Bytes) : Header :=
  let text := bytes.dropWhile isSpace
  let width := scanfInt (some (text.dropWhile (fun c => ¬ isSpace c)))
  let height := scanfInt width.2
  let colormax := scanfInt height.2
  { height := height.1.getD junk.height
    width := width.1.getD junk.width
    maxcolor := colormax.1.getD junk.colormax
    ppmc := text.takeWhile (fun c => ¬ isSpace c) }

/-- The pixels that `T1` writes to the pipe. -/
def sendPixels (image : Image) : Except Fault (List Pixel) :=
  runAll (fun sent y => do
    let n ← image.rowSize y
    runAll (fun sent x => do
      let p ← image.read (y, x)
      .ok (sent ++ [p])) sent (List.range n)) [] (List.range image.rows)

/-- `T1`: what it sends through the two pipes. -/
def T1 (gray : Pixel → UInt8) (junk : Junk) (bytes : Bytes) :
    Except Fault (Header × List Pixel) := do
  let header := scanHeader junk bytes
  let input ← readPPM (some bytes) (some header.width) (some header.height)
  let image ← ImageModel.T1 gray input.image
  let sent ← sendPixels image
  .ok (header, sent)

/-- One `read` of the loops of `T3`. -/
def receivePixel (s : Image × List Pixel) (p : Nat × Nat) : Except Fault (Image × List Pixel) :=
  match s.2 with
  | [] => .error .noEnd
  | v :: rest => do
      let pixels ← s.1.write p v
      .ok (pixels, rest)

def receivePixels (height width : Nat) (pipe : List Pixel) : Except Fault Image := do
  let s ← runAll (fun s y =>
      runAll (fun s x => receivePixel s (y, x)) s (List.range width))
    (zeroImage height width, pipe) (List.range height)
  .ok s.1

/-- `T3`: the file that it writes. -/
def T3 (sent : Header × List Pixel) : Except Fault Bytes := do
  let cols ← vectorLength sent.1.width
  let rows ← vectorLength sent.1.height
  let pixels ← receivePixels rows cols sent.2
  let pixels ← ImageModel.T3 pixels
  writePPM pixels sent.1.width sent.1.height

/-- `main` of `part2_3.cpp`: the file its children write. -/
def part23File (gray : Pixel → UInt8) (junk : Junk) (bytes : Bytes) : Except Fault Bytes := do
  let _ ← readPPM (some bytes) none none
  let sent ← T1 gray junk bytes
  T3 sent

end PipesModel
