import OsLab.PipesModelProofs
import OsLab.ThreadsModelProofs

/-! # The image program over shared memory, as the code computes it

    In `part2_2.cpp` the main process reads the header with `fscanf`; its
    `readPPM` reads the pixels into `globalImage` and loads them into a
    shared segment, which is zero before that.  Then a child runs `T1`, the
    grey pass over the segment, and another runs `T3`, the Sobel pass; each
    has the `globalImage` of the fork.  When both have exited, the main
    process writes the segment to the file.

    What a child does between `sem_wait` and `sem_post` is one step, and a
    schedule says whose step is next.  An index into the segment is an
    `int`: one that is none is a `Fault`, like one outside the segment. -/

namespace SharedModel

open OsLoop OsScan ImageModel PpmModel
open PipesModel (Junk scanHeader)
open ThreadsModel (gateOpen)

/-- The shared segment: its number of pixels, and the pixels. -/
structure Segment where
  size : Nat
  pix : Nat → Pixel

/-- `y * width + x`, for `p = (y, x)`. -/
def Segment.index (shared : Segment) (width : Nat) (p : Nat × Nat) : Except Fault Nat :=
  let i := p.1 * width + p.2
  if i < shared.size ∧ i < 2 ^ 31 then .ok i else .error .badIndex

def Segment.read (shared : Segment) (width : Nat) (p : Nat × Nat) : Except Fault Pixel := do
  let i ← shared.index width p
  .ok (shared.pix i)

def Segment.write (shared : Segment) (width : Nat) (p : Nat × Nat) (v : Pixel) :
    Except Fault Segment := do
  let i ← shared.index width p
  .ok { shared with pix := Function.update shared.pix i v }

/-- What `readPPM` leaves behind. -/
structure Loaded where
  globalImage : Image
  shared : Segment

/-- The body of the loops that load the segment. -/
def loadPixel (globalImage : Image) (width : Nat) (shared : Segment) (p : Nat × Nat) :
    Except Fault Segment := do
  let q ← globalImage.read p
  shared.write width p q

/-- `for (i = height - 1; i > 0; i--) for (j = 1; j <= width - 1; j++)`. -/
def loadPixels (globalImage : Image) (height width : Nat) (shared : Segment) :
    Except Fault Segment :=
  runAll (fun shared i =>
      runAll (fun shared j => loadPixel globalImage width shared (i, j)) shared
        (List.range' 1 (width - 1)))
    shared (List.range' 1 (height - 1)).reverse

/-- Before `readPPM`. -/
def unloaded (width height : Int) : Loaded where
  globalImage := zeroImage 0 0
  shared := { size := height.toNat * width.toNat, pix := fun _ => .grey 0 }

/-- `readPPM`, which reads the sizes once more but has no use for them. -/
def readPPM (bytes : Bytes) (width height : Int) : Except Fault Loaded :=
  let first := getline ⟨bytes, true⟩ []
  if first.1 ≠ magic then .ok (unloaded width height)
  else do
    let second := getline first.2 first.1
    let size ← skipComments (second.2.rest.length + 2) second.1 second.2
    let last := getline size.2 size.1
    let maxVal ← stoi last.1
    if maxVal ≠ 255 then .ok (unloaded width height)
    else
      let cols ← vectorLength width
      let rows ← vectorLength height
      let globalImage ← readPixels rows cols last.2
      let shared ← loadPixels globalImage rows cols (unloaded width height).shared
      .ok { globalImage := globalImage, shared := shared }

/-- Whose step is next. -/
inductive Child where
  | t1
  | t3
  deriving DecidableEq, Repr

/-- The shared variables, and what each child has left. -/
structure State where
  shared : Segment
  position : Nat × Nat
  gray : List (Nat × Nat)
  edge : List (Nat × Nat)

/-- The children before their first steps. -/
def start (shared : Segment) (height width : Nat) : State where
  shared := shared
  position := (0, 0)
  gray := (List.range height).flatMap fun y => (List.range width).map (Prod.mk y)
  edge := (List.range' 1 (height - 2)).flatMap fun y =>
    (List.range' 1 (width - 2)).map (Prod.mk y)

/-- One pixel of `T1`. -/
def t1Step (gray : Pixel → UInt8) (width : Nat) (st : State) : Except Fault State :=
  match st.gray with
  | [] => .ok st
  | p :: rest => do
      let temp ← st.shared.read width p
      let shared ← st.shared.write width p (.grey (gray temp))
      .ok { st with shared := shared, position := (p.2 + 1, p.1 + 1), gray := rest }

/-- One turn of the loop of `T3`. -/
def t3Step (globalImage : Image) (width : Nat) (st : State) : Except Fault State :=
  match st.edge with
  | [] => .ok st
  | p :: rest =>
      if gateOpen st.position p then do
        let sums ← sobelSums gxRight globalImage p
        let shared ← st.shared.write width p (.grey (magnitude sums))
        .ok { st with shared := shared, edge := rest }
      else .ok st

def step (gray : Pixel → UInt8) (globalImage : Image) (width : Nat) (st : State) :
    Child → Except Fault State
  | .t1 => t1Step gray width st
  | .t3 => t3Step globalImage width st

/-- The file that `main` writes. -/
def writeShared (shared : Segment) (width height : Int) : Except Fault Bytes :=
  runAll (fun out y =>
      runAll (fun out x => do
        let p ← shared.read width.toNat (y, x)
        .ok (out ++ [p.r, p.g, p.b])) out (List.range width.toNat))
    (header width height) (List.range height.toNat)

/-- `main` of `part2_2.cpp`: the file it writes when both children have
    exited; it waits for them until then. -/
def part22File (gray : Pixel → UInt8) (junk : Junk) (sched : List Child) (bytes : Bytes) :
    Except Fault Bytes := do
  let head := scanHeader junk bytes
  let loaded ← readPPM bytes head.width head.height
  let st ← runAll (step gray loaded.globalImage head.width.toNat)
    (start loaded.shared head.height.toNat head.width.toNat) sched
  if st.gray = [] ∧ st.edge = [] then writeShared st.shared head.width head.height
  else .error .noEnd

end SharedModel
