import OsLab.ImageModelProofs

/-! # The threaded image program, as the code computes it

    `part2_1a.cpp` and `part2_1b.cpp` run `GrayScale` and `EDGE` as two
    threads over one image; they differ in the lock only.  What a thread
    does while it holds the lock is one step, and the copy that `EDGE` takes
    first is one too.  A schedule says which thread takes the next step.

    A thread is its loop: the pixels it has yet to visit, in order.  When
    the gate on `position` is closed, `EDGE` gives up the lock and comes
    back for the same pixel. -/

namespace ThreadsModel

open OsLoop ImageModel

/-- Whose step is next. -/
inductive Thread where
  | grayScale
  | edge
  deriving DecidableEq, Repr

/-- The pixels in the order of `for (y = 0; ...) for (x = 0; ...)`. -/
def pixelsOf (image : Image) : List (Nat × Nat) :=
  (List.range image.rows).flatMap fun y => (List.range (image.cols y)).map (Prod.mk y)

/-- The pixels in the order of the loops of `EDGE`. -/
def insideOf (image : Image) : List (Nat × Nat) :=
  (upTo image.rows).flatMap fun y => (upTo (image.cols y)).map (Prod.mk y)

/-- The shared variables, and what each thread has left. -/
structure State where
  image : Image
  position : Nat × Nat
  gray : List (Nat × Nat)
  /-- the copy of `EDGE`, once it is taken -/
  tempPixels : Option Image
  edge : List (Nat × Nat)

/-- The threads before their first steps. -/
def start (image : Image) : State where
  image := image
  position := (0, 0)
  gray := pixelsOf image
  tempPixels := none
  edge := insideOf image

/-- `position[0] >= x + 1 || position[1] >= y + 1`. -/
def gateOpen (position p : Nat × Nat) : Bool :=
  p.2 + 1 ≤ position.1 ∨ p.1 + 1 ≤ position.2

/-- One pixel of `GrayScale`. -/
def grayScaleStep (gray : Pixel → UInt8) (st : State) : Except Fault State :=
  match st.gray with
  | [] => .ok st
  | p :: rest => do
      let image ← grayPixel gray st.image p
      .ok { st with image := image, position := (p.2 + 1, p.1 + 1), gray := rest }

/-- The copy, or one turn of the loop of `EDGE`. -/
def edgeStep (st : State) : Except Fault State :=
  match st.tempPixels with
  | none => .ok { st with tempPixels := some st.image }
  | some tempPixels =>
      match st.edge with
      | [] => .ok st
      | p :: rest =>
          if gateOpen st.position p then do
            let image ← sobelPixel gxRight tempPixels st.image p
            .ok { st with image := image, edge := rest }
          else .ok st

def step (gray : Pixel → UInt8) (st : State) : Thread → Except Fault State
  | .grayScale => grayScaleStep gray st
  | .edge => edgeStep st

/-- Both threads have returned. -/
def State.Finished (st : State) : Prop :=
  st.gray = [] ∧ st.tempPixels.isSome = true ∧ st.edge = []

end ThreadsModel
