import OsLab.BuddyModelProofs
import OsLab.LinesProofs
import OsLab.PipesModelProofs

/-! # How the allocator's `main` reads its input

    `main` of `buddy.cpp` takes the number of cases and the two numbers of a
    header with `fscanf`, and the lines of a case with `fgets` and `sscanf`.
    A `\n` in a format of `fscanf` skips white space of any length.

    The calls that `main` makes are those of an `Allocator`; `buddy` is the
    program's own, and `recorded` writes down the calls that one serves.  What
    the variables of a turn hold before they are set is a parameter. -/

namespace BuddyInput

open OsHeap OsLoop OsScan OsLines
open BuddyModel (BSTree Fault Query State startCase turns)
open PipesModel (asInt)

/-! ## The tree that is printed -/

/-- A line of `print_status`. -/
inductive StatusLine where
  | freeBlock (size : Int)
  | process (pname : Char) (bytesOccupied : Int)
  deriving DecidableEq, Repr

def statusLine (node : BSTree) : StatusLine :=
  if node.pname = '_' then .freeBlock node.size else .process node.pname node.bytesOccupied

def printStatus : Nat → Heap BSTree → Ptr → Except Fault (List StatusLine)
  | _, _, none => .ok []
  | 0, _, some _ => .error .endless
  | n + 1, h, some a => do
      let node ← follow .badNode h (some a)
      let left ← printStatus n h node.2.left
      let right ← printStatus n h node.2.right
      .ok (left ++ right ++
        if node.2.left = none ∧ node.2.right = none then [statusLine node.2] else [])

/-! ## The calls -/

/-- What `main` asks of an allocator: to be cleared and set up with the sizes
    of a header, to serve a request, and to print its tree. -/
structure Allocator (σ ρ : Type) where
  setUp : σ → Int → Int → Except Fault σ
  sendQuery : σ → Query → Except Fault σ
  printStatus : σ → Except Fault ρ

def buddy (A : Malloc) : Allocator State (List StatusLine) where
  setUp := startCase A
  sendQuery := BuddyModel.sendQuery A
  printStatus := fun st => printStatus turns st.nodes st.root

/-- A set-up, and the calls of `send_query` since. -/
structure Calls where
  U : Int
  L : Int
  queries : List Query
  deriving DecidableEq, Repr

/-- The allocator, with the calls it has served.  It fails where it did. -/
def recorded {σ ρ : Type} (M : Allocator σ ρ) : Allocator (σ × Calls) (Calls × ρ) where
  setUp := fun s U L => do .ok (← M.setUp s.1 U L, ⟨U, L, []⟩)
  sendQuery := fun s q => do
    .ok (← M.sendQuery s.1 q, { s.2 with queries := s.2.queries ++ [q] })
  printStatus := fun s => do .ok (s.2, ← M.printStatus s.1)

/-! ## Reading -/

/-- `fscanf(in, "%d\n", &T)`, with `T` a global that starts as 0. -/
def scanCount (text : Bytes) : Int × Bytes :=
  match scanD text with
  | .eof => (0, [])
  | .mismatch rest => (0, rest)
  | .number n rest => (asInt n, rest.dropWhile isSpace)

/-- The variables that a turn of `main` declares and does not set. -/
structure Locals where
  U : Int
  L : Int
  query : Query

/-- `fscanf(in, "%d %d\n", &U, &L)`. -/
def scanHeader (locals : Locals) (text : Bytes) : (Int × Int) × Bytes :=
  match scanD text with
  | .eof => ((locals.U, locals.L), [])
  | .mismatch rest => ((locals.U, locals.L), rest)
  | .number U rest =>
      match scanD rest with
      | .eof => ((asInt U, locals.L), [])
      | .mismatch rest' => ((asInt U, locals.L), rest')
      | .number L rest' => ((asInt U, asInt L), rest'.dropWhile isSpace)

/-- `sscanf(line, "%c %d\n", &pname_in, &pbytes)`: the line goes up to its
    first zero byte. -/
def sscanfQuery (q : Query) (line : Bytes) : Query :=
  match line.takeWhile (· ≠ 0) with
  | [] => q
  | c :: cs =>
      match scanD cs with
      | .number n _ => ⟨Char.ofNat c.toNat, asInt n⟩
      | _ => { q with pname := Char.ofNat c.toNat }

section Main

variable {σ ρ : Type}

/-- What is done with a line of a case. -/
def request (M : Allocator σ ρ) (s : σ × Query) (line : Bytes) : Except Fault (σ × Query) := do
  let q := sscanfQuery s.2 line
  .ok (← M.sendQuery s.1 q, q)

/-- What is done with a line of a case that is ignored. -/
def ignore (s : Unit) (_ : Bytes) : Except Fault Unit := .ok s

/-- The rest of the input, the allocator, and what was printed for each case
    so far: nothing for one that was ignored. -/
structure Reading (σ ρ : Type) where
  text : Bytes
  allocator : σ
  reports : List (Option ρ)

/-- `char line[20]`. -/
def lineSize : Nat := 20

/-- Turn `i` of the `for` loop of `main`. -/
def caseTurn (M : Allocator σ ρ) (locals : Nat → Locals) (s : Reading σ ρ) (i : Nat) :
    Except Fault (Reading σ ρ) :=
  let header := scanHeader (locals i) s.text
  let U := header.1.1
  let L := header.1.2
  let rest := header.2
  if U ≤ L ∨ L = 0 then do
    let skipped ← loop .endless (lineTurn lineSize ignore) (rest.length + 1) (rest, ())
    .ok { s with text := skipped.1, reports := s.reports ++ [none] }
  else do
    let root ← M.setUp s.allocator U L
    let served ← loop .endless (lineTurn lineSize (request M)) (rest.length + 1)
      (rest, root, (locals i).query)
    let report ← M.printStatus served.2.1
    .ok { text := served.1, allocator := served.2.1, reports := s.reports ++ [some report] }

/-- The first `k` turns. -/
def turnsOf (M : Allocator σ ρ) (locals : Nat → Locals) (allocator : σ) (text : Bytes) (k : Nat) :
    Except Fault (Reading σ ρ) :=
  runAll (caseTurn M locals) { text := text, allocator := allocator, reports := [] }
    (List.range k)

/-- `main`: what is printed for the cases. -/
def main (M : Allocator σ ρ) (locals : Nat → Locals) (allocator : σ) (text : Bytes) :
    Except Fault (List (Option ρ)) := do
  let count := scanCount text
  let s ← turnsOf M locals allocator count.2 count.1.toNat
  .ok s.reports

end Main

end BuddyInput
