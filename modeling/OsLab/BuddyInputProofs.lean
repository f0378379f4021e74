import OsLab.BuddyAlikeProofs
import OsLab.BuddyReportProofs
import OsLab.PipesProofs

/-! # How the cases of an input file are told apart

    A file has the number of cases and then the cases, with an empty line
    between two.  The `\n` behind the header in the format of `fscanf` skips
    that empty line too when the case has no request, and a request line of
    19 characters leaves its newline, which ends the case, to the next call
    of `fgets`.  Where neither happens every turn of `main` takes exactly
    one case (`caseTurn_reads`), and where one does the turn ends at another
    place than in front of the next case (`caseTurn_misreads`).

    What is printed for a case is what is printed for it alone
    (`main_alone`).  A set-up or a call that ends the program, alone as well,
    keeps `main` from the cases behind it. -/

namespace BuddyInput

open OsHeap OsLoop OsScan OsLines OsSimilar BuddyAlike
open BuddyModel (Fault Query State boot testCase startCase turns clear)
open BuddySetup (Accepts Between between_clear header_of header_of_lists startCase_ok)
open BuddyReport (testCase_printed)
open PipesModel (asInt)

/-! ## Input files -/

/-- A request line `P S`: `P` is its first byte, and `%d` finds `S` behind. -/
structure Request where
  pname : UInt8
  digits : Bytes
  pbytes : Int
  solid : isSpace pname = false ∧ pname ≠ 0
  oneLine : ∀ c ∈ digits, c ≠ 10 ∧ c ≠ 0
  number : ∃ rest, scanInt digits = some (pbytes, rest)
  int : -2 ^ 31 ≤ pbytes ∧ pbytes < 2 ^ 31
  short : digits.length + 1 < lineSize

def Request.line (r : Request) : Bytes := r.pname :: r.digits

def Request.query (r : Request) : Query := ⟨Char.ofNat r.pname.toNat, r.pbytes⟩

structure Case where
  U : Int
  L : Int
  requests : List Request
  intU : -2 ^ 31 ≤ U ∧ U < 2 ^ 31
  intL : -2 ^ 31 ≤ L ∧ L < 2 ^ 31

/-- The header `U L`. -/
def Case.header (c : Case) : Bytes := decimalInt c.U ++ 32 :: decimalInt c.L

def Case.lines (c : Case) : List Bytes := c.requests.map Request.line

def Case.queries (c : Case) : List Query := c.requests.map Request.query

/-- The cases, with an empty line between two, and what is behind the last. -/
def casesText (last : Bytes) : List Case → Bytes
  | [] => []
  | c :: cs =>
      c.header ++ block c.lines (if cs.isEmpty then last else 10 :: 10 :: casesText last cs)

/-- An input file.  White space is behind the number of cases, and the last
    line may lack its newline. -/
structure File where
  cases : List Case
  gap : Bytes
  last : Bytes
  gapSpace : ∀ c ∈ gap, isSpace c = true
  gapNonempty : gap ≠ []
  lastNewline : last = [] ∨ last = [10]
  few : cases.length < 2 ^ 31

def File.text (f : File) : Bytes :=
  decimal f.cases.length ++ (f.gap ++ casesText f.last f.cases)

/-! ## What the file asks for -/

/-- The calls that a case asks for. -/
def expected (c : Case) : Option Calls :=
  if Accepts c.U c.L then some ⟨c.U, c.L, c.queries⟩ else none

/-- Every turn of `main` starts in front of its own case, past white space,
    and the allocator has served the calls that the cases before ask for. -/
structure Segmented (A : Malloc) (locals : Nat → Locals) (f : File) : Prop where
  count : (scanCount f.text).1 = f.cases.length
  turns : ∀ past rest, f.cases = past ++ rest → ∃ s,
    turnsOf (recorded (buddy A)) locals (boot (-1) [], ⟨0, 0, []⟩) (scanCount f.text).2
        past.length = .ok s ∧
      s.text.dropWhile isSpace = casesText f.last rest ∧
      s.reports.map (Option.map Prod.fst) = past.map expected

/-- What is printed for a case when the program has served none before. -/
def alone (A : Malloc) (c : Case) : Except Fault (Option (List StatusLine)) :=
  if Accepts c.U c.L then do
    let st ← testCase A (boot (-1) []) c.U c.L c.queries
    let tree ← printStatus turns st.nodes st.root
    .ok (some tree)
  else .ok none

/-- `main` comes to its end, and prints for every case what is printed for it
    alone. -/
def Independent (A : Malloc) (locals : Nat → Locals) (f : File) : Prop :=
  ∃ reports, main (buddy A) locals (boot (-1) []) f.text = .ok reports ∧
    List.Forall₂ (fun c report => alone A c = .ok report) f.cases reports

/-- Every case but the last has a request. -/
def NoneEmpty (cases : List Case) : Prop := ∀ c ∈ cases.dropLast, c.requests ≠ []

/-- No request line of 19 characters has another behind it in its case. -/
def NoneBroken (cases : List Case) : Prop := ∀ c ∈ cases, Whole lineSize c.lines

/-- No set-up and no call of a case that is not ignored ends the program. -/
def NoneEnds (A : Malloc) (cases : List Case) : Prop :=
  ∀ c ∈ cases, Accepts c.U c.L → ∃ st, testCase A (boot (-1) []) c.U c.L c.queries = .ok st

/-! ## Request lines -/

section Lines

variable {σ ρ : Type} {M : Allocator σ ρ}

theorem Request.fits (r : Request) : Fits lineSize r.line where
  nonempty := List.cons_ne_nil _ _
  noNewline := by
    intro c hc
    rcases List.mem_cons.mp hc with rfl | hc
    · intro hnewline
      have hspace := r.solid.1
      rw [hnewline] at hspace
      exact nomatch hspace
    · exact (r.oneLine c hc).1
  short := r.short

theorem Case.fits (c : Case) : ∀ l ∈ c.lines, Fits lineSize l := by
  intro l hl
  obtain ⟨r, -, rfl⟩ := List.mem_map.mp hl
  exact r.fits

/-- A request line is read as its request, with its newline or without. -/
theorem sscanfQuery_line (q : Query) (r : Request) (tail : Bytes) (htail : tail = [] ∨ tail = [10]) :
    sscanfQuery q (r.line ++ tail) = r.query := by
  obtain ⟨rest, hnumber⟩ := r.number
  have hbytes : ∀ c ∈ r.line ++ tail, (decide (c ≠ 0)) = true := by
    intro c hc
    refine decide_eq_true ?_
    rcases List.mem_append.mp hc with hc | hc
    · rcases List.mem_cons.mp hc with rfl | hc
      · exact r.solid.2
      · exact (r.oneLine c hc).2
    · rcases htail with rfl | rfl
      · cases hc
      · rw [List.mem_singleton.mp hc]
        decide
  have hend : NoDigit tail := by
    rcases htail with rfl | rfl
    · exact noDigit_nil
    · exact noDigit_cons (by decide)
  have hscan : scanD (r.digits ++ tail) = .number r.pbytes (rest ++ tail) :=
    scanD_number (scanInt_append hnumber hend)
  rw [sscanfQuery, List.takeWhile_eq_self_iff.mpr hbytes]
  simp only [Request.line, List.cons_append, hscan, Pipes.asInt_self r.int.1 r.int.2]
  rfl

theorem request_line (s : σ × Query) (r : Request) :
    request M s r.line = M.sendQuery s.1 r.query >>= fun st => .ok (st, r.query) := by
  have hread := sscanfQuery_line s.2 r [] (Or.inl rfl)
  rw [List.append_nil] at hread
  rw [request, hread]

/-- The newline makes no difference to a call. -/
theorem request_newline (c : Case) : ∀ l ∈ c.lines, ∀ s : σ × Query,
    request M s (l ++ [10]) = request M s l := by
  intro l hl s
  obtain ⟨r, -, rfl⟩ := List.mem_map.mp hl
  rw [request_line, request, sscanfQuery_line s.2 r [10] (Or.inr rfl)]

/-- The lines of a case are served as its requests. -/
theorem requests_served (rs : List Request) (s : σ × Query) : ∃ q,
    runAll (request M) s (rs.map Request.line) =
      runAll M.sendQuery s.1 (rs.map Request.query) >>= fun st => .ok (st, q) := by
  induction rs generalizing s with
  | nil => exact ⟨s.2, rfl⟩
  | cons r rs ih =>
      rw [List.map_cons, List.map_cons]
      cases hq : M.sendQuery s.1 r.query with
      | error e =>
          refine ⟨s.2, ?_⟩
          rw [runAll, runAll, request_line, hq]
          rfl
      | ok st =>
          obtain ⟨q, hrun⟩ := ih (st, r.query)
          refine ⟨q, ?_⟩
          rw [runAll, runAll, request_line, hq]
          exact hrun

theorem ignore_all (ls : List Bytes) : runAll ignore () ls = .ok () := by
  induction ls with
  | nil => rfl
  | cons l ls ih => exact ih

end Lines

/-! ## The text of a file -/

section Text

variable {last tail : Bytes} {cs : List Case}

theorem isSpace_decimalInt (n : Int) (tail : Bytes) :
    (decimalInt n ++ tail).dropWhile isSpace = decimalInt n ++ tail := by
  have hhead : ∀ c ∈ (decimalInt n).head?, isSpace c = false := by
    rw [decimalInt]
    split
    · intro c hc
      rw [← Option.some.inj hc]
      decide
    · intro c hc
      exact (digit_plain (decimal_digits _ c (List.mem_of_mem_head? hc))).1
  obtain ⟨c, ds, hds⟩ := List.exists_cons_of_ne_nil (decimalInt_ne_nil n)
  rw [hds] at hhead ⊢
  exact List.dropWhile_cons_of_neg (by rw [hhead c rfl]; exact Bool.false_ne_true)

/-- The text of the cases starts with no white space. -/
theorem casesText_solid (last : Bytes) (cs : List Case) :
    (casesText last cs).dropWhile isSpace = casesText last cs := by
  cases cs with
  | nil => rfl
  | cons c cs =>
      rw [casesText, Case.header, List.append_assoc]
      exact isSpace_decimalInt c.U _

theorem casesText_ne_nil (last : Bytes) (hcs : cs ≠ []) : casesText last cs ≠ [] := by
  obtain ⟨c, cs, rfl⟩ := List.exists_cons_of_ne_nil hcs
  rw [casesText, Case.header, List.append_assoc]
  exact List.append_ne_nil_of_left_ne_nil (decimalInt_ne_nil c.U) _

/-- What is behind a case. -/
theorem ends_case (hlast : last = [] ∨ last = [10]) (cs : List Case) :
    Ends (if cs.isEmpty then last else 10 :: 10 :: casesText last cs) (casesText last cs) := by
  cases cs with
  | nil =>
      rcases hlast with rfl | rfl
      · exact Ends.eof
      · exact Ends.newline
  | cons c cs => exact Ends.blank (casesText_solid last (c :: cs))

/-- What is left of the text when the header of a case is read, and the white
    space behind it. -/
def startOf (c : Case) (behind : Bytes) : Bytes := (block c.lines behind).dropWhile isSpace

theorem scanHeader_case (locals : Locals) (c : Case) {text behind next : Bytes}
    (hends : Ends behind next)
    (htext : text.dropWhile isSpace = c.header ++ block c.lines behind) :
    scanHeader locals text = ((c.U, c.L), startOf c behind) := by
  have hblock : NoDigit (block c.lines behind) := by
    cases c.lines with
    | nil =>
        cases hends with
        | eof => exact noDigit_nil
        | newline => exact noDigit_cons (by decide)
        | blank _ => exact noDigit_cons (by decide)
    | cons l ls => exact noDigit_cons (by decide)
  have hU : scanD text = .number c.U (32 :: (decimalInt c.L ++ block c.lines behind)) := by
    refine scanD_number ?_
    rw [← scanInt_dropWhile, htext, Case.header, List.append_assoc, List.cons_append]
    exact scanInt_decimalInt c.U (noDigit_cons (by decide))
  have hL : scanD (32 :: (decimalInt c.L ++ block c.lines behind)) =
      .number c.L (block c.lines behind) := by
    refine scanD_number ?_
    rw [← scanInt_dropWhile, List.dropWhile_cons_of_pos (by decide), scanInt_dropWhile]
    exact scanInt_decimalInt c.L hblock
  rw [scanHeader, hU]
  dsimp only
  rw [hL]
  dsimp only
  rw [Pipes.asInt_self c.intU.1 c.intU.2, Pipes.asInt_self c.intL.1 c.intL.2]
  rfl

/-- The number of cases is read, and the white space behind it. -/
theorem scanCount_file (f : File) :
    scanCount f.text = ((f.cases.length : Int), casesText f.last f.cases) := by
  have hgap : NoDigit (f.gap ++ casesText f.last f.cases) := by
    obtain ⟨c, gap, hgap⟩ := List.exists_cons_of_ne_nil f.gapNonempty
    have hspace := f.gapSpace c (by rw [hgap]; exact List.mem_cons_self)
    rw [hgap]
    refine space_noDigit fun b hb => ?_
    rwa [← Option.some.inj hb]
  have hscan := scanD_number (scanInt_decimal f.cases.length hgap)
  have hfew : (f.cases.length : Int) < 2 ^ 31 := by exact_mod_cast f.few
  rw [scanCount, File.text, hscan]
  dsimp only
  rw [Pipes.asInt_self (by omega) hfew, List.dropWhile_append_of_pos f.gapSpace, casesText_solid]

end Text

/-! ## One turn -/

section CaseTurn

variable {σ ρ τ : Type} {M : Allocator σ ρ} {locals : Nat → Locals} {last behind next : Bytes}
  {c : Case} {cs : List Case} {act : τ → Bytes → Except Fault τ} {t : τ}

theorem Request.line_solid (r : Request) (tail : Bytes) :
    (r.line ++ tail).dropWhile isSpace = r.line ++ tail :=
  List.dropWhile_cons_of_neg (by rw [r.solid.1]; exact Bool.false_ne_true)

theorem startOf_empty (hends : Ends behind next) (h : c.requests = []) : startOf c behind = next := by
  rw [startOf, Case.lines, h]
  exact hends.dropWhile

theorem startOf_cons {r : Request} {rs : List Request} (h : c.requests = r :: rs) :
    startOf c behind = r.line ++ block (rs.map Request.line) behind := by
  rw [startOf, Case.lines, h, List.map_cons, block, List.dropWhile_cons_of_pos (by decide),
    r.line_solid]

/-- **THE LINES OF A CASE** are read up to the next one. -/
theorem case_loop (act : τ → Bytes → Except Fault τ) (hends : Ends behind next)
    (hwhole : Whole lineSize c.lines)
    (hsome : next ≠ [] → c.requests ≠ [])
    (hact : ∀ l ∈ c.lines, ∀ t, act t (l ++ [10]) = act t l) :
    ∃ rest, rest.dropWhile isSpace = next ∧ ∀ t,
      loop .endless (lineTurn lineSize act) ((startOf c behind).length + 1) (startOf c behind, t) =
        runAll act t c.lines >>= fun t' => .ok (rest, t') := by
  have hfits := c.fits
  cases hreqs : c.requests with
  | nil =>
      have hnext : next = [] := by
        by_contra hne
        exact hsome hne hreqs
      rw [startOf_empty hends hreqs, hnext, Case.lines, hreqs]
      exact ⟨[], rfl, fun t => loop_done rfl _⟩
  | cons r rs =>
      have hlines : c.lines = r.line :: rs.map Request.line := by
        rw [Case.lines, hreqs, List.map_cons]
      rw [hlines] at hfits hwhole hact
      rw [startOf_cons hreqs, hlines]
      exact lines_loop hends _ hfits hwhole hact (Nat.lt_succ_self _)

/-- **A MISTAKEN END**: where the lines are not read up to the next case. -/
theorem case_misread (hends : Ends behind next) {fuel : Nat} {r : Bytes × τ}
    (h : loop Fault.endless (lineTurn lineSize act) fuel (startOf c behind, t) = .ok r)
    (hrest : r.1.dropWhile isSpace = next) :
    (next ≠ [] → c.requests ≠ []) ∧ Whole lineSize c.lines := by
  have hle : next.length ≤ r.1.length := by
    rw [← hrest]
    exact (List.dropWhile_suffix _).length_le
  constructor
  · intro hne hreqs
    -- some of the next case was read
    rw [startOf_empty hends hreqs] at h
    have hlt := loop_shorter (by decide) hne h
    omega
  · by_contra hnot
    cases hreqs : c.requests with
    | nil =>
        rw [Case.lines, hreqs] at hnot
        exact hnot fun _ hl => nomatch hl
    | cons q rs =>
        have hfits := c.fits
        have hlines : c.lines = q.line :: rs.map Request.line := by
          rw [Case.lines, hreqs, List.map_cons]
        rw [hlines] at hfits hnot
        rw [startOf_cons hreqs] at h
        obtain ⟨l, ls, hl, hleft⟩ := lines_broken _ hfits hnot h
        obtain ⟨q', -, rfl⟩ := List.mem_map.mp hl
        -- a line of this case was not read
        rw [hleft, q'.line_solid] at hrest
        have hlong := List.length_pos_iff.mpr q'.fits.nonempty
        have hblock : behind.length ≤ (block ls behind).length := by
          have hsuffix : ∀ ls, behind.length ≤ (block ls behind).length := by
            intro ls
            induction ls with
            | nil => exact le_refl _
            | cons l ls ih =>
                rw [block, List.length_cons, List.length_append]
                omega
          exact hsuffix ls
        have hnext := hends.length_le
        rw [← hrest, List.length_append] at hnext
        omega

/-- What a case comes to when its own requests are served. -/
def serve (M : Allocator σ ρ) (c : Case) (st : σ) : Except Fault (σ × Option ρ) :=
  if Accepts c.U c.L then do
    let root ← M.setUp st c.U c.L
    let st' ← runAll M.sendQuery root c.queries
    let report ← M.printStatus st'
    .ok (st', some report)
  else .ok (st, none)

/-- **ONE TURN** serves its case and ends in front of the next one. -/
theorem caseTurn_reads (M : Allocator σ ρ) (locals : Nat → Locals)
    (hlast : last = [] ∨ last = [10]) (hwhole : Whole lineSize c.lines)
    (hsome : cs ≠ [] → c.requests ≠ []) {text : Bytes}
    (htext : text.dropWhile isSpace = casesText last (c :: cs)) (i : Nat) :
    ∃ rest, rest.dropWhile isSpace = casesText last cs ∧ ∀ st reports,
      caseTurn M locals ⟨text, st, reports⟩ i = serve M c st >>= fun r =>
        .ok { text := rest, allocator := r.1, reports := reports ++ [r.2] } := by
  have hends := ends_case hlast cs
  have hnext : casesText last cs ≠ [] → c.requests ≠ [] := by
    intro hne
    refine hsome ?_
    rintro rfl
    exact hne rfl
  have hheader := scanHeader_case (locals i) c hends htext
  by_cases hacc : c.U ≤ c.L ∨ c.L = 0
  · obtain ⟨rest, hrest, hloop⟩ := case_loop ignore hends hwhole hnext (fun _ _ _ => rfl)
    refine ⟨rest, hrest, fun st reports => ?_⟩
    have hserve : serve M c st = .ok (st, none) := if_neg (not_not.mpr hacc)
    have hskip := hloop ()
    rw [ignore_all] at hskip
    rw [caseTurn, hserve, hheader]
    dsimp only
    rw [if_pos hacc]
    exact bind_ok.mpr ⟨_, hskip, rfl⟩
  · obtain ⟨rest, hrest, hloop⟩ := case_loop (request M) hends hwhole hnext (request_newline c)
    refine ⟨rest, hrest, fun st reports => ?_⟩
    have hserve : serve M c st = M.setUp st c.U c.L >>= fun root =>
        runAll M.sendQuery root c.queries >>= fun st' =>
          M.printStatus st' >>= fun report => .ok (st', some report) := if_pos hacc
    rw [caseTurn, hserve, hheader]
    dsimp only
    rw [if_neg hacc]
    cases M.setUp st c.U c.L with
    | error e => rfl
    | ok root =>
        obtain ⟨q, hserved⟩ := requests_served (M := M) c.requests (root, (locals i).query)
        have hlines := hloop (root, (locals i).query)
        rw [Case.lines, hserved] at hlines
        show (loop _ _ _ _ >>= _) = _
        rw [hlines]
        show _ = ((runAll M.sendQuery root (c.requests.map Request.query) >>= _) >>= _)
        cases runAll M.sendQuery root (c.requests.map Request.query) with
        | error e => rfl
        | ok st' =>
            show (M.printStatus st' >>= _) = ((M.printStatus st' >>= _) >>= _)
            cases M.printStatus st' with
            | error e => rfl
            | ok report => rfl

/-- **NO OTHER TURN** ends there. -/
theorem caseTurn_misreads (hlast : last = [] ∨ last = [10]) {s s' : Reading σ ρ}
    (htext : s.text.dropWhile isSpace = casesText last (c :: cs)) {i : Nat}
    (hturn : caseTurn M locals s i = .ok s')
    (htext' : s'.text.dropWhile isSpace = casesText last cs) :
    (cs ≠ [] → c.requests ≠ []) ∧ Whole lineSize c.lines := by
  have hends := ends_case hlast cs
  have hread : (casesText last cs ≠ [] → c.requests ≠ []) ∧ Whole lineSize c.lines := by
    rw [caseTurn, scanHeader_case (locals i) c hends htext] at hturn
    dsimp only at hturn
    split at hturn
    · obtain ⟨skipped, hloop, hend⟩ := bind_ok.mp hturn
      cases hend
      exact case_misread hends hloop htext'
    · obtain ⟨root, -, hturn⟩ := bind_ok.mp hturn
      obtain ⟨served, hloop, hturn⟩ := bind_ok.mp hturn
      obtain ⟨report, -, hend⟩ := bind_ok.mp hturn
      cases hend
      exact case_misread hends hloop htext'
  exact ⟨fun hne => hread.1 (casesText_ne_nil last hne), hread.2⟩

end CaseTurn

/-! ## All turns -/

section Turns

variable {σ ρ : Type} {M : Allocator σ ρ} {locals : Nat → Locals} {last text : Bytes}
  {cases past rest : List Case}

/-- A case joins what was reported for those before it. -/
def serveNext (M : Allocator σ ρ) (s : σ × List (Option ρ)) (c : Case) :
    Except Fault (σ × List (Option ρ)) := do
  let r ← serve M c s.1
  .ok (r.1, s.2 ++ [r.2])

theorem turnsOf_succ (st : σ) (k : Nat) : turnsOf M locals st text (k + 1) =
    turnsOf M locals st text k >>= fun s => caseTurn M locals s k := by
  rw [turnsOf, turnsOf, List.range_succ, runAll_append]
  refine congrArg _ (funext fun s => ?_)
  exact runAll_singleton s k

/-- A case with others behind it is not the last. -/
theorem mem_dropLast {c : Case} (hrest : rest ≠ []) : c ∈ (past ++ c :: rest).dropLast := by
  rw [List.dropLast_append_of_ne_nil (List.cons_ne_nil c rest), List.dropLast_cons_of_ne_nil hrest]
  exact List.mem_append_right _ List.mem_cons_self

theorem split_of_mem_dropLast {c : Case} (hc : c ∈ cases.dropLast) :
    ∃ past rest, cases = past ++ c :: rest ∧ rest ≠ [] := by
  obtain ⟨past, rest, hsplit⟩ := List.append_of_mem hc
  have hne : cases ≠ [] := by
    rintro rfl
    exact nomatch hc
  refine ⟨past, rest ++ [cases.getLast hne], ?_, List.append_ne_nil_of_right_ne_nil _ (by simp)⟩
  have hall := List.dropLast_append_getLast hne
  rw [hsplit, List.append_assoc, List.cons_append] at hall
  exact hall.symm

/-- **THE TURNS** serve the cases one by one, each up to the next. -/
theorem turnsOf_serves (M : Allocator σ ρ) (locals : Nat → Locals)
    (hlast : last = [] ∨ last = [10]) (hne : NoneEmpty cases)
    (hwhole : NoneBroken cases) (htext : text.dropWhile isSpace = casesText last cases)
    (past : List Case) : ∀ rest, cases = past ++ rest →
    ∃ text', text'.dropWhile isSpace = casesText last rest ∧ ∀ st,
      turnsOf M locals st text past.length = runAll (serveNext M) (st, []) past >>= fun s =>
        .ok { text := text', allocator := s.1, reports := s.2 } := by
  induction past using List.reverseRecOn with
  | nil =>
      intro rest hcases
      exact ⟨text, by rw [htext, hcases, List.nil_append], fun st => rfl⟩
  | append_singleton past c ih =>
      intro rest hcases
      rw [List.append_assoc, List.singleton_append] at hcases
      obtain ⟨text₁, htext₁, hturns⟩ := ih (c :: rest) hcases
      have hmem : c ∈ cases := by
        rw [hcases]
        exact List.mem_append_right past List.mem_cons_self
      have hsome : rest ≠ [] → c.requests ≠ [] := fun hrest =>
        hne c (hcases ▸ mem_dropLast hrest)
      obtain ⟨text', htext', hturn⟩ := caseTurn_reads M locals hlast
        (hwhole c hmem) hsome htext₁ past.length
      refine ⟨text', htext', fun st => ?_⟩
      rw [List.length_append, List.length_singleton, turnsOf_succ, hturns st, runAll_append]
      cases runAll (serveNext M) (st, []) past with
      | error e => rfl
      | ok s =>
          show caseTurn M locals ⟨text₁, s.1, s.2⟩ past.length =
            runAll (serveNext M) s [c] >>= _
          rw [hturn, runAll_singleton, serveNext]
          cases serve M c s.1 with
          | error e => rfl
          | ok r => rfl

/-- `main` serves the cases of a file. -/
theorem main_serves {f : File} (hne : NoneEmpty f.cases) (hwhole : NoneBroken f.cases) (st : σ) :
    main M locals st f.text = runAll (serveNext M) (st, []) f.cases >>= fun s => .ok s.2 := by
  obtain ⟨text', -, hturns⟩ := turnsOf_serves M locals f.lastNewline hne hwhole
    (casesText_solid f.last f.cases) f.cases [] (List.append_nil _).symm
  rw [main, scanCount_file]
  dsimp only
  rw [Int.toNat_natCast, hturns st]
  cases runAll (serveNext M) (st, []) f.cases with
  | error e => rfl
  | ok s => rfl

end Turns

/-! ## The trees -/

section Trees

variable {A : Malloc} {locals : Nat → Locals} {f : File}

/-- **ONE CASE** prints what it prints alone. -/
theorem serve_alone {st : State} (h : Between A st) (c : Case) :
    Agrees (fun r report => r.2 = report ∧ Between A r.1) (serve (buddy A) c st) (alone A c) := by
  by_cases hacc : Accepts c.U c.L
  · have hserve : serve (buddy A) c st = testCase A st c.U c.L c.queries >>= fun st' =>
        printStatus turns st'.nodes st'.root >>= fun tree => .ok (st', some tree) := by
      rw [serve, if_pos hacc, testCase]
      show (startCase A st c.U c.L >>= _) = _
      cases startCase A st c.U c.L with
      | error e => rfl
      | ok root => rfl
    have hcase := agrees_and (testCase_alike (A := A) (between_clear h)
      (BuddyCase.clear_boot (-1) []) c.U c.L c.queries)
      (fun st' hrun => Between.next h hacc hrun)
    rw [hserve, alone, if_pos hacc]
    refine agrees_bind hcase ?_
    rintro st' _ ⟨⟨nodes, pid, out, hs, rfl⟩, hbetween⟩
    refine agrees_bind (printStatus_alike hs turns st'.root) ?_
    rintro tree _ rfl
    exact ⟨rfl, hbetween⟩
  · rw [serve, alone, if_neg hacc, if_neg hacc]
    exact ⟨rfl, h⟩

/-- All cases print what each prints alone. -/
theorem serveAll_alone (cases : List Case) : ∀ {st : State} before reports, Between A st →
    ((∃ st', runAll (serveNext (buddy A)) (st, before) cases = .ok (st', reports)) ↔
      ∃ own, reports = before ++ own ∧
        List.Forall₂ (fun c report => alone A c = .ok report) cases own) := by
  induction cases with
  | nil =>
      intro st before reports _
      constructor
      · rintro ⟨st', hrun⟩
        cases hrun
        exact ⟨[], (List.append_nil _).symm, .nil⟩
      · rintro ⟨own, hreports, hown⟩
        cases hown
        rw [List.append_nil] at hreports
        exact ⟨st, by rw [hreports, runAll]⟩
  | cons c cs ih =>
      intro st before reports h
      have hagree := serve_alone h c
      cases hserve : serve (buddy A) c st with
      | error e =>
          cases halone : alone A c with
          | ok report =>
              rw [hserve, halone] at hagree
              exact hagree.elim
          | error e' =>
              constructor
              · rintro ⟨st', hrun⟩
                obtain ⟨s₁, hnext, -⟩ := runAll_cons.mp hrun
                obtain ⟨r, hr, -⟩ := bind_ok.mp hnext
                cases hserve.symm.trans hr
              · rintro ⟨own, -, hown⟩
                cases hown with
                | cons hc _ => cases halone.symm.trans hc
      | ok r =>
          cases halone : alone A c with
          | error e =>
              rw [hserve, halone] at hagree
              exact hagree.elim
          | ok report =>
              rw [hserve, halone] at hagree
              obtain ⟨hreport, hbetween⟩ := hagree
              have hnext : serveNext (buddy A) (st, before) c = .ok (r.1, before ++ [report]) := by
                rw [← hreport]
                exact bind_ok.mpr ⟨r, hserve, rfl⟩
              have hrest := ih (before ++ [report]) reports hbetween
              constructor
              · rintro ⟨st', hrun⟩
                obtain ⟨s₁, hs₁, hrun⟩ := runAll_cons.mp hrun
                cases hnext.symm.trans hs₁
                obtain ⟨own, hreports, hown⟩ := hrest.mp ⟨st', hrun⟩
                refine ⟨report :: own, ?_, .cons halone hown⟩
                rw [hreports, List.append_assoc, List.singleton_append]
              · rintro ⟨own, hreports, hown⟩
                cases hown with
                | @cons _ report' _ own hc hown =>
                    cases halone.symm.trans hc
                    have hsplit : reports = before ++ [report] ++ own := by
                      rw [hreports, List.append_assoc, List.singleton_append]
                    obtain ⟨st', hrun⟩ := hrest.mpr ⟨own, hsplit, hown⟩
                    exact ⟨st', runAll_cons.mpr ⟨_, hnext, hrun⟩⟩

/-- A case that ends the program neither in its set-up nor in a call is
    printed. -/
theorem alone_printed {c : Case}
    (h : Accepts c.U c.L → ∃ st, testCase A (boot (-1) []) c.U c.L c.queries = .ok st) :
    ∃ report, alone A c = .ok report := by
  by_cases hacc : Accepts c.U c.L
  · obtain ⟨st, hst⟩ := h hacc
    obtain ⟨st₀, hstart, -⟩ := bind_ok.mp hst
    obtain ⟨_, _, _, htotal, hleast, hinit, -⟩ := startCase_ok hstart
    obtain ⟨hL, hU⟩ := header_of_lists hacc htotal hleast hinit
    obtain ⟨u, l, hu, hl, hd⟩ := header_of hacc hL hU
    have hcase := hst
    rw [hu, hl] at hcase
    obtain ⟨tree, htree⟩ := testCase_printed hd hcase
    exact ⟨some tree, by
      rw [alone, if_pos hacc]
      exact bind_ok.mpr ⟨st, hst, bind_ok.mpr ⟨tree, htree, rfl⟩⟩⟩
  · exact ⟨none, if_neg hacc⟩

theorem all_printed {cases : List Case} (h : NoneEnds A cases) :
    ∃ reports, List.Forall₂ (fun c report => alone A c = .ok report) cases reports := by
  induction cases with
  | nil => exact ⟨[], .nil⟩
  | cons c cs ih =>
      obtain ⟨report, hreport⟩ := alone_printed (h c List.mem_cons_self)
      obtain ⟨reports, hreports⟩ := ih fun c' hc' => h c' (List.mem_cons_of_mem c hc')
      exact ⟨report :: reports, .cons hreport hreports⟩

/-- **ALL CASES ARE SERVED** when none of them ends the program. -/
theorem served_to_end {cases : List Case} (h : NoneEnds A cases) :
    ∃ st reports, runAll (serveNext (buddy A)) (boot (-1) [], []) cases = .ok (st, reports) ∧
      List.Forall₂ (fun c report => alone A c = .ok report) cases reports := by
  obtain ⟨reports, hreports⟩ := all_printed h
  obtain ⟨st, hrun⟩ := (serveAll_alone cases [] reports (Between.boot (A := A) (-1) [])).mpr
    ⟨reports, rfl, hreports⟩
  exact ⟨st, reports, hrun, hreports⟩

/-- **EACH TREE** is the one that its case has alone. -/
theorem main_alone (hne : NoneEmpty f.cases) (hwhole : NoneBroken f.cases)
    (hends : NoneEnds A f.cases) : Independent A locals f := by
  obtain ⟨st, reports, hrun, hreports⟩ := served_to_end hends
  refine ⟨reports, ?_, hreports⟩
  rw [main_serves hne hwhole]
  exact bind_ok.mpr ⟨_, hrun, rfl⟩

end Trees

/-! ## The calls -/

section Calls

variable {σ ρ : Type} {M : Allocator σ ρ} {A : Malloc} {locals : Nat → Locals} {f : File}

/-- The calls that were served are written down. -/
theorem recorded_calls (qs : List Query) : ∀ {st st' : σ} (U L : Int) (past : List Query),
    runAll M.sendQuery st qs = .ok st' →
      runAll (recorded M).sendQuery (st, ⟨U, L, past⟩) qs = .ok (st', ⟨U, L, past ++ qs⟩) := by
  induction qs with
  | nil =>
      intro st st' U L past h
      cases h
      rw [List.append_nil, runAll]
  | cons q qs ih =>
      intro st st' U L past h
      obtain ⟨st₁, hq, hrest⟩ := runAll_cons.mp h
      refine runAll_cons.mpr ⟨(st₁, ⟨U, L, past ++ [q]⟩), ?_, ?_⟩
      · exact bind_ok.mpr ⟨st₁, hq, rfl⟩
      · rw [List.append_cons past q qs]
        exact ih U L (past ++ [q]) hrest

/-- What is written down for a case that is served is what it asks for. -/
theorem recorded_serve {c : Case} {st st' : σ} {report : Option ρ}
    (h : serve M c st = .ok (st', report)) (calls : Calls) : ∃ calls' report',
      serve (recorded M) c (st, calls) = .ok ((st', calls'), report') ∧
        report'.map Prod.fst = expected c := by
  rw [serve] at h ⊢
  rw [expected]
  by_cases hacc : Accepts c.U c.L
  · rw [if_pos hacc] at h ⊢
    rw [if_pos hacc]
    obtain ⟨root, hroot, h⟩ := bind_ok.mp h
    obtain ⟨st₁, hrun, h⟩ := bind_ok.mp h
    obtain ⟨tree, htree, h⟩ := bind_ok.mp h
    cases h
    refine ⟨⟨c.U, c.L, c.queries⟩, some (⟨c.U, c.L, c.queries⟩, tree), ?_, rfl⟩
    refine bind_ok.mpr ⟨(root, ⟨c.U, c.L, []⟩), bind_ok.mpr ⟨root, hroot, rfl⟩, ?_⟩
    refine bind_ok.mpr ⟨(st', ⟨c.U, c.L, c.queries⟩), recorded_calls c.queries c.U c.L [] hrun, ?_⟩
    exact bind_ok.mpr ⟨(⟨c.U, c.L, c.queries⟩, tree), bind_ok.mpr ⟨tree, htree, rfl⟩, rfl⟩
  · rw [if_neg hacc] at h ⊢
    rw [if_neg hacc]
    cases h
    exact ⟨calls, none, rfl, rfl⟩

/-- What is written down for the cases is what they ask for. -/
theorem recorded_serves (cases : List Case) : ∀ {s : σ × List (Option ρ)} (calls : Calls)
    (past : List (Option (Calls × ρ))), (∃ s', runAll (serveNext M) s cases = .ok s') →
      ∃ s' reports, runAll (serveNext (recorded M)) ((s.1, calls), past) cases =
          .ok (s', past ++ reports) ∧
        reports.map (Option.map Prod.fst) = cases.map expected := by
  induction cases with
  | nil =>
      intro s calls past _
      exact ⟨(s.1, calls), [], by rw [List.append_nil, runAll], rfl⟩
  | cons c cs ih =>
      rintro s calls past ⟨s', hrun⟩
      obtain ⟨s₁, hnext, hrun⟩ := runAll_cons.mp hrun
      obtain ⟨r, hserve, hend⟩ := bind_ok.mp hnext
      cases hend
      obtain ⟨calls₁, report, hrecorded, hexpected⟩ := recorded_serve hserve calls
      obtain ⟨s₂, reports, hrest, hreports⟩ :=
        ih calls₁ (past ++ [report]) ⟨s', hrun⟩
      refine ⟨s₂, report :: reports, ?_, ?_⟩
      · refine runAll_cons.mpr ⟨((r.1, calls₁), past ++ [report]), ?_, ?_⟩
        · exact bind_ok.mpr ⟨_, hrecorded, rfl⟩
        · rw [List.append_cons past report reports]
          exact hrest
      · rw [List.map_cons, List.map_cons, hexpected, hreports]

theorem segmented_of (hne : NoneEmpty f.cases) (hwhole : NoneBroken f.cases)
    (hends : NoneEnds A f.cases) : Segmented A locals f where
  count := by rw [scanCount_file]
  turns := by
    intro past rest hcases
    obtain ⟨text', htext', hturns⟩ := turnsOf_serves (recorded (buddy A)) locals
      f.lastNewline hne hwhole (casesText_solid f.last f.cases) past rest hcases
    have hpast : NoneEnds A past := fun c hc =>
      hends c (hcases ▸ List.mem_append_left rest hc)
    obtain ⟨st, reports, hrun, -⟩ := served_to_end hpast
    obtain ⟨s, recordings, hrecorded, hexpected⟩ :=
      recorded_serves past ⟨0, 0, []⟩ [] ⟨_, hrun⟩
    refine ⟨⟨text', s, recordings⟩, ?_, htext', hexpected⟩
    rw [scanCount_file]
    dsimp only
    rw [hturns]
    exact bind_ok.mpr ⟨_, hrecorded, rfl⟩

/-- **EVERY TURN** that ends in front of the next case has read a whole one. -/
theorem Segmented.reads (h : Segmented A locals f) {past rest : List Case} {c : Case}
    (hcases : f.cases = past ++ c :: rest) :
    (rest ≠ [] → c.requests ≠ []) ∧ Whole lineSize c.lines := by
  have hnext : f.cases = (past ++ [c]) ++ rest := by
    rw [hcases, List.append_assoc, List.singleton_append]
  obtain ⟨s, hs, htext, -⟩ := h.turns past (c :: rest) hcases
  obtain ⟨s', hs', htext', -⟩ := h.turns (past ++ [c]) rest hnext
  rw [List.length_append, List.length_singleton, turnsOf_succ, hs] at hs'
  exact caseTurn_misreads f.lastNewline htext hs' htext'

/-- `main` makes the calls that the file asks for. -/
theorem Segmented.main (h : Segmented A locals f) : ∃ reports,
    main (recorded (buddy A)) locals (boot (-1) [], ⟨0, 0, []⟩) f.text = .ok reports ∧
      reports.map (Option.map Prod.fst) = f.cases.map expected := by
  obtain ⟨s, hs, -, hreports⟩ := h.turns f.cases [] (List.append_nil _).symm
  refine ⟨s.reports, ?_, hreports⟩
  rw [BuddyInput.main, h.count, Int.toNat_natCast]
  exact bind_ok.mpr ⟨s, hs, rfl⟩

/-- No case of a file that is printed ends the program. -/
theorem Independent.ends (h : Independent A locals f) : NoneEnds A f.cases := by
  intro c hc hacc
  obtain ⟨reports, -, hreports⟩ := h
  have hall := hreports.imp fun c report hreport =>
    And.intro (⟨report, hreport⟩ : ∃ report, alone A c = .ok report) hreport
  obtain ⟨report, halone⟩ := ((List.forall₂_and_left _ _).mp hall).1 c hc
  rw [alone, if_pos hacc] at halone
  obtain ⟨st, hst, -⟩ := bind_ok.mp halone
  exact ⟨st, hst⟩

end Calls

/-- **THE CASES ARE TOLD APART** exactly if all of them but the last have a
    request, no request line of 19 characters has another behind it, and no
    set-up or call ends the program. -/
theorem segmented_exact (A : Malloc) (locals : Nat → Locals) (f : File) :
    (Segmented A locals f ∧ Independent A locals f) ↔
      NoneEmpty f.cases ∧ NoneBroken f.cases ∧ NoneEnds A f.cases := by
  constructor
  · rintro ⟨hsegmented, hindependent⟩
    refine ⟨fun c hc => ?_, fun c hc => ?_, hindependent.ends⟩
    · obtain ⟨past, rest, hcases, hrest⟩ := split_of_mem_dropLast hc
      exact (hsegmented.reads hcases).1 hrest
    · obtain ⟨past, rest, hcases⟩ := List.append_of_mem hc
      exact (hsegmented.reads hcases).2
  · rintro ⟨hne, hwhole, hends⟩
    exact ⟨segmented_of hne hwhole hends, main_alone hne hwhole hends⟩

/-- The line `A 2`. -/
def twoBytes : Request where
  pname := 65
  digits := [32, 50]
  pbytes := 2
  solid := by decide
  oneLine := by simp
  number := ⟨[], by decide⟩
  int := by decide
  short := by decide

/-- A case without a request, and one with the line `A 2`. -/
def emptyFirst : File where
  cases := [⟨3, 1, [], by decide, by decide⟩, ⟨4, 1, [twoBytes], by decide, by decide⟩]
  gap := [10, 10]
  last := [10]
  gapSpace := by simp [isSpace]
  gapNonempty := by decide
  lastNewline := Or.inr rfl
  few := by decide

/-- The second header is taken for a request of the first case. -/
theorem header_requested :
    main (recorded (buddy bump)) (fun _ => ⟨3, 1, ⟨'A', 2⟩⟩) (boot (-1) [], ⟨0, 0, []⟩)
        emptyFirst.text =
        .ok [some (⟨3, 1, [⟨'4', 1⟩, ⟨'A', 2⟩]⟩, [.process '4' 1, .process 'A' 2, .freeBlock 4]),
          some (⟨3, 1, []⟩, [.freeBlock 8])] ∧
      ¬ Segmented bump (fun _ => ⟨3, 1, ⟨'A', 2⟩⟩) emptyFirst ∧
      ¬ Independent bump (fun _ => ⟨3, 1, ⟨'A', 2⟩⟩) emptyFirst := by
  have htext : emptyFirst.text =
      [50, 10, 10, 51, 32, 49, 10, 10, 52, 32, 49, 10, 65, 32, 50, 10] := by decide
  have hcalls : main (recorded (buddy bump)) (fun _ => ⟨3, 1, ⟨'A', 2⟩⟩)
      (boot (-1) [], ⟨0, 0, []⟩) emptyFirst.text =
      .ok [some (⟨3, 1, [⟨'4', 1⟩, ⟨'A', 2⟩]⟩, [.process '4' 1, .process 'A' 2, .freeBlock 4]),
        some (⟨3, 1, []⟩, [.freeBlock 8])] := by
    rw [htext]
    rfl
  refine ⟨hcalls, fun h => ?_, fun h => ?_⟩
  · obtain ⟨reports, hmain, hexpected⟩ := h.main
    cases hcalls.symm.trans hmain
    exact absurd hexpected (by decide)
  · have htrees : main (buddy bump) (fun _ => ⟨3, 1, ⟨'A', 2⟩⟩) (boot (-1) []) emptyFirst.text =
        .ok [some [.process '4' 1, .process 'A' 2, .freeBlock 4], some [.freeBlock 8]] := by
      rw [htext]
      rfl
    obtain ⟨reports, hmain, hreports⟩ := h
    cases htrees.symm.trans hmain
    cases hreports with
    | cons hfirst _ => exact absurd hfirst (by decide)

end BuddyInput
