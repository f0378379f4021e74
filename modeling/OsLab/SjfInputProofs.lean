import OsLab.PipesProofs
import OsLab.SjfServiceProofs

/-! # How the simulator reads its input

    The first loop of `sjf-hash.c` reads a line a turn: the arrival of a
    process, and then its bursts, up to a `-1` or the end of the file.  The
    fields of a process are indexed by `j`, but the number of its bursts is
    written with `i`, which the loop that clears the heads has left behind
    the array.

    The arrays have `MAX_PROCESSES` entries.  A write is recorded with its
    index, and one behind the array changes nothing else. -/

namespace SjfInput

open OsLoop OsScan
open SjfModel (Line BurstType ProcessNode ProcessLogNode insertNode readBursts newLog loaded intMax)
open SjfService (burstList kind)
open PipesModel (asInt)

/-- `MAX_PROCESSES`. -/
def maxProcesses : Nat := 100

/-- The ways the loop does not end. -/
inductive Fault where
  /-- a sum is no `int` -/
  | overflow
  /-- the loop runs forever -/
  | endless
  deriving DecidableEq, Repr

/-- The variables of the loop, and what is left of the file. -/
structure Reading where
  text : Bytes
  arrival : Int
  j : Nat
  proc : Nat → List ProcessNode
  processLog : Nat → ProcessLogNode
  /-- the indices of `proc` and of `processLog` that were written -/
  writes : List Nat

def Reading.setProc (r : Reading) (k : Nat) (head : List ProcessNode) : Reading :=
  { r with
    proc := if k < maxProcesses then Function.update r.proc k head else r.proc
    writes := r.writes ++ [k] }

def Reading.setLog (r : Reading) (k : Nat) (f : ProcessLogNode → ProcessLogNode) : Reading :=
  { r with
    processLog :=
      if k < maxProcesses then Function.update r.processLog k (f (r.processLog k))
      else r.processLog
    writes := r.writes ++ [k] }

/-- A burst joins the list of process `j`, as its `n`-th. -/
def takeBurst (r : Reading) (n : Nat) (temp : Int) :
    Except Fault (Turn (Reading × Nat) (Reading × Nat)) :=
  let head := insertNode (r.proc r.j) temp (if n % 2 = 0 then .C else .I)
  let serviceTime := (r.processLog r.j).serviceTime + temp
  if serviceTime < -2 ^ 31 ∨ intMax < serviceTime then .error .overflow
  else
    let inserted := r.setProc r.j head
    .ok (.again (inserted.setLog r.j (fun log => { log with serviceTime := serviceTime }), n + 1))

/-- One turn of the inner loop; `temp` is 0 unless a number is found. -/
def burstTurn (s : Reading × Nat) : Except Fault (Turn (Reading × Nat) (Reading × Nat)) :=
  match scanD s.1.text with
  | .eof => .ok (.done s)
  | .mismatch rest => takeBurst { s.1 with text := rest } s.2 0
  | .number temp rest =>
      if asInt temp = -1 then .ok (.done ({ s.1 with text := rest }, s.2))
      else takeBurst { s.1 with text := rest } s.2 (asInt temp)

/-- A record before the bursts of its process are read. -/
def arrived (arrival : Int) (log : ProcessLogNode) : ProcessLogNode :=
  { log with
    arrivalTime := arrival
    waitingTime := 0
    turnaroundTime := -1
    responseTime := -1
    firstTime := -1
    serviceTime := 0
    lastTime := -1
    status := 0 }

/-- The body of the outer loop, once `arrival` is read. -/
def readLine (r : Reading) : Except Fault (Turn Reading Reading) := do
  let started := r.setLog r.j (arrived r.arrival)
  let read ← loop .endless burstTurn (started.text.length + 1) (started, 0)
  -- where `for(i=0; i<m; i++)` has left it
  let i := maxProcesses
  let counted := read.1.setLog i (fun log => { log with numBursts := read.2 })
  .ok (.again { counted with j := counted.j + 1 })

/-- One turn of the outer loop. -/
def lineTurn (r : Reading) : Except Fault (Turn Reading Reading) :=
  match scanD r.text with
  | .eof => .ok (.done r)
  | .mismatch rest => readLine { r with text := rest }
  | .number arrival rest => readLine { r with text := rest, arrival := asInt arrival }

/-- A record of the global array. -/
def zeroLog : ProcessLogNode where
  arrivalTime := 0
  waitingTime := 0
  numBursts := 0
  firstTime := 0
  lastTime := 0
  turnaroundTime := 0
  responseTime := 0
  serviceTime := 0
  status := 0

/-- The variables before the loop; `arrival` has any value. -/
def start (arrival : Int) (text : Bytes) : Reading where
  text := text
  arrival := arrival
  j := 0
  proc := fun _ => []
  processLog := fun _ => zeroLog
  writes := []

/-- The loop.  A turn that consumes nothing would be repeated forever, so a
    loop has no more turns than the text has bytes. -/
def readInput (arrival : Int) (text : Bytes) : Except Fault Reading :=
  loop .endless lineTurn (text.length + 1) (start arrival text)

/-! ## What is stored -/

/-- The numbers of a line. -/
def numbers (l : Line) : List Int := l.arrival :: (l.bursts ++ [-1])

/-- The text has these lines. -/
def HasLines (lines : List Line) (text : Bytes) : Prop := Spells (lines.flatMap numbers) text

/-- The arrivals, the lists and the service times are those of the lines. -/
structure Kept (lines : List Line) (r : Reading) : Prop where
  j : r.j = lines.length
  arrival : ∀ k l, lines[k]? = some l → (r.processLog k).arrivalTime = l.arrival
  proc : ∀ k l, lines[k]? = some l → (r.proc k).map kind = burstList l
  service : ∀ k l, lines[k]? = some l → (r.processLog k).serviceTime = l.bursts.sum

/-- And so are the numbers of bursts, and every write is to an entry of the
    arrays. -/
structure Stored (lines : List Line) (r : Reading) : Prop extends Kept lines r where
  count : ∀ k l, lines[k]? = some l → (r.processLog k).numBursts = l.bursts.length
  inside : ∀ k ∈ r.writes, k < maxProcesses

/-- The numbers of a line are non-negative, and neither they nor their sum
    exceed an `int`. -/
structure Fits (l : Line) : Prop where
  arrival : 0 ≤ l.arrival ∧ l.arrival ≤ intMax
  bursts : ∀ v ∈ l.bursts, 0 ≤ v
  service : l.bursts.sum ≤ intMax

/-! ## The inner loop -/

theorem setLog_inside {r : Reading} {k : Nat} (hk : k < maxProcesses)
    (f : ProcessLogNode → ProcessLogNode) :
    (r.setLog k f).processLog = Function.update r.processLog k (f (r.processLog k)) := if_pos hk

theorem setLog_behind (r : Reading) (f : ProcessLogNode → ProcessLogNode) :
    (r.setLog maxProcesses f).processLog = r.processLog := by
  simp only [Reading.setLog, lt_irrefl, if_false]

section Bursts

variable {r r' : Reading} {n fuel : Nat} {v : Int} {bs more : List Int}

/-- What the bursts of a line change. -/
structure Filled (r r' : Reading) (n : Nat) (bs : List Int) : Prop where
  j : r'.j = r.j
  proc : r'.proc = Function.update r.proc r.j (readBursts n (r.proc r.j) bs)
  processLog : r'.processLog = Function.update r.processLog r.j
    { r.processLog r.j with serviceTime := (r.processLog r.j).serviceTime + bs.sum }
  writes : ∀ k ∈ r'.writes, k ∈ r.writes ∨ k = r.j

theorem Filled.refl (r : Reading) (rest : Bytes) (n : Nat) :
    Filled r { r with text := rest } n [] where
  j := rfl
  proc := (Function.update_eq_self r.j r.proc).symm
  processLog := by
    rw [List.sum_nil, Int.add_zero]
    exact (Function.update_eq_self r.j r.processLog).symm
  writes := fun _ hk => Or.inl hk

/-- A burst, and then the others. -/
theorem Filled.cons {r₁ : Reading} (h : Filled r r₁ n [v]) (h' : Filled r₁ r' (n + 1) bs) :
    Filled r r' n (v :: bs) where
  j := h'.j.trans h.j
  proc := by
    rw [h'.proc, h.j, h.proc, Function.update_self, Function.update_idem]
    rfl
  processLog := by
    rw [h'.processLog, h.j, h.processLog, Function.update_self, Function.update_idem]
    simp only [List.sum_cons, List.sum_nil, Int.add_zero, Int.add_assoc]
  writes := by
    intro k hk
    rcases h'.writes k hk with hk | hk
    · exact h.writes k hk
    · exact Or.inr (hk.trans h.j)

/-- **A BURST** is put where its line is kept. -/
theorem takeBurst_ok (hj : r.j < maxProcesses) (n : Nat)
    (hlow : 0 ≤ (r.processLog r.j).serviceTime + v)
    (hhigh : (r.processLog r.j).serviceTime + v ≤ intMax) :
    ∃ r', takeBurst r n v = .ok (.again (r', n + 1)) ∧ r'.text = r.text ∧ Filled r r' n [v] := by
  refine ⟨_, if_neg (not_or.mpr ⟨by omega, by omega⟩), rfl, rfl, ?_, ?_, ?_⟩
  · exact if_pos hj
  · rw [List.sum_singleton]
    exact setLog_inside hj _
  · intro k hk
    rcases List.mem_append.mp hk with hk | hk
    · rcases List.mem_append.mp hk with hk | hk
      · exact Or.inl hk
      · exact Or.inr (List.mem_singleton.mp hk)
    · exact Or.inr (List.mem_singleton.mp hk)

/-- **THE BURSTS OF A LINE** are stored up to the `-1`. -/
theorem bursts_loop (bs : List Int) : ∀ {r : Reading} {n fuel : Nat},
    Spells (bs ++ -1 :: more) r.text → bs.length < fuel → r.j < maxProcesses →
    (∀ v ∈ bs, 0 ≤ v) → 0 ≤ (r.processLog r.j).serviceTime →
    (r.processLog r.j).serviceTime + bs.sum ≤ intMax →
    ∃ r', loop .endless burstTurn fuel (r, n) = .ok (r', n + bs.length) ∧
      Filled r r' n bs ∧ Spells more r'.text := by
  induction bs with
  | nil =>
      intro r n fuel htext hfuel _ _ _ _
      obtain ⟨rest, hscan, hmore, -⟩ := htext.scanD
      obtain ⟨fuel, rfl⟩ := Nat.exists_eq_add_one_of_ne_zero (Nat.ne_of_gt hfuel)
      have hturn : burstTurn (r, n) = .ok (.done ({ r with text := rest }, n)) := by
        rw [burstTurn, hscan]
        exact if_pos (by decide)
      exact ⟨{ r with text := rest }, loop_done hturn fuel, Filled.refl r rest n, hmore⟩
  | cons v bs ih =>
      intro r n fuel htext hfuel hj hbs hservice hsum
      obtain ⟨rest, hscan, hmore, -⟩ := htext.scanD
      obtain ⟨fuel, rfl⟩ := Nat.exists_eq_add_one_of_ne_zero (Nat.ne_zero_of_lt hfuel)
      rw [List.forall_mem_cons] at hbs
      rw [List.sum_cons, ← Int.add_assoc] at hsum
      have hrest : 0 ≤ bs.sum := List.sum_nonneg hbs.2
      have hv : asInt v = v := Pipes.asInt_of_int hbs.1 (show v ≤ intMax by omega)
      have hburst : v ≠ -1 := by
        rintro rfl
        exact absurd hbs.1 (by decide)
      have hlow : 0 ≤ (r.processLog r.j).serviceTime + v := Int.add_nonneg hservice hbs.1
      have hhigh : (r.processLog r.j).serviceTime + v ≤ intMax := by omega
      obtain ⟨r₁, htake, htext₁, hfilled⟩ :=
        takeBurst_ok (r := { r with text := rest }) hj n hlow hhigh
      have hturn : burstTurn (r, n) = .ok (.again (r₁, n + 1)) := by
        rw [burstTurn, hscan]
        show (if asInt v = -1 then _ else takeBurst { r with text := rest } n (asInt v)) = _
        rw [hv, if_neg hburst, htake]
      have hservice₁ : (r₁.processLog r₁.j).serviceTime = (r.processLog r.j).serviceTime + v := by
        rw [hfilled.j, hfilled.processLog, List.sum_singleton, Function.update_self]
      obtain ⟨r', hloop, hfilled', hmore'⟩ := @ih r₁ (n + 1) fuel
        (by rwa [htext₁]) (Nat.lt_of_succ_lt_succ hfuel) (by rwa [hfilled.j]) hbs.2
        (by rwa [hservice₁]) (by rwa [hservice₁])
      refine ⟨r', ?_, ?_, hmore'⟩
      · rw [loop_again hturn, hloop, List.length_cons, Nat.add_assoc, Nat.add_comm 1]
      · have hfirst : Filled r r₁ n [v] :=
          ⟨hfilled.j, hfilled.proc, hfilled.processLog, hfilled.writes⟩
        exact hfirst.cons hfilled'

end Bursts

/-! ## The outer loop -/

section Lines

variable {r : Reading} {lines past : List Line} {l : Line} {text : Bytes} {more : List Int}
  {arrival : Int}

/-- The lines `past` are stored as the simulator is said to load them, but for
    the numbers of bursts. -/
structure Loaded (past : List Line) (r : Reading) : Prop where
  j : r.j = past.length
  proc : r.proc = (loaded past).proc
  processLog : ∀ k < past.length, r.processLog k = (loaded past).processLog k
  unset : ∀ k, (r.processLog k).numBursts = 0
  writes : ∀ k ∈ r.writes, k < past.length ∨ k = maxProcesses

theorem start_loaded (arrival : Int) (text : Bytes) : Loaded [] (start arrival text) where
  j := rfl
  proc := rfl
  processLog := fun k hk => absurd hk (Nat.not_lt_zero k)
  unset := fun _ => rfl
  writes := fun _ hk => nomatch hk

theorem getElem?_snoc {α : Type} (xs : List α) (x : α) (k : Nat) :
    (xs ++ [x])[k]? = if k = xs.length then some x else xs[k]? := by
  split
  · next heq => rw [heq, List.getElem?_concat_length]
  · next hne =>
    rcases Nat.lt_or_gt_of_ne hne with hlt | hgt
    · exact List.getElem?_append_left hlt
    · rw [List.getElem?_eq_none (by rw [List.length_append]; exact hgt),
        List.getElem?_eq_none hgt.le]

theorem loaded_snoc_proc (past : List Line) (l : Line) : (loaded (past ++ [l])).proc =
    Function.update (loaded past).proc past.length (readBursts 0 [] l.bursts) := by
  funext k
  show readBursts 0 [] ((((past ++ [l])[k]?).map Line.bursts).getD []) = _
  rw [getElem?_snoc, Function.update_apply]
  split
  · rfl
  · rfl

theorem loaded_snoc_log (past : List Line) (l : Line) : (loaded (past ++ [l])).processLog =
    Function.update (loaded past).processLog past.length (newLog l) := by
  funext k
  show newLog (((past ++ [l])[k]?).getD _) = _
  rw [getElem?_snoc, Function.update_apply]
  split
  · rfl
  · rfl

/-- **ONE LINE** is stored behind the others. -/
theorem lineTurn_loaded (h : Loaded past r) (hroom : past.length < maxProcesses) (hl : Fits l)
    (htext : Spells (numbers l ++ more) r.text) :
    ∃ r', lineTurn r = .ok (.again r') ∧ Loaded (past ++ [l]) r' ∧ Spells more r'.text := by
  obtain ⟨rest, hscan, hbursts, -⟩ := htext.scanD
  have hbursts : Spells (l.bursts ++ -1 :: more) rest := by
    rwa [List.append_cons]
  have harrival : asInt l.arrival = l.arrival := Pipes.asInt_of_int hl.arrival.1 hl.arrival.2
  have hj : r.j < maxProcesses := by rwa [h.j]
  let started := { r with text := rest, arrival := l.arrival }.setLog r.j (arrived l.arrival)
  have hrecord : started.processLog =
      Function.update r.processLog r.j (arrived l.arrival (r.processLog r.j)) := setLog_inside hj _
  have hnew : started.processLog started.j = arrived l.arrival (r.processLog r.j) := by
    rw [hrecord]
    exact Function.update_self r.j _ r.processLog
  have hzero : (started.processLog started.j).serviceTime = 0 := by
    rw [hnew]
    rfl
  have hfuel : l.bursts.length < started.text.length + 1 := by
    have hle := hbursts.length_le
    rw [List.length_append, List.length_cons] at hle
    exact Nat.lt_succ_of_le ((Nat.le_add_right _ _).trans hle)
  obtain ⟨r₁, hloop, hfilled, hmore⟩ := @bursts_loop more l.bursts started 0 _ hbursts hfuel hj
    hl.bursts hzero.ge (by rw [hzero, Int.zero_add]; exact hl.service)
  let counted := r₁.setLog maxProcesses (fun log => { log with numBursts := l.bursts.length })
  have hlog : counted.processLog = Function.update r.processLog past.length (newLog l) := by
    rw [setLog_behind, hfilled.processLog, hnew, hrecord]
    show Function.update (Function.update r.processLog r.j _) r.j _ = _
    rw [Function.update_idem, h.j]
    simp only [arrived, newLog, h.unset, Int.zero_add]
  have hturn : lineTurn r = .ok (.again { counted with j := r₁.j + 1 }) := by
    rw [lineTurn, hscan]
    show readLine { r with text := rest, arrival := asInt l.arrival } = _
    rw [harrival]
    rw [Nat.zero_add] at hloop
    exact bind_ok.mpr ⟨(r₁, l.bursts.length), hloop, rfl⟩
  refine ⟨_, hturn, ⟨?_, ?_, ?_, ?_, ?_⟩, hmore⟩
  · show r₁.j + 1 = (past ++ [l]).length
    rw [hfilled.j, List.length_append, List.length_singleton]
    exact congrArg (· + 1) h.j
  · show r₁.proc = _
    rw [hfilled.proc, loaded_snoc_proc]
    show Function.update r.proc r.j (readBursts 0 (r.proc r.j) l.bursts) = _
    have hempty : (loaded past).proc past.length = [] := by
      show readBursts 0 [] ((past[past.length]?.map Line.bursts).getD []) = []
      rw [List.getElem?_eq_none (le_refl past.length)]
      rfl
    rw [h.proc, h.j, hempty]
  · intro k hk
    show counted.processLog k = _
    rw [List.length_append, List.length_singleton, Nat.lt_succ_iff] at hk
    rw [hlog, loaded_snoc_log, Function.update_apply, Function.update_apply]
    by_cases heq : k = past.length
    · rw [if_pos heq, if_pos heq]
    · rw [if_neg heq, if_neg heq]
      exact h.processLog k (lt_of_le_of_ne hk heq)
  · intro k
    show (counted.processLog k).numBursts = 0
    rw [hlog, Function.update_apply]
    split
    · rfl
    · exact h.unset k
  · intro k hk
    rw [List.length_append, List.length_singleton]
    rcases List.mem_append.mp hk with hk | hk
    · rcases hfilled.writes k hk with hk | hk
      · rcases List.mem_append.mp hk with hk | hk
        · exact (h.writes k hk).imp_left Nat.lt_succ_of_lt
        · rw [List.mem_singleton.mp hk, h.j]
          exact Or.inl (Nat.lt_succ_self _)
      · rw [hk]
        exact Or.inl (Nat.lt_succ_of_le h.j.le)
    · exact Or.inr (List.mem_singleton.mp hk)

/-- **ALL LINES** are stored. -/
theorem lines_loop (lines : List Line) : ∀ {past : List Line} {r : Reading} {fuel : Nat},
    Loaded past r → past.length + lines.length ≤ maxProcesses → (∀ l ∈ lines, Fits l) →
    HasLines lines r.text → lines.length < fuel →
    ∃ r', loop .endless lineTurn fuel r = .ok r' ∧ Loaded (past ++ lines) r' := by
  induction lines with
  | nil =>
      intro past r fuel h _ _ htext hfuel
      obtain ⟨fuel, rfl⟩ := Nat.exists_eq_add_one_of_ne_zero (Nat.ne_zero_of_lt hfuel)
      have hturn : lineTurn r = .ok (.done r) := by
        rw [lineTurn, Spells.eof htext]
      rw [List.append_nil]
      exact ⟨r, loop_done hturn fuel, h⟩
  | cons l lines ih =>
      intro past r fuel h hroom hfits htext hfuel
      obtain ⟨fuel, rfl⟩ := Nat.exists_eq_add_one_of_ne_zero (Nat.ne_zero_of_lt hfuel)
      rw [List.forall_mem_cons] at hfits
      rw [List.length_cons] at hroom hfuel
      obtain ⟨r₁, hturn, hloaded, htext₁⟩ := lineTurn_loaded h (by omega) hfits.1 htext
      have hroom₁ : (past ++ [l]).length + lines.length ≤ maxProcesses := by
        rw [List.length_append, List.length_singleton]
        omega
      obtain ⟨r', hloop, hloaded'⟩ :=
        ih hloaded hroom₁ hfits.2 htext₁ (Nat.lt_of_succ_lt_succ hfuel)
      rw [List.append_assoc, List.singleton_append] at hloaded'
      exact ⟨r', (loop_again hturn fuel).trans hloop, hloaded'⟩

theorem lines_length (lines : List Line) : lines.length ≤ (lines.flatMap numbers).length := by
  induction lines with
  | nil => exact Nat.zero_le _
  | cons l lines ih =>
      rw [List.flatMap_cons, List.length_append, List.length_cons, numbers, List.length_cons]
      omega

/-- **THE INPUT IS LOADED** as the simulator's first state has it. -/
theorem input_loaded (htext : HasLines lines text) (hfew : lines.length ≤ maxProcesses)
    (hfits : ∀ l ∈ lines, Fits l) (arrival : Int) :
    ∃ r, readInput arrival text = .ok r ∧ Loaded lines r := by
  have hfuel : lines.length < text.length + 1 :=
    Nat.lt_succ_of_le ((lines_length lines).trans htext.length_le)
  have hroom : ([] : List Line).length + lines.length ≤ maxProcesses := by
    rwa [List.length_nil, Nat.zero_add]
  exact lines_loop lines (start_loaded arrival text) hroom hfits htext hfuel

/-- **ALL BUT THE NUMBERS OF BURSTS** are those of the lines. -/
theorem Loaded.kept (h : Loaded lines r) : Kept lines r where
  j := h.j
  arrival := by
    intro k l hl
    obtain ⟨hk, -⟩ := List.getElem?_eq_some_iff.mp hl
    rw [h.processLog k hk]
    show (newLog (lines[k]?.getD _)).arrivalTime = _
    rw [hl]
    rfl
  proc := by
    intro k l hl
    rw [h.proc]
    exact SjfService.loaded_kind hl
  service := by
    intro k l hl
    obtain ⟨hk, -⟩ := List.getElem?_eq_some_iff.mp hl
    rw [h.processLog k hk]
    show (newLog (lines[k]?.getD _)).serviceTime = _
    rw [hl]
    rfl

/-- Every turn writes behind the array. -/
theorem lineTurn_writes {r' : Reading} (h : lineTurn r = .ok (.again r')) :
    maxProcesses ∈ r'.writes := by
  have hread : ∀ {r : Reading}, readLine r = .ok (.again r') → maxProcesses ∈ r'.writes := by
    intro r hr
    obtain ⟨read, -, hdone⟩ := bind_ok.mp hr
    cases hdone
    exact List.mem_append_right _ (List.mem_singleton_self _)
  rw [lineTurn] at h
  split at h
  · exact nomatch h
  · exact hread h
  · exact hread h

theorem readInput_writes (h : readInput arrival text = .ok r) :
    r.j = 0 ∨ maxProcesses ∈ r.writes := by
  obtain ⟨r', hvisits, hdone⟩ := loop_ok h
  have hr : r' = r := by
    have hread : ∀ {r' : Reading}, readLine r' ≠ .ok (.done r) := by
      intro r' hr
      obtain ⟨read, -, hdone⟩ := bind_ok.mp hr
      exact nomatch hdone
    rw [lineTurn] at hdone
    split at hdone
    · cases hdone
      rfl
    · exact absurd hdone hread
    · exact absurd hdone hread
  have hinv : r'.j = 0 ∨ maxProcesses ∈ r'.writes :=
    visits_inv (I := fun r => r.j = 0 ∨ maxProcesses ∈ r.writes)
      (fun _ _ _ hturn => Or.inr (lineTurn_writes hturn)) hvisits (Or.inl rfl)
  rwa [hr] at hinv

/-- What is stored in bounds has no line. -/
theorem Stored.empty (hread : readInput arrival text = .ok r) (h : Stored lines r) : lines = [] := by
  rcases readInput_writes hread with hj | hmem
  · exact List.length_eq_zero_iff.mp (h.j.symm.trans hj)
  · exact absurd (h.inside _ hmem) (lt_irrefl maxProcesses)

/-- **THE INPUT IS STORED IN BOUNDS** exactly if it is empty. -/
theorem input_exact (htext : HasLines lines text) (arrival : Int) :
    (∃ r, readInput arrival text = .ok r ∧ Stored lines r) ↔ lines = [] := by
  constructor
  · rintro ⟨r, hread, hstored⟩
    exact hstored.empty hread
  · rintro rfl
    have hturn : lineTurn (start arrival text) = .ok (.done (start arrival text)) := by
      rw [lineTurn]
      show (match scanD text with | .eof => _ | .mismatch _ => _ | .number _ _ => _) = _
      rw [Spells.eof htext]
    refine ⟨start arrival text, loop_done hturn _, (start_loaded arrival text).kept, ?_, ?_⟩
    · exact fun k l hl => nomatch hl
    · exact fun k hk => nomatch hk

end Lines

/-- The numbers with a space in front of each. -/
def spaced (ns : List Int) : Bytes := ns.flatMap fun n => 32 :: decimalInt n

theorem spells_spaced (ns : List Int) : Spells ns (spaced ns) := by
  induction ns with
  | nil => exact Spells.nil nofun
  | cons n ns ih =>
      refine @Spells.cons n ns [32] (spaced ns) (fun c hc => ?_) (fun c hc => ?_) ih
      · rw [List.mem_singleton.mp hc]
        rfl
      · cases ns with
        | nil => exact nomatch hc
        | cons m ns =>
            rw [← Option.some.inj hc]
            rfl

/-- One process, with a burst of 5. -/
def oneBurst : List Line := [{ arrival := 0, bursts := [5] }]

theorem oneBurst_lines : HasLines oneBurst (spaced [0, 5, -1]) := spells_spaced [0, 5, -1]

theorem oneBurst_fits : ∀ l ∈ oneBurst, Fits l :=
  List.forall_mem_singleton.mpr ⟨by decide, by decide, by decide⟩

theorem input_exact_one :
    (∃ r, readInput 0 (spaced [0, 5, -1]) = .ok r ∧ Stored oneBurst r) ↔ oneBurst = [] :=
  input_exact oneBurst_lines 0

/-- It is read, but nothing says how many bursts it has. -/
theorem input_lost : (∃ r, readInput 0 (spaced [0, 5, -1]) = .ok r ∧ Kept oneBurst r) ∧
    ¬ ∃ r, readInput 0 (spaced [0, 5, -1]) = .ok r ∧ Stored oneBurst r := by
  constructor
  · obtain ⟨r, hread, hloaded⟩ := input_loaded oneBurst_lines (by decide) oneBurst_fits 0
    exact ⟨r, hread, hloaded.kept⟩
  · rintro ⟨r, hread, hstored⟩
    exact nomatch hstored.empty hread

end SjfInput
