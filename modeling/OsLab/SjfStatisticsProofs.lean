import OsLab.SjfServiceProofs

/-! # What a run records

    A finished run is the list of the states in which its turns start
    (`Finished`), and whatever one turn preserves holds in its final state
    (`Finished.inv`).  The records change in three places: the CPU part
    notes when a process is first taken and counts a unit of waiting on the
    turns of a busy CPU, and the closing check notes when a list is found
    empty (`turn_records`, `endTurn_last`). -/

namespace SjfStatistics

open OsLoop OsGantt SjfModel SjfTurn SjfService

/-! ## Finished runs -/

/-- The states in which the turns of a run start, up to one in `s`. -/
inductive Turns (lines : List Line) : List State → State → Prop
  | start {s : State} (hload : load lines = .ok s) : Turns lines [] s
  | turn {past : List State} {s s' : State} (h : Turns lines past s)
      (ht : tick s = .ok (.again s')) : Turns lines (past ++ [s]) s'

/-- The main loop ends in `s`, after turns that start in the states `past`. -/
def Finished (lines : List Line) (past : List State) (s : State) : Prop :=
  ∃ before last, Turns lines before last ∧ tick last = .ok (.done s) ∧ past = before ++ [last]

/-- The chart that the turns draw. -/
def chartOf (past : List State) : Chart := past.flatMap starts

section Run

variable {lines : List Line} {past : List State} {s : State}

/-- Every state the loop visits starts a turn. -/
theorem turns_of_visits {s₀ : State} (hload : load lines = .ok s₀) (h : Visits tick s₀ s) :
    ∃ past, Turns lines past s := by
  induction h with
  | refl => exact ⟨[], .start hload⟩
  | tail _ ht ih =>
      obtain ⟨past, hpast⟩ := ih
      exact ⟨_, .turn hpast ht⟩

theorem chartOf_snoc (past : List State) (s : State) :
    chartOf (past ++ [s]) = chartOf past ++ starts s := by
  rw [chartOf, List.flatMap_append, List.flatMap_singleton]
  rfl

/-- What one turn does, with the invariant before it. -/
structure TurnFrom (lines : List Line) (past : List State) (s s₁ s₂ : State) : Prop where
  inv : Inv lines (chartOf past) s
  turned : Turned s s₁ s₂

theorem TurnFrom.next (hwf : WellFormed lines) {s₁ s₂ : State} (h : TurnFrom lines past s s₁ s₂) :
    Inv lines (chartOf (past ++ [s])) (endTurn s₂) := by
  rw [chartOf_snoc]
  exact (inv_turn hwf h.inv h.turned).2

/-- A bar that a turn starts, starts then. -/
theorem starts_start {s₁ s₂ : State} {c : Bar BurstType Nat} (hc : c ∈ starts s)
    (hturn : Turned s s₁ s₂) : c.start = s.time := by
  rw [Turned.starts hturn] at hc
  rcases List.mem_append.mp hc with hc' | hc'
  · exact (mem_started hc').2.2
  · exact (mem_started hc').2.2

/-- Bars are bursts of the input, and none is empty. -/
theorem Inv.length_pos {chart : Chart} (hwf : WellFormed lines) (h : Inv lines chart s)
    {c : Bar BurstType Nat} (hc : c ∈ chart) : 0 < c.length := by
  obtain ⟨l, hl, -⟩ := h.arrived c hc
  have hmem : work c ∈ burstList l := by
    rw [← h.kept c.owner l hl]
    exact List.mem_append_left _ (List.mem_map_of_mem (mem_bars.mpr ⟨hc, rfl⟩))
  exact (burstList_range hwf hl hmem).1

/-- A turn takes one unit of time. -/
theorem TurnFrom.time {s₁ s₂ : State} (h : TurnFrom lines past s s₁ s₂) :
    (endTurn s₂).time = s.time + 1 := h.turned.endTime

/-- A turn leaves a list alone or starts a bar of its process. -/
theorem turn_bars (hwf : WellFormed lines) {s₁ s₂ : State} (h : TurnFrom lines past s s₁ s₂)
    {p : Nat} {l : Line} (hl : lines[p]? = some l) :
    (bars (starts s) p).map work ++ ((endTurn s₂).proc p).map kind = (s.proc p).map kind := by
  have hnext := (h.next hwf).kept p l hl
  rw [chartOf_snoc, bars_append, List.map_append, List.append_assoc,
    ← h.inv.kept p l hl] at hnext
  exact List.append_cancel_left hnext

variable {I : List State → State → Prop}

/-- **RUN RULE**, for the states between two turns. -/
theorem Turns.inv (hwf : WellFormed lines) (hstart : I [] (loaded lines))
    (hstep : ∀ past s s₁ s₂, TurnFrom lines past s s₁ s₂ → I past s →
      I (past ++ [s]) (endTurn s₂)) (h : Turns lines past s) :
    Inv lines (chartOf past) s ∧ I past s := by
  induction h with
  | start hload =>
      obtain ⟨-, rfl⟩ := load_ok.mp hload
      exact ⟨inv_loaded lines, hstart⟩
  | turn _ htick ih =>
      obtain ⟨hinv, hI⟩ := ih
      obtain ⟨s₁, s₂, ht, heq⟩ := tick_spec hinv.cpu.named hinv.io.named
      have hfrom : TurnFrom lines _ _ s₁ s₂ := ⟨hinv, ht⟩
      obtain ⟨rfl, -, -⟩ := ending_again (heq.symm.trans htick)
      exact ⟨hfrom.next hwf, hstep _ _ _ _ hfrom hI⟩

/-- **RUN RULE**: what every turn preserves holds when the loop has ended. -/
theorem Finished.inv (hwf : WellFormed lines) (hstart : I [] (loaded lines))
    (hstep : ∀ past s s₁ s₂, TurnFrom lines past s s₁ s₂ → I past s →
      I (past ++ [s]) (endTurn s₂)) (h : Finished lines past s) :
    Inv lines (chartOf past) s ∧ Consumed s ∧ I past s := by
  obtain ⟨before, last, hbefore, hdone, rfl⟩ := h
  obtain ⟨hinv, hI⟩ := Turns.inv hwf hstart hstep hbefore
  obtain ⟨s₁, s₂, ht, heq⟩ := tick_spec hinv.cpu.named hinv.io.named
  have hfrom : TurnFrom lines _ _ s₁ s₂ := ⟨hinv, ht⟩
  obtain ⟨rfl, -, hall⟩ := ending_done (heq.symm.trans hdone)
  exact ⟨hfrom.next hwf, hall, hstep _ _ _ _ hfrom hI⟩

end Run

/-! ## The records -/

/-- The letter at the head of a list. -/
def headType (s : State) (p : Nat) : Option BurstType := (s.proc p).head?.map ProcessNode.type

/-- The CPU takes `p` in the turn from `s`. -/
def Takes (s : State) (p : Nat) : Prop := s.cpu.idle = true ∧ cpuNext s = some p

instance (s : State) (p : Nat) : Decidable (Takes s p) :=
  inferInstanceAs (Decidable (_ ∧ _))

/-- `update` counts a unit of waiting for `p` in the turn from `s`. -/
def Counted (s : State) (p : Nat) : Prop :=
  s.cpu.idle = false ∧ p < s.j ∧ Arrived s p ∧ headType s p = some .C

instance (s : State) (p : Nat) : Decidable (Arrived s p) :=
  inferInstanceAs (Decidable (∀ q ≤ p, _))

instance (s : State) (p : Nat) : Decidable (Counted s p) :=
  inferInstanceAs (Decidable (_ ∧ _ ∧ _ ∧ _))

/-- What a turn does to the record of `p`, but for the closing check. -/
structure Records (s s' : State) (p : Nat) : Prop where
  last : (s'.processLog p).lastTime = (s.processLog p).lastTime
  service : (s'.processLog p).serviceTime = (s.processLog p).serviceTime
  first : (s'.processLog p).firstTime =
    if Takes s p ∧ (s.processLog p).firstTime = -1 then s.time else (s.processLog p).firstTime
  waiting : (s'.processLog p).waitingTime =
    (s.processLog p).waitingTime + if Counted s p then 1 else 0

section Records

variable {s : State} {p : Nat}

@[simp] theorem setLog_self (f : ProcessLogNode → ProcessLogNode) :
    (s.setLog p f).processLog p = f (s.processLog p) := Function.update_self ..

@[simp] theorem setLog_ne {r : Nat} (hp : p ≠ r) (f : ProcessLogNode → ProcessLogNode) :
    (s.setLog r f).processLog p = s.processLog p := Function.update_of_ne hp ..

/-- `update` writes nothing but waiting times. -/
theorem updateFrom_field (g : ProcessLogNode → Int)
    (hg : ∀ n, g { n with waitingTime := n.waitingTime + 1 } = g n) (rs : List Nat) :
    ∀ s : State, g ((updateFrom rs s).processLog p) = g (s.processLog p) := by
  induction rs with
  | nil => exact fun _ => rfl
  | cons r rs ih =>
      intro s
      rw [updateFrom]
      split
      · rfl
      · split
        · exact ih s
        · split
          · rw [ih]
            by_cases hp : p = r
            · rw [hp, setLog_self, hg]
            · rw [setLog_ne hp]
          · exact ih s

/-- The loop of `update` over `m` processes from `k` on gets to `p`, and
    counts it. -/
def CountedFrom (s : State) (k m p : Nat) : Prop :=
  k ≤ p ∧ p < k + m ∧ (∀ q, k ≤ q → q ≤ p → (s.processLog q).arrivalTime ≤ s.time) ∧
    headType s p = some .C

/-- The rest of the loop counts the processes behind `k`. -/
theorem countedFrom_succ {k m : Nat} (hk : (s.processLog k).arrivalTime ≤ s.time) (hp : p ≠ k) :
    CountedFrom s k (m + 1) p ↔ CountedFrom s (k + 1) m p := by
  constructor
  · rintro ⟨hkp, hpm, harr, hhead⟩
    exact ⟨by omega, by omega, fun q hkq hqp => harr q (by omega) hqp, hhead⟩
  · rintro ⟨hkp, hpm, harr, hhead⟩
    refine ⟨by omega, by omega, fun q hkq hqp => ?_, hhead⟩
    rcases Nat.eq_or_lt_of_le hkq with rfl | hlt
    · exact hk
    · exact harr q hlt hqp

/-- And does not look at those before it. -/
theorem not_countedFrom {k m : Nat} (hp : p < k) : ¬ CountedFrom s k m p := fun h =>
  absurd h.1 (Nat.not_le.mpr hp)

/-- **`update`** counts the arrived processes whose next burst is for the
    CPU. -/
theorem updateFrom_waiting (m : Nat) : ∀ (k : Nat) (s : State),
    (CountedFrom s k m p → ((updateFrom (List.range' k m) s).processLog p).waitingTime =
      (s.processLog p).waitingTime + 1) ∧
    (¬ CountedFrom s k m p → ((updateFrom (List.range' k m) s).processLog p).waitingTime =
      (s.processLog p).waitingTime) := by
  induction m with
  | zero =>
      refine fun k s => ⟨fun h => ?_, fun _ => rfl⟩
      have hlow := h.1
      have hhigh := h.2.1
      omega
  | succ m ih =>
      intro k s
      rw [List.range'_succ, updateFrom]
      by_cases hlate : (s.processLog k).arrivalTime > s.time
      -- the loop breaks off here
      · rw [if_pos hlate]
        refine ⟨fun h => absurd (h.2.2.1 k (le_refl k) h.1) (not_le.mpr hlate), fun _ => rfl⟩
      · rw [if_neg hlate]
        have harr : (s.processLog k).arrivalTime ≤ s.time := not_lt.mp hlate
        -- a turn that leaves the record of `k` alone
        have hskip : headType s k ≠ some .C →
            (CountedFrom s k (m + 1) p →
              ((updateFrom (List.range' (k + 1) m) s).processLog p).waitingTime =
                (s.processLog p).waitingTime + 1) ∧
            (¬ CountedFrom s k (m + 1) p →
              ((updateFrom (List.range' (k + 1) m) s).processLog p).waitingTime =
                (s.processLog p).waitingTime) := by
          intro hhead
          by_cases hp : p = k
          · subst hp
            exact ⟨fun h => absurd h.2.2.2 hhead,
              fun _ => (ih (p + 1) s).2 (not_countedFrom (Nat.lt_succ_self p))⟩
          · rw [countedFrom_succ harr hp]
            exact ih (k + 1) s
        cases hproc : s.proc k with
        | nil =>
            refine hskip (fun hhead => ?_)
            rw [headType, hproc] at hhead
            cases hhead
        | cons node next =>
            have hheadk : headType s k = some node.type := by
              rw [headType, hproc]
              rfl
            by_cases htype : node.type = .C
            · simp only [if_pos htype]
              have hih := ih (k + 1) (s.setLog k (fun n => { n with waitingTime := n.waitingTime + 1 }))
              have hsame : CountedFrom (s.setLog k (fun n =>
                  { n with waitingTime := n.waitingTime + 1 })) (k + 1) m p ↔
                  CountedFrom s (k + 1) m p := by
                have hlog : ∀ q, ((s.setLog k (fun n =>
                    { n with waitingTime := n.waitingTime + 1 })).processLog q).arrivalTime =
                      (s.processLog q).arrivalTime := arrival_update rfl
                rw [CountedFrom, CountedFrom]
                simp only [hlog]
                rfl
              rw [hsame] at hih
              by_cases hp : p = k
              · subst hp
                rw [hih.2 (not_countedFrom (Nat.lt_succ_self p)), setLog_self]
                refine ⟨fun _ => rfl, fun hno => absurd ⟨le_refl p, by omega, ?_, ?_⟩ hno⟩
                · intro q hpq hqp
                  obtain rfl : q = p := by omega
                  exact harr
                · rw [hheadk, htype]
              · rw [setLog_ne hp] at hih
                rw [countedFrom_succ harr hp]
                exact hih
            · simp only [if_neg htype]
              exact hskip (fun hhead => htype (Option.some.inj (hheadk.symm.trans hhead)))

theorem update_waiting : ((update s).processLog p).waitingTime =
    (s.processLog p).waitingTime + if p < s.j ∧ Arrived s p ∧ headType s p = some .C then 1 else 0 := by
  have hiff : CountedFrom s 0 s.j p ↔ p < s.j ∧ Arrived s p ∧ headType s p = some .C := by
    constructor
    · rintro ⟨-, hp, harr, hhead⟩
      exact ⟨by omega, fun q hq => harr q (Nat.zero_le q) hq, hhead⟩
    · rintro ⟨hp, harr, hhead⟩
      exact ⟨Nat.zero_le p, by omega, fun q _ hq => harr q hq, hhead⟩
  have hloop := updateFrom_waiting (p := p) s.j 0 s
  rw [← List.range_eq_range', hiff] at hloop
  by_cases hc : p < s.j ∧ Arrived s p ∧ headType s p = some .C
  · rw [if_pos hc]
    exact hloop.1 hc
  · rw [if_neg hc, Int.add_zero]
    exact hloop.2 hc

/-- A note in one record leaves what it does not write. -/
theorem setLog_field (g : ProcessLogNode → Int) {r : Nat} {f : ProcessLogNode → ProcessLogNode}
    (hg : ∀ n, g (f n) = g n) :
    g ((s.setLog r f).processLog p) = g (s.processLog p) := by
  by_cases hp : p = r
  · rw [hp, setLog_self, hg]
  · rw [setLog_ne hp]

/-- The I/O part writes states only. -/
theorem ioPart_field (g : ProcessLogNode → Int) (hg : ∀ n v, g { n with status := v } = g n)
    {flagPid : Option Nat} {s' : State} (h : ioPart s flagPid = .ok s') :
    g (s'.processLog p) = g (s.processLog p) := by
  rw [ioPart] at h
  split at h
  · split at h
    · cases h
      rfl
    · split at h
      · cases h
      · cases h
        exact setLog_field g (fun n => hg n _)
  · split at h
    · split at h
      · cases h
      · cases h
        exact setLog_field g (fun n => hg n _)
    · cases h
      rfl

/-- Only the records count. -/
theorem Records.of_log {s' s'' : State} (h : Records s s' p)
    (hlog : s''.processLog = s'.processLog) : Records s s'' p :=
  ⟨by rw [hlog, h.last], by rw [hlog, h.service], by rw [hlog, h.first], by rw [hlog, h.waiting]⟩

theorem Records.status {s' : State} (h : Records s s' p) (q : Nat) (v : Int) :
    Records s (s'.setLog q (fun n => { n with status := v })) p := by
  have hkeep : ∀ g : ProcessLogNode → Int, (∀ n, g { n with status := v } = g n) →
      g ((s'.setLog q (fun n => { n with status := v })).processLog p) = g (s'.processLog p) :=
    fun g hg => setLog_field g hg
  exact ⟨(hkeep ProcessLogNode.lastTime (fun _ => rfl)).trans h.last,
    (hkeep ProcessLogNode.serviceTime (fun _ => rfl)).trans h.service,
    (hkeep ProcessLogNode.firstTime (fun _ => rfl)).trans h.first,
    (hkeep ProcessLogNode.waitingTime (fun _ => rfl)).trans h.waiting⟩

theorem not_counted (hidle : s.cpu.idle = true) : ¬ Counted s p := fun hc =>
  Bool.false_ne_true (hc.1.symm.trans hidle)

theorem not_takes (hbusy : s.cpu.idle = false) : ¬ Takes s p := fun ht =>
  Bool.false_ne_true (hbusy.symm.trans ht.1)

/-- Nothing is noted when the idle CPU does not take the process. -/
theorem records_idle (hidle : s.cpu.idle = true) (hnext : cpuNext s ≠ some p) :
    Records s s p where
  last := rfl
  service := rfl
  first := (if_neg (fun ht : Takes s p ∧ _ => hnext ht.1.2)).symm
  waiting := by rw [if_neg (not_counted hidle), Int.add_zero]

/-- The idle CPU takes a process, and notes the time if it is the first. -/
theorem records_take {q : Nat} (hidle : s.cpu.idle = true) (hnext : cpuNext s = some q) :
    Records s (s.setLog q (fun n => { n with
      status := 2
      firstTime := if n.firstTime = -1 then s.time else n.firstTime })) p := by
  by_cases hp : p = q
  · subst hp
    have htakes : Takes s p := ⟨hidle, hnext⟩
    have hfirst : (if (s.processLog p).firstTime = -1 then s.time else (s.processLog p).firstTime) =
        if Takes s p ∧ (s.processLog p).firstTime = -1 then s.time
        else (s.processLog p).firstTime :=
      if_congr (and_iff_right htakes).symm rfl rfl
    refine ⟨by rw [setLog_self], by rw [setLog_self], by rw [setLog_self, ← hfirst], ?_⟩
    rw [setLog_self, if_neg (not_counted hidle), Int.add_zero]
  · have hsame := records_idle (p := p) hidle
      (fun h => hp (Option.some.inj (h.symm.trans hnext)))
    exact ⟨by rw [setLog_ne hp], by rw [setLog_ne hp], by rw [setLog_ne hp]; exact hsame.first,
      by rw [setLog_ne hp]; exact hsame.waiting⟩

/-- A busy CPU lets the others wait. -/
theorem records_update (hbusy : s.cpu.idle = false) : Records s (update s) p where
  last := updateFrom_field ProcessLogNode.lastTime (fun _ => rfl) _ s
  service := updateFrom_field ProcessLogNode.serviceTime (fun _ => rfl) _ s
  first := by
    rw [if_neg (fun ht => not_takes hbusy ht.1)]
    exact updateFrom_field ProcessLogNode.firstTime (fun _ => rfl) _ s
  waiting := by
    rw [update_waiting]
    exact congrArg _ (if_congr (and_iff_right hbusy).symm rfl rfl)

/-- The CPU part notes when a process is first taken, and on a busy CPU who
    waits. -/
theorem cpuPart_records {s₁ : State} {flagPid : Option Nat}
    (h : cpuPart s = .ok (s₁, flagPid)) : Records s s₁ p := by
  rw [cpuPart] at h
  cases hidle : s.cpu.idle with
  | true =>
      rw [hidle, if_pos rfl] at h
      cases hnext : cpuNext s with
      | none =>
          rw [hnext] at h
          cases h
          exact records_idle hidle (fun hp => Option.some_ne_none p (hp.symm.trans hnext))
      | some q =>
          simp only [hnext] at h
          split at h
          · cases h
          · cases h
            exact (records_take hidle hnext).of_log rfl
  | false =>
      have hwait := records_update (p := p) hidle
      rw [hidle, if_neg Bool.false_ne_true] at h
      simp only at h
      split at h
      · split at h
        · cases h
        · cases h
          exact (hwait.status _ 1).of_log rfl
      · cases h
        exact hwait.of_log rfl

end Records

/-- **THE RECORDS OF A TURN**, before the closing check. -/
theorem turn_records {lines : List Line} {past : List State} {s s₁ s₂ : State}
    (h : TurnFrom lines past s s₁ s₂) (p : Nat) : Records s s₂ p := by
  have hcpu := cpuPart_records (p := p) h.turned.part₁
  exact ⟨(ioPart_field _ (fun _ _ => rfl) h.turned.part₂).trans hcpu.last,
    (ioPart_field _ (fun _ _ => rfl) h.turned.part₂).trans hcpu.service,
    (ioPart_field ProcessLogNode.firstTime (fun _ _ => rfl) h.turned.part₂).trans hcpu.first,
    (ioPart_field ProcessLogNode.waitingTime (fun _ _ => rfl) h.turned.part₂).trans hcpu.waiting⟩

/-- The closing check writes the time of completion and the state. -/
theorem endTurn_field (g : ProcessLogNode → Int)
    (hg : ∀ n v w, g { n with lastTime := v, status := w } = g n) (s : State) (p : Nat) :
    g ((endTurn s).processLog p) = g (s.processLog p) := by
  show g (if p < s.j ∧ s.proc p = [] then close (s.time + 1) s.cpu.timeLeft (s.processLog p)
    else s.processLog p) = _
  split
  · exact hg (s.processLog p) _ 4
  · rfl

theorem close_last (time timeLeft : Int) (n : ProcessLogNode) : (close time timeLeft n).lastTime =
    if n.lastTime < 0 then time - 1 + timeLeft else n.lastTime := rfl

/-- It notes a time when it finds the list empty for the first time. -/
theorem endTurn_last (s : State) (p : Nat) : ((endTurn s).processLog p).lastTime =
    if p < s.j ∧ s.proc p = [] ∧ (s.processLog p).lastTime < 0 then s.time + s.cpu.timeLeft
    else (s.processLog p).lastTime := by
  show (if p < s.j ∧ s.proc p = [] then close (s.time + 1) s.cpu.timeLeft (s.processLog p)
    else s.processLog p).lastTime = _
  by_cases hempty : p < s.j ∧ s.proc p = []
  · rw [if_pos hempty, close_last]
    by_cases hlast : (s.processLog p).lastTime < 0
    · have hall : p < s.j ∧ s.proc p = [] ∧ (s.processLog p).lastTime < 0 :=
        ⟨hempty.1, hempty.2, hlast⟩
      rw [if_pos hlast, if_pos hall]
      omega
    · rw [if_neg hlast, if_neg (fun h => hlast h.2.2)]
  · rw [if_neg hempty, if_neg (fun h => hempty ⟨h.1, h.2.1⟩)]

section Turn

variable {lines : List Line} {past : List State} {s s₁ s₂ : State}

/-- A turn notes the time for the process that the CPU takes first in it. -/
theorem turn_first (h : TurnFrom lines past s s₁ s₂) (p : Nat) :
    ((endTurn s₂).processLog p).firstTime =
      if Takes s p ∧ (s.processLog p).firstTime = -1 then s.time
      else (s.processLog p).firstTime := by
  rw [endTurn_field ProcessLogNode.firstTime (fun _ _ _ => rfl), (turn_records h p).first]

/-- It counts a unit of waiting for those that `update` counts. -/
theorem turn_waiting (h : TurnFrom lines past s s₁ s₂) (p : Nat) :
    ((endTurn s₂).processLog p).waitingTime =
      (s.processLog p).waitingTime + if Counted s p then 1 else 0 := by
  rw [endTurn_field ProcessLogNode.waitingTime (fun _ _ _ => rfl), (turn_records h p).waiting]

end Turn

/-! ## Counting turns -/

section Counters

variable {lines : List Line} {past : List State} {s s₁ s₂ : State}

/-- A step adds nothing to a list. -/
theorem step_mem {d d' : Device} {proc proc' : Nat → List ProcessNode} {next who : Option Nat}
    (h : Step d d' proc proc' next who) {q : Nat} {node : ProcessNode} (hn : node ∈ proc' q) :
    node ∈ proc q := by
  cases h with
  | rest hidle hnext hd hproc => exact hproc ▸ hn
  | take p n later hidle hnext hhead hd hproc =>
      rw [hproc] at hn
      by_cases hqp : q = p
      · rw [hqp, Function.update_self] at hn
        rw [hqp, hhead]
        exact List.mem_cons_of_mem n hn
      · rwa [Function.update_of_ne hqp] at hn
  | serve p hbusy hpid hleft hidle hkeep hproc => exact hproc ▸ hn

/-- No waiting time and no age is ahead of the clock. -/
structure Behind (s : State) : Prop where
  waiting : ∀ p, (s.processLog p).waitingTime ≤ s.time
  ages : ∀ p, ∀ node ∈ s.proc p, node.age ≤ s.time

theorem readBursts_age (vs : List Int) : ∀ (n : Nat) (head : List ProcessNode),
    (∀ node ∈ head, node.age = 0) → ∀ node ∈ readBursts n head vs, node.age = 0 := by
  induction vs with
  | nil => exact fun _ _ h => h
  | cons v vs ih =>
      intro n head h
      refine ih (n + 1) _ (fun node hnode => ?_)
      rcases List.mem_append.mp hnode with hold | hnew
      · exact h node hold
      · rw [List.mem_singleton.mp hnew]

theorem behind_loaded (lines : List Line) : Behind (loaded lines) where
  waiting := fun _ => le_refl _
  ages := fun _ node hnode =>
    (readBursts_age _ 0 [] (fun _ h => absurd h List.not_mem_nil) node hnode).le

theorem grow_age {ns : List ProcessNode} {t : Int} (h : ∀ node ∈ ns, node.age ≤ t) :
    ∀ node ∈ grow ns, node.age ≤ t + 1 := by
  cases ns with
  | nil => exact fun _ hnode => absurd hnode List.not_mem_nil
  | cons head next =>
      intro node hnode
      rw [grow] at hnode
      have hhead := h head List.mem_cons_self
      have hnext : ∀ n ∈ next, n.age ≤ t + 1 := fun n hn =>
        (h n (List.mem_cons_of_mem head hn)).trans (by omega)
      split at hnode
      · rcases List.mem_cons.mp hnode with rfl | hmem
        · show head.age + 1 ≤ t + 1
          omega
        · exact hnext node hmem
      · rcases List.mem_cons.mp hnode with rfl | hmem
        · omega
        · exact hnext node hmem

theorem behind_turn (h : TurnFrom lines past s s₁ s₂) (hb : Behind s) : Behind (endTurn s₂) where
  waiting := by
    intro p
    have hwait := hb.waiting p
    rw [turn_waiting h, h.time]
    split <;> omega
  ages := by
    intro p node hnode
    have hold : ∀ n ∈ s₂.proc p, n.age ≤ s.time := fun n hn =>
      hb.ages p n (step_mem h.turned.cpu (step_mem h.turned.io hn))
    rw [h.time]
    change node ∈ (if p < s₂.j then grow (s₂.proc p) else s₂.proc p) at hnode
    split at hnode
    · exact grow_age hold node hnode
    · exact (hold node hnode).trans (by omega)

/-- **THE COUNTERS STAY BEHIND THE CLOCK** in every turn of a run, so that the
    clock is the first of them that is no `int` any more. -/
theorem counters_le (hwf : WellFormed lines) (h : Turns lines past s) : Behind s :=
  (h.inv (I := fun _ s => Behind s) hwf (behind_loaded lines)
    (fun _ _ _ _ hturn hb => behind_turn hturn hb)).2

end Counters

/-! ## The statistics -/

/-- The statistics of a process. -/
theorem statistics_log {s r : State} (hr : statistics s = .ok r) {p : Nat} (hp : p < s.j) :
    r.processLog p = { s.processLog p with
      turnaroundTime := (s.processLog p).lastTime - (s.processLog p).arrivalTime
      responseTime := (s.processLog p).firstTime - (s.processLog p).arrivalTime } := by
  rw [statistics] at hr
  split at hr
  · cases hr
    exact if_pos hp
  · cases hr

end SjfStatistics
