import OsLab.SjfModelProofs

/-! # What a turn of the simulator does

    `find_next` answers with the best candidate, the one with the shortest
    head and the lowest pid among those (`findNext_spec`).

    The two devices do the same thing in their part of a turn: an idle
    device rests or takes the head of a list, a busy one serves one more
    unit (`Step`).  A turn is a step of the CPU, a step of the I/O device and
    the passing of time (`tick_spec`). -/

namespace SjfTurn

open OsLoop SjfModel

/-! ## Selection -/

/-- `r` has the least value, and the lowest number among those with it. -/
def Best (P : Nat → Prop) (v : Nat → Int) (r : Nat) : Prop :=
  P r ∧ ∀ q, P q → v r < v q ∨ (v r = v q ∧ r ≤ q)

theorem Best.unique {P : Nat → Prop} {v : Nat → Int} {r q : Nat} (hr : Best P v r)
    (hq : Best P v q) : r = q := by
  have h1 := hr.2 q hq.1
  have h2 := hq.2 r hr.1
  omega

/-- The length of the burst a process waits for. -/
def headVal (s : State) (r : Nat) : Int :=
  match s.proc r with
  | [] => 0
  | node :: _ => node.val

/-- `r` and the processes before it have arrived. -/
def Arrived (s : State) (r : Nat) : Prop := ∀ q ≤ r, (s.processLog q).arrivalTime ≤ s.time

/-- `find_next` considers process `r`. -/
def Candidate (s : State) (itype : BurstType) (r : Nat) : Prop :=
  r < s.j ∧ Arrived s r ∧
    (∃ node ∈ (s.proc r).head?, node.type = itype ∧ node.val < intMax) ∧
    (s.time = 0 ∨ some r ≠ s.cpu.currPid)

/-- What the scan knows once it has been through the pids below `k`. -/
def Scanned (s : State) (itype : BurstType) (k : Nat) (l : Least) : Prop :=
  (l.ind = none ∧ l.bt = intMax ∧ ∀ q < k, ¬ Candidate s itype q) ∨
  ∃ r, l.ind = some r ∧ l.bt = headVal s r ∧
    Best (fun q => q < k ∧ Candidate s itype q) (headVal s) r

section Select

variable {s : State} {itype : BurstType} {k : Nat} {l : Least}

theorem headVal_cons {r : Nat} {node : ProcessNode} {next : List ProcessNode}
    (h : s.proc r = node :: next) : headVal s r = node.val := by
  rw [headVal, h]

/-- A candidate has a head, and that head is short. -/
theorem Candidate.cons {r : Nat} (h : Candidate s itype r) :
    ∃ node next, s.proc r = node :: next ∧ node.type = itype ∧ node.val < intMax := by
  obtain ⟨-, -, ⟨node, hhead, htype, hval⟩, -⟩ := h
  cases hp : s.proc r with
  | nil => rw [hp] at hhead; exact nomatch hhead
  | cons n next =>
      rw [hp] at hhead
      obtain rfl : n = node := Option.some.inj hhead
      exact ⟨n, next, rfl, htype, hval⟩

/-- A process that is no candidate, and those that follow it. -/
theorem Scanned.skip (h : Scanned s itype k l) {n : Nat} (hkn : k ≤ n)
    (hno : ∀ q, k ≤ q → q < n → ¬ Candidate s itype q) : Scanned s itype n l := by
  have hlow : ∀ q, q < n → Candidate s itype q → q < k := fun q hq hc =>
    Nat.not_le.mp (fun hkq => hno q hkq hq hc)
  rcases h with ⟨h1, h2, h3⟩ | ⟨r, h1, h2, ⟨hr, hc⟩, hbest⟩
  · exact Or.inl ⟨h1, h2, fun q hq hc => h3 q (hlow q hq hc) hc⟩
  · refine Or.inr ⟨r, h1, h2, ⟨lt_of_lt_of_le hr hkn, hc⟩, fun q hq => ?_⟩
    exact hbest q ⟨hlow q hq.1 hq.2, hq.2⟩

theorem Scanned.small (h : Scanned s itype k l) : l.bt ≤ intMax := by
  rcases h with ⟨-, h2, -⟩ | ⟨r, -, h2, ⟨-, hc⟩, -⟩
  · exact le_of_eq h2
  · obtain ⟨node, next, hp, -, hval⟩ := hc.cons
    rw [h2, headVal_cons hp]
    exact le_of_lt hval

/-- A candidate with a shorter head is the new best. -/
theorem Scanned.better (h : Scanned s itype k l) (hc : Candidate s itype k)
    (hlt : headVal s k < l.bt) (age : Int) :
    Scanned s itype (k + 1) { bt := headVal s k, ind := some k, age := age } := by
  refine Or.inr ⟨k, rfl, rfl, ⟨Nat.lt_succ_self k, hc⟩, fun q hq => ?_⟩
  by_cases hqk : q = k
  · exact Or.inr ⟨by rw [hqk], by omega⟩
  · have hq' : q < k := by have := hq.1; omega
    rcases h with ⟨-, -, h3⟩ | ⟨r, -, h2, -, hbest⟩
    · exact absurd hq.2 (h3 q hq')
    · have hqr := hbest q ⟨hq', hq.2⟩
      rw [h2] at hlt
      exact Or.inl (by omega)

/-- A candidate whose head is not shorter changes nothing. -/
theorem Scanned.worse (h : Scanned s itype k l)
    (hge : Candidate s itype k → l.bt ≤ headVal s k) : Scanned s itype (k + 1) l := by
  by_cases hc : Candidate s itype k
  · have hbt := hge hc
    rcases h with ⟨-, h2, -⟩ | ⟨r, h1, h2, ⟨hr, hcr⟩, hbest⟩
    · obtain ⟨node, next, hp, -, hval⟩ := hc.cons
      rw [headVal_cons hp, h2] at hbt
      exact absurd hval (not_lt.mpr hbt)
    · refine Or.inr ⟨r, h1, h2, ⟨Nat.lt_succ_of_lt hr, hcr⟩, fun q hq => ?_⟩
      by_cases hqk : q = k
      · rw [hqk, ← h2]
        omega
      · exact hbest q ⟨by have := hq.1; omega, hq.2⟩
  · refine Scanned.skip h (Nat.le_succ k) (fun q hkq hq => ?_)
    -- the range that is skipped is `k` alone
    obtain rfl : q = k := by omega
    exact hc

/-- **THE SCAN** ends with the best candidate. -/
theorem scan_spec (m : Nat) : ∀ {k : Nat} {l : Least}, k + m = s.j →
    (∀ q < k, (s.processLog q).arrivalTime ≤ s.time) → Scanned s itype k l →
    Scanned s itype s.j (scan s itype (List.range' k m) l) := by
  -- on the processes still to be looked at; `Scanned` is the invariant
  induction m with
  | zero => intro k l hk _ h; exact hk ▸ h
  | succ m ih =>
      intro k l hk harr h
      rw [List.range'_succ, scan]
      by_cases hlate : (s.processLog k).arrivalTime > s.time
      -- the loop breaks off here, and nobody from `k` on is a candidate
      · rw [if_pos hlate]
        refine Scanned.skip h (by omega) (fun q hkq _ hc => ?_)
        exact absurd (hc.2.1 k hkq) (not_le.mpr hlate)
      · rw [if_neg hlate]
        have harr' : ∀ q < k + 1, (s.processLog q).arrivalTime ≤ s.time := by
          intro q hq
          by_cases hqk : q = k
          · rw [hqk]; exact not_lt.mp hlate
          · exact harr q (by omega)
        cases hp : s.proc k with
        | nil =>
            refine ih (by omega) harr' (Scanned.worse h (fun hc => ?_))
            obtain ⟨node, next, hp', -⟩ := hc.cons
            rw [hp] at hp'
            exact nomatch hp'
        | cons node next =>
            have hval : headVal s k = node.val := headVal_cons hp
            by_cases hcond : node.val < l.bt ∧ node.type = itype ∧
                (s.time = 0 ∨ some k ≠ s.cpu.currPid)
            · have hc : Candidate s itype k := by
                refine ⟨by omega, fun q hq => harr' q (by omega), ⟨node, ?_, hcond.2.1, ?_⟩,
                  hcond.2.2⟩
                · rw [hp]; rfl
                · exact lt_of_lt_of_le hcond.1 h.small
              have hbetter := fun age => Scanned.better h hc (hval ▸ hcond.1) age
              rw [hval] at hbetter
              -- the age is stored with the best, and never decides
              simp only [if_pos hcond]
              split
              · exact ih (by omega) harr' (hbetter _)
              · exact ih (by omega) harr' (hbetter _)
            · simp only [if_neg hcond]
              refine ih (by omega) harr' (Scanned.worse h (fun hc => ?_))
              obtain ⟨node', next', hp', htype, -⟩ := hc.cons
              rw [hp] at hp'
              obtain ⟨rfl, -⟩ := List.cons.inj hp'
              rw [hval]
              exact not_lt.mp (fun hlt => hcond ⟨hlt, htype, hc.2.2.2⟩)

/-- **`find_next`** answers with the best candidate, if there is one. -/
theorem findNext_spec (s : State) (itype : BurstType) :
    (∃ r, findNext s itype = some r ∧ Best (Candidate s itype) (headVal s) r) ∨
    (findNext s itype = none ∧ ∀ q, ¬ Candidate s itype q) := by
  have hscan : Scanned s itype s.j
      (scan s itype (List.range s.j) { bt := intMax, ind := none, age := intMax }) := by
    rw [List.range_eq_range']
    refine scan_spec s.j (Nat.zero_add _) (fun q hq => absurd hq (Nat.not_lt_zero q)) ?_
    exact Or.inl ⟨rfl, rfl, fun q hq => absurd hq (Nat.not_lt_zero q)⟩
  rcases hscan with ⟨h1, -, h3⟩ | ⟨r, h1, -, hr, hbest⟩
  · exact Or.inr ⟨h1, fun q hc => h3 q hc.1 hc⟩
  · exact Or.inl ⟨r, h1, hr.2, fun q hc => hbest q ⟨hc.1, hc⟩⟩

theorem findNext_some {r : Nat} (h : findNext s itype = some r) :
    Best (Candidate s itype) (headVal s) r := by
  rcases findNext_spec s itype with ⟨q, hq, hbest⟩ | ⟨hnone, -⟩
  · obtain rfl : r = q := Option.some.inj (h.symm.trans hq)
    exact hbest
  · rw [h] at hnone
    exact nomatch hnone

theorem cpuNext_some {r : Nat} : cpuNext s = some r ↔ findNext s .C = some r ∧
    ¬ (s.ioDevice.currPid = some r ∧ 1 ≤ s.ioDevice.timeLeft) := by
  rw [cpuNext]
  cases hf : findNext s .C with
  | none => simp
  | some q =>
      by_cases hio : some q = s.ioDevice.currPid ∧ s.ioDevice.timeLeft ≥ 1
      · simp only [if_pos hio]
        refine ⟨fun h => absurd h (Option.some_ne_none r).symm, fun h => ?_⟩
        obtain rfl : q = r := Option.some.inj h.1
        exact absurd ⟨hio.1.symm, hio.2⟩ h.2
      · simp only [if_neg hio]
        refine ⟨fun h => ⟨h, fun hr => hio ?_⟩, fun h => h.1⟩
        obtain rfl : q = r := Option.some.inj h
        exact ⟨hr.1.symm, hr.2⟩

theorem ioNext_some {flagPid : Option Nat} {r : Nat} :
    ioNext s flagPid = some r ↔ findNext s .I = some r ∧ flagPid ≠ some r := by
  rw [ioNext]
  cases hf : findNext s .I with
  | none => simp
  | some q =>
      by_cases hflag : flagPid = some q
      · simp only [if_pos hflag]
        refine ⟨fun h => absurd h (Option.some_ne_none r).symm, fun h => absurd ?_ h.2⟩
        obtain rfl : q = r := Option.some.inj h.1
        exact hflag
      · simp only [if_neg hflag]
        refine ⟨fun h => ⟨h, ?_⟩, fun h => h.1⟩
        obtain rfl : q = r := Option.some.inj h
        exact hflag

end Select

/-! ## The two devices -/

/-- What a device does in its part of a turn, and the process it serves;
    `next` is the process it takes when it is idle. -/
inductive Step (d d' : Device) (proc proc' : Nat → List ProcessNode) (next : Option Nat) :
    Option Nat → Prop
  | rest (hidle : d.idle = true) (hnext : next = none) (hd : d' = d) (hproc : proc' = proc) :
      Step d d' proc proc' next none
  | take (p : Nat) (node : ProcessNode) (later : List ProcessNode) (hidle : d.idle = true)
      (hnext : next = some p) (hhead : proc p = node :: later) (hd : d' = takeBurst p node)
      (hproc : proc' = Function.update proc p later) : Step d d' proc proc' next (some p)
  | serve (p : Nat) (hbusy : d.idle = false) (hpid : d.currPid = some p)
      (hleft : d'.timeLeft = d.timeLeft - 1) (hidle : d'.idle = decide (d.timeLeft = 1))
      (hkeep : d.timeLeft ≠ 1 → d'.currPid = some p) (hproc : proc' = proc) :
      Step d d' proc proc' next (some p)

/-- The clock and the arrival times agree. -/
structure SameClock (s s' : State) : Prop where
  j : s'.j = s.j
  time : s'.time = s.time
  arrival : ∀ r, (s'.processLog r).arrivalTime = (s.processLog r).arrivalTime

/-- A device in service names its process. -/
def Named (d : Device) : Prop := d.idle = false → ∃ p, d.currPid = some p

/-- The process the CPU serves in the turn from `s`. -/
def onCpu (s : State) : Option Nat := if s.cpu.idle then cpuNext s else s.cpu.currPid

/-- The process the I/O device serves, after the CPU part. -/
def ioServes (s : State) (flagPid : Option Nat) : Option Nat :=
  if s.ioDevice.idle then ioNext s flagPid else s.ioDevice.currPid

/-- The process the I/O device serves in the turn from `s`. -/
def onIo (s : State) : Option Nat :=
  match cpuPart s with
  | .error _ => none
  | .ok served => ioServes served.1 served.2

section Parts

variable {s : State}

/-- **THE CPU PART** of a turn: `flag_pid` is the process that is served. -/
theorem cpuPart_spec (hnamed : Named s.cpu) : ∃ s', cpuPart s = .ok (s', onCpu s) ∧
    SameClock s s' ∧ s'.ioDevice = s.ioDevice ∧
    Step s.cpu s'.cpu s.proc s'.proc (cpuNext s) (onCpu s) := by
  rw [cpuPart, onCpu]
  cases hidle : s.cpu.idle with
  | true =>
      simp only [if_true]
      cases hnext : cpuNext s with
      | none => exact ⟨s, rfl, ⟨rfl, rfl, fun _ => rfl⟩, rfl, .rest hidle rfl rfl rfl⟩
      | some p =>
          obtain ⟨node, later, hp, -⟩ := (findNext_some (cpuNext_some.mp hnext).1).1.cons
          simp only [hp]
          refine ⟨_, rfl, ⟨rfl, rfl, ?_⟩, rfl, .take p node later hidle rfl hp rfl rfl⟩
          exact arrival_update rfl
  | false =>
      -- a busy CPU lets the others wait for a unit, and then counts it down
      obtain ⟨p, hpid⟩ := hnamed hidle
      have hsame := update_same s
      simp only [Bool.false_eq_true, if_false, hpid]
      by_cases hlast : s.cpu.timeLeft = 1
      · simp only [if_pos hlast]
        have hready : SameLists (update s) ((update s).setLog p
            (fun n => { n with status := 1 })) := setLog_same (fun _ => rfl)
        refine ⟨_, rfl, ⟨hsame.j, hsame.time, (hsame.trans hready).arrival⟩, hsame.ioDevice, ?_⟩
        exact .serve p hidle hpid rfl (decide_eq_true hlast).symm (fun h => absurd hlast h)
          hsame.proc
      · simp only [if_neg hlast]
        refine ⟨_, rfl, ⟨hsame.j, hsame.time, hsame.arrival⟩, hsame.ioDevice, ?_⟩
        exact .serve p hidle hpid rfl (hidle.trans (decide_eq_false hlast).symm) (fun _ => rfl)
          hsame.proc

/-- **THE I/O PART** of a turn. -/
theorem ioPart_spec (hnamed : Named s.ioDevice) (flagPid : Option Nat) :
    ∃ s', ioPart s flagPid = .ok s' ∧ SameClock s s' ∧ s'.cpu = s.cpu ∧
      Step s.ioDevice s'.ioDevice s.proc s'.proc (ioNext s flagPid) (ioServes s flagPid) := by
  rw [ioPart, ioServes]
  cases hidle : s.ioDevice.idle with
  | true =>
      simp only [if_true]
      cases hnext : ioNext s flagPid with
      | none => exact ⟨s, rfl, ⟨rfl, rfl, fun _ => rfl⟩, rfl, .rest hidle rfl rfl rfl⟩
      | some p =>
          obtain ⟨node, later, hp, -⟩ := (findNext_some (ioNext_some.mp hnext).1).1.cons
          simp only [hp]
          refine ⟨_, rfl, ⟨rfl, rfl, ?_⟩, rfl, .take p node later hidle rfl hp rfl rfl⟩
          exact arrival_update rfl
  | false =>
      obtain ⟨p, hpid⟩ := hnamed hidle
      simp only [Bool.false_eq_true, if_false, hpid]
      by_cases hlast : s.ioDevice.timeLeft = 1
      · simp only [if_pos hlast]
        refine ⟨_, rfl, ⟨rfl, rfl, ?_⟩, rfl, ?_⟩
        · exact arrival_update rfl
        · exact .serve p hidle hpid rfl (decide_eq_true hlast).symm (fun h => absurd hlast h) rfl
      · simp only [if_neg hlast]
        refine ⟨_, rfl, ⟨rfl, rfl, fun _ => rfl⟩, rfl, ?_⟩
        exact .serve p hidle hpid rfl (hidle.trans (decide_eq_false hlast).symm) (fun _ => rfl)
          rfl

/-- A turn from `s`: the state after the CPU part and after the I/O part. -/
structure Turned (s s₁ s₂ : State) : Prop where
  clock₁ : SameClock s s₁
  clock₂ : SameClock s₁ s₂
  io₁ : s₁.ioDevice = s.ioDevice
  cpu₂ : s₂.cpu = s₁.cpu
  cpu : Step s.cpu s₁.cpu s.proc s₁.proc (cpuNext s) (onCpu s)
  io : Step s.ioDevice s₂.ioDevice s₁.proc s₂.proc (ioNext s₁ (onCpu s)) (onIo s)
  part₁ : cpuPart s = .ok (s₁, onCpu s)
  part₂ : ioPart s₁ (onCpu s) = .ok s₂

/-- How the turn ends, once both devices have done their part. -/
def ending (s₂ : State) : Except Fault (OsLoop.Turn State State) :=
  if Overflows s₂ then .error .overflow
  else if Consumed (endTurn s₂) then .ok (.done (endTurn s₂))
  else .ok (.again (endTurn s₂))

theorem Turned.time {s₁ s₂ : State} (h : Turned s s₁ s₂) : s₂.time = s.time :=
  h.clock₂.time.trans h.clock₁.time

theorem Turned.endTime {s₁ s₂ : State} (h : Turned s s₁ s₂) :
    (endTurn s₂).time = s.time + 1 := by
  show s₂.time + 1 = s.time + 1
  rw [h.time]

/-- **ONE TURN**: a step of each device, and time passes. -/
theorem tick_spec (hcpu : Named s.cpu) (hio : Named s.ioDevice) :
    ∃ s₁ s₂, Turned s s₁ s₂ ∧ tick s = ending s₂ := by
  obtain ⟨s₁, hpart, hclock, hio₁, hstep⟩ := cpuPart_spec hcpu
  obtain ⟨s₂, hpart₂, hclock₂, hcpu₂, hstep₂⟩ := ioPart_spec (hio₁ ▸ hio) (onCpu s)
  have honIo : onIo s = ioServes s₁ (onCpu s) := by rw [onIo, hpart]
  refine ⟨s₁, s₂, ⟨hclock, hclock₂, hio₁, hcpu₂, hstep, ?_, hpart, hpart₂⟩, ?_⟩
  · rw [honIo, ← hio₁]
    exact hstep₂
  · rw [tick, hpart]
    show (ioPart s₁ (onCpu s) >>= fun s₂ => _) = _
    rw [hpart₂]
    rfl

/-- A turn that goes on, or leaves the loop, overflows nowhere. -/
theorem ending_again {s₂ s' : State} (h : ending s₂ = .ok (.again s')) :
    s' = endTurn s₂ ∧ ¬ Overflows s₂ ∧ ¬ Consumed (endTurn s₂) := by
  rw [ending] at h
  split at h
  · cases h
  next hfits =>
  split at h
  · cases h
  next hleft =>
  cases h
  exact ⟨rfl, hfits, hleft⟩

theorem ending_done {s₂ s' : State} (h : ending s₂ = .ok (.done s')) :
    s' = endTurn s₂ ∧ ¬ Overflows s₂ ∧ Consumed (endTurn s₂) := by
  rw [ending] at h
  split at h
  · cases h
  next hfits =>
  split at h
  · next hall =>
      cases h
      exact ⟨rfl, hfits, hall⟩
  · cases h

end Parts

end SjfTurn
