import OsLab.SjfDispatchProofs
import OsLab.SjfStatisticsProofs

/-! # Whether the waiting time is the time spent waiting

    `update` runs on the turns of a busy CPU only, and looks at the head of
    a list and not at where the process is.  So it counts the units of an
    I/O burst that is followed by a CPU burst (`Overcounted`), and misses
    the turns of an idle CPU, in which it takes somebody else or nobody
    (`Missed`).  The waiting time is right when the two make up for each
    other (`waiting_exact`). -/

namespace SjfWaiting

open OsLoop OsGantt SjfModel SjfTurn SjfService SjfStatistics

/-- In the turn from `s` the process `p` has arrived, its next burst is for
    the CPU, and neither device serves it. -/
def Waits (s : State) (p : Nat) : Prop :=
  p < s.j ∧ (s.processLog p).arrivalTime ≤ s.time ∧ headType s p = some .C ∧
    onIo s ≠ some p ∧ onCpu s ≠ some p

/-- A turn of a busy CPU in which `p` is in I/O service, with a CPU burst to
    follow. -/
def Overcounted (s : State) (p : Nat) : Prop :=
  p < s.j ∧ (s.processLog p).arrivalTime ≤ s.time ∧ headType s p = some .C ∧
    s.cpu.idle = false ∧ onIo s = some p

/-- A turn of an idle CPU in which `p` waits. -/
def Missed (s : State) (p : Nat) : Prop := s.cpu.idle = true ∧ Waits s p

instance (s : State) (p : Nat) : Decidable (Waits s p) :=
  inferInstanceAs (Decidable (_ ∧ _ ∧ _ ∧ _ ∧ _))

instance (s : State) (p : Nat) : Decidable (Overcounted s p) :=
  inferInstanceAs (Decidable (_ ∧ _ ∧ _ ∧ _ ∧ _))

instance (s : State) (p : Nat) : Decidable (Missed s p) := inferInstanceAs (Decidable (_ ∧ _))

/-- The turns in which `p` waits. -/
def waited (past : List State) (p : Nat) : Nat := past.countP (fun s => Waits s p)

/-- The waiting time is the number of turns spent waiting; with a single
    burst it is the response time. -/
structure Exact (past : List State) (r : State) (p : Nat) (l : Line) : Prop where
  waiting : (r.processLog p).waitingTime = waited past p
  single : l.bursts.length = 1 →
    (r.processLog p).waitingTime = (r.processLog p).responseTime

/-- What is counted too much is what is missed. -/
def Balanced (past : List State) (p : Nat) : Prop :=
  past.countP (fun s => Overcounted s p) = past.countP (fun s => Missed s p)

section Count

variable {lines : List Line} {past : List State} {chart : Chart} {s s₁ s₂ : State} {p : Nat}
  {l : Line}

theorem countP_snoc (P : State → Prop) [DecidablePred P] (past : List State) (s : State) :
    (past ++ [s]).countP (fun s => P s) = past.countP (fun s => P s) + if P s then 1 else 0 := by
  rw [List.countP_append, List.countP_singleton]
  simp only [decide_eq_true_eq]

/-- Bursts for the CPU and for the I/O device take turns. -/
theorem burstList_alternates {before after : List (BurstType × Int)} {a b : BurstType × Int}
    (h : before ++ a :: b :: after = burstList l) : a.1 ≠ b.1 := by
  have hget : ∀ i x, (burstList l)[i]? = some x → x.1 = if i % 2 = 0 then .C else .I := by
    intro i x hx
    rw [burstList, List.getElem?_mapIdx] at hx
    obtain ⟨v, -, rfl⟩ := Option.map_eq_some_iff.mp hx
    rfl
  have ha := hget before.length a (by rw [← h, List.getElem?_append_right (le_refl _)]; simp)
  have hb := hget (before.length + 1) b (by
    rw [← h, List.getElem?_append_right (Nat.le_succ _)]
    simp)
  rw [ha, hb]
  by_cases heven : before.length % 2 = 0
  · rw [if_pos heven, if_neg (by omega)]
    decide
  · rw [if_neg heven, if_pos (by omega)]
    decide

/-- The next burst of the process that the CPU serves is not for the CPU. -/
theorem not_onCpu (h : Inv lines chart s) (hbusy : s.cpu.idle = false)
    (hl : lines[p]? = some l) (hhead : headType s p = some .C) : onCpu s ≠ some p := by
  rw [onCpu, hbusy, if_neg Bool.false_ne_true]
  intro hpid
  obtain ⟨-, b, hb, hm, hpid', hstart, hfin, -⟩ := h.cpu.busy hbusy
  obtain rfl : p = b.owner := Option.some.inj (hpid.symm.trans hpid')
  have hleft := (h.cpu.busy hbusy).1
  -- the burst in service is the last bar, and the next one follows it in the line
  obtain ⟨hsplit, hone⟩ := h.orderly.split b.owner h.started
  have hunder : b ∈ underWay chart b.owner s.time :=
    List.mem_filter.mpr ⟨mem_bars.mpr ⟨hb, rfl⟩, decide_eq_true (by omega)⟩
  have hsingle : underWay chart b.owner s.time = [b] := by
    obtain ⟨c, hc⟩ := List.length_eq_one_iff.mp
      (Nat.le_antisymm hone (List.length_pos_of_mem hunder))
    rw [hc] at hunder ⊢
    rw [List.mem_singleton.mp hunder]
  cases hproc : s.proc b.owner with
  | nil =>
      rw [headType, hproc] at hhead
      cases hhead
  | cons node next =>
      rw [headType, hproc] at hhead
      have hkept := h.kept b.owner l hl
      rw [hsplit, hsingle, hproc, List.map_append, List.append_assoc] at hkept
      exact burstList_alternates hkept (hm.trans (Option.some.inj hhead).symm)

/-- `update` counts the waiting of a busy turn, and what is counted too much. -/
theorem counted_iff (hwf : WellFormed lines) (h : Inv lines chart s) (hl : lines[p]? = some l) :
    Counted s p ↔ Overcounted s p ∨ (s.cpu.idle = false ∧ Waits s p) := by
  constructor
  · rintro ⟨hbusy, hp, harr, hhead⟩
    by_cases hio : onIo s = some p
    · exact Or.inl ⟨hp, harr p (le_refl p), hhead, hbusy, hio⟩
    · exact Or.inr ⟨hbusy, hp, harr p (le_refl p), hhead, hio, not_onCpu h hbusy hl hhead⟩
  · rintro (⟨hp, harr, hhead, hbusy, -⟩ | ⟨hbusy, hp, harr, hhead, -⟩)
    · exact ⟨hbusy, hp, SjfDispatch.arrived_of hwf h hp harr, hhead⟩
    · exact ⟨hbusy, hp, SjfDispatch.arrived_of hwf h hp harr, hhead⟩

/-- What the waiting time counts, after any number of turns. -/
def Tallied (past : List State) (s : State) (p : Nat) : Prop :=
  (s.processLog p).waitingTime + past.countP (fun s => Missed s p) =
    waited past p + past.countP (fun s => Overcounted s p)

/-- **A TURN** is counted rightly, too much, or not at all. -/
theorem tallied_turn (hwf : WellFormed lines) (h : TurnFrom lines past s s₁ s₂)
    (hl : lines[p]? = some l) (hI : Tallied past s p) :
    Tallied (past ++ [s]) (endTurn s₂) p := by
  have hwait := turn_waiting h p
  have hiff := counted_iff hwf h.inv hl
  have hover : Overcounted s p → ¬ Waits s p := fun ho hw => hw.2.2.2.1 ho.2.2.2.2
  have hmiss : Missed s p ↔ s.cpu.idle = true ∧ Waits s p := Iff.rfl
  rw [Tallied, waited] at hI ⊢
  rw [hwait, countP_snoc (Waits · p), countP_snoc (Missed · p), countP_snoc (Overcounted · p)]
  by_cases hw : Waits s p
  · have hno : ¬ Overcounted s p := fun ho => hover ho hw
    rw [if_pos hw, if_neg hno]
    cases hidle : s.cpu.idle with
    | true =>
        rw [if_pos (hmiss.mpr ⟨hidle, hw⟩), if_neg (not_counted hidle)]
        omega
    | false =>
        have hcounted : Counted s p := hiff.mpr (Or.inr ⟨hidle, hw⟩)
        have hmissed : ¬ Missed s p := fun hm => Bool.false_ne_true (hidle.symm.trans hm.1)
        rw [if_pos hcounted, if_neg hmissed]
        omega
  · have hmissed : ¬ Missed s p := fun hm => hw hm.2
    rw [if_neg hw, if_neg hmissed]
    by_cases ho : Overcounted s p
    · rw [if_pos ho, if_pos (hiff.mpr (Or.inl ho))]
      omega
    · have hno : ¬ Counted s p := fun hc => (hiff.mp hc).elim ho (fun hbw => hw hbw.2)
      rw [if_neg ho, if_neg hno]
      omega

end Count

/-! ## A single burst -/

section Single

variable {lines : List Line} {past : List State} {s s₁ s₂ : State} {p : Nat} {l : Line}

/-- What holds of a process with a single burst: it waits until it is taken,
    and not any more after that. -/
def Alone (past : List State) (s : State) (p : Nat) (l : Line) : Prop :=
  (s.proc p ≠ [] ∧ (s.processLog p).firstTime = -1 ∧
    (waited past p : Int) = max 0 (s.time - l.arrival)) ∨
  (s.proc p = [] ∧ 0 ≤ (s.processLog p).firstTime ∧
    (waited past p : Int) = (s.processLog p).firstTime - l.arrival)

theorem burstList_single {v : Int} (hv : l.bursts = [v]) : burstList l = [(.C, v)] := by
  rw [burstList, hv]
  rfl

/-- Every bar of the process is for the CPU. -/
theorem single_machine {chart : Chart} (h : Inv lines chart s) (hl : lines[p]? = some l) {v : Int}
    (hv : l.bursts = [v]) {b : Bar BurstType Nat} (hb : b ∈ bars chart p) : b.machine = .C := by
  have hkept := h.kept p l hl
  rw [burstList_single hv] at hkept
  have hmem : work b ∈ [((.C : BurstType), v)] :=
    hkept ▸ List.mem_append_left _ (List.mem_map_of_mem hb)
  exact congrArg Prod.fst (List.mem_singleton.mp hmem)

theorem alone_loaded (hwf : WellFormed lines) (hl : lines[p]? = some l) {v : Int}
    (hv : l.bursts = [v]) : Alone [] (loaded lines) p l := by
  have hkind := loaded_kind hl
  rw [burstList_single hv] at hkind
  refine Or.inl ⟨fun hnil => ?_, rfl, ?_⟩
  · rw [hnil] at hkind
    exact nomatch hkind
  · have harr := hwf.arrivals l (List.mem_of_getElem? hl)
    show (0 : Int) = max 0 (0 - l.arrival)
    omega

/-- A process that is taken has arrived. -/
theorem taken_bar (hwf : WellFormed lines) (h : TurnFrom lines past s s₁ s₂) :
    (onCpu s = some p ↔ ∃ b ∈ chartOf (past ++ [s]), b.machine = .C ∧ b.owner = p ∧
      b.Covers s.time) ∧
    (onIo s = some p ↔ ∃ b ∈ chartOf (past ++ [s]), b.machine = .I ∧ b.owner = p ∧
      b.Covers s.time) := by
  have hlaw := (inv_turn hwf h.inv h.turned).1
  rw [← chartOf_snoc] at hlaw
  exact ⟨hlaw.cpu p, hlaw.io p⟩

/-- While the burst is on its list, nothing of the process was started. -/
theorem single_pending {chart : Chart} (h : Inv lines chart s) (hl : lines[p]? = some l) {v : Int}
    (hv : l.bursts = [v]) (hlist : s.proc p ≠ []) :
    bars chart p = [] ∧ (s.proc p).map kind = [(.C, v)] := by
  have hkept := h.kept p l hl
  rw [burstList_single hv] at hkept
  cases hb : bars chart p with
  | nil =>
      rw [hb] at hkept
      exact ⟨rfl, hkept⟩
  | cons b rest =>
      rw [hb, List.map_cons, List.cons_append] at hkept
      have hrest := (List.append_eq_nil_iff.mp (List.cons.inj hkept).2).2
      exact absurd (List.map_eq_nil_iff.mp hrest) hlist

/-- A process of which nothing was started is taken in the turn in which the
    CPU serves it. -/
theorem takes_of_onCpu {chart : Chart} (h : Inv lines chart s) (hno : bars chart p = [])
    (hon : onCpu s = some p) : Takes s p := by
  rw [onCpu] at hon
  cases hidle : s.cpu.idle with
  | true =>
      rw [hidle, if_pos rfl] at hon
      exact ⟨hidle, hon⟩
  | false =>
      obtain ⟨-, c, hc, -, hpid, -⟩ := h.cpu.busy hidle
      rw [hidle, if_neg Bool.false_ne_true] at hon
      have hmem : c ∈ bars chart p :=
        mem_bars.mpr ⟨hc, Option.some.inj (hpid.symm.trans hon)⟩
      rw [hno] at hmem
      cases hmem

/-- A single burst is never in I/O service. -/
theorem single_notIo (hwf : WellFormed lines) (h : TurnFrom lines past s s₁ s₂)
    (hl : lines[p]? = some l) {v : Int} (hv : l.bursts = [v]) : onIo s ≠ some p := by
  intro hserved
  obtain ⟨b, hb, hm, ho, -⟩ := (taken_bar hwf h).2.mp hserved
  have hmachine := single_machine (h.next hwf) hl hv (mem_bars.mpr ⟨hb, ho⟩)
  exact nomatch hm.symm.trans hmachine

/-- The CPU serves it in the turn that starts it. -/
theorem onCpu_of_starts (hwf : WellFormed lines) (h : TurnFrom lines past s s₁ s₂)
    (hl : lines[p]? = some l) {v : Int} (hv : l.bursts = [v]) {b : Bar BurstType Nat}
    (hb : b ∈ bars (starts s) p) : onCpu s = some p := by
  obtain ⟨hmem, ho⟩ := mem_bars.mp hb
  have hall : b ∈ chartOf (past ++ [s]) := by
    rw [chartOf_snoc]
    exact List.mem_append_right _ hmem
  have hstart := starts_start hmem h.turned
  have hmachine := single_machine (h.next hwf) hl hv (mem_bars.mpr ⟨hall, ho⟩)
  have hpos := Inv.length_pos hwf (h.next hwf) hall
  have hfin : b.finish = b.start + b.length := rfl
  exact (taken_bar hwf h).1.mpr ⟨b, hall, hmachine, ho, by omega, by omega⟩

/-- And it has arrived and goes off its list then. -/
theorem single_taken (hwf : WellFormed lines) (h : TurnFrom lines past s s₁ s₂)
    (hl : lines[p]? = some l) {v : Int} (hv : l.bursts = [v]) (hlist : s.proc p ≠ [])
    (hon : onCpu s = some p) : (endTurn s₂).proc p = [] ∧ l.arrival ≤ s.time := by
  obtain ⟨hno, hkind⟩ := single_pending h.inv hl hv hlist
  obtain ⟨b, hb, -, ho, -⟩ := (taken_bar hwf h).1.mp hon
  have hnew : b ∈ bars (starts s) p := by
    have hmem := mem_bars.mpr ⟨hb, ho⟩
    rw [chartOf_snoc, bars_append, hno] at hmem
    exact hmem
  have hstart : b.start = s.time := starts_start (mem_bars.mp hnew).1 h.turned
  obtain ⟨l', hl', harrived⟩ := (h.next hwf).arrived b hb
  obtain rfl : l = l' := Option.some.inj (hl.symm.trans (ho ▸ hl'))
  refine ⟨?_, by omega⟩
  have hbars := turn_bars hwf h hl
  rw [hkind] at hbars
  cases hstarts : bars (starts s) p with
  | nil =>
      rw [hstarts] at hnew
      exact nomatch hnew
  | cons c rest =>
      rw [hstarts, List.map_cons, List.cons_append] at hbars
      have hrest := (List.append_eq_nil_iff.mp (List.cons.inj hbars).2).2
      exact List.map_eq_nil_iff.mp hrest

/-- It stays on the list in a turn in which the CPU does not serve it. -/
theorem single_stays (hwf : WellFormed lines) (h : TurnFrom lines past s s₁ s₂)
    (hl : lines[p]? = some l) {v : Int} (hv : l.bursts = [v]) (hlist : s.proc p ≠ [])
    (hon : onCpu s ≠ some p) : (endTurn s₂).proc p ≠ [] := by
  have hbars := turn_bars hwf h hl
  have hnobar : bars (starts s) p = [] :=
    List.eq_nil_iff_forall_not_mem.mpr (fun b hb => hon (onCpu_of_starts hwf h hl hv hb))
  intro hnil
  rw [hnobar, hnil, (single_pending h.inv hl hv hlist).2] at hbars
  exact nomatch hbars

/-- **A TURN** of a process with a single burst. -/
theorem alone_turn (hwf : WellFormed lines) (h : TurnFrom lines past s s₁ s₂)
    (hl : lines[p]? = some l) {v : Int} (hv : l.bursts = [v]) (hI : Alone past s p l) :
    Alone (past ++ [s]) (endTurn s₂) p l := by
  have hfirst := turn_first h p
  have hwaited : waited (past ++ [s]) p = waited past p + if Waits s p then 1 else 0 :=
    countP_snoc (Waits · p) past s
  rcases hI with ⟨hlist, hnone, hcount⟩ | ⟨hlist, hsome, hcount⟩
  · -- the whole line is still on the list
    obtain ⟨hno, hkind⟩ := single_pending h.inv hl hv hlist
    by_cases hon : onCpu s = some p
    · -- the CPU takes it in this turn
      obtain ⟨hnil, harrived⟩ := single_taken hwf h hl hv hlist hon
      have hnow : ¬ Waits s p := fun hw => hw.2.2.2.2 hon
      rw [if_pos ⟨takes_of_onCpu h.inv hno hon, hnone⟩] at hfirst
      rw [if_neg hnow, Nat.add_zero] at hwaited
      have htime0 := h.inv.time
      refine Or.inr ⟨hnil, by omega, ?_⟩
      rw [hwaited, hcount, hfirst]
      omega
    · -- it stays on its list, and waits once it has arrived
      have hp : p < s.j := h.inv.j ▸ (List.getElem?_eq_some_iff.mp hl).1
      have harr : (s.processLog p).arrivalTime = l.arrival := h.inv.arrival p l hl
      have hhead : headType s p = some .C := by
        cases hproc : s.proc p with
        | nil => exact absurd hproc hlist
        | cons node next =>
            rw [hproc] at hkind
            rw [headType, hproc]
            exact congrArg some (congrArg Prod.fst (List.cons.inj hkind).1)
      have hnotTakes : ¬ Takes s p := fun ht => hon (by rw [onCpu, ht.1, if_pos rfl, ht.2])
      rw [if_neg (fun ht => hnotTakes ht.1)] at hfirst
      refine Or.inl ⟨single_stays hwf h hl hv hlist hon, hfirst.trans hnone, ?_⟩
      rw [hwaited, h.time]
      by_cases hlate : l.arrival ≤ s.time
      · rw [if_pos ⟨hp, harr ▸ hlate, hhead, single_notIo hwf h hl hv, hon⟩]
        omega
      · rw [if_neg (fun hw => hlate (harr ▸ hw.2.1))]
        omega
  · -- it was taken before
    have hbars := turn_bars hwf h hl
    rw [hlist] at hbars
    have hnil := List.map_eq_nil_iff.mp (List.append_eq_nil_iff.mp hbars).2
    have hnotWaits : ¬ Waits s p := by
      rintro ⟨-, -, hhead, -⟩
      rw [headType, hlist] at hhead
      cases hhead
    rw [if_neg (by omega)] at hfirst
    rw [if_neg hnotWaits, Nat.add_zero] at hwaited
    refine Or.inr ⟨hnil, by omega, ?_⟩
    rw [hwaited, hfirst]
    exact hcount

end Single

/-- **THE WAITING TIME IS EXACT** if and only if as many turns are counted
    too much as are missed. -/
theorem waiting_exact {lines : List Line} (hwf : WellFormed lines) {past : List State}
    {s r : State} (h : Finished lines past s) (hr : statistics s = .ok r) {p : Nat} {l : Line}
    (hl : lines[p]? = some l) : Exact past r p l ↔ Balanced past p := by
  have hp : p < lines.length := (List.getElem?_eq_some_iff.mp hl).1
  obtain ⟨hinv, hall, htallied⟩ := h.inv (I := fun past s => Tallied past s p) hwf
    (show (newLog (lines[p]?.getD _)).waitingTime + _ = _ from rfl)
    (fun past s s₁ s₂ hturn hI => tallied_turn hwf hturn hl hI)
  have hstat := statistics_log hr (hinv.j ▸ hp : p < s.j)
  rw [Tallied] at htallied
  constructor
  · intro hexact
    have hwait := hexact.waiting
    rw [hstat] at hwait
    have hwait' : (s.processLog p).waitingTime = waited past p := hwait
    rw [Balanced]
    omega
  · intro hbal
    rw [Balanced] at hbal
    have hwait : (s.processLog p).waitingTime = waited past p := by omega
    refine ⟨by rw [hstat]; exact hwait, fun hone => ?_⟩
    obtain ⟨v, hv⟩ := List.length_eq_one_iff.mp hone
    obtain ⟨-, -, halone⟩ := h.inv (I := fun past s => Alone past s p l) hwf
      (alone_loaded hwf hl hv) (fun past s s₁ s₂ hturn hI => alone_turn hwf hturn hl hv hI)
    rcases halone with ⟨hlist, -⟩ | ⟨-, -, hcount⟩
    · exact absurd (hall p (hinv.j ▸ hp)) hlist
    · rw [hstat]
      show (s.processLog p).waitingTime =
        (s.processLog p).firstTime - (s.processLog p).arrivalTime
      rw [hinv.arrival p l hl, hwait, hcount]

/-- Two processes with a burst of one unit. -/
def unitLines : List Line := [⟨0, [1]⟩, ⟨0, [1]⟩]

theorem unitLines_finished : ∃ past s r, Finished unitLines past s ∧ statistics s = .ok r ∧
    (r.processLog 1).waitingTime = 0 ∧ waited past 1 = 1 := by
  obtain ⟨s₁, s₂, r, hagain, hdone, hr, hwait, hwaited⟩ : ∃ s₁ s₂ r,
      tick (loaded unitLines) = .ok (.again s₁) ∧ tick s₁ = .ok (.done s₂) ∧
        statistics s₂ = .ok r ∧ (r.processLog 1).waitingTime = 0 ∧
        waited [loaded unitLines, s₁] 1 = 1 :=
    ⟨_, _, _, rfl, rfl, rfl, rfl, by decide⟩
  exact ⟨_, s₂, r, ⟨_, s₁, .turn (.start (load_ok.mpr ⟨by decide, rfl⟩)) hagain, hdone, rfl⟩,
    hr, hwait, hwaited⟩

theorem waiting_exact_unit : ∃ past s r, Finished unitLines past s ∧ statistics s = .ok r ∧
    (Exact past r 1 ⟨0, [1]⟩ ↔ Balanced past 1) := by
  obtain ⟨past, s, r, h, hr, -⟩ := unitLines_finished
  exact ⟨past, s, r, h, hr, waiting_exact (by decide) h hr rfl⟩

/-- **A DISPATCH IS MISSED**: while the idle CPU takes the first of two
    processes, the second waits for one unit that is not counted. -/
theorem waiting_missed : ∃ past s r, WellFormed unitLines ∧ Finished unitLines past s ∧
    statistics s = .ok r ∧ (r.processLog 1).waitingTime = 0 ∧ waited past 1 = 1 ∧
    ¬ Exact past r 1 ⟨0, [1]⟩ := by
  obtain ⟨past, s, r, h, hr, hwait, hwaited⟩ := unitLines_finished
  refine ⟨past, s, r, by decide, h, hr, hwait, hwaited, fun hexact => ?_⟩
  have hone := hexact.waiting
  rw [hwait, hwaited] at hone
  exact absurd hone (by decide)

end SjfWaiting
