import OsLab.SjfStatisticsProofs

/-! # Whether the turnaround is the delay until completion

    The closing check finds a list empty in the turn that takes its last
    burst, and reckons with the units that the CPU has left (`noted`).  For
    a CPU burst that is one unit short; for an I/O burst it is the length
    of another process's burst, if any.  So a turnaround is right only by
    coincidence (`Outlasted`), and the one of the process that completes
    last never is (`turnaround_exact`). -/

namespace SjfTurnaround

open OsLoop OsGantt SjfModel SjfTurn SjfService SjfStatistics

/-- The turnaround of `p` counts the units from its arrival to the last unit
    of its last burst, and so covers its service. -/
structure Truthful (chart : Chart) (r : State) (p : Nat) : Prop where
  turnaround : ∃ b, (bars chart p).getLast? = some b ∧
    (r.processLog p).turnaroundTime = b.finish - (r.processLog p).arrivalTime
  service : (r.processLog p).serviceTime ≤ (r.processLog p).turnaroundTime

/-- The last burst of `p` is for the I/O device, and the CPU serves a burst
    then that ends one unit later. -/
def Outlasted (chart : Chart) (p : Nat) : Prop :=
  ∃ b, (bars chart p).getLast? = some b ∧ b.machine = .I ∧
    ∃ c ∈ chart, c.machine = .C ∧ c.start ≤ b.start ∧ c.finish = b.finish + 1

/-! ## What the closing check reckons with -/

/-- Once the unit `t` is served, the CPU has `k` units left. -/
def Left (chart : Chart) (t k : Int) : Prop :=
  (1 ≤ k ∧ ∃ c ∈ chart, c.machine = .C ∧ c.start ≤ t ∧ c.finish = t + 1 + k) ∨
  (k = 0 ∧ ∀ c ∈ chart, c.machine = .C → c.start ≤ t → c.finish ≤ t + 1)

/-- What the record of `p` says: nothing as long as there is a list, and
    then the turn that took its last burst. -/
def Noted (past : List State) (s : State) (p : Nat) : Prop :=
  (s.proc p ≠ [] ∧ (s.processLog p).lastTime = -1) ∨
  (s.proc p = [] ∧ ∃ b k, (bars (chartOf past) p).getLast? = some b ∧
    (s.processLog p).lastTime = b.start + k ∧ Left (chartOf past) b.start k)

section Note

variable {lines : List Line} {past : List State} {chart more : Chart} {s s₁ s₂ : State} {t k : Int}
  {p : Nat} {l : Line}

theorem Left.nonneg (h : Left chart t k) : 0 ≤ k := by
  rcases h with ⟨hk, -⟩ | ⟨hk, -⟩ <;> omega

theorem left_of_served {d : Device} (h : Served .C d chart (t + 1)) : Left chart t d.timeLeft := by
  cases hidle : d.idle with
  | true => exact Or.inr ⟨h.left hidle, fun c hc hm _ => h.rest hidle c hc hm⟩
  | false =>
      obtain ⟨hpos, c, hc, hm, -, hstart, hfin, -⟩ := h.busy hidle
      exact Or.inl ⟨hpos, c, hc, hm, by omega, hfin⟩

/-- What starts later does not matter. -/
theorem Left.append (h : Left chart t k) (hmore : ∀ c ∈ more, t < c.start) :
    Left (chart ++ more) t k := by
  rcases h with ⟨hk, c, hc, hrest⟩ | ⟨hk, hall⟩
  · exact Or.inl ⟨hk, c, List.mem_append_left more hc, hrest⟩
  · refine Or.inr ⟨hk, fun c hc hm hstart => ?_⟩
    rcases List.mem_append.mp hc with hc' | hc'
    · exact hall c hc' hm hstart
    · have := hmore c hc'
      omega

theorem noted_loaded (hl : lines[p]? = some l) (hsome : l.bursts ≠ []) :
    Noted [] (loaded lines) p := by
  refine Or.inl ⟨fun hnil => hsome ?_, ?_⟩
  · have hkind := loaded_kind hl
    rw [hnil, burstList] at hkind
    exact List.mapIdx_eq_nil_iff.mp hkind.symm
  · show (newLog (lines[p]?.getD _)).lastTime = -1
    rfl

/-- The bar of an arrived process starts at 0 or later. -/
theorem start_nonneg (hwf : WellFormed lines) (h : Inv lines chart s) {b : Bar BurstType Nat}
    (hb : b ∈ chart) : 0 ≤ b.start := by
  obtain ⟨l, hl, harr⟩ := h.arrived b hb
  exact (hwf.arrivals l (List.mem_of_getElem? hl)).trans harr

/-- As long as there is a list, no time of completion is noted. -/
theorem Noted.pending (hwf : WellFormed lines) (h : Inv lines (chartOf past) s)
    (hnoted : Noted past s p) : (s.processLog p).lastTime < 0 ↔ s.proc p ≠ [] := by
  rcases hnoted with ⟨hlist, hnone⟩ | ⟨hlist, b, k, hb, hnote, hleft⟩
  · exact iff_of_true (by omega) hlist
  · have hstart := start_nonneg hwf h (mem_bars.mp (List.mem_of_getLast? hb)).1
    have hk := hleft.nonneg
    exact iff_of_false (by omega) (not_not.mpr hlist)

/-- **A TURN** notes the list that it empties. -/
theorem noted_turn (hwf : WellFormed lines) (h : TurnFrom lines past s s₁ s₂)
    (hl : lines[p]? = some l) (hnoted : Noted past s p) :
    Noted (past ++ [s]) (endTurn s₂) p := by
  have hp : p < s₂.j := by
    rw [h.turned.clock₂.j, h.turned.clock₁.j, h.inv.j]
    exact (List.getElem?_eq_some_iff.mp hl).1
  have hlast : (s₂.processLog p).lastTime = (s.processLog p).lastTime := (turn_records h p).last
  have htime : s₂.time = s.time := h.turned.clock₂.time.trans h.turned.clock₁.time
  have hempty : s₂.proc p = [] ↔ (endTurn s₂).proc p = [] := by
    have hkind := endTurn_kind s₂ p
    constructor
    · intro hnil
      rw [hnil] at hkind
      exact List.map_eq_nil_iff.mp hkind
    · intro hnil
      rw [hnil] at hkind
      exact List.map_eq_nil_iff.mp hkind.symm
  have hbars := turn_bars hwf h hl
  have hstarts : ∀ c ∈ starts s, c.start = s.time := fun c hc => starts_start hc h.turned
  rcases hnoted with ⟨hlist, hnone⟩ | ⟨hlist, b, k, hb, hnote, hleft⟩
  · by_cases hnil : (endTurn s₂).proc p = []
    · -- the list is emptied in this turn, by the bars that it starts
      have hnow : bars (starts s) p ≠ [] := by
        intro hno
        rw [hno, hnil] at hbars
        exact hlist (List.map_eq_nil_iff.mp hbars.symm)
      obtain ⟨b, hb⟩ : ∃ b, (bars (starts s) p).getLast? = some b :=
        ⟨_, List.getLast?_eq_some_getLast hnow⟩
      have hbs : b.start = s.time := hstarts b (mem_bars.mp (List.mem_of_getLast? hb)).1
      refine Or.inr ⟨hnil, b, s₂.cpu.timeLeft, ?_, ?_, ?_⟩
      · rw [chartOf_snoc, bars_append, List.getLast?_append, hb]
        rfl
      · rw [endTurn_last, if_pos ⟨hp, hempty.mpr hnil, by omega⟩, htime, hbs]
      · have hserved := (h.next hwf).cpu
        have hend : (endTurn s₂).time = b.start + 1 := by
          show s₂.time + 1 = _
          omega
        rw [hend] at hserved
        exact left_of_served hserved
    · refine Or.inl ⟨hnil, ?_⟩
      rw [endTurn_last, if_neg (fun hc => hnil (hempty.mp hc.2.1)), hlast]
      exact hnone
  · -- the list was empty before, and the note stays
    rw [hlist] at hbars
    obtain ⟨hmore, hnil⟩ := List.append_eq_nil_iff.mp hbars
    have hmem := mem_bars.mp (List.mem_of_getLast? hb)
    have hpos : 0 ≤ b.start := start_nonneg hwf h.inv hmem.1
    have hk := hleft.nonneg
    refine Or.inr ⟨List.map_eq_nil_iff.mp hnil, b, k, ?_, ?_, ?_⟩
    · rw [chartOf_snoc, bars_append, List.map_eq_nil_iff.mp hmore, List.append_nil]
      exact hb
    · rw [endTurn_last, if_neg, hlast, hnote]
      rintro ⟨-, -, hneg⟩
      omega
    · rw [chartOf_snoc]
      refine hleft.append (fun c hc => ?_)
      rw [hstarts c hc]
      exact h.inv.started b hmem.1

/-- The two fields of a record that the loop does not touch. -/
theorem fields_turn (h : TurnFrom lines past s s₁ s₂) {v w : Int}
    (hI : (s.processLog p).arrivalTime = v ∧ (s.processLog p).serviceTime = w) :
    ((endTurn s₂).processLog p).arrivalTime = v ∧ ((endTurn s₂).processLog p).serviceTime = w := by
  constructor
  · rw [endTurn_arrival, h.turned.clock₂.arrival, h.turned.clock₁.arrival]
    exact hI.1
  · rw [endTurn_field ProcessLogNode.serviceTime (fun _ _ _ => rfl), (turn_records h p).service]
    exact hI.2

end Note

/-! ## Completion -/

section Completion

variable {lines : List Line} {past : List State} {chart : Chart} {s r : State} {t k : Int}
  {p : Nat} {l : Line}

/-- A CPU bar that has begun and goes on is what the CPU has left. -/
theorem Left.eq (h : Left chart t k) (ho : Orderly chart) {c : Bar BurstType Nat} (hc : c ∈ chart)
    (hm : c.machine = .C) (hstart : c.start ≤ t) (hfin : t < c.finish) : c.finish = t + 1 + k := by
  rcases h with ⟨hk, c', hc', hm', hstart', hfin'⟩ | ⟨hk, hall⟩
  · have hsame : c = c' := ho.unique hc hc' (t := t) ⟨hstart, hfin⟩ ⟨hstart', by omega⟩
      (Or.inl (hm.trans hm'.symm))
    rw [hsame, hfin']
  · have := hall c hc hm hstart
    omega

/-- What is known of a process once the statistics are made. -/
structure Ended (lines : List Line) (past : List State) (s r : State) (p : Nat) (l : Line)
    (b : Bar BurstType Nat) (k : Int) : Prop where
  inv : Inv lines (chartOf past) s
  final : (bars (chartOf past) p).getLast? = some b
  left : Left (chartOf past) b.start k
  turnaround : (r.processLog p).turnaroundTime = b.start + k - (r.processLog p).arrivalTime
  arrival : (r.processLog p).arrivalTime = l.arrival
  service : (r.processLog p).serviceTime = l.bursts.sum
  served : (bars (chartOf past) p).map work = burstList l

theorem ended_of_finished (hwf : WellFormed lines) (h : Finished lines past s)
    (hr : statistics s = .ok r) (hl : lines[p]? = some l) (hsome : l.bursts ≠ []) :
    ∃ b k, Ended lines past s r p l b k := by
  have hp : p < lines.length := (List.getElem?_eq_some_iff.mp hl).1
  have hlog : (loaded lines).processLog p = newLog l := by
    show newLog (lines[p]?.getD _) = _
    rw [hl]
    rfl
  obtain ⟨hinv, hall, hnoted, harr, hser⟩ := h.inv (I := fun past s => Noted past s p ∧
      (s.processLog p).arrivalTime = l.arrival ∧ (s.processLog p).serviceTime = l.bursts.sum) hwf
    ⟨noted_loaded hl hsome, by rw [hlog]; rfl, by rw [hlog]; rfl⟩
    (fun past s s₁ s₂ hturn hI => ⟨noted_turn hwf hturn hl hI.1, fields_turn hturn hI.2⟩)
  have hnil : s.proc p = [] := hall p (hinv.j ▸ hp)
  have hstat := statistics_log hr (hinv.j ▸ hp : p < s.j)
  rcases hnoted with ⟨hlist, -⟩ | ⟨-, b, k, hb, hnote, hleft⟩
  · exact absurd hnil hlist
  · refine ⟨b, k, hinv, hb, hleft, ?_, ?_, ?_, ?_⟩
    · rw [hstat, ← hnote]
    · rw [hstat, ← harr]
    · rw [hstat, ← hser]
    · have hkept := hinv.kept p l hl
      rw [hnil, List.map_nil, List.append_nil] at hkept
      exact hkept

variable {b : Bar BurstType Nat}

theorem burstList_length (l : Line) : (burstList l).map Prod.snd = l.bursts := by
  refine List.ext_getElem (by simp [burstList]) (fun i _ _ => ?_)
  simp [burstList]

/-- The service of a process fits between its arrival and its completion. -/
theorem Ended.service_le (h : Ended lines past s r p l b k) (hl : lines[p]? = some l) :
    l.bursts.sum ≤ b.finish - l.arrival := by
  have hlengths : (bars (chartOf past) p).map Bar.length = l.bursts := by
    rw [← burstList_length l, ← h.served, List.map_map]
    rfl
  rw [← hlengths]
  refine busy_le (h.inv.orderly.follow p) h.final (fun a ha => ?_)
  obtain ⟨hmem, rfl⟩ := mem_bars.mp ha
  obtain ⟨l', hl', harr⟩ := h.inv.arrived a hmem
  obtain rfl : l = l' := Option.some.inj (hl.symm.trans hl')
  exact harr

/-- **A TURNAROUND IS RIGHT** only by coincidence. -/
theorem Ended.truthful_iff (hwf : WellFormed lines) (h : Ended lines past s r p l b k)
    (hl : lines[p]? = some l) : Truthful (chartOf past) r p ↔ Outlasted (chartOf past) p := by
  have hmem : b ∈ chartOf past := (mem_bars.mp (List.mem_of_getLast? h.final)).1
  have hpos : 0 < b.length := Inv.length_pos hwf h.inv hmem
  have hfin : b.finish = b.start + b.length := rfl
  constructor
  · rintro ⟨⟨b', hb', hturn⟩, -⟩
    obtain rfl : b = b' := Option.some.inj (h.final.symm.trans hb')
    have hk : k = b.length := by
      rw [h.turnaround] at hturn
      omega
    refine ⟨b, h.final, ?_, ?_⟩
    · cases hm : b.machine with
      | I => rfl
      | C =>
          -- of its own CPU burst one unit is served already
          have := h.left.eq h.inv.orderly hmem hm (le_refl _) (by omega)
          omega
    · rcases h.left with ⟨-, c, hc, hm, hstart, hcfin⟩ | ⟨hzero, -⟩
      · exact ⟨c, hc, hm, hstart, by omega⟩
      · omega
  · rintro ⟨b', hb', -, c, hc, hm, hstart, hcfin⟩
    obtain rfl : b = b' := Option.some.inj (h.final.symm.trans hb')
    have hleft := h.left.eq h.inv.orderly hc hm hstart (by omega)
    have hturn : (r.processLog p).turnaroundTime = b.finish - (r.processLog p).arrivalTime := by
      rw [h.turnaround]
      omega
    refine ⟨⟨b, h.final, hturn⟩, ?_⟩
    rw [hturn, h.service, h.arrival]
    exact h.service_le hl

/-- **THE LAST PROCESS TO COMPLETE** has no CPU burst to outlast it. -/
theorem not_all_outlasted (hwf : WellFormed lines) (hbursts : ∀ l ∈ lines, l.bursts ≠ [])
    (hsome : lines ≠ []) (h : Finished lines past s) (hr : statistics s = .ok r) :
    ¬ ∀ p < lines.length, Outlasted (chartOf past) p := by
  intro hall
  have hlast : ∀ p < lines.length, ∃ b, (bars (chartOf past) p).getLast? = some b ∧
      Inv lines (chartOf past) s := by
    intro p hp
    have hl : lines[p]? = some lines[p] := List.getElem?_eq_getElem hp
    obtain ⟨b, k, hend⟩ := ended_of_finished hwf h hr hl (hbursts _ (List.getElem_mem hp))
    exact ⟨b, hend.final, hend.inv⟩
  obtain ⟨b₀, hb₀, hinv⟩ := hlast 0 (List.length_pos_of_ne_nil hsome)
  have hmem₀ : b₀ ∈ chartOf past := (mem_bars.mp (List.mem_of_getLast? hb₀)).1
  -- the bar that ends last of all, and the last bar of its process
  obtain ⟨a, ha, hmax⟩ := (chartOf past).toFinset.exists_max_image Bar.finish
    ⟨b₀, List.mem_toFinset.mpr hmem₀⟩
  have hmaxAll : ∀ c ∈ chartOf past, c.finish ≤ a.finish := fun c hc =>
    hmax c (List.mem_toFinset.mpr hc)
  have ha' : a ∈ chartOf past := List.mem_toFinset.mp ha
  obtain ⟨l, hl, -⟩ := hinv.arrived a ha'
  have howner : a.owner < lines.length := (List.getElem?_eq_some_iff.mp hl).1
  obtain ⟨b, hb, -, c, hc, -, -, hcfin⟩ := hall a.owner howner
  have hab : a.finish ≤ b.finish := hinv.orderly.finish_le
    (fun c hc => (Inv.length_pos hwf hinv hc).le) hb (mem_bars.mpr ⟨ha', rfl⟩)
  have := hmaxAll c hc
  omega

end Completion

/-- **THE TURNAROUND IS THE DELAY UNTIL COMPLETION** for a process if and only
    if its last burst is for the I/O device and is outlasted by one unit, and
    so never for all processes. -/
theorem turnaround_exact {lines : List Line} (hwf : WellFormed lines)
    (hbursts : ∀ l ∈ lines, l.bursts ≠ []) {past : List State} {s r : State}
    (h : Finished lines past s) (hr : statistics s = .ok r) :
    (∀ p < lines.length, Truthful (chartOf past) r p ↔ Outlasted (chartOf past) p) ∧
      ((∀ p < lines.length, Truthful (chartOf past) r p) ↔ lines = []) := by
  have heach : ∀ p < lines.length,
      Truthful (chartOf past) r p ↔ Outlasted (chartOf past) p := by
    intro p hp
    have hl : lines[p]? = some lines[p] := List.getElem?_eq_getElem hp
    obtain ⟨b, k, hend⟩ := ended_of_finished hwf h hr hl (hbursts _ (List.getElem_mem hp))
    exact hend.truthful_iff hwf hl
  refine ⟨heach, fun hall => ?_, fun hnil p hp => ?_⟩
  · by_contra hsome
    exact not_all_outlasted hwf hbursts hsome h hr (fun p hp => (heach p hp).mp (hall p hp))
  · rw [hnil] at hp
    exact absurd hp (Nat.not_lt_zero p)

/-- One process with one burst. -/
def oneLine : List Line := [⟨0, [3]⟩]

theorem oneLine_finished : ∃ past s r, Finished oneLine past s ∧ statistics s = .ok r ∧
    (r.processLog 0).turnaroundTime = 2 ∧ (r.processLog 0).serviceTime = 3 := by
  obtain ⟨s, r, hs, hr, hturn, hser⟩ : ∃ s r, tick (loaded oneLine) = .ok (.done s) ∧
      statistics s = .ok r ∧ (r.processLog 0).turnaroundTime = 2 ∧
      (r.processLog 0).serviceTime = 3 :=
    ⟨_, _, rfl, rfl, rfl, rfl⟩
  exact ⟨_, s, r, ⟨[], _, .start (load_ok.mpr ⟨by decide, rfl⟩), hs, rfl⟩, hr, hturn, hser⟩

theorem turnaround_exact_one : ∃ past s r, Finished oneLine past s ∧ statistics s = .ok r ∧
    (∀ p < oneLine.length, Truthful (chartOf past) r p ↔ Outlasted (chartOf past) p) ∧
      ((∀ p < oneLine.length, Truthful (chartOf past) r p) ↔ oneLine = []) := by
  obtain ⟨past, s, r, h, hr, -⟩ := oneLine_finished
  exact ⟨past, s, r, h, hr, turnaround_exact (by decide) (by decide) h hr⟩

/-- **ONE UNIT IS MISSING**: a burst of 3 from time 0 on has a turnaround
    of 2, less than its service. -/
theorem turnaround_short : ∃ past s r, WellFormed oneLine ∧ Finished oneLine past s ∧
    statistics s = .ok r ∧ (r.processLog 0).turnaroundTime = 2 ∧
    ¬ Truthful (chartOf past) r 0 := by
  obtain ⟨past, s, r, h, hr, hturn, hser⟩ := oneLine_finished
  refine ⟨past, s, r, by decide, h, hr, hturn, fun htrue => ?_⟩
  have := htrue.service
  omega

end SjfTurnaround
