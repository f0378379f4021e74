import OsLab.SjfTurnProofs

/-! # `find_next` is an exact minimum

    For arrivals in order the early `break` skips nobody, so that the best
    candidate of the scan is the best of all eligible processes
    (`findNext_exact`).  The comparison of ages is nested in a branch that
    has already stored what it would store (`scan_plain`). -/

namespace SjfSelect

open SjfModel SjfTurn

/-- The arrivals are in order, and the heads are shorter than `INT_MAX`. -/
structure Ordered (s : State) : Prop where
  arrivals : ∀ q r, q ≤ r → r < s.j → (s.processLog q).arrivalTime ≤ (s.processLog r).arrivalTime
  heads : ∀ r < s.j, ∀ node ∈ (s.proc r).head?, node.val < intMax

/-- Process `r` has arrived, its list has a head of the requested type, and
    it is not the one on the CPU (unless the time is 0). -/
structure Eligible (s : State) (itype : BurstType) (r : Nat) : Prop where
  process : r < s.j
  arrived : (s.processLog r).arrivalTime ≤ s.time
  head : ∃ node ∈ (s.proc r).head?, node.type = itype
  free : s.time = 0 ∨ some r ≠ s.cpu.currPid

/-- `r` is the lowest number of an eligible process with a head of the least
    length. -/
structure ArgMin (s : State) (itype : BurstType) (r : Nat) : Prop where
  eligible : Eligible s itype r
  least : ∀ q, Eligible s itype q → headVal s r ≤ headVal s q
  lowest : ∀ q < r, Eligible s itype q → headVal s r < headVal s q

/-- The scan without the nested comparison: `least_bt` and `least_bt_ind`. -/
def scanPlain (s : State) (itype : BurstType) : List Nat → Int × Option Nat → Int × Option Nat
  | [], l => l
  | r :: rs, l =>
      if (s.processLog r).arrivalTime > s.time then l
      else
        match s.proc r with
        | [] => scanPlain s itype rs l
        | node :: _ =>
            if node.val < l.1 ∧ node.type = itype ∧ (s.time = 0 ∨ some r ≠ s.cpu.currPid) then
              scanPlain s itype rs (node.val, some r)
            else scanPlain s itype rs l

section Select

variable {s : State} {itype : BurstType}

/-- **THE AGES DO NOT MATTER**: the scan stores the same without them. -/
theorem scan_plain (rs : List Nat) : ∀ l : Least,
    scanPlain s itype rs (l.bt, l.ind) = ((scan s itype rs l).bt, (scan s itype rs l).ind) := by
  induction rs with
  | nil => exact fun _ => rfl
  | cons r rs ih =>
      intro l
      rw [scanPlain, scan]
      split
      · rfl
      · cases hp : s.proc r with
        | nil => exact ih l
        | cons node next =>
            dsimp only
            split
            · split
              · exact ih ⟨node.val, some r, node.age⟩
              · exact ih ⟨node.val, some r, l.age⟩
            · exact ih l

/-- The scan stops behind nobody who is eligible. -/
theorem candidate_iff (h : Ordered s) {r : Nat} : Candidate s itype r ↔ Eligible s itype r := by
  constructor
  · rintro ⟨hj, harrived, ⟨node, hnode, htype, -⟩, hfree⟩
    exact ⟨hj, harrived r le_rfl, ⟨node, hnode, htype⟩, hfree⟩
  · rintro ⟨hj, harrived, ⟨node, hnode, htype⟩, hfree⟩
    exact ⟨hj, fun q hq => Int.le_trans (h.arrivals q r hq hj) harrived,
      ⟨node, hnode, htype, h.heads r hj node hnode⟩, hfree⟩

theorem argMin_iff_best (h : Ordered s) {r : Nat} :
    ArgMin s itype r ↔ Best (Candidate s itype) (headVal s) r := by
  constructor
  · rintro ⟨heligible, hleast, hlowest⟩
    refine ⟨(candidate_iff h).mpr heligible, fun q hq => ?_⟩
    have hq' := (candidate_iff h).mp hq
    have hle := hleast q hq'
    by_cases hqr : q < r
    · exact Or.inl (hlowest q hqr hq')
    · omega
  · rintro ⟨hcandidate, hbest⟩
    refine ⟨(candidate_iff h).mp hcandidate, fun q hq => ?_, fun q hqr hq => ?_⟩
    · have := hbest q ((candidate_iff h).mpr hq)
      omega
    · have := hbest q ((candidate_iff h).mpr hq)
      omega

/-- **AN EXACT MINIMUM**: `find_next` answers -1 if nobody is eligible, and
    else with the lowest-numbered process among those with the shortest
    heads; so does the scan without the ages. -/
theorem findNext_exact (h : Ordered s) (itype : BurstType) :
    (findNext s itype = none ↔ ∀ r, ¬ Eligible s itype r) ∧
      (∀ r, findNext s itype = some r ↔ ArgMin s itype r) ∧
      findNext s itype = (scanPlain s itype (List.range s.j) (intMax, none)).2 := by
  have hspec := findNext_spec s itype
  refine ⟨⟨fun hnone r hr => ?_, fun hall => ?_⟩, fun r => ⟨fun hr => ?_, fun hr => ?_⟩, ?_⟩
  · rcases hspec with ⟨q, hq, -⟩ | ⟨-, hno⟩
    · cases hnone.symm.trans hq
    · exact hno r ((candidate_iff h).mpr hr)
  · rcases hspec with ⟨q, -, hbest⟩ | ⟨hnone, -⟩
    · exact absurd ((candidate_iff h).mp hbest.1) (hall q)
    · exact hnone
  · exact (argMin_iff_best h).mpr (findNext_some hr)
  · have hbest := (argMin_iff_best h).mp hr
    rcases hspec with ⟨q, hq, hbest'⟩ | ⟨-, hno⟩
    · rw [hq, hbest.unique hbest']
    · exact absurd hbest.1 (hno r)
  · exact (congrArg Prod.snd (scan_plain (List.range s.j) ⟨intMax, none, intMax⟩)).symm

end Select

/-- Two processes with bursts of 4, the first of which has waited longer. -/
def twins : State where
  j := 2
  time := 3
  proc := fun k => [⟨4, .I, 2 - k⟩]
  processLog := fun _ => newLog ⟨0, []⟩
  cpu := freshDevice
  ioDevice := freshDevice

theorem findNext_exact_twins : (findNext twins .I = none ↔ ∀ r, ¬ Eligible twins .I r) ∧
    (∀ r, findNext twins .I = some r ↔ ArgMin twins .I r) ∧
    findNext twins .I = (scanPlain twins .I (List.range twins.j) (intMax, none)).2 := by
  refine findNext_exact ⟨fun _ _ _ _ => le_rfl, fun r _ node hnode => ?_⟩ .I
  rw [← Option.some.inj hnode]
  exact (by decide : (4 : Int) < intMax)

end SjfSelect
