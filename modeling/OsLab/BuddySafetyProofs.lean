import OsLab.BuddyRefusalProofs

/-! # Requests that do not fit the table

    `main` forwards every request line.  A free of a name that is not
    running looks the name up, gets `NULL` and follows it; an allocation for
    a name that is running overwrites the name's entry, and the block the
    entry pointed at can no longer be freed.

    Nothing else goes wrong: the calls of a run follow no bad pointer and
    the table stays a bijection between names and allocated leaves exactly
    when every free names a running process and every allocation the lists
    can serve names one that is not running (`safe_exact`). -/

namespace BuddySafety

open OsHeap OsLoop OsDyadic BuddyModel BuddyInvariant BuddySurgery BuddySteps
open BuddyPlacement BuddyFrame BuddyCalls BuddyCase BuddyRefusal

/-- An allocated leaf of the tree sits at `a`. -/
def Holds (st : State) (a : Addr) : Prop := ∃ n, st.node a = some n ∧ Allocated n

/-- The table is a bijection between the running names and the allocated
    leaves. -/
def Matched (st : State) : Prop :=
  Set.BijOn (OsHeap.get st.runningRec) {P | P ∈ st.runningRec} {p | ∃ a, p = some a ∧ Holds st a}

/-- Every allocated block can be freed by naming some process. -/
def Freeable (A : Malloc) (st : State) : Prop :=
  ∀ a, Holds st a → ∃ P, ∃ st' ∈ (sendQuery A st ⟨P, 0⟩).toOption, ¬ Holds st' a

/-- The tree, the free lists and the table are as they were. -/
structure Unchanged (st st' : State) : Prop where
  root : st'.root = st.root
  node : st'.node = st.node
  lists : st'.freeList = st.freeList
  running : ∀ Q, st'.runningRec.lookup Q = st.runningRec.lookup Q

/-- What is asked of a call: it follows no null or freed node, and to free a
    name that is not running changes nothing. -/
structure SafeCall (A : Malloc) (st : State) (q : Query) : Prop where
  follows : sendQuery A st q ≠ .error .badNode
  absent : q.pbytes = 0 → q.pname ∉ st.runningRec →
    ∃ st' ∈ (sendQuery A st q).toOption, Unchanged st st'

/-- What is asked of a run, at every state it reaches and for every call. -/
def Safe (A : Malloc) : State → List Query → Prop
  | st, [] => Matched st ∧ Freeable A st
  | st, q :: qs => Matched st ∧ Freeable A st ∧ SafeCall A st q ∧
      ∀ st' ∈ (sendQuery A st q).toOption, Safe A st' qs

/-- The name of the request fits the table: a free names a running process,
    and an allocation that is granted one that is not running. -/
def FitsTable (U L : Nat) (st : State) (q : Query) : Prop :=
  if q.pbytes = 0 then q.pname ∈ st.runningRec
  else Grants U L st q.pbytes → q.pname ∉ st.runningRec

/-- Every request of the run fits the table. -/
def AllFit (A : Malloc) (U L : Nat) : State → List Query → Prop
  | _, [] => True
  | st, q :: qs => FitsTable U L st q ∧
      ∀ st' ∈ (sendQuery A st q).toOption, AllFit A U L st' qs

section Calls

variable {A : Malloc} {U L : Nat} {root : Addr} {st st' : State} {q : Query}

/-- In a good state the allocated leaves are the settled ones. -/
theorem holds_iff (h : Good U L root st) {a : Addr} :
    Holds st a ↔ ∃ n, Settled st.node none a n := by
  constructor
  · rintro ⟨n, hn, hleaf, hb⟩
    rcases h.inv.flags.leaf hn hleaf (fun he => nomatch he) with ⟨-, h0⟩ | ⟨hu, -⟩
    · exact absurd h0 hb
    · exact ⟨n, hn, hleaf, hu, fun he => nomatch he⟩
  · rintro ⟨n, hn, hleaf, hu, -⟩
    rcases h.inv.flags.leaf hn hleaf (fun he => nomatch he) with ⟨h0, -⟩ | ⟨-, hb, -⟩
    · exact absurd (h0.symm.trans hu) (by decide)
    · exact ⟨n, hn, hleaf, hb⟩

/-- An entry of the table is the leaf of its process. -/
theorem running_settled (h : Good U L root st) {P : Char} (hP : P ∈ st.runningRec) :
    ∃ a n, st.runningRec.lookup P = some (some a) ∧ Settled st.node none a n ∧ n.pname = P := by
  obtain ⟨p, hp⟩ := Option.isSome_iff_exists.mp (AList.lookup_isSome.mpr hP)
  obtain ⟨a, n, rfl, hn, hne, hleaf, hu, hname⟩ := h.inv.running hp
  exact ⟨a, n, hp, ⟨hn, hleaf, hu, hne⟩, hname⟩

theorem get_of_lookup {P : Char} {p : Ptr} (hp : st.runningRec.lookup P = some p) :
    OsHeap.get st.runningRec P = p := by
  rw [OsHeap.get, hp]
  rfl

/-- **THE TABLE IS A BIJECTION** when it has every allocated leaf under its
    name. -/
theorem matched_iff (h : Good U L root st) : Matched st ↔ Tracked st := by
  constructor
  · rintro ⟨-, -, honto⟩ a n hs
    obtain ⟨P, hP, hget⟩ := honto ⟨a, rfl, (holds_iff h).mpr ⟨n, hs⟩⟩
    obtain ⟨b, m, hlook, hsb, hname⟩ := running_settled h hP
    rw [get_of_lookup hlook] at hget
    obtain rfl : b = a := Option.some.inj hget
    rw [Option.some.inj (hs.1.symm.trans hsb.1), hname]
    exact hlook
  · intro ht
    refine ⟨fun P hP => ?_, fun P hP Q hQ heq => ?_, ?_⟩
    · obtain ⟨a, n, hlook, hs, -⟩ := running_settled h hP
      exact ⟨a, get_of_lookup hlook, (holds_iff h).mpr ⟨n, hs⟩⟩
    · obtain ⟨a, n, hlook, hs, hname⟩ := running_settled h hP
      obtain ⟨b, m, hlook', hs', hname'⟩ := running_settled h hQ
      rw [get_of_lookup hlook, get_of_lookup hlook'] at heq
      obtain rfl : a = b := Option.some.inj heq
      rw [← hname, ← hname', Option.some.inj (hs.1.symm.trans hs'.1)]
    · rintro p ⟨a, rfl, hheld⟩
      obtain ⟨n, hs⟩ := (holds_iff h).mp hheld
      exact ⟨n.pname, AList.lookup_isSome.mp (by rw [ht hs]; rfl), get_of_lookup (ht hs)⟩

/-- A block whose process is in the table can be freed. -/
theorem freeable_of_tracked (hd : Header U L) (h : Good U L root st) (ht : Tracked st) :
    Freeable A st := by
  intro a hheld
  obtain ⟨n, hs⟩ := (holds_iff h).mp hheld
  obtain ⟨s, hcall, hgood, hc⟩ | ⟨hgt, -⟩ | ⟨-, habs, -⟩ :=
    sendQuery_spec (A := A) hd h ⟨n.pname, 0⟩
  · refine ⟨n.pname, s, mem_toOption.mpr hcall, fun hheld' => ?_⟩
    obtain ⟨m, hm⟩ := (holds_iff hgood).mp hheld'
    cases hc with
    | freed b k h0 hrun hfr =>
        have hlook : st.runningRec.lookup n.pname = some (some b) := hrun
        rw [ht hs] at hlook
        exact ((hfr.settled a m).mp hm).2 (Option.some.inj (Option.some.inj hlook))
    | refused k hne => exact hne rfl
    | granted k b c hne => exact hne rfl
  · have hpos : (0 : Int) < 2 ^ U := by positivity
    exact absurd hgt (not_lt.mpr hpos.le)
  · have hnone : st.runningRec.lookup n.pname = none := habs
    rw [ht hs] at hnone
    exact nomatch hnone

/-- A call is safe unless it frees a name that is not running. -/
theorem safeCall_iff (hd : Header U L) (h : Good U L root st) (hq : q.pbytes ≤ 2 ^ U) :
    SafeCall A st q ↔ (q.pbytes = 0 → q.pname ∈ st.runningRec) := by
  obtain ⟨s, hcall, -, hc⟩ | ⟨hgt, -⟩ | ⟨h0, habs, hbad⟩ := sendQuery_spec (A := A) hd h q
  · have hrun : q.pbytes = 0 → q.pname ∈ st.runningRec := by
      intro h0
      cases hc with
      | freed a n _ hp => exact AList.lookup_isSome.mp (by rw [hp]; rfl)
      | refused k hne => exact absurd h0 hne
      | granted k a n hne => exact absurd h0 hne
    refine ⟨fun _ => hrun, fun _ => ⟨?_, fun h0 habs => absurd (hrun h0) habs⟩⟩
    rw [hcall]
    exact fun he => nomatch he
  · exact absurd hq (not_le.mpr hgt)
  · constructor
    · exact fun hsafe => absurd hbad hsafe.follows
    · exact fun hrun => absurd (hrun h0) (not_mem_running.mpr habs)

/-- **ONE CALL AND THE TABLE**: a call that returns keeps the table a
    bijection unless it is granted to a name that is running. -/
theorem tracked_step (h : Good U L root st) (ht : Tracked st) (hc : Called U L root st st' q) :
    Tracked st' ↔ (q.pbytes ≠ 0 → Grants U L st q.pbytes → q.pname ∉ st.runningRec) := by
  constructor
  · intro ht' hne hgrants hmem
    obtain ⟨a, n, hlook, hs, hname⟩ := running_settled h hmem
    cases hc with
    | freed b m h0 => exact hne h0
    | refused k _ hr href hempty =>
        obtain ⟨k', j, hr', hkj, hjU, hlist⟩ := hgrants
        exact hlist (hempty j (le_trans (hr.least k' hr'.low hr'.holds) hkj) hjU)
    | granted k b m _ hr hlist hsz hgr =>
        -- the old leaf of the name is still there, and its entry is gone
        have hlook' := ht' ((hgr.settled a n).mpr (Or.inl hs))
        rw [hname, hgr.running, lookup_insert_if, if_pos rfl] at hlook'
        have hba : b = a := Option.some.inj (Option.some.inj hlook')
        exact hgr.fresh n (hba ▸ hs)
  · exact Tracked.step ht hc

/-- Whether the request fits is what decides between the two. -/
theorem fitsTable_iff : FitsTable U L st q ↔ (q.pbytes = 0 → q.pname ∈ st.runningRec) ∧
    (q.pbytes ≠ 0 → Grants U L st q.pbytes → q.pname ∉ st.runningRec) := by
  rw [FitsTable]
  by_cases h0 : q.pbytes = 0
  · rw [if_pos h0]
    exact ⟨fun hmem => ⟨fun _ => hmem, fun hne => absurd h0 hne⟩, fun hboth => hboth.1 h0⟩
  · rw [if_neg h0]
    exact ⟨fun hfit => ⟨fun he => absurd he h0, fun _ => hfit⟩, fun hboth => hboth.2 h0⟩

end Calls

/-! ## Runs -/

section Runs

variable {A : Malloc} {U L : Nat} {root : Addr}

/-- From a state whose table is a bijection a run is safe exactly when its
    requests fit. -/
theorem run_safe (hd : Header U L) {reqs : List Query} :
    ∀ {st : State}, Good U L root st → Tracked st → (∀ q ∈ reqs, q.pbytes ≤ 2 ^ U) →
      (Safe A st reqs ↔ AllFit A U L st reqs) := by
  induction reqs with
  | nil =>
      intro st h ht _
      exact ⟨fun _ => trivial, fun _ => ⟨(matched_iff h).mpr ht, freeable_of_tracked hd h ht⟩⟩
  | cons q reqs ih =>
      intro st h ht hreqs
      have hq : q.pbytes ≤ 2 ^ U := hreqs q List.mem_cons_self
      have hrest : ∀ q' ∈ reqs, q'.pbytes ≤ 2 ^ U := fun q' hq' =>
        hreqs q' (List.mem_cons_of_mem q hq')
      have hcall := safeCall_iff (A := A) hd h hq
      constructor
      · rintro ⟨-, -, hsafe, hnext⟩
        have hfit : ∀ st' ∈ (sendQuery A st q).toOption,
            Tracked st' ∧ AllFit A U L st' reqs := by
          intro st' hst'
          obtain ⟨hgood, -⟩ := sendQuery_good hd h (mem_toOption.mp hst')
          have hsafe' := hnext st' hst'
          have ht' : Tracked st' := by
            refine (matched_iff hgood).mp ?_
            cases reqs with
            | nil => exact hsafe'.1
            | cons _ _ => exact hsafe'.1
          exact ⟨ht', (ih hgood ht' hrest).mp hsafe'⟩
        refine ⟨fitsTable_iff.mpr ⟨hcall.mp hsafe, ?_⟩, fun st' hst' => (hfit st' hst').2⟩
        intro h0
        -- an allocation of at most `2^U` bytes returns
        obtain ⟨s, hs, -, hc⟩ | ⟨hgt, -⟩ | ⟨hz, -⟩ := sendQuery_spec (A := A) hd h q
        · exact (tracked_step h ht hc).mp (hfit s (mem_toOption.mpr hs)).1 h0
        · exact absurd hq (not_le.mpr hgt)
        · exact absurd hz h0
      · rintro ⟨hfit, hnext⟩
        obtain ⟨hfree, hgrant⟩ := fitsTable_iff.mp hfit
        refine ⟨(matched_iff h).mpr ht, freeable_of_tracked hd h ht, hcall.mpr hfree, ?_⟩
        intro st' hst'
        obtain ⟨hgood, hc⟩ := sendQuery_good hd h (mem_toOption.mp hst')
        exact (ih hgood ((tracked_step h ht hc).mpr hgrant) hrest).mpr (hnext st' hst')

theorem pow2_ok {k : Nat} {r : Int} (h : pow2 (k : Int) = .ok r) :
    (2 ^ k : Int) ≤ intMax ∧ r = 2 ^ k := by
  have hneg : ¬ ((k : Int) < 0) := not_lt.mpr (Int.natCast_nonneg k)
  rw [pow2, if_neg hneg, Int.toNat_natCast] at h
  by_cases hmax : (2 ^ k : Int) ≤ intMax
  · rw [if_pos hmax] at h
    exact ⟨hmax, (Except.ok.inj h).symm⟩
  · rw [if_neg hmax] at h
    cases h

/-- A header whose set-up returns has room for twice the range in an `int`:
    the loop that empties the lists doubles its index past `2^U`. -/
theorem header_of_startCase (hL : 1 ≤ L) (hLU : L < U) {st st₀ : State}
    (hstart : startCase A st U L = .ok st₀) : Header U L := by
  refine ⟨hL, hLU, ?_⟩
  by_contra hgt
  obtain ⟨cleared, -, hrest⟩ := bind_ok.mp hstart
  obtain ⟨total, htotal, hrest⟩ := bind_ok.mp hrest
  obtain ⟨gran, hgran, hrest⟩ := bind_ok.mp hrest
  obtain ⟨lists, hlists, -⟩ := bind_ok.mp hrest
  obtain rfl := (pow2_ok htotal).2
  obtain rfl := (pow2_ok hgran).2
  obtain ⟨s, hv, hdone⟩ := loop_ok hlists
  -- the index never gets past `2^U`
  obtain ⟨j, hjU, hj⟩ : ∃ j, j ≤ U ∧ s.2 = 2 ^ j := by
    refine visits_inv (I := fun s => ∃ j, j ≤ U ∧ s.2 = (2 ^ j : Int)) ?_ hv ⟨L, hLU.le, rfl⟩
    rintro ⟨m, i⟩ s' ⟨j, hjU, hi⟩ hagain
    obtain rfl : i = 2 ^ j := hi
    simp only [pow_le_pow_iff.mpr hjU, if_true] at hagain
    obtain ⟨i', hdouble, heq⟩ := bind_ok.mp hagain
    cases heq
    rw [double] at hdouble
    by_cases hmax : (2 ^ j * 2 : Int) ≤ intMax
    · rw [if_pos hmax] at hdouble
      refine ⟨j + 1, ?_, (Except.ok.inj hdouble).symm⟩
      by_contra hgtU
      obtain rfl : j = U := by omega
      exact hgt hmax
    · rw [if_neg hmax] at hdouble
      cases hdouble
  have hle : s.2 ≤ 2 ^ U := by
    rw [hj]
    exact pow_le_pow_iff.mpr hjU
  simp only [hle, if_true] at hdone
  obtain ⟨i', -, heq⟩ := bind_ok.mp hdone
  cases heq

/-- **A RUN IS SAFE** if and only if every free in it names a running process
    and every allocation the lists can serve one that is not running. -/
theorem safe_exact {pid : Int} {out : List Line} {st₀ : State} {reqs : List Query}
    (hL : 1 ≤ L) (hLU : L < U) (hstart : startCase A (boot pid out) U L = .ok st₀)
    (hreqs : ∀ q ∈ reqs, 0 ≤ q.pbytes ∧ q.pbytes ≤ 2 ^ U) :
    Safe A st₀ reqs ↔ AllFit A U L st₀ reqs := by
  have hd := header_of_startCase hL hLU hstart
  obtain ⟨s, root, hs, hst⟩ := startCase_spec (A := A) hd (clear_boot pid out)
  obtain rfl : st₀ = s := Except.ok.inj (hstart.symm.trans hs)
  exact run_safe hd hst.good (started_tracked hst) (fun q hq => (hreqs q hq).2)

end Runs

/-- `A` and `B` take a byte each, `A` ends, and `A` starts again. -/
def tidyRun : List Query := [⟨'A', 1⟩, ⟨'B', 1⟩, ⟨'A', 0⟩, ⟨'A', 2⟩]

theorem safe_exact_run : ∃ st₀, startCase bump (boot (-1) []) (3 : Nat) (1 : Nat) = .ok st₀ ∧
    (Safe bump st₀ tidyRun ↔ AllFit bump 3 1 st₀ tidyRun) := by
  obtain ⟨st₀, hstart⟩ := ok_of_isSome
    (show (startCase bump (boot (-1) []) (3 : Nat) (1 : Nat)).toOption.isSome = true by decide)
  exact ⟨st₀, hstart, safe_exact (by decide) (by decide) hstart (by decide)⟩

/-- **TWO WAYS TO LOSE**: on a fresh case of 4 bytes, to free `A` follows
    `NULL`; and when `A` takes a byte twice, its first block is allocated and
    no name of the table has it. -/
theorem safe_lost : ∃ st₀, startCase bump (boot (-1) []) (2 : Nat) (1 : Nat) = .ok st₀ ∧
    (sendQuery bump st₀ ⟨'A', 0⟩ = .error .badNode ∧ ¬ Safe bump st₀ [⟨'A', 0⟩]) ∧
    (∃ st a, runAll (sendQuery bump) st₀ [⟨'A', 1⟩, ⟨'A', 1⟩] = .ok st ∧ Holds st a ∧
      ∀ P ∈ st.runningRec.keys, OsHeap.get st.runningRec P ≠ some a) ∧
    ¬ Safe bump st₀ [⟨'A', 1⟩, ⟨'A', 1⟩] := by
  have hrun : ∃ st₀ ∈ (startCase bump (boot (-1) []) (2 : Nat) (1 : Nat)).toOption,
      ∃ st₂ ∈ (runAll (sendQuery bump) st₀ [⟨'A', 1⟩, ⟨'A', 1⟩]).toOption,
      ∃ n ∈ st₂.node 2, Allocated n ∧
        st₂.runningRec.keys.all (fun P => OsHeap.get st₂.runningRec P ≠ some 2) = true := by decide
  obtain ⟨st₀, h0, st₂, htwice, n, hn, halloc, hall⟩ := hrun
  have hlost : ∀ P ∈ st₂.runningRec.keys, OsHeap.get st₂.runningRec P ≠ some 2 :=
    fun P hP => of_decide_eq_true (List.all_eq_true.mp hall P hP)
  have hd : Header 2 1 := ⟨by decide, by decide, by decide⟩
  obtain ⟨s, root, hs, hst⟩ := startCase_spec (A := bump) hd (clear_boot (-1) [])
  obtain rfl : st₀ = s := Except.ok.inj ((mem_toOption.mp h0).symm.trans hs)
  have hnull : sendQuery bump st₀ ⟨'A', 0⟩ = .error .badNode := by
    refine bind_error.mpr (Or.inl (beginFree_absent ?_))
    rw [hst.running]
    rfl
  have htwice' := mem_toOption.mp htwice
  refine ⟨st₀, hs, ⟨hnull, fun hsafe => hsafe.2.2.1.follows hnull⟩,
    ⟨st₂, 2, htwice', ⟨n, hn, halloc⟩, hlost⟩, fun hsafe => ?_⟩
  obtain ⟨st₁, h1, hrest⟩ := runAll_cons.mp htwice'
  obtain ⟨st₂', h2, hend⟩ := runAll_cons.mp hrest
  cases hend
  obtain ⟨hmatched, -⟩ :=
    (hsafe.2.2.2 st₁ (mem_toOption.mpr h1)).2.2.2 st₂ (mem_toOption.mpr h2)
  obtain ⟨P, hP, hget⟩ := hmatched.surjOn ⟨2, rfl, n, hn, halloc⟩
  exact hlost P (AList.mem_keys.mp hP) hget

end BuddySafety
