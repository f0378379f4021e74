import OsLab.BuddyCaseProofs

/-! # When a request is refused

    A request is refused from the free lists alone, so refusals are right as
    long as the lists hold every free leaf.  They hold every free leaf but
    perhaps the root: when the coalescing loop merges all the way up,
    `send_query` returns before it lists the root again, and from then on
    the free root is in no list and every request is refused.

    In runs that free running processes and allocate for processes that are
    not running, this happens exactly when the only running process is
    freed (`refusal_exact`). -/

namespace BuddyRefusal

open OsHeap OsLoop OsDyadic BuddyModel BuddyInvariant BuddySurgery BuddySteps
open BuddyPlacement BuddyFrame BuddyCalls BuddyCase

/-- Every free names a running process and every allocation one that is not
    running. -/
def Orderly (A : Malloc) : State → List Query → Prop
  | _, [] => True
  | st, q :: qs => (q.pbytes = 0 ↔ q.pname ∈ st.runningRec) ∧
      ∀ st' ∈ (sendQuery A st q).toOption, Orderly A st' qs

instance decidableOrderly (A : Malloc) : ∀ st qs, Decidable (Orderly A st qs)
  | _, [] => inferInstanceAs (Decidable True)
  | st, q :: qs =>
      have : ∀ st', Decidable (Orderly A st' qs) := fun st' => decidableOrderly A st' qs
      inferInstanceAs (Decidable ((q.pbytes = 0 ↔ q.pname ∈ st.runningRec) ∧
        ∀ st' ∈ (sendQuery A st q).toOption, Orderly A st' qs))

/-- The query frees a process and no other one is running. -/
def EndsLast (st : State) (q : Query) : Prop :=
  q.pbytes = 0 ∧ ∀ Q ∈ st.runningRec, Q = q.pname

/-- No call of the run frees the only running process. -/
def NeverEmptied (A : Malloc) : State → List Query → Prop
  | _, [] => True
  | st, q :: qs => ¬ EndsLast st q ∧
      ∀ st' ∈ (sendQuery A st q).toOption, NeverEmptied A st' qs

/-- The request prints that it cannot be fulfilled. -/
def Refuses (A : Malloc) (st : State) (P : Char) (b : Int) : Prop :=
  ∃ st' ∈ (sendQuery A st ⟨P, b⟩).toOption, st'.stdout = st.stdout ++ [.cantFulfill P b]

instance (A : Malloc) (st : State) (P : Char) (b : Int) : Decidable (Refuses A st P b) :=
  inferInstanceAs (Decidable (∃ st' ∈ (sendQuery A st ⟨P, b⟩).toOption, _ = _))

/-- The tree has a free leaf at least as large as `b` bytes round up to. -/
def HasRoom (st : State) (root : Addr) (L : Nat) (b : Int) : Prop :=
  ∃ p a n s, nodeAt st.node root p = some a ∧ st.node a = some n ∧ FreeLeaf n ∧
    Fits L s b ∧ s ≤ n.size

/-- Requests of processes that are not running are refused exactly when there
    is no room for them. -/
def RefusesWhenFull (A : Malloc) (st : State) (root : Addr) (U L : Nat) : Prop :=
  ∀ P b, P ∉ st.runningRec → 1 ≤ b → b ≤ 2 ^ U → (Refuses A st P b ↔ ¬ HasRoom st root L b)

/-- Some list has a block for `b` bytes. -/
def Grants (U L : Nat) (st : State) (b : Int) : Prop :=
  ∃ k j, Rounds U L b k ∧ k ≤ j ∧ j ≤ U ∧ st.freeList (2 ^ j) ≠ []

/-- Every allocated leaf is in the running table under its name. -/
def Tracked (st : State) : Prop :=
  ∀ {a n}, Settled st.node none a n → st.runningRec.lookup n.pname = some (some a)

/-- A free root is in its list. -/
def Listed (root : Addr) (st : State) : Prop :=
  ∀ {m}, st.node root = some m → FreeLeaf m → root ∈ st.freeList m.size

/-- A state the allocator never leaves: all is free and nothing is listed. -/
structure Dead (root : Addr) (st : State) : Prop where
  root : ∃ m, st.node root = some m ∧ FreeLeaf m
  lists : ∀ s, st.freeList s = []
  running : ∀ Q, Q ∉ st.runningRec

section Steps

variable {A : Malloc} {U L : Nat} {root : Addr} {st st' : State} {q : Query}

theorem not_mem_running {P : Char} : P ∉ st.runningRec ↔ st.runningRec.lookup P = none :=
  AList.lookup_eq_none.symm

/-- A tree with a settled leaf has no free root. -/
theorem settled_root (h : Good U L root st) {a : Addr} {n m : BSTree}
    (hs : Settled st.node none a n) (hm : st.node root = some m) : ¬ FreeLeaf m := by
  intro hfree
  obtain rfl : a = root := Shape.only_root h.inv.shape hm hfree.1 hs.1
  obtain ⟨hn, -, hu, -⟩ := hs
  rw [Option.some.inj (hn.symm.trans hm), hfree.2] at hu
  exact absurd hu (by decide)

/-- A call that grants no block to a running name keeps every allocated leaf
    in the table. -/
theorem Tracked.step (ht : Tracked st) (hc : Called U L root st st' q)
    (hq : q.pbytes ≠ 0 → Grants U L st q.pbytes → q.pname ∉ st.runningRec) : Tracked st' := by
  intro b m hs
  cases hc with
  | freed a n h0 hrun hfr =>
      obtain ⟨hs', hba⟩ := (hfr.settled b m).mp hs
      have hlook := ht hs'
      rw [hfr.running]
      by_cases hname : m.pname = q.pname
      · rw [hname, hrun] at hlook
        exact absurd (Option.some.inj (Option.some.inj hlook)).symm hba
      · rw [if_neg hname]
        exact hlook
  | refused k h0 hr href hempty =>
      rw [href.node] at hs
      rw [href.running]
      exact ht hs
  | granted k a n h0 hr hlist hsz hgr =>
      rw [hgr.running, lookup_insert_if]
      rcases (hgr.settled b m).mp hs with hs' | ⟨rfl, rfl⟩
      · have hlook := ht hs'
        obtain ⟨j, hkj, hjU, hne⟩ := hlist
        have hname : m.pname ≠ q.pname := by
          intro he
          rw [he, not_mem_running.mp (hq h0 ⟨k, j, hr, hkj, hjU, hne⟩)] at hlook
          exact nomatch hlook
        rw [if_neg hname]
        exact hlook
      · rw [if_pos hgr.owner]

/-- At the start of a case nothing is allocated. -/
theorem started_tracked (h : Started U L root st st') : Tracked st' := by
  rintro a n ⟨hn, -, hu, -⟩
  rw [h.node] at hn
  by_cases har : a = root
  · rw [if_pos har] at hn
    rw [← Option.some.inj hn] at hu
    exact absurd (show (0 : Int) = 1 from hu) (by decide)
  · rw [if_neg har] at hn
    exact nomatch hn

/-- A free root stays listed as long as the last process is not freed. -/
theorem Listed.step (h : Good U L root st) (h' : Good U L root st') (hl : Listed root st)
    (hc : Called U L root st st' q) (hne : ¬ EndsLast st q) : Listed root st' := by
  intro m hm hfree
  cases hc with
  | freed a n h0 hrun hfr =>
      -- another process runs, in a leaf the call leaves in use
      exfalso
      obtain ⟨Q, hQ, hQP⟩ : ∃ Q, Q ∈ st.runningRec ∧ Q ≠ q.pname := by
        by_contra hall
        exact hne ⟨h0, fun Q hQ => by_contra fun hne' => hall ⟨Q, hQ, hne'⟩⟩
      obtain ⟨p, hp⟩ := Option.isSome_iff_exists.mp (AList.lookup_isSome.mpr hQ)
      obtain ⟨b, k, -, hk, hbn, hleaf, hu, hname⟩ := h.inv.running hp
      have hba : b ≠ a := by
        rintro rfl
        rw [Option.some.inj (hk.symm.trans hfr.was.1), hfr.owner] at hname
        exact hQP hname.symm
      exact settled_root h' ((hfr.settled b k).mpr ⟨⟨hk, hleaf, hu, hbn⟩, hba⟩) hm hfree
  | refused k h0 hr href hempty =>
      rw [href.node] at hm
      rw [href.lists]
      exact hl hm hfree
  | granted k a n h0 hr hlist hsz hgr => exact absurd hfree (settled_root h' hgr.here hm)

/-- **THE LAST FREE LOSES THE ROOT.** -/
theorem dead_of_endsLast (h' : Good U L root st') (ht : Tracked st)
    (hc : Called U L root st st' q) (hlast : EndsLast st q) : Dead root st' := by
  obtain ⟨h0, honly⟩ := hlast
  cases hc with
  | freed a n _ hrun hfr =>
      have hnone : ∀ b m, ¬ Settled st'.node none b m := by
        intro b m hs
        obtain ⟨hs', hba⟩ := (hfr.settled b m).mp hs
        have hlook := ht hs'
        have hname := honly m.pname (AList.lookup_isSome.mp (by rw [hlook]; rfl))
        rw [hname, hrun] at hlook
        exact hba (Option.some.inj (Option.some.inj hlook)).symm
      obtain ⟨m, hm, -⟩ := h'.inv.shape.top
      have hunused : m.isUsed ≠ 1 := by
        intro hu
        obtain ⟨p, b, k, -, hs, -⟩ :=
          used_below h'.inv.shape h'.inv.flags (p := []) rfl hm hu
        exact hnone b k hs
      have hleaf : IsLeaf m := by
        by_contra hnl
        exact hunused (h'.inv.flags.interior hm hnl)
      have hfree : FreeLeaf m :=
        ⟨hleaf, (flag_bit h'.inv.flags hm (fun he => nomatch he)).resolve_right hunused⟩
      refine ⟨⟨m, hm, hfree⟩, fun s => List.eq_nil_iff_forall_not_mem.mpr (fun x hx => ?_),
        fun Q => ?_⟩
      · obtain ⟨-, y, hy, -⟩ := h'.inv.lists.sound hx
        obtain rfl : x = root := Shape.only_root h'.inv.shape hm hleaf hy
        exact hfr.lost hm hfree s hx
      · rw [not_mem_running, hfr.running]
        by_cases hQ : Q = q.pname
        · rw [if_pos hQ]
        · rw [if_neg hQ, ← not_mem_running]
          exact fun hmem => hQ (honly Q hmem)
  | refused k hb => exact absurd h0 hb
  | granted k a n hb => exact absurd h0 hb

/-- Nothing an orderly call does brings the root back. -/
theorem Dead.step (h : Dead root st) (hc : Called U L root st st' q)
    (hq : q.pbytes = 0 ↔ q.pname ∈ st.runningRec) : Dead root st' := by
  cases hc with
  | freed a n h0 => exact absurd (hq.mp h0) (h.running _)
  | refused k h0 hr href hempty =>
      refine ⟨?_, ?_, ?_⟩
      · rw [href.node]; exact h.root
      · rw [href.lists]; exact h.lists
      · rw [href.running]; exact h.running
  | granted k a n h0 hr hlist =>
      obtain ⟨j, -, -, hne⟩ := hlist
      exact absurd (h.lists _) hne

/-! ## Room and refusal -/

theorem rounds_fits {b s : Int} {k : Nat} (hr : Rounds U L b k) (hf : Fits L s b) :
    s = 2 ^ k := by
  obtain ⟨e, h1, rfl, h2, h3⟩ := hf
  rw [Nat.le_antisymm (h3 k hr.low hr.holds) (hr.least e h1 h2)]

/-- A request that is answered is refused exactly when no list can help. -/
theorem refuses_iff (hd : Header U L) (h : Good U L root st) {P : Char} {b : Int} (hb : 1 ≤ b)
    (hbU : b ≤ 2 ^ U) : ∃ k, Rounds U L b k ∧
      (Refuses A st P b ↔ ∀ j, k ≤ j → j ≤ U → st.freeList (2 ^ j) = []) := by
  have hne : ¬ (st.stdout = st.stdout ++ [Line.cantFulfill P b]) := by
    intro he
    have := congrArg List.length he
    rw [List.length_append, List.length_singleton] at this
    omega
  rcases sendQuery_spec (A := A) hd h ⟨P, b⟩ with ⟨s, hs, -, hc⟩ | ⟨hgt, -⟩ | ⟨h0, -⟩
  · cases hc with
    | freed a n h0 => exact absurd (show b = 0 from h0) (by omega)
    | refused k h0 hr href hempty =>
        exact ⟨k, hr, fun _ => hempty, fun _ => ⟨s, mem_toOption.mpr hs, href.out⟩⟩
    | granted k a n h0 hr hlist hsz hgr =>
        refine ⟨k, hr, fun hrefuse => ?_, fun hall => ?_⟩
        · obtain ⟨s', hs', hout⟩ := hrefuse
          rw [mem_toOption, hs] at hs'
          cases hs'
          rw [hgr.out] at hout
          exact absurd hout hne
        · obtain ⟨j, hkj, hjU, hjne⟩ := hlist
          exact absurd (hall j hkj hjU) hjne
  · exact absurd hbU (not_le.mpr hgt)
  · exact absurd (show b = 0 from h0) (by omega)

/-- With every free leaf listed, refusals are right. -/
theorem refusesWhenFull_of_listed (hd : Header U L) (h : Good U L root st)
    (hl : Listed root st) : RefusesWhenFull A st root U L := by
  intro P b _ hb hbU
  obtain ⟨k, hr, hiff⟩ := refuses_iff (A := A) hd h (P := P) hb hbU
  rw [hiff]
  constructor
  · rintro hempty ⟨p, a, n, s, -, hn, hfree, hfit, hle⟩
    obtain ⟨e, -, heU, he⟩ := h.inv.shape.pow hn
    rw [rounds_fits hr hfit, he] at hle
    have hmem : a ∈ st.freeList n.size := by
      by_cases har : a = root
      · rw [har] at hn ⊢
        exact hl hn hfree
      · exact h.inv.lists.complete hn hfree (fun hx => nomatch hx) har
    rw [he, hempty e (pow_le_pow_iff.mp hle) heU] at hmem
    exact nomatch hmem
  · intro hroom j hkj hjU
    by_contra hne
    obtain ⟨a, ha⟩ := List.exists_mem_of_ne_nil _ hne
    obtain ⟨-, n, hn, hfree, hsz⟩ := h.inv.lists.sound ha
    obtain ⟨p, hp⟩ := Shape.placed h.inv.shape hn
    refine hroom ⟨p, a, n, 2 ^ k, hp, hn, hfree, ⟨k, hr.low, rfl, hr.holds, hr.least⟩, ?_⟩
    rw [hsz]
    exact pow_le_pow_iff.mpr hkj

/-- In a dead state a byte is refused although everything is free. -/
theorem dead_refuses (hd : Header U L) (h : Good U L root st) (hdead : Dead root st) :
    ¬ RefusesWhenFull A st root U L := by
  intro hall
  obtain ⟨m, hm, hfree⟩ := hdead.root
  have hone : (1 : Int) ≤ 2 ^ U := one_le_pow₀ (by decide)
  obtain ⟨k, hr, hiff⟩ := refuses_iff (A := A) hd h (P := 'A') (le_refl 1) hone
  have hrefuses := hiff.mpr (fun j _ _ => hdead.lists _)
  refine (hall 'A' 1 (hdead.running _) (le_refl 1) hone).mp hrefuses ?_
  refine ⟨[], root, m, 2 ^ k, rfl, hm, hfree, ⟨k, hr.low, rfl, hr.holds, hr.least⟩, ?_⟩
  obtain ⟨n, hn, -, hsz⟩ := h.inv.shape.top
  rw [← Option.some.inj (hm.symm.trans hn)] at hsz
  rw [hsz]
  exact pow_le_pow_iff.mpr hr.high

end Steps

/-! ## Runs -/

section Runs

variable {A : Malloc} {U L : Nat} {root : Addr}

/-- An orderly run that never frees the last process keeps the root listed. -/
theorem run_listed (hd : Header U L) {reqs : List Query} :
    ∀ {st st' : State}, Good U L root st → Listed root st → NeverEmptied A st reqs →
      runAll (sendQuery A) st reqs = .ok st' → Listed root st' := by
  induction reqs with
  | nil => intro st st' _ hl _ hrun; cases hrun; exact hl
  | cons q reqs ih =>
      intro st st' h hl hne hrun
      obtain ⟨st₁, hq, hrest⟩ := runAll_cons.mp hrun
      obtain ⟨h₁, hc⟩ := sendQuery_good hd h hq
      exact ih h₁ (Listed.step h h₁ hl hc hne.1) (hne.2 st₁ (mem_toOption.mpr hq)) hrest

/-- An orderly run stays dead. -/
theorem run_dead (hd : Header U L) {reqs : List Query} :
    ∀ {st st' : State}, Good U L root st → Dead root st → Orderly A st reqs →
      runAll (sendQuery A) st reqs = .ok st' → Dead root st' := by
  induction reqs with
  | nil => intro st st' _ hdead _ hrun; cases hrun; exact hdead
  | cons q reqs ih =>
      intro st st' h hdead hord hrun
      obtain ⟨st₁, hq, hrest⟩ := runAll_cons.mp hrun
      obtain ⟨h₁, hc⟩ := sendQuery_good hd h hq
      exact ih h₁ (hdead.step hc hord.1) (hord.2 st₁ (mem_toOption.mpr hq)) hrest

/-- An orderly run that frees the last process at some call ends dead. -/
theorem run_emptied (hd : Header U L) {reqs : List Query} :
    ∀ {st st' : State}, Good U L root st → Tracked st → Orderly A st reqs →
      ¬ NeverEmptied A st reqs → runAll (sendQuery A) st reqs = .ok st' → Dead root st' := by
  induction reqs with
  | nil => intro st st' _ _ _ hne; exact absurd trivial hne
  | cons q reqs ih =>
      intro st st' h ht hord hne hrun
      obtain ⟨st₁, hq, hrest⟩ := runAll_cons.mp hrun
      obtain ⟨h₁, hc⟩ := sendQuery_good hd h hq
      have hord₁ := hord.2 st₁ (mem_toOption.mpr hq)
      by_cases hlast : EndsLast st q
      · exact run_dead hd h₁ (dead_of_endsLast h₁ ht hc hlast) hord₁ hrest
      · have ht₁ : Tracked st₁ := Tracked.step ht hc (fun h0 _ hmem => h0 (hord.1.mpr hmem))
        refine ih h₁ ht₁ hord₁ (fun hne₁ => hne ⟨hlast, ?_⟩) hrest
        intro s hs
        rw [mem_toOption, hq] at hs
        cases hs
        exact hne₁

/-- **REFUSALS ARE RIGHT** in a state an orderly run ends in if and only if no
    call of the run freed the only running process. -/
theorem refusal_exact (hd : Header U L) {pid : Int} {out : List Line} {st₀ st : State}
    {reqs : List Query} (hstart : startCase A (boot pid out) U L = .ok st₀)
    (horderly : Orderly A st₀ reqs) (hrun : runAll (sendQuery A) st₀ reqs = .ok st) :
    ∃ root, st.root = some root ∧
      (RefusesWhenFull A st root U L ↔ NeverEmptied A st₀ reqs) := by
  obtain ⟨s, root, hs, hst⟩ := startCase_spec (A := A) hd (clear_boot pid out)
  obtain rfl : st₀ = s := Except.ok.inj (hstart.symm.trans hs)
  have hgood := run_good hd hst.good hrun
  have hlisted : Listed root st₀ := by
    intro m hm _
    rw [hst.node, if_pos rfl] at hm
    rw [← Option.some.inj hm, show (create (2 ^ U)).size = 2 ^ U from rfl, hst.list, if_pos rfl]
    exact List.mem_singleton.mpr rfl
  refine ⟨root, hgood.isRoot, fun hall => ?_, fun hne => ?_⟩
  · by_contra hne
    exact dead_refuses hd hgood (run_emptied hd hst.good (started_tracked hst) horderly hne hrun) hall
  · exact refusesWhenFull_of_listed hd hgood (run_listed hd hst.good hlisted hne hrun)

end Runs

/-- The smallest run that shows it: `A` takes a byte and ends, and the whole
    range is free. -/
def lostRun : List Query := [⟨'A', 1⟩, ⟨'A', 0⟩]

theorem refusal_exact_run : ∃ st₀ st root,
    startCase bump (boot (-1) []) (2 : Nat) (1 : Nat) = .ok st₀ ∧
      runAll (sendQuery bump) st₀ lostRun = .ok st ∧ st.root = some root ∧
      (RefusesWhenFull bump st root 2 1 ↔ NeverEmptied bump st₀ lostRun) := by
  have hrun : ∃ st₀ ∈ (startCase bump (boot (-1) []) (2 : Nat) (1 : Nat)).toOption,
      Orderly bump st₀ lostRun ∧
      (runAll (sendQuery bump) st₀ lostRun).toOption.isSome = true := by decide
  obtain ⟨st₀, h0, hord, hsome⟩ := hrun
  obtain ⟨st, hst⟩ := ok_of_isSome hsome
  have hd : Header 2 1 := ⟨by decide, by decide, by decide⟩
  obtain ⟨root, hroot⟩ := refusal_exact hd (mem_toOption.mp h0) hord hst
  exact ⟨st₀, st, root, mem_toOption.mp h0, hst, hroot⟩

/-- **THE LOST ROOT**: after `A` has taken a byte and ended, every process has
    been freed, the root is a free leaf of 4 bytes, and one byte for `B` is
    refused. -/
theorem refusal_lost_root : ∃ st₀ st root n,
    startCase bump (boot (-1) []) (2 : Nat) (1 : Nat) = .ok st₀ ∧ Orderly bump st₀ lostRun ∧
      runAll (sendQuery bump) st₀ lostRun = .ok st ∧ st.runningRec.keys = [] ∧
      st.root = some root ∧ st.node root = some n ∧ FreeLeaf n ∧ n.size = 4 ∧
      Refuses bump st 'B' 1 ∧ HasRoom st root 1 1 ∧ ¬ RefusesWhenFull bump st root 2 1 := by
  have hrun : ∃ st₀ ∈ (startCase bump (boot (-1) []) (2 : Nat) (1 : Nat)).toOption,
      Orderly bump st₀ lostRun ∧ ∃ st ∈ (runAll (sendQuery bump) st₀ lostRun).toOption,
      st.runningRec.keys = [] ∧ Refuses bump st 'B' 1 ∧
      ∃ root ∈ st.root, ∃ n ∈ st.node root, FreeLeaf n ∧ n.size = 4 := by decide
  obtain ⟨st₀, h0, hord, st, hst, hkeys, hrefuses, root, hroot, n, hn, hfree, hsz⟩ := hrun
  have hroom : HasRoom st root 1 1 := by
    refine ⟨[], root, n, 2 ^ 1, rfl, hn, hfree, ⟨1, le_refl _, rfl, by decide, ?_⟩, ?_⟩
    · intro j hj _
      exact hj
    · rw [hsz]
      decide
  have hB : 'B' ∉ st.runningRec := by
    rw [AList.mem_keys, hkeys]
    exact List.not_mem_nil
  refine ⟨st₀, st, root, n, mem_toOption.mp h0, hord, mem_toOption.mp hst, hkeys, hroot, hn,
    hfree, hsz, hrefuses, hroom, fun hall => ?_⟩
  exact (hall 'B' 1 hB (by decide) (by decide)).mp hrefuses hroom

end BuddyRefusal
