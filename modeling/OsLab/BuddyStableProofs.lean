import OsLab.BuddyTreeProofs

/-! # Live blocks are stable

    A call leaves every allocated leaf alone except the one it frees: the
    node keeps its address, its record and its place, after the call and at
    every turn of either loop on the way (`live_blocks_stable`).  The block
    a call allocates shares no byte with any block allocated before it. -/

namespace BuddyStable

open OsHeap OsLoop OsDyadic BuddyModel BuddyInvariant BuddySurgery BuddySteps
open BuddyPlacement BuddyFrame BuddyCalls BuddyCase BuddyTree

/-- Two blocks of `[0, 2^U)` do not overlap. -/
def Apart (U : Nat) (p : Path) (n : BSTree) (q : Path) (m : BSTree) : Prop :=
  (offset U p : Int) + n.size ≤ offset U q ∨ (offset U q : Int) + m.size ≤ offset U p

/-- At every turn of the loops of a call the leaf at `a` is as it was. -/
structure Undisturbed (A : Malloc) (st : State) (root : Addr) (q : Query) (p : Path)
    (a : Addr) (n : BSTree) : Prop where
  merging : ∀ {s₀ s}, q.pbytes = 0 → beginFree st q.pname = .ok s₀ → Visits mergeTurn s₀ s →
    AllocatedAt s.1 root p a n
  splitting : ∀ {want canGet lists curr rest s}, q.pbytes ≠ 0 →
    findReqdPowerOf2 st q.pbytes = .ok want → search st want = .ok (lists, some canGet) →
    OsHeap.get lists canGet = curr :: rest →
    Visits (splitTurn A want) ({ st with freeMap := lists }, curr, canGet) s →
    AllocatedAt s.1 root p a n

section Stable

variable {A : Malloc} {U L : Nat} {root : Addr} {st : State}

/-- The leaf a query frees. -/
def Frees (st : State) (q : Query) (a : Addr) : Prop :=
  q.pbytes = 0 ∧ st.runningRec.lookup q.pname = some (some a)

theorem allocatedAt_settled (h : Good U L root st) {p : Path} {a : Addr} {n : BSTree} :
    AllocatedAt st root p a n ↔ nodeAt st.node root p = some a ∧ Settled st.node none a n := by
  rw [settled_iff h.inv.flags]
  rfl

/-- A settled leaf is allocated, whatever the hole is. -/
theorem settled_allocated {look : Look} {hole : Ptr} (hf : Flags look L hole) {a : Addr}
    {n : BSTree} (hs : Settled look hole a n) : look a = some n ∧ Allocated n := by
  obtain ⟨hn, hleaf, hu, hne⟩ := hs
  rcases hf.leaf hn hleaf hne with ⟨h0, -⟩ | ⟨-, hb, -⟩
  · rw [hu] at h0
    exact absurd h0 (by decide)
  · exact ⟨hn, hleaf, hb⟩

/-- After a call an allocated leaf it does not free is as it was. -/
theorem kept (h : Good U L root st) {st' : State} (h' : Good U L root st') {q : Query}
    (hc : Called U L root st st' q) {p : Path} {a : Addr} {n : BSTree}
    (ha : AllocatedAt st root p a n) (hnf : ¬ Frees st q a) : AllocatedAt st' root p a n := by
  obtain ⟨hp, hset⟩ := (allocatedAt_settled h).mp ha
  refine (allocatedAt_settled h').mpr ?_
  cases hc with
  | freed b m hq hrun hfr =>
      have hab : a ≠ b := fun he => hnf ⟨hq, he ▸ hrun⟩
      have hset' := (hfr.settled a n).mpr ⟨hset, hab⟩
      exact ⟨hfr.path hset' hp, hset'⟩
  | refused k hq hr href hempty =>
      rw [href.node]
      exact ⟨hp, hset⟩
  | granted k b m hq hr hlist hsz hgr =>
      exact ⟨hgr.path hset hp, (hgr.settled a n).mpr (Or.inl hset)⟩

/-- A leaf that is allocated after a call and was not before is no leaf that
    was. -/
theorem new_ne (h : Good U L root st) {st' : State} (h' : Good U L root st') {q : Query}
    (hc : Called U L root st st' q) {p p' : Path} {a a' : Addr} {n n' : BSTree}
    (hnew : AllocatedAt st' root p a n) (hwas : ¬ AllocatedAt st root p a n)
    (hold : AllocatedAt st root p' a' n') : a ≠ a' ∧ q.pbytes ≠ 0 := by
  obtain ⟨hp, hset⟩ := (allocatedAt_settled h').mp hnew
  obtain ⟨hp', hset'⟩ := (allocatedAt_settled h).mp hold
  -- a leaf settled before the call keeps its path, so it is not new
  have notOld : ∀ {m}, Settled st.node none a m → nodeAt st'.node root p = some a →
      (∀ {r}, nodeAt st.node root r = some a → nodeAt st'.node root r = some a) → m = n →
      False := by
    intro m hm hpa hpath hmn
    obtain ⟨r, hr⟩ := Shape.placed h.inv.shape hm.1
    have hrp : r = p := nodeAt_unique h'.inv.shape (hpath hr) hpa
    exact hwas ((allocatedAt_settled h).mpr ⟨hrp ▸ hr, hmn ▸ hm⟩)
  cases hc with
  | freed b m hq hrun hfr =>
      have hs := (hfr.settled a n).mp hset
      exact (notOld hs.1 hp (fun hr => hfr.path hset hr) rfl).elim
  | refused k hq hr href hempty =>
      rw [href.node] at hp hset
      exact (hwas ((allocatedAt_settled h).mpr ⟨hp, hset⟩)).elim
  | granted k b m hq hr hlist hsz hgr =>
      rcases (hgr.settled a n).mp hset with hs | ⟨rfl, rfl⟩
      · exact (notOld hs hp (fun hr => hgr.path hs hr) rfl).elim
      · exact ⟨fun he => hgr.fresh n' (he ▸ hset'), hq⟩

/-- Two leaves of one tree lie apart. -/
theorem leaves_apart (h : Good U L root st) {p p' : Path} {a a' : Addr} {n n' : BSTree}
    (ha : AllocatedAt st root p a n) (ha' : AllocatedAt st root p' a' n') (hne : a ≠ a') :
    Apart U p n p' n' := by
  obtain ⟨hlen, hsz⟩ := Shape.size_at h.inv.shape ha.1 ha.2.1
  obtain ⟨hlen', hsz'⟩ := Shape.size_at h.inv.shape ha'.1 ha'.2.1
  -- a leaf has nothing below it, so neither path extends the other
  have noExt : ∀ {x y : Path} {b c : Addr} {m m' : BSTree}, AllocatedAt st root x b m →
      AllocatedAt st root y c m' → b ≠ c → ¬ x <+: y := by
    rintro x y b c m m' hb hc hbc ⟨t, rfl⟩
    have htne : t ≠ [] := by
      rintro rfl
      rw [List.append_nil] at hc
      exact hbc (Option.some.inj (hb.1.symm.trans hc.1))
    exact (interior_iff h hb.1 hb.2.1).mpr ⟨t, c, m', htne, hc⟩ hb.2.2.1
  have hdis := offset_disjoint hlen hlen' (noExt ha ha' hne) (noExt ha' ha hne.symm)
  have hw : ∀ x : Path, (width U x : Int) = 2 ^ (U - x.length) := by
    intro x
    rw [width]
    push_cast
    rfl
  rw [Apart, hsz, hsz', ← hw, ← hw]
  omega

/-- Between the turns of the coalescing loop every leaf but the freed one is
    as it was. -/
theorem undisturbed_merging (h : Good U L root st) {P : Char} {p : Path} {a : Addr}
    {n : BSTree} (ha : AllocatedAt st root p a n)
    (hnf : st.runningRec.lookup P ≠ some (some a)) {s₀ s : State × Addr}
    (hb : beginFree st P = .ok s₀) (hv : Visits mergeTurn s₀ s) : AllocatedAt s.1 root p a n := by
  obtain ⟨hp, hset⟩ := (allocatedAt_settled h).mp ha
  cases hrun : st.runningRec.lookup P with
  | none =>
      rw [beginFree_absent hrun] at hb
      exact nomatch hb
  | some x =>
      obtain ⟨b, m, s', rfl, hb', -, -, hm, hrel, -⟩ := beginFree_running h hrun
      obtain rfl : (s', b) = s₀ := Except.ok.inj (hb'.symm.trans hb)
      have hab : a ≠ b := fun he => hnf (he ▸ hrun)
      have hset' : Settled s'.node (some b) a n :=
        hset.relabel hrel hab (fun he => hab (Option.some.inj he).symm)
      have hp' : nodeAt s'.node root p = some a := (nodeAt_relabel hrel).mp hp
      obtain ⟨hm', hk⟩ := mergeTurn_visits hv hm
      obtain ⟨hn, hal⟩ := settled_allocated hm'.inv.flags ((hk.settled a n).mp hset')
      exact ⟨hk.path hset' hp', hn, hal⟩

/-- Between the turns of the splitting loop every allocated leaf is as it
    was. -/
theorem undisturbed_splitting (hd : Header U L) (h : Good U L root st) {b : Int} {p : Path}
    {a : Addr} {n : BSTree} (ha : AllocatedAt st root p a n) {want canGet : Int}
    {lists : DefMap Int (List Addr)} {curr : Addr} {rest : List Addr}
    {s : State × Addr × Int} (hfind : findReqdPowerOf2 st b = .ok want)
    (hsearch : search st want = .ok (lists, some canGet))
    (hhead : OsHeap.get lists canGet = curr :: rest)
    (hv : Visits (splitTurn A want) ({ st with freeMap := lists }, curr, canGet) s) :
    AllocatedAt s.1 root p a n := by
  obtain ⟨hp, hset⟩ := (allocatedAt_settled h).mp ha
  obtain ⟨k, j, rfl, rfl, hLk, hkj, -, hgood, -⟩ := found_spec hd h hfind hsearch
  obtain ⟨m, hm, hfree, -⟩ := Lists.head hgood.inv.lists hhead
  obtain ⟨hc, hk⟩ := splitTurn_visits hLk hv (Carving.start hgood hkj hhead)
  have htake : Keeps root st.node st.node none (some curr) := Keeps.take hm hfree.2
  obtain ⟨hn, hal⟩ := settled_allocated hc.held.inv.flags (((htake.trans hk).settled a n).mp hset)
  exact ⟨(htake.trans hk).path hset hp, hn, hal⟩

end Stable

/-- **LIVE BLOCKS ARE STABLE**: a call that returns leaves every allocated
    leaf it does not free with its node, record and place, throughout the
    call; a newly allocated leaf lies apart from every leaf allocated
    before. -/
theorem live_blocks_stable {A : Malloc} {U L : Nat} (hd : Header U L) {pid : Int}
    {out : List Line} {reqs : List Query} {st st' : State} {q : Query}
    (h : testCase A (boot pid out) U L reqs = .ok st) (hq : sendQuery A st q = .ok st') :
    ∃ root, st.root = some root ∧ st'.root = some root ∧
      (∀ p a n, AllocatedAt st root p a n → ¬ Frees st q a →
        AllocatedAt st' root p a n ∧ Undisturbed A st root q p a n) ∧
      (∀ p a n p' a' n', AllocatedAt st' root p a n → ¬ AllocatedAt st root p a n →
        AllocatedAt st root p' a' n' → Apart U p n p' n') := by
  obtain ⟨root, hgood⟩ := testCase_good hd h
  obtain ⟨hgood', hcalled⟩ := sendQuery_good hd hgood hq
  refine ⟨root, hgood.isRoot, hgood'.isRoot, ?_, ?_⟩
  · intro p a n ha hnf
    refine ⟨kept hgood hgood' hcalled ha hnf, ?_, ?_⟩
    · intro s₀ s h0 hb hv
      exact undisturbed_merging hgood ha (fun hrun => hnf ⟨h0, hrun⟩) hb hv
    · intro want canGet lists curr rest s _ hfind hsearch hhead hv
      exact undisturbed_splitting hd hgood ha hfind hsearch hhead hv
  · intro p a n p' a' n' hnew hwas hold
    obtain ⟨hne, h0⟩ := new_ne hgood hgood' hcalled hnew hwas hold
    have hkept := kept hgood hgood' hcalled hold (fun hfrees => h0 hfrees.1)
    exact leaves_apart hgood' hnew hkept hne

theorem live_blocks_stable_run : ∃ st st' root,
    testCase bump (boot (-1) []) (3 : Nat) (1 : Nat) [⟨'A', 3⟩, ⟨'B', 2⟩] = .ok st ∧
      sendQuery bump st ⟨'A', 0⟩ = .ok st' ∧ st.root = some root ∧ st'.root = some root ∧
      (∀ p a n, AllocatedAt st root p a n → ¬ Frees st ⟨'A', 0⟩ a →
        AllocatedAt st' root p a n ∧ Undisturbed bump st root ⟨'A', 0⟩ p a n) ∧
      (∀ p a n p' a' n', AllocatedAt st' root p a n → ¬ AllocatedAt st root p a n →
        AllocatedAt st root p' a' n' → Apart 3 p n p' n') := by
  have hsome : (testCase bump (boot (-1) []) (3 : Nat) (1 : Nat)
      [⟨'A', 3⟩, ⟨'B', 2⟩]).toOption.isSome = true := by decide
  obtain ⟨st, hst⟩ := ok_of_isSome hsome
  have hnext : ((testCase bump (boot (-1) []) (3 : Nat) (1 : Nat)
      [⟨'A', 3⟩, ⟨'B', 2⟩] >>= fun s => sendQuery bump s ⟨'A', 0⟩).toOption.isSome = true) := by
    decide
  obtain ⟨st', hst'⟩ := ok_of_isSome hnext
  obtain ⟨s, hs, hcall⟩ := bind_ok.mp hst'
  obtain rfl : st = s := Except.ok.inj (hst.symm.trans hs)
  obtain ⟨root, hroot⟩ := live_blocks_stable header_small hst hcall
  exact ⟨st, st', root, hst, hcall, hroot⟩

end BuddyStable
