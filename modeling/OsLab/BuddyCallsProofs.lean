import OsLab.BuddyFrameProofs
import OsLab.BuddyStepsProofs

/-! # Whole calls of the allocator

    The loops of `send_query` keep the invariant from turn to turn with the
    hole at the node in hand (`Carving`, `Merging`), and both leave within
    their bound.  From the two loops: what a call that frees does
    (`freeQuery_spec`), what a call that allocates does (`allocQuery_spec`),
    and that a call which returns leaves a good state behind
    (`sendQuery_good`). -/

namespace BuddyCalls

open OsHeap OsLoop OsDyadic BuddyModel BuddyInvariant BuddySurgery BuddySteps
open BuddyPlacement BuddyFrame

/-- Apart from the tree and the free lists, the globals agree. -/
structure SameGlobals (st st' : State) : Prop where
  root : st'.root = st.root
  running : st'.runningRec = st.runningRec
  pid : st'.pidGlobal = st.pidGlobal
  total : st'.totalSize = st.totalSize
  gran : st'.minGranularity = st.minGranularity
  out : st'.stdout = st.stdout

theorem SameGlobals.refl (st : State) : SameGlobals st st := ⟨rfl, rfl, rfl, rfl, rfl, rfl⟩

theorem SameGlobals.trans {st st' st'' : State} (h1 : SameGlobals st st')
    (h2 : SameGlobals st' st'') : SameGlobals st st'' where
  root := h2.root.trans h1.root
  running := h2.running.trans h1.running
  pid := h2.pid.trans h1.pid
  total := h2.total.trans h1.total
  gran := h2.gran.trans h1.gran
  out := h2.out.trans h1.out

/-- The first cell of a list and its node's record. -/
theorem Lists.head {look : Look} {root : Addr} {fl : Int → List Addr} {hole : Ptr}
    (h : Lists look root fl hole) {s : Int} {a : Addr} {rest : List Addr}
    (hs : fl s = a :: rest) : ∃ n, look a = some n ∧ FreeLeaf n ∧ n.size = s :=
  (h.sound (hs ▸ List.mem_cons_self : a ∈ fl s)).2

/-! ## The splitting loop -/

/-- The lists as they are once the list of size `s` has lost its head. -/
def behind (st : State) (s : Int) (x : Int) : List Addr :=
  if x = s then (st.freeList x).tail else st.freeList x

/-- Between the turns of the splitting loop, towards a block of `2^k` out of
    the list of `2^j`: the hole is the free leaf in hand. -/
structure Carving (U L : Nat) (root : Addr) (k j : Nat) (s : State × Addr × Int) :
    Prop where
  held : Held U L root s.1 (behind s.1 (2 ^ j)) (some s.2.1)
  stock : s.1.freeList (2 ^ j) ≠ []
  curr : ∃ n m, s.1.node s.2.1 = some n ∧ FreeLeaf n ∧ n.size = s.2.2 ∧
    s.2.2 = 2 ^ m ∧ k ≤ m ∧ m ≤ j

section Carve

variable {A : Malloc} {U L : Nat} {root : Addr} {k j : Nat}

/-- The head of a free list is ready to be carved. -/
theorem Carving.start {st : State} (h : Good U L root st) (hkj : k ≤ j) {a : Addr}
    {rest : List Addr} (hs : st.freeList (2 ^ j) = a :: rest) :
    Carving U L root k j (st, a, 2 ^ j) where
  held := by
    refine ⟨Inv.take h.inv hs (fun x => ?_), h.isRoot, h.total, h.gran⟩
    by_cases hx : x = 2 ^ j
    · rw [if_pos hx, behind, if_pos hx, hx, hs]
      rfl
    · rw [if_neg hx, behind, if_neg hx]
  stock := by rw [hs]; exact List.cons_ne_nil _ _
  curr := by
    obtain ⟨n, hn, hfree, hsz⟩ := Lists.head h.inv.lists hs
    exact ⟨n, j, hn, hfree, hsz, rfl, hkj, Nat.le_refl _⟩

/-- **ONE TURN OF THE SPLITTING LOOP**: the leaf in hand has the wanted size,
    or it is split and its left child is in hand. -/
theorem splitTurn_carving (hLk : L ≤ k) {s : State × Addr × Int}
    (h : Carving U L root k j s) :
    (s.2.2 = 2 ^ k ∧ splitTurn A (2 ^ k) s = .ok (.done (s.1, s.2.1))) ∨
    (∃ s', splitTurn A (2 ^ k) s = .ok (.again s') ∧ Carving U L root k j s' ∧
      Keeps root s.1.node s'.1.node (some s.2.1) (some s'.2.1) ∧
      SameGlobals s.1 s'.1 ∧ lg s'.2.2 < lg s.2.2) := by
  obtain ⟨st, a, i⟩ := s
  obtain ⟨n, m, hn, hfree, hsz, hi, hkm, hmj⟩ := h.curr
  simp only at hn hfree hsz hi
  by_cases hw : i = 2 ^ k
  · refine Or.inl ⟨hw, ?_⟩
    rw [splitTurn, if_pos hw]
  · obtain ⟨m, rfl⟩ : ∃ m', m = m' + 1 := by
      have hne : k ≠ m := fun he => hw (he ▸ hi)
      exact ⟨m - 1, by omega⟩
    have hkm' : k ≤ m := by
      have hne : k ≠ m + 1 := fun he => hw (he ▸ hi)
      omega
    have hnw : n.size ≠ 2 ^ k := fun he => hw (hsz.symm.trans he)
    obtain ⟨l, r, nodes, hturn, hbr⟩ := splitTurn_spec (A := A) hn hfree.1 (hsz.trans hi)
      h.held.gran (by omega) hnw
    rw [hsz] at hturn
    have hlist : ∀ x, State.freeList { st with
        nodes := nodes, freeMap := st.freeMap.insert (2 ^ m) (r :: st.freeList (2 ^ m)) } x =
        if x = 2 ^ m then r :: st.freeList (2 ^ m) else st.freeList x := fun x => get_insert ..
    have hne : (2 ^ j : Int) ≠ 2 ^ m := fun he => by have := pow_inj he; omega
    refine Or.inr ⟨_, hturn, ⟨?_, ?_, ?_⟩, Keeps.grow hbr rfl, ⟨rfl, rfl, rfl, rfl, rfl, rfl⟩, ?_⟩
    · refine ⟨Inv.grow h.held.inv hbr ⟨m, by omega, ?_, rfl⟩ rfl rfl rfl (fun x => ?_),
        h.held.isRoot, h.held.total, h.held.gran⟩
      · obtain ⟨e, -, heU, he⟩ := h.held.inv.shape.pow hn
        have := pow_inj (he.symm.trans (hsz.trans hi))
        omega
      · show behind _ (2 ^ j) x = if x = 2 ^ m then r :: behind st (2 ^ j) x else
          behind st (2 ^ j) x
        rw [behind, behind, hlist]
        by_cases hx : x = 2 ^ m
        · rw [if_pos hx, if_pos hx, hx, if_neg hne.symm, if_neg hne.symm]
        · rw [if_neg hx, if_neg hx]
    · show State.freeList _ (2 ^ j) ≠ []
      rw [hlist, if_neg hne]
      exact h.stock
    · exact ⟨_, m, hbr.linked.atLeft, ⟨hbr.leafLeft, rfl⟩, rfl, rfl, hkm', by omega⟩
    · show lg (2 ^ m) < lg i
      rw [hi, lg_pow, lg_pow]
      omega

/-- Every turn of the splitting loop is at a free leaf. -/
theorem splitTurn_visits (hLk : L ≤ k) {s s' : State × Addr × Int}
    (hv : Visits (splitTurn A (2 ^ k)) s s') (h : Carving U L root k j s) :
    Carving U L root k j s' ∧
      Keeps root s.1.node s'.1.node (some s.2.1) (some s'.2.1) := by
  let I : State × Addr × Int → Prop := fun x => Carving U L root k j x ∧
    Keeps root s.1.node x.1.node (some s.2.1) (some x.2.1)
  refine visits_inv (I := I) ?_ hv ⟨h, Keeps.refl _ _ _⟩
  rintro x y ⟨hx, hkeep⟩ hy
  rcases splitTurn_carving (A := A) hLk hx with ⟨-, hd⟩ | ⟨z, hz, hc, hk, -⟩
  · rw [hy] at hd
    exact nomatch hd
  · rw [hy] at hz
    cases hz
    exact ⟨hc, hkeep.trans hk⟩

/-- The splitting loop leaves with a free leaf of the wanted size in hand. -/
theorem splitLoop_spec (hLk : L ≤ k) (hj : j < turns) {st : State} {a : Addr}
    (h : Carving U L root k j (st, a, 2 ^ j)) :
    ∃ s, loop .endless (splitTurn A (2 ^ k)) turns (st, a, 2 ^ j) = .ok s ∧
      Carving U L root k j (s.1, s.2, 2 ^ k) ∧
      Keeps root st.node s.1.node (some a) (some s.2) ∧ SameGlobals st s.1 := by
  let I : State × Addr × Int → Prop := fun s => Carving U L root k j s ∧
    Keeps root st.node s.1.node (some a) (some s.2.1) ∧ SameGlobals st s.1
  refine loop_total (I := I) (fun s => lg s.2.2) ?_ ⟨h, Keeps.refl _ _ _, SameGlobals.refl _⟩
    (by show lg (2 ^ j) < turns; rw [lg_pow]; exact hj)
  rintro s ⟨hc, hk, hg⟩
  rcases splitTurn_carving (A := A) hLk hc with ⟨hi, hd⟩ | ⟨s', ha, hc', hk', hg', hlt⟩
  · exact Or.inl ⟨_, hd, hi ▸ hc, hk, hg⟩
  · exact Or.inr ⟨s', ha, ⟨hc', hk.trans hk', hg.trans hg'⟩, hlt⟩

/-- `carve` on a list that is not empty: the loop, and then the head goes. -/
theorem carve_cons {st : State} {want canGet : Int} {a : Addr} {rest : List Addr}
    (hs : st.freeList canGet = a :: rest) {s : State × Addr} {st' : State}
    (hloop : (if want = canGet then (.ok (st, a) : Except Fault (State × Addr))
      else loop .endless (splitTurn A want) turns (st, a, canGet)) = .ok s)
    (hdrop : dropHead s.1 canGet = .ok st') : carve A st want canGet = .ok (st', s.2) := by
  rw [carve, hs]
  by_cases hw : want = canGet
  · rw [if_pos hw] at hloop
    simp only [if_pos hw]
    cases hloop
    exact bind_ok.mpr ⟨_, rfl, bind_ok.mpr ⟨st', hdrop, rfl⟩⟩
  · rw [if_neg hw] at hloop
    simp only [if_neg hw]
    exact bind_ok.mpr ⟨s, hloop, bind_ok.mpr ⟨st', hdrop, rfl⟩⟩

/-- **CARVING**: a block of the wanted size becomes the hole. -/
theorem carve_spec {st : State} (h : Good U L root st) (hLk : L ≤ k) (hkj : k ≤ j)
    (hj : j < turns) (hne : st.freeList (2 ^ j) ≠ []) :
    ∃ s n, carve A st (2 ^ k) (2 ^ j) = .ok s ∧ Held U L root s.1 s.1.freeList (some s.2) ∧
      s.1.node s.2 = some n ∧ FreeLeaf n ∧ n.size = 2 ^ k ∧
      Keeps root st.node s.1.node none (some s.2) ∧ SameGlobals st s.1 := by
  cases hs : st.freeList (2 ^ j) with
  | nil => exact absurd hs hne
  | cons a rest =>
      have hstart := Carving.start h hkj hs
      obtain ⟨na, hna, hfa, -⟩ := Lists.head h.inv.lists hs
      have htake : Keeps root st.node st.node none (some a) := Keeps.take hna hfa.2
      obtain ⟨s, hloop, hc, hk, hg⟩ : ∃ s : State × Addr,
          (if (2 ^ k : Int) = 2 ^ j then (.ok (st, a) : Except Fault (State × Addr))
            else loop .endless (splitTurn A (2 ^ k)) turns (st, a, 2 ^ j)) = .ok s ∧
          Carving U L root k j (s.1, s.2, 2 ^ k) ∧
          Keeps root st.node s.1.node (some a) (some s.2) ∧ SameGlobals st s.1 := by
        by_cases hkj' : (2 ^ k : Int) = 2 ^ j
        · rw [if_pos hkj']
          exact ⟨(st, a), rfl, hkj' ▸ hstart, Keeps.refl _ _ _, SameGlobals.refl _⟩
        · rw [if_neg hkj']
          exact splitLoop_spec hLk hj hstart
      obtain ⟨n, m, hn, hfn, hsz, -⟩ := hc.curr
      cases hl : s.1.freeList (2 ^ j) with
      | nil => exact absurd hl hc.stock
      | cons b next =>
          refine ⟨({ s.1 with freeMap := s.1.freeMap.insert (2 ^ j) next }, s.2), n, ?_, ?_, hn,
            hfn, hsz, htake.trans hk, ⟨hg.1, hg.2, hg.3, hg.4, hg.5, hg.6⟩⟩
          · have hdrop : dropHead s.1 (2 ^ j) =
                .ok { s.1 with freeMap := s.1.freeMap.insert (2 ^ j) next } := by
              rw [dropHead, hl]
            exact carve_cons hs hloop hdrop
          · have hview : behind s.1 (2 ^ j) = State.freeList
                { s.1 with freeMap := s.1.freeMap.insert (2 ^ j) next } := by
              funext x
              show _ = OsHeap.get (s.1.freeMap.insert (2 ^ j) next) x
              rw [get_insert, behind]
              by_cases hx : x = 2 ^ j
              · rw [if_pos hx, if_pos hx, hx, hl]
                rfl
              · rw [if_neg hx, if_neg hx]
                rfl
            have hheld := hc.held
            simp only [hview] at hheld
            exact ⟨hheld.inv, hheld.isRoot, hheld.total, hheld.gran⟩

end Carve

/-! ## The coalescing loop -/

section Merge

variable {U L : Nat} {root : Addr}

/-- Between the turns of the coalescing loop: the hole is the node in hand. -/
def Merging (U L : Nat) (root : Addr) (s : State × Addr) : Prop :=
  Held U L root s.1 s.1.freeList (some s.2)

/-- How far the node in hand is below the root. -/
def below (U : Nat) (s : State × Addr) : Nat :=
  match s.1.node s.2 with
  | none => 0
  | some n => U - lg n.size

theorem below_lt {U : Nat} {st st' : State} {t p : Addr} {nt np : BSTree} {k : Nat}
    (ht : st.node t = some nt) (hp : st'.node p = some np) (hsz : nt.size = 2 ^ k)
    (hpsz : np.size = 2 * nt.size) (hk : k < U) : below U (st', p) < below U (st, t) := by
  have hpow : np.size = 2 ^ (k + 1) := by rw [hpsz, hsz, pow_succ, mul_comm]
  have e1 : below U (st, t) = U - k := by
    show (match st.node t with | none => 0 | some n => U - lg n.size) = _
    rw [ht]
    show U - lg nt.size = _
    rw [hsz, lg_pow]
  have e2 : below U (st', p) = U - (k + 1) := by
    show (match st'.node p with | none => 0 | some n => U - lg n.size) = _
    rw [hp]
    show U - lg np.size = _
    rw [hpow, lg_pow]
  omega

/-- Where the coalescing loop stops: at the root or next to a used sibling. -/
def Stopped (root : Addr) (s : State × Addr) : Prop :=
  s.2 = root ∨ ∃ p np l r nl nr sib ms,
    Family s.1.node p np l r nl nr s.2 sib ms ∧ ms.isUsed = 1

/-- **ONE TURN OF THE COALESCING LOOP**: it stops, or the children of the
    parent go and the parent is in hand. -/
theorem mergeTurn_merging {s : State × Addr} (h : Merging U L root s) :
    (mergeTurn s = .ok (.done s) ∧ Stopped root s) ∨
    (∃ s', mergeTurn s = .ok (.again s') ∧ Merging U L root s' ∧
      Keeps root s.1.node s'.1.node (some s.2) (some s'.2) ∧ SameGlobals s.1 s'.1 ∧
      below U s' < below U s) := by
  obtain ⟨st, t⟩ := s
  by_cases ht : t = root
  · refine Or.inl ⟨?_, Or.inl ht⟩
    rw [mergeTurn, if_pos]
    rw [h.isRoot, ← ht]
  · rcases mergeTurn_spec h ht with ⟨p, np, l, r, nl, nr, sib, ms, hf, hu, hd⟩ |
      ⟨p, np, l, r, nl, nr, sib, ms, st', hf, hu, hco, ha⟩
    · exact Or.inl ⟨hd, Or.inr ⟨p, np, l, r, nl, nr, sib, ms, hf, hu⟩⟩
    · have hheld := coalesce_held h hf hu hco
      obtain ⟨nodes, cells, heq, hbr, -⟩ := coalesce_spec h hf hu
      rw [heq] at hco
      cases hco
      refine Or.inr ⟨_, ha, hheld, Keeps.shrink hbr hf.who hf.at_sib hu,
        ⟨rfl, rfl, rfl, rfl, rfl, rfl⟩, ?_⟩
      obtain ⟨nt, hnt, hhalf⟩ : ∃ nt, st.node t = some nt ∧ np.size = 2 * nt.size := by
        rcases hf.who with ⟨rfl, -⟩ | ⟨rfl, -⟩
        · exact ⟨nl, hf.linked.atLeft, hf.linked.halfLeft⟩
        · exact ⟨nr, hf.linked.atRight, hf.linked.halfRight⟩
      obtain ⟨k, -, -, hk⟩ := h.inv.shape.pow hnt
      obtain ⟨kp, -, hkp, hp⟩ := h.inv.shape.pow hf.at_p
      have hkk : kp = k + 1 := by
        rw [hhalf, hk, mul_comm, ← pow_succ] at hp
        exact (pow_inj hp).symm
      exact below_lt hnt hbr.leafAt hk hhalf (by omega)

/-- Every turn of the coalescing loop is at the hole of a held state. -/
theorem mergeTurn_visits {s s' : State × Addr} (hv : Visits mergeTurn s s')
    (h : Merging U L root s) :
    Merging U L root s' ∧ Keeps root s.1.node s'.1.node (some s.2) (some s'.2) := by
  let I : State × Addr → Prop := fun x => Merging U L root x ∧
    Keeps root s.1.node x.1.node (some s.2) (some x.2)
  refine visits_inv (I := I) ?_ hv ⟨h, Keeps.refl _ _ _⟩
  rintro x y ⟨hx, hkeep⟩ hy
  rcases mergeTurn_merging hx with ⟨hd, -⟩ | ⟨z, hz, hm, hk, -⟩
  · rw [hy] at hd
    exact nomatch hd
  · rw [hy] at hz
    cases hz
    exact ⟨hm, hkeep.trans hk⟩

/-- The coalescing loop leaves at a node that cannot be merged further. -/
theorem mergeLoop_spec (hU : U < turns) {s : State × Addr} (h : Merging U L root s) :
    ∃ s', loop .endless mergeTurn turns s = .ok s' ∧ Merging U L root s' ∧
      Keeps root s.1.node s'.1.node (some s.2) (some s'.2) ∧ SameGlobals s.1 s'.1 ∧
      Stopped root s' := by
  let I : State × Addr → Prop := fun x => Merging U L root x ∧
    Keeps root s.1.node x.1.node (some s.2) (some x.2) ∧ SameGlobals s.1 x.1
  refine (loop_total (I := I) (Q := fun x => I x ∧ Stopped root x) (below U) ?_
    ⟨h, Keeps.refl _ _ _, SameGlobals.refl _⟩ ?_).imp
    (fun x hx => ⟨hx.1, hx.2.1.1, hx.2.1.2.1, hx.2.1.2.2, hx.2.2⟩)
  · rintro x ⟨hm, hk, hg⟩
    rcases mergeTurn_merging hm with ⟨hd, hstop⟩ | ⟨y, ha, hm', hk', hg', hlt⟩
    · exact Or.inl ⟨x, hd, ⟨hm, hk, hg⟩, hstop⟩
    · exact Or.inr ⟨y, ha, ⟨hm', hk.trans hk', hg.trans hg'⟩, hlt⟩
  · refine Nat.lt_of_le_of_lt ?_ hU
    rw [below]
    cases s.1.node s.2 with
    | none => exact Nat.zero_le _
    | some n => exact Nat.sub_le _ _

end Merge

/-! ## A call that frees -/

/-- What a call does that ends process `P` at node `a`. -/
structure Freed (root : Addr) (st st' : State) (P : Char) (a : Addr) (n : BSTree) : Prop where
  was : Settled st.node none a n
  owner : n.pname = P
  settled : ∀ b m, Settled st'.node none b m ↔ Settled st.node none b m ∧ b ≠ a
  path : ∀ {b m p}, Settled st'.node none b m → nodeAt st.node root p = some b →
    nodeAt st'.node root p = some b
  running : ∀ Q, st'.runningRec.lookup Q = if Q = P then none else st.runningRec.lookup Q
  lost : ∀ {m}, st'.node root = some m → FreeLeaf m → ∀ s, root ∉ st'.freeList s
  out : st'.stdout = st.stdout

section Free

variable {U L : Nat} {root : Addr} {st : State} {P : Char}

/-- A store is a relabelling when it keeps links and size. -/
theorem store_relabels {st : State} {a : Addr} {n : BSTree} (hn : st.node a = some n)
    (f : BSTree → BSTree) (hl : (f n).left = n.left) (hr : (f n).right = n.right)
    (hp : (f n).parent = n.parent) (hs : (f n).size = n.size) :
    Relabels st.node (fun b => (store st.nodes a f).lookup b) a n (f n) where
  before := hn
  after := by
    rw [lookup_store, if_pos rfl, show st.nodes.lookup a = some n from hn]
    rfl
  left := hl
  right := hr
  parent := hp
  size := hs
  other := by
    intro b hb
    rw [lookup_store, if_neg hb]
    rfl

/-- Reading and erasing a name leaves every other name alone. -/
theorem lookup_touch_erase (m : DefMap Char Ptr) (P Q : Char) :
    ((touch m P).erase P).lookup Q = if Q = P then none else m.lookup Q := by
  rw [lookup_erase_if]
  by_cases hQ : Q = P
  · rw [if_pos hQ, if_pos hQ]
  · rw [if_neg hQ, if_neg hQ, touch]
    by_cases hP : P ∈ m
    · rw [if_pos hP]
    · rw [if_neg hP, lookup_insert_if, if_neg hQ]

/-- Freeing a name that is not running follows a null pointer. -/
theorem beginFree_absent (h : st.runningRec.lookup P = none) :
    beginFree st P = .error .badNode := by
  have hget : OsHeap.get st.runningRec P = none := by rw [OsHeap.get, h]; rfl
  refine bind_error.mpr (Or.inl ?_)
  rw [hget]
  rfl

/-- Freeing a running name opens a hole at its leaf. -/
theorem beginFree_running (h : Good U L root st) {p : Ptr}
    (hp : st.runningRec.lookup P = some p) :
    ∃ a n s, p = some a ∧ beginFree st P = .ok (s, a) ∧ Settled st.node none a n ∧
      n.pname = P ∧ Merging U L root (s, a) ∧
      Relabels st.node s.node a n { n with isUsed := 0 } ∧
      s.runningRec = (touch st.runningRec P).erase P ∧ s.stdout = st.stdout := by
  obtain ⟨a, n, rfl, hn, hne, hleaf, hu, hname⟩ := h.inv.running hp
  have hrel := store_relabels hn (fun n => { n with isUsed := 0 }) rfl rfl rfl rfl
  have hget : OsHeap.get st.runningRec P = some a := by rw [OsHeap.get, hp]; rfl
  refine ⟨a, n, { st with
      nodes := store st.nodes a (fun n => { n with isUsed := 0 })
      runningRec := (touch st.runningRec P).erase P }, rfl, ?_, ⟨hn, hleaf, hu, hne⟩, hname,
    ?_, hrel, rfl, rfl⟩
  · exact bind_ok.mpr ⟨(a, n), by rw [hget]; exact follow_some hn, rfl⟩
  · exact ⟨Inv.open h.inv hrel hp (fun Q => lookup_touch_erase _ _ _), h.isRoot, h.total, h.gran⟩

/-- Where the loop stopped below the root, the sibling is in use. -/
theorem Stopped.sibling {s : State × Addr} (hstop : Stopped root s) (h : Merging U L root s)
    {n : BSTree} (hn : s.1.node s.2 = some n) {p l r : Addr} {np : BSTree}
    (hp : s.1.node p = some np) (hl : np.left = some l) (hr : np.right = some r)
    (hor : l = s.2 ∨ r = s.2) :
    ∃ c m, (c = l ∨ c = r) ∧ c ≠ s.2 ∧ s.1.node c = some m ∧ m.isUsed = 1 := by
  obtain ⟨l', r', nl, nr, hlk⟩ := h.inv.shape.linked hp
    (fun hlf => nomatch hlf.1.symm.trans hl)
  obtain rfl : l' = l := Option.some.inj (hlk.left.symm.trans hl)
  obtain rfl : r' = r := Option.some.inj (hlk.right.symm.trans hr)
  have hpar : n.parent = some p := hlk.up (hor.imp Eq.symm Eq.symm) hn
  rcases hstop with hroot | ⟨q, nq, l₁, r₁, nl₁, nr₁, sib, ms, hf, hu⟩
  · exact absurd hroot (h.inv.shape.ne_root hn hpar)
  · -- it is the family of `p`
    have hpar' : n.parent = some q := hf.linked.up (hf.who.imp And.left And.left) hn
    obtain rfl : p = q := Option.some.inj (hpar.symm.trans hpar')
    obtain rfl : np = nq := Option.some.inj (hp.symm.trans hf.at_p)
    obtain rfl : l₁ = l' := Option.some.inj (hf.linked.left.symm.trans hlk.left)
    obtain rfl : r₁ = r' := Option.some.inj (hf.linked.right.symm.trans hlk.right)
    exact ⟨sib, ms, hf.who.symm.imp And.right And.right, hf.sib_ne, hf.at_sib, hu⟩

/-- The call ends by leaving the hole free, in its list unless it is the
    root. -/
theorem endFree_spec {s : State × Addr} (h : Merging U L root s) (hstop : Stopped root s) :
    ∃ st' n, endFree s = .ok st' ∧ Good U L root st' ∧
      Relabels s.1.node st'.node s.2 n (vacate n) ∧
      (∀ {m}, st'.node root = some m → FreeLeaf m → ∀ x, root ∉ st'.freeList x) ∧
      st'.runningRec = s.1.runningRec ∧ st'.stdout = s.1.stdout := by
  obtain ⟨st, t⟩ := s
  obtain ⟨n, hn, hleaf⟩ : ∃ n, st.node t = some n ∧ IsLeaf n := h.inv.flags.hole rfl
  have hrel := store_relabels hn vacate rfl rfl rfl rfl
  have hout : ∀ x, t ∉ st.freeList x := fun x hx => (h.inv.lists.sound hx).1 rfl
  have hsib : ∀ {p np l r}, st.node p = some np → np.left = some l → np.right = some r →
      (l = t ∨ r = t) → ∃ c m, (c = l ∨ c = r) ∧ c ≠ t ∧ st.node c = some m ∧ m.isUsed = 1 :=
    fun hp hl hr hor => hstop.sibling h hn hp hl hr hor
  by_cases ht : t = root
  · have hroot : (some t : Ptr) = st.root := by rw [h.isRoot, ht]
    refine ⟨{ st with nodes := store st.nodes t vacate }, n, ?_, ?_, hrel, ?_, rfl, rfl⟩
    · refine bind_ok.mpr ⟨(t, n), follow_some hn, ?_⟩
      rw [if_pos hroot]
    · refine ⟨Inv.vacate h.inv hrel rfl rfl hsib (fun x y => ?_) h.inv.lists.nodup, h.isRoot,
        h.total, h.gran⟩
      exact ⟨Or.inl, fun hy => hy.resolve_right (fun he => he.2.1 ht)⟩
    · intro m _ _ x
      exact ht ▸ hout x
  · have hroot : ¬ ((some t : Ptr) = st.root) := by
      rw [h.isRoot]
      exact fun he => ht (Option.some.inj he)
    let st' : State := { st with
      nodes := store st.nodes t vacate
      freeMap := st.freeMap.insert n.size (llInsert (st.freeList n.size) t) }
    have hfl : ∀ x, st'.freeList x =
        if x = n.size then t :: st.freeList n.size else st.freeList x := by
      intro x
      show OsHeap.get (st.freeMap.insert _ _) x = _
      rw [get_insert, llInsert_eq]
      rfl
    refine ⟨st', n, ?_, ⟨?_, h.isRoot, h.total, h.gran⟩, hrel, ?_, rfl, rfl⟩
    · refine bind_ok.mpr ⟨(t, n), follow_some hn, ?_⟩
      rw [if_neg hroot]
    · refine Inv.vacate h.inv hrel rfl rfl hsib (fun x y => ?_) (fun x => ?_)
      · rw [hfl]
        by_cases hx : x = n.size
        · rw [if_pos hx, List.mem_cons, hx]
          constructor
          · rintro (rfl | hy)
            · exact Or.inr ⟨rfl, ht, rfl⟩
            · exact Or.inl hy
          · rintro (hy | ⟨rfl, -, -⟩)
            · exact Or.inr hy
            · exact Or.inl rfl
        · rw [if_neg hx]
          exact ⟨Or.inl, fun hy => hy.resolve_right (fun he => hx he.2.2)⟩
      · rw [hfl]
        by_cases hx : x = n.size
        · rw [if_pos hx]
          exact List.nodup_cons.mpr ⟨hout _, h.inv.lists.nodup _⟩
        · rw [if_neg hx]
          exact h.inv.lists.nodup x
    · -- the root has a node below it, so it is no leaf
      intro m hm hfm
      have hrootn : root ≠ t := fun he => ht he.symm
      have hm' : st.node root = some m := (hrel.other root hrootn).symm.trans hm
      exact absurd (Shape.only_root h.inv.shape hm' hfm.1 hn) ht

/-- **A CALL THAT FREES** a running process returns, with a good state. -/
theorem freeQuery_spec (h : Good U L root st) (hU : U < turns) {p : Ptr}
    (hp : st.runningRec.lookup P = some p) :
    ∃ st' a n, freeQuery st P = .ok st' ∧ Good U L root st' ∧ p = some a ∧
      Freed root st st' P a n := by
  obtain ⟨a, n, s, rfl, hbegin, hset, hname, hm, hrel, hrr, hout⟩ := beginFree_running h hp
  obtain ⟨s', hloop, hm', hk, hg, hstop⟩ := mergeLoop_spec hU hm
  obtain ⟨st', n', hend, hgood, hrel', hlost, hrr', hout'⟩ := endFree_spec hm' hstop
  have hv : Keeps root s'.1.node st'.node (some s'.2) none := Keeps.vacate hrel' rfl
  refine ⟨st', a, n, ?_, hgood, rfl, hset, hname, ?_, ?_, ?_, hlost,
    hout'.trans (hg.out.trans hout)⟩
  · exact bind_ok.mpr ⟨_, hbegin, bind_ok.mpr ⟨_, hloop, hend⟩⟩
  · intro b m
    rw [← (hk.trans hv).settled b m]
    constructor
    · intro hs
      have hba : b ≠ a := fun he => hs.2.2.2 (congrArg some he.symm)
      exact ⟨hs.relabel hrel.symm hba (fun he => nomatch he), hba⟩
    · rintro ⟨hs, hba⟩
      exact hs.relabel hrel hba (fun he => hba (Option.some.inj he).symm)
  · intro b m q hs hq
    exact (hk.trans hv).path (((hk.trans hv).settled b m).mpr hs) ((nodeAt_relabel hrel).mp hq)
  · intro Q
    rw [hrr', hg.running, hrr]
    exact lookup_touch_erase _ _ _

end Free

/-! ## A call that allocates -/

/-- The record of a node handed to a process. -/
def occupy (n : BSTree) (P : Char) (b pid : Int) : BSTree :=
  { n with bytesOccupied := b, isUsed := 1, pid := pid, pname := P }

/-- What a call does that hands node `a` to process `P`. -/
structure Granted (root : Addr) (st st' : State) (P : Char) (b : Int) (a : Addr)
    (n : BSTree) : Prop where
  here : Settled st'.node none a n
  owner : n.pname = P
  bytes : n.bytesOccupied = b
  fresh : ∀ m, ¬ Settled st.node none a m
  settled : ∀ c m, Settled st'.node none c m ↔ Settled st.node none c m ∨ (c = a ∧ m = n)
  path : ∀ {c m p}, Settled st.node none c m → nodeAt st.node root p = some c →
    nodeAt st'.node root p = some c
  running : st'.runningRec = st.runningRec.insert P (some a)
  out : st'.stdout = st.stdout

/-- What a call does that finds no block. -/
structure Refused (st st' : State) (P : Char) (b : Int) : Prop where
  node : st'.node = st.node
  lists : st'.freeList = st.freeList
  running : st'.runningRec = st.runningRec
  out : st'.stdout = st.stdout ++ [.cantFulfill P b]

/-- `2^k` is what `b` bytes round up to. -/
structure Rounds (U L : Nat) (b : Int) (k : Nat) : Prop where
  low : L ≤ k
  high : k ≤ U
  holds : b ≤ 2 ^ k
  least : ∀ j, L ≤ j → b ≤ 2 ^ j → k ≤ j

section Alloc

variable {A : Malloc} {U L : Nat} {root : Addr} {st : State} {P : Char} {b : Int}

/-- Handing the hole over makes a good state. -/
theorem allot_spec {a : Addr} {n : BSTree} {k : Nat}
    (h : Held U L root st st.freeList (some a)) (hn : st.node a = some n)
    (hsz : n.size = 2 ^ k) (hr : Rounds U L b k) (hb : b ≠ 0) :
    ∃ st', allot st a P b = .ok st' ∧ Good U L root st' ∧
      Relabels st.node st'.node a n (occupy n P b (st.pidGlobal + 1)) ∧
      st'.runningRec = st.runningRec.insert P (some a) ∧ st'.stdout = st.stdout := by
  have hrel := store_relabels hn (fun n => occupy n P b (st.pidGlobal + 1)) rfl rfl rfl rfl
  refine ⟨{ st with
      nodes := store st.nodes a (fun n => occupy n P b (st.pidGlobal + 1))
      pidGlobal := st.pidGlobal + 1
      runningRec := st.runningRec.insert P (some a) }, ?_, ⟨?_, h.isRoot, h.total, h.gran⟩,
    hrel, rfl, rfl⟩
  · exact bind_ok.mpr ⟨(a, n), follow_some hn, rfl⟩
  · exact Inv.fill h.inv hrel rfl hb ⟨k, hr.low, hsz, hr.holds, hr.least⟩ rfl
      (fun Q => lookup_insert_if _ _ _ _)

/-- A call that finds a list which is not empty takes its block from there. -/
theorem carve_allot_spec (h : Good U L root st) {k j : Nat} (hr : Rounds U L b k)
    (hkj : k ≤ j) (hj : j < turns) (hne : st.freeList (2 ^ j) ≠ []) (hb : b ≠ 0) :
    ∃ s st' n, carve A st (2 ^ k) (2 ^ j) = .ok s ∧ allot s.1 s.2 P b = .ok st' ∧
      Good U L root st' ∧ n.size = 2 ^ k ∧ Granted root st st' P b s.2 n := by
  obtain ⟨s, n, hcarve, hheld, hn, hfree, hsz, hk, hg⟩ := carve_spec (A := A) h hr.low hkj hj hne
  obtain ⟨st', hallot, hgood, hrel, hrr, hout⟩ := allot_spec (P := P) hheld hn hsz hr hb
  have hhere : Settled st'.node none s.2 (occupy n P b (s.1.pidGlobal + 1)) :=
    ⟨hrel.after, hfree.1, rfl, fun he => nomatch he⟩
  have hnot : ∀ m, ¬ Settled st.node none s.2 m :=
    fun m hm => ((hk.settled _ _).mp hm).2.2.2 rfl
  refine ⟨s, st', occupy n P b (s.1.pidGlobal + 1), hcarve, hallot, hgood, hsz, hhere, rfl, rfl,
    hnot, ?_, ?_, ?_, hout.trans hg.out⟩
  · intro c m
    constructor
    · intro hs
      by_cases hca : c = s.2
      · exact Or.inr ⟨hca, Option.some.inj (hs.1.symm.trans (hca ▸ hhere.1))⟩
      · exact Or.inl ((hk.settled c m).mpr
          (hs.relabel hrel.symm hca (fun he => hca (Option.some.inj he).symm)))
    · rintro (hs | ⟨rfl, rfl⟩)
      · have hca : c ≠ s.2 := fun he => hnot m (he ▸ hs)
        exact ((hk.settled c m).mp hs).relabel hrel hca (fun he => nomatch he)
      · exact hhere
  · intro c m p hs hp
    exact (nodeAt_relabel hrel).mp (hk.path hs hp)
  · rw [hrr, hg.running]

/-- **A CALL THAT ALLOCATES** at most `2^U` bytes returns, with a good state:
    it hands a block over, or every list that could help is empty. -/
theorem allocQuery_spec (h : Good U L root st) (hLU : L ≤ U)
    (hmax : (2 ^ (U + 1) : Int) ≤ intMax) (hU : U + 1 < turns) (hb : b ≠ 0)
    (hbU : b ≤ 2 ^ U) :
    ∃ st' k, allocQuery A st P b = .ok st' ∧ Good U L root st' ∧ Rounds U L b k ∧
      ((Refused st st' P b ∧ ∀ j, k ≤ j → j ≤ U → st.freeList (2 ^ j) = []) ∨
       ((∃ j, k ≤ j ∧ j ≤ U ∧ st.freeList (2 ^ j) ≠ []) ∧
        ∃ a n, n.size = 2 ^ k ∧ Granted root st st' P b a n)) := by
  have hmaxU : (2 ^ U : Int) ≤ intMax :=
    le_trans (pow_le_pow_iff.mpr (Nat.le_succ U)) hmax
  obtain ⟨k, hfind, hk1, hk2, hk3, hk4⟩ :=
    find_spec h.total h.gran hLU (Nat.lt_of_succ_lt hU) hmaxU hbU
  have hr : Rounds U L b k := ⟨hk1, hk2, hk3, hk4⟩
  obtain ⟨lists, found, hsearch, hlists, hcase⟩ := search_spec h.total hU hmax hk2
  let searched : State := { st with freeMap := lists }
  have hfl : searched.freeList = st.freeList := funext hlists
  have hgood : Good U L root searched := by
    refine ⟨?_, h.isRoot, h.total, h.gran⟩
    rw [hfl]
    exact h.inv
  rcases hcase with ⟨rfl, hempty⟩ | ⟨j, rfl, hkj, hjU, hne⟩
  · refine ⟨{ searched with stdout := st.stdout ++ [.cantFulfill P b] }, k, ?_,
      ⟨hgood.inv, h.isRoot, h.total, h.gran⟩, hr, Or.inl ⟨⟨rfl, hfl, rfl, rfl⟩, hempty⟩⟩
    exact bind_ok.mpr ⟨_, hfind, bind_ok.mpr ⟨_, hsearch, rfl⟩⟩
  · have hne' : searched.freeList (2 ^ j) ≠ [] := by rw [hfl]; exact hne
    obtain ⟨s, st', n, hcarve, hallot, hgood', hsz, hgr⟩ :=
      carve_allot_spec (A := A) (P := P) hgood hr hkj (by omega) hne' hb
    refine ⟨st', k, ?_, hgood', hr, Or.inr ⟨⟨j, hkj, hjU, hne⟩, s.2, n, hsz, hgr.here, hgr.owner,
      hgr.bytes, hgr.fresh, hgr.settled, hgr.path, hgr.running, hgr.out⟩⟩
    exact bind_ok.mpr ⟨_, hfind, bind_ok.mpr ⟨_, hsearch, bind_ok.mpr ⟨s, hcarve, hallot⟩⟩⟩

/-- A request for more than `2^U` bytes leaves the program. -/
theorem allocQuery_exit (h : Good U L root st) (hbU : ¬ b ≤ 2 ^ U) :
    allocQuery A st P b = .error (.exit 3) := by
  refine bind_error.mpr (Or.inl ?_)
  rw [findReqdPowerOf2, h.total, if_pos (not_le.mp hbU)]

end Alloc

/-! ## Runs of calls -/

/-- The header of a test case: the exponents of the largest and of the
    smallest block, with `2^(U+1)` an `int`. -/
structure Header (U L : Nat) : Prop where
  one : 1 ≤ L
  lt : L < U
  int : (2 ^ (U + 1) : Int) ≤ intMax

/-- Blocks from 2 to 8 bytes. -/
theorem header_small : Header 3 1 := ⟨by decide, by decide, by decide⟩

theorem Header.turns {U L : Nat} (h : Header U L) : U + 1 < BuddyModel.turns := by
  by_contra hge
  have h31 : (2 ^ 31 : Int) ≤ 2 ^ (U + 1) :=
    pow_le_pow_iff.mpr (by rw [BuddyModel.turns] at hge; omega)
  have hmax := le_trans h31 h.int
  exact absurd hmax (by decide)

section Runs

variable {A : Malloc} {U L : Nat} {root : Addr}

/-- What a call can do that returns. -/
inductive Called (U L : Nat) (root : Addr) (st st' : State) (q : Query) : Prop where
  | freed (a : Addr) (n : BSTree) (hq : q.pbytes = 0)
      (hp : st.runningRec.lookup q.pname = some (some a)) (h : Freed root st st' q.pname a n)
  | refused (k : Nat) (hq : q.pbytes ≠ 0) (hr : Rounds U L q.pbytes k)
      (h : Refused st st' q.pname q.pbytes)
      (hempty : ∀ j, k ≤ j → j ≤ U → st.freeList (2 ^ j) = [])
  | granted (k : Nat) (a : Addr) (n : BSTree) (hq : q.pbytes ≠ 0)
      (hr : Rounds U L q.pbytes k) (hlist : ∃ j, k ≤ j ∧ j ≤ U ∧ st.freeList (2 ^ j) ≠ [])
      (hsz : n.size = 2 ^ k)
      (h : Granted root st st' q.pname q.pbytes a n)

/-- **ONE CALL**: it leaves a good state behind, or the program has been left
    for a request that is too large or a name that is not running. -/
theorem sendQuery_spec (hd : Header U L) {st : State} (h : Good U L root st) (q : Query) :
    (∃ st', sendQuery A st q = .ok st' ∧ Good U L root st' ∧ Called U L root st st' q) ∨
    (2 ^ U < q.pbytes ∧ sendQuery A st q = .error (.exit 3)) ∨
    (q.pbytes = 0 ∧ st.runningRec.lookup q.pname = none ∧
      sendQuery A st q = .error .badNode) := by
  have hT := hd.turns
  by_cases hq : q.pbytes = 0
  · have hsend : sendQuery A st q = freeQuery st q.pname := by rw [sendQuery, if_pos hq]
    rw [hsend]
    cases hp : st.runningRec.lookup q.pname with
    | none =>
        refine Or.inr (Or.inr ⟨hq, rfl, ?_⟩)
        exact bind_error.mpr (Or.inl (beginFree_absent hp))
    | some p =>
        obtain ⟨st', a, n, hfree, hgood, rfl, hfr⟩ := freeQuery_spec h (by omega) hp
        exact Or.inl ⟨st', hfree, hgood, .freed a n hq hp hfr⟩
  · have hsend : sendQuery A st q = allocQuery A st q.pname q.pbytes := by
      rw [sendQuery, if_neg hq]
    rw [hsend]
    by_cases hbU : q.pbytes ≤ 2 ^ U
    · obtain ⟨st', k, halloc, hgood, hr, hcase⟩ :=
        allocQuery_spec (A := A) (P := q.pname) h hd.lt.le hd.int hT hq hbU
      refine Or.inl ⟨st', halloc, hgood, ?_⟩
      rcases hcase with ⟨href, hempty⟩ | ⟨hlist, a, n, hsz, hgr⟩
      · exact .refused k hq hr href hempty
      · exact .granted k a n hq hr hlist hsz hgr
    · exact Or.inr (Or.inl ⟨not_le.mp hbU, allocQuery_exit h hbU⟩)

/-- A call that returns from a good state leaves a good state. -/
theorem sendQuery_good (hd : Header U L) {st st' : State} {q : Query} (h : Good U L root st)
    (hq : sendQuery A st q = .ok st') : Good U L root st' ∧ Called U L root st st' q := by
  rcases sendQuery_spec (A := A) hd h q with ⟨s, hs, hg, hc⟩ | ⟨-, he⟩ | ⟨-, -, he⟩
  · rw [hq] at hs
    cases hs
    exact ⟨hg, hc⟩
  · rw [hq] at he; exact nomatch he
  · rw [hq] at he; exact nomatch he

/-- What the rounding and the search of a call have found. -/
theorem found_spec (hd : Header U L) {st : State} (h : Good U L root st)
    {b want canGet : Int}
    {lists : DefMap Int (List Addr)} (hfind : findReqdPowerOf2 st b = .ok want)
    (hsearch : search st want = .ok (lists, some canGet)) :
    ∃ k j, want = 2 ^ k ∧ canGet = 2 ^ j ∧ L ≤ k ∧ k ≤ j ∧ j ≤ U ∧
      Good U L root { st with freeMap := lists } ∧
      State.freeList { st with freeMap := lists } (2 ^ j) ≠ [] := by
  have hT := hd.turns
  have hmaxU : (2 ^ U : Int) ≤ intMax :=
    le_trans (pow_le_pow_iff.mpr (Nat.le_succ U)) hd.int
  have hbU : b ≤ 2 ^ U := by
    by_contra hgt
    rw [findReqdPowerOf2, h.total, if_pos (not_le.mp hgt)] at hfind
    cases hfind
  obtain ⟨k, hk, hLk, hkU, -⟩ := find_spec h.total h.gran hd.lt.le (by omega) hmaxU hbU
  obtain rfl : want = 2 ^ k := Except.ok.inj (hfind.symm.trans hk)
  obtain ⟨lists', found, hs, hlists, hcase⟩ := search_spec h.total hT hd.int hkU
  rw [hsearch] at hs
  obtain ⟨rfl, rfl⟩ := Prod.mk.inj (Except.ok.inj hs)
  rcases hcase with ⟨he, -⟩ | ⟨j, he, hkj, hjU, hne⟩
  · cases he
  · have hfl : State.freeList { st with freeMap := lists } = st.freeList := funext hlists
    refine ⟨k, j, rfl, Option.some.inj he, hLk, hkj, hjU, ⟨?_, h.isRoot, h.total, h.gran⟩, ?_⟩
    · rw [hfl]; exact h.inv
    · rw [hfl]; exact hne

end Runs

end BuddyCalls
