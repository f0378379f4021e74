import OsLab.BuddyCallsProofs

/-! # Test cases

    The set-up of a test case makes a good state whose only block is the
    root, listed as free (`startCase_spec`), and every call that returns
    keeps the state good, so a run of calls does (`testCase_good`).

    Clearing the tree of an earlier test case empties the heap, so a test
    case does not see what ran before it apart from the process counter and
    the lines already printed (`testCase_fresh`). -/

namespace BuddyCase

open OsHeap OsLoop OsDyadic BuddyModel BuddyInvariant BuddySurgery BuddySteps
open BuddyPlacement BuddyFrame BuddyCalls

section Start

variable {A : Malloc} {U L : Nat}

theorem pow2_spec {k : Nat} (h : (2 ^ k : Int) ≤ intMax) : pow2 (k : Int) = .ok (2 ^ k) := by
  have hneg : ¬ ((k : Int) < 0) := not_lt.mpr (Int.natCast_nonneg k)
  rw [pow2, if_neg hneg, Int.toNat_natCast, if_pos h]

/-- There is a fresh list for each size, and it is empty. -/
theorem initializeFreeMap_spec (hd : Header U L) :
    ∃ lists, initializeFreeMap (2 ^ L) (2 ^ U) = .ok lists ∧ (∀ s, OsHeap.get lists s = []) ∧
      ∀ s, s ∈ lists ↔ ∃ k, L ≤ k ∧ k ≤ U ∧ s = 2 ^ k := by
  have hT := hd.turns
  -- the sizes below `2^j` have their lists when `i` is `2^j`
  let I : DefMap Int (List Addr) × Int → Prop := fun s =>
    (∀ x, OsHeap.get s.1 x = []) ∧ ∃ j, L ≤ j ∧ j ≤ U + 1 ∧ s.2 = 2 ^ j ∧
      ∀ x, x ∈ s.1 ↔ ∃ k, L ≤ k ∧ k < j ∧ x = 2 ^ k
  refine loop_total (I := I) (fun s => U + 1 - lg s.2) ?_
    ⟨fun _ => rfl, L, le_refl _, by have := hd.lt; omega, rfl, fun x => ?_⟩ ?_
  · rintro ⟨m, i⟩ ⟨hm, j, hj1, hj2, hi, hkeys⟩
    obtain rfl : i = 2 ^ j := hi
    by_cases hjU : j ≤ U
    · refine Or.inr ⟨(m.insert (2 ^ j) [], 2 ^ (j + 1)), ?_,
        ⟨?_, j + 1, by omega, by omega, rfl, fun x => ?_⟩, ?_⟩
      · have hle : (2 ^ (j + 1) : Int) ≤ 2 ^ (U + 1) := pow_le_pow_iff.mpr (by omega)
        simp only [pow_le_pow_iff.mpr hjU, if_true, double_pow (le_trans hle hd.int)]
        rfl
      · intro x
        show OsHeap.get (m.insert (2 ^ j) []) x = []
        rw [get_insert, hm, ite_self]
      · rw [AList.mem_insert, hkeys]
        constructor
        · rintro (rfl | ⟨k, hk1, hk2, rfl⟩)
          · exact ⟨j, hj1, Nat.lt_succ_self j, rfl⟩
          · exact ⟨k, hk1, Nat.lt_succ_of_lt hk2, rfl⟩
        · rintro ⟨k, hk1, hk2, rfl⟩
          by_cases hkj : k = j
          · exact Or.inl (by rw [hkj])
          · exact Or.inr ⟨k, hk1, by omega, rfl⟩
      · show U + 1 - lg (2 ^ (j + 1)) < U + 1 - lg (2 ^ j)
        rw [lg_pow, lg_pow]
        omega
    · have hgt : ¬ (2 ^ j : Int) ≤ 2 ^ U := fun h => hjU (pow_le_pow_iff.mp h)
      obtain rfl : j = U + 1 := by omega
      refine Or.inl ⟨m, by simp only [hgt, if_false], hm, fun x => (hkeys x).trans ?_⟩
      simp only [Nat.lt_succ_iff]
  · exact iff_of_false (AList.notMem_empty x) (fun ⟨k, hk1, hk2, _⟩ => by omega)
  · show U + 1 - lg (2 ^ L) < turns
    rw [lg_pow]
    omega

/-- A tree of one free block is good. -/
theorem good_single (hLU : L ≤ U) {st : State} {root : Addr}
    (hnode : ∀ b, st.node b = if b = root then some (create (2 ^ U)) else none)
    (hlist : ∀ s, st.freeList s = if s = 2 ^ U then [root] else [])
    (hrun : st.runningRec = ∅) (hroot : st.root = some root) (htot : st.totalSize = 2 ^ U)
    (hgran : st.minGranularity = 2 ^ L) : Good U L root st := by
  have only : ∀ {b n}, st.node b = some n → b = root ∧ n = create (2 ^ U) := by
    intro b n hb
    rw [hnode] at hb
    by_cases hbr : b = root
    · rw [if_pos hbr] at hb
      exact ⟨hbr, (Option.some.inj hb).symm⟩
    · rw [if_neg hbr] at hb
      exact nomatch hb
  have hr : st.node root = some (create (2 ^ U)) := by rw [hnode, if_pos rfl]
  refine ⟨⟨⟨⟨_, hr, rfl, rfl⟩, ?_, ?_, ?_⟩, ⟨?_, ?_, ?_, fun he => nomatch he⟩, ⟨?_, ?_, ?_⟩, ?_⟩,
    hroot, htot, hgran⟩
  · intro b n hb
    obtain ⟨-, rfl⟩ := only hb
    exact Or.inl ⟨rfl, rfl⟩
  · intro b n hb hne
    exact absurd (only hb).1 hne
  · intro b n hb
    obtain ⟨-, rfl⟩ := only hb
    exact ⟨U, hLU, Nat.le_refl _, rfl⟩
  · intro b n hb hnl
    obtain ⟨-, rfl⟩ := only hb
    exact absurd ⟨rfl, rfl⟩ hnl
  · intro b n l r hb hl _
    obtain ⟨-, rfl⟩ := only hb
    exact nomatch hl
  · intro b n hb _ _
    obtain ⟨-, rfl⟩ := only hb
    exact Or.inl ⟨rfl, rfl⟩
  · intro s b hb
    rw [hlist] at hb
    by_cases hs : s = 2 ^ U
    · rw [if_pos hs, List.mem_singleton] at hb
      exact ⟨fun he => (nomatch he), _, hb ▸ hr, ⟨⟨rfl, rfl⟩, rfl⟩, hs.symm⟩
    · rw [if_neg hs] at hb
      exact nomatch hb
  · intro b n hb _ _ hne
    exact absurd (only hb).1 hne
  · intro s
    rw [hlist]
    by_cases hs : s = 2 ^ U
    · rw [if_pos hs]; exact List.nodup_singleton _
    · rw [if_neg hs]; exact List.nodup_nil
  · intro P p hp
    rw [hrun] at hp
    exact nomatch hp

/-- What the set-up of a test case leaves behind. -/
structure Started (U L : Nat) (root : Addr) (st st' : State) : Prop where
  good : Good U L root st'
  node : ∀ b, st'.node b = if b = root then some (create (2 ^ U)) else none
  list : ∀ s, st'.freeList s = if s = 2 ^ U then [root] else []
  running : st'.runningRec = ∅
  out : st'.stdout = st.stdout

/-- **THE SET-UP** of a test case over an empty heap. -/
theorem startCase_spec (hd : Header U L) {st : State}
    (hclear : clear turns st.nodes st.root = .ok ∅) :
    ∃ st' root, startCase A st U L = .ok st' ∧ Started U L root st st' := by
  have hU : (2 ^ U : Int) ≤ intMax :=
    le_trans (pow_le_pow_iff.mpr (Nat.le_succ U)) hd.int
  have hL : (2 ^ L : Int) ≤ intMax := le_trans (pow_le_pow_iff.mpr hd.lt.le) hU
  obtain ⟨lists, hinit, hempty, -⟩ := initializeFreeMap_spec hd
  let root := alloc A ∅ (create (2 ^ U))
  let st' : State := { st with
    nodes := root.2
    root := some root.1
    freeMap := lists.insert (2 ^ U) (llInsert (OsHeap.get lists (2 ^ U)) root.1)
    runningRec := ∅
    totalSize := 2 ^ U
    minGranularity := 2 ^ L }
  have hnode : ∀ b, st'.node b = if b = root.1 then some (create (2 ^ U)) else none := by
    intro b
    show (alloc A ∅ (create (2 ^ U))).2.lookup b = _
    rw [lookup_alloc]
    rfl
  have hlist : ∀ s, st'.freeList s = if s = 2 ^ U then [root.1] else [] := by
    intro s
    show OsHeap.get (lists.insert _ _) s = _
    rw [get_insert, hempty, hempty]
    rfl
  refine ⟨st', root.1, ?_, good_single hd.lt.le hnode hlist rfl rfl rfl rfl, hnode, hlist, rfl, rfl⟩
  refine bind_ok.mpr ⟨∅, hclear, bind_ok.mpr ⟨_, pow2_spec hU, bind_ok.mpr ⟨_, pow2_spec hL, ?_⟩⟩⟩
  exact bind_ok.mpr ⟨lists, hinit, rfl⟩

theorem clear_boot (pid : Int) (out : List Line) :
    clear turns (boot pid out).nodes (boot pid out).root = .ok ∅ := rfl

end Start

section Run

variable {A : Malloc} {U L : Nat} {root : Addr} {pid : Int} {out : List Line}

/-- Runs of calls keep a state good. -/
theorem run_good (hd : Header U L) {st st' : State} {reqs : List Query}
    (h : Good U L root st) (hrun : runAll (sendQuery A) st reqs = .ok st') :
    Good U L root st' := by
  have hstep : ∀ s q s', Good U L root s → True → sendQuery A s q = .ok s' →
      Good U L root s' := fun _ _ _ hs _ hq => (sendQuery_good hd hs hq).1
  exact runAll_inv hstep h (fun _ _ => trivial) hrun

/-- A run of a test case is a run from its set-up. -/
theorem testCase_ok (hd : Header U L) {reqs : List Query} {st : State}
    (h : testCase A (boot pid out) U L reqs = .ok st) :
    ∃ st₀ root, Started U L root (boot pid out) st₀ ∧ runAll (sendQuery A) st₀ reqs = .ok st := by
  obtain ⟨st₀, hstart, hrun⟩ := bind_ok.mp h
  obtain ⟨st₁, root, hs, hst⟩ := startCase_spec (A := A) hd (clear_boot pid out)
  rw [hstart] at hs
  cases hs
  exact ⟨st₀, root, hst, hrun⟩

/-- **EVERY REACHED STATE IS GOOD.** -/
theorem testCase_good (hd : Header U L) {reqs : List Query} {st : State}
    (h : testCase A (boot pid out) U L reqs = .ok st) : ∃ root, Good U L root st := by
  obtain ⟨st₀, root, hst, hrun⟩ := testCase_ok hd h
  exact ⟨root, run_good hd hst.good hrun⟩

end Run

/-! ## Clearing the tree of an earlier case -/

section Clear

variable {look : Look} {root : Addr} {U L : Nat}

/-- Below a child one is below the node and on that side. -/
theorem below_child {p q : Path} {d : Side} {b : Addr}
    (h : nodeAt look root (p ++ [d] ++ q) = some b) : nodeAt look root (p ++ d :: q) = some b := by
  rw [List.append_assoc] at h
  exact h

/-- Below a leaf there is only the leaf. -/
theorem below_leaf {p q : Path} {a b : Addr} {n : BSTree} (hp : nodeAt look root p = some a)
    (hn : look a = some n) (hleaf : IsLeaf n) (hq : nodeAt look root (p ++ q) = some b) :
    b = a := by
  obtain ⟨c, hc, hrest⟩ := nodeAt_append.mp hq
  obtain rfl : a = c := Option.some.inj (hp.symm.trans hc)
  cases q with
  | nil => exact (Option.some.inj hrest).symm
  | cons d q =>
      obtain ⟨n', b', hn', hk, -⟩ := nodeAt_cons.mp hrest
      rw [← Option.some.inj (hn.symm.trans hn')] at hk
      cases d with
      | left => exact nomatch hleaf.1.symm.trans hk
      | right => exact nomatch hleaf.2.symm.trans hk

/-- `clear` releases the nodes below a node, and nothing else. -/
theorem clear_spec (hs : Shape look root U L) {f : Nat} :
    ∀ {p : Path} {a : Addr} {h : Heap BSTree}, nodeAt look root p = some a → U - p.length < f →
      (∀ {q b}, nodeAt look root (p ++ q) = some b → h.lookup b = look b) →
      ∃ h', clear f h (some a) = .ok h' ∧
        (∀ {q b}, nodeAt look root (p ++ q) = some b → h'.lookup b = none) ∧
        (∀ {b}, (∀ q, nodeAt look root (p ++ q) ≠ some b) → h'.lookup b = h.lookup b) := by
  induction f with
  | zero => intro p a h _ hf; exact absurd hf (Nat.not_lt_zero _)
  | succ f ih =>
      intro p a h hp hf hall
      obtain ⟨n, hn⟩ := Shape.live hs hp
      have hp0 : nodeAt look root (p ++ []) = some a := by rw [List.append_nil]; exact hp
      have ha : h.lookup a = some n := (hall hp0).trans hn
      have freed : ∀ {g : Heap BSTree}, g.lookup a = some n →
          release Fault.badNode g (some a) = .ok (g.erase a) := fun hg =>
        release_ok.mpr ⟨AList.lookup_isSome.mp (by rw [hg]; rfl), rfl⟩
      rcases hs.kids hn with hleaf | ⟨l, r, nl, nr, hlk⟩
      · refine ⟨h.erase a, ?_, ?_, ?_⟩
        · refine bind_ok.mpr ⟨(a, n), follow_some ha, ?_⟩
          simp only [hleaf.1, hleaf.2]
          cases f <;> exact bind_ok.mpr ⟨h, rfl, bind_ok.mpr ⟨h, rfl, freed ha⟩⟩
        · intro q b hq
          rw [lookup_erase_if, if_pos (below_leaf hp hn hleaf hq)]
        · intro b hb
          rw [lookup_erase_if, if_neg (fun he : b = a => hb [] (he ▸ hp0))]
      · have hl : nodeAt look root (p ++ [.left]) = some l :=
          nodeAt_snoc.mpr ⟨a, n, hp, hn, hlk.left⟩
        have hr : nodeAt look root (p ++ [.right]) = some r :=
          nodeAt_snoc.mpr ⟨a, n, hp, hn, hlk.right⟩
        have hlen := (Shape.size_at hs hl hlk.atLeft).1
        rw [List.length_append, List.length_singleton] at hlen
        have hfuel : ∀ d : Side, U - (p ++ [d]).length < f := by
          intro d
          rw [List.length_append, List.length_singleton]
          omega
        -- a node is on one side only, and the node itself on neither
        have apart : ∀ {x y : Path} {b : Addr}, nodeAt look root (p ++ x) = some b →
            nodeAt look root (p ++ y) = some b → x = y := fun h1 h2 =>
          List.append_cancel_left (nodeAt_unique hs h1 h2)
        obtain ⟨h1, hc1, hin1, hout1⟩ := ih hl (hfuel _) (fun hq => hall (below_child hq))
        obtain ⟨h2, hc2, hin2, hout2⟩ := ih (h := h1) hr (hfuel _) (fun {q b} hq => by
          have hq' := below_child hq
          rw [hout1 (fun q' hq'' => nomatch apart hq' (below_child hq''))]
          exact hall hq')
        have ha1 : h1.lookup a = some n :=
          (hout1 (fun q hq => nomatch apart hp0 (below_child hq))).trans ha
        have ha2 : h2.lookup a = some n :=
          (hout2 (fun q hq => nomatch apart hp0 (below_child hq))).trans ha1
        refine ⟨h2.erase a, ?_, ?_, ?_⟩
        · refine bind_ok.mpr ⟨(a, n), follow_some ha, ?_⟩
          simp only [hlk.left, hlk.right]
          exact bind_ok.mpr ⟨h1, hc1, bind_ok.mpr ⟨h2, hc2, freed ha2⟩⟩
        · intro q b hq
          rw [lookup_erase_if]
          by_cases hba : b = a
          · rw [if_pos hba]
          · rw [if_neg hba]
            cases q with
            | nil => exact absurd (Option.some.inj (hq.symm.trans hp0)) hba
            | cons d q =>
                have hq' : nodeAt look root (p ++ [d] ++ q) = some b := by
                  rw [List.append_assoc]
                  exact hq
                cases d with
                | left =>
                    rw [hout2 (fun q' hq'' => nomatch apart hq (below_child hq''))]
                    exact hin1 hq'
                | right => exact hin2 hq'
        · intro b hb
          rw [lookup_erase_if, if_neg (fun he : b = a => hb [] (he ▸ hp0)),
            hout2 (fun q hq => hb _ (below_child hq)), hout1 (fun q hq => hb _ (below_child hq))]

/-- Clearing the tree of a good state empties the heap. -/
theorem clear_good (hd : Header U L) {st : State} (h : Good U L root st) :
    clear turns st.nodes st.root = .ok ∅ := by
  have hT := hd.turns
  obtain ⟨h', hc, hin, hout⟩ := clear_spec h.inv.shape (f := turns) (p := []) (a := root)
    (h := st.nodes) rfl (by rw [List.length_nil]; omega) (fun _ => rfl)
  rw [h.isRoot, hc]
  refine congrArg _ (eq_empty (fun b => ?_))
  by_cases hb : ∃ n, st.node b = some n
  · obtain ⟨n, hn⟩ := hb
    obtain ⟨p, hp⟩ := Shape.placed h.inv.shape hn
    exact hin hp
  · rw [hout (fun q hq => hb (Shape.live h.inv.shape hq))]
    exact Option.eq_none_iff_forall_ne_some.mpr (fun n hn => hb ⟨n, hn⟩)

/-- **A TEST CASE STARTS AFRESH**: of what ran before it, only the process
    counter and the printed lines are seen. -/
theorem testCase_fresh {A : Malloc} (hd : Header U L) {st : State} (h : Good U L root st)
    (U' L' : Int) (reqs : List Query) :
    testCase A st U' L' reqs = testCase A (boot st.pidGlobal st.stdout) U' L' reqs := by
  rw [testCase, testCase, startCase, startCase, clear_good hd h, clear_boot]
  rfl

end Clear

end BuddyCase
