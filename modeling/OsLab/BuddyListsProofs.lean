import OsLab.BuddyCaseProofs

/-! # The free lists are sound

    In every reached state the free lists point at free leaves of the tree
    with the size of the list, and no node is listed twice
    (`freeMap_sound`).  The statement also speaks about the inside of the
    next call: a block is handed out while it is a free leaf, `split` is
    applied to free leaves only, and `coalesce` finds its list and leaves
    neither child in any list. -/

namespace BuddyLists

open OsHeap OsLoop OsDyadic BuddyModel BuddyInvariant BuddySurgery BuddySteps
open BuddyPlacement BuddyFrame BuddyCalls BuddyCase

variable {A : Malloc} {U L : Nat} {root : Addr} {st : State}

/-- A list entry points at a free leaf of the tree, of the list's size. -/
def EntrySound (st : State) (root : Addr) (s : Int) (a : Addr) : Prop :=
  ∃ p n, nodeAt st.node root p = some a ∧ st.node a = some n ∧ FreeLeaf n ∧ n.size = s

/-- The inside of a call that allocates `b` bytes: the node in hand is a free
    leaf whenever it is split, and when it is handed out. -/
structure AllocSound (A : Malloc) (st : State) (b : Int) : Prop where
  split : ∀ {want canGet lists curr rest s}, findReqdPowerOf2 st b = .ok want →
    search st want = .ok (lists, some canGet) → OsHeap.get lists canGet = curr :: rest →
    Visits (splitTurn A want) ({ st with freeMap := lists }, curr, canGet) s →
    ∃ n, s.1.node s.2.1 = some n ∧ FreeLeaf n
  handed : ∀ {want canGet lists s}, findReqdPowerOf2 st b = .ok want →
    search st want = .ok (lists, some canGet) →
    carve A { st with freeMap := lists } want canGet = .ok s →
    ∃ n, s.1.node s.2 = some n ∧ FreeLeaf n

/-- The inside of a call that frees `P`: no turn of the coalescing loop
    fails, and one that merges goes through `coalesce`, which finds a list to
    walk and leaves neither child in any list. -/
structure FreeSound (st : State) (P : Char) : Prop where
  turn : ∀ {s₀ s}, beginFree st P = .ok s₀ → Visits mergeTurn s₀ s →
    ∃ t, mergeTurn s = .ok t
  merge : ∀ {s₀ s st' p}, beginFree st P = .ok s₀ → Visits mergeTurn s₀ s →
    mergeTurn s = .ok (.again (st', p)) →
    coalesce s.1 p = .ok st' ∧ ∃ np l r nl, s.1.node p = some np ∧ np.left = some l ∧
      np.right = some r ∧ s.1.node l = some nl ∧ s.1.freeList nl.size ≠ [] ∧
      ∀ k, l ∉ st'.freeList k ∧ r ∉ st'.freeList k

theorem entry_sound (h : Good U L root st) {s : Int} {a : Addr} (ha : a ∈ st.freeList s) :
    EntrySound st root s a := by
  obtain ⟨-, n, hn, hfree, hsz⟩ := h.inv.lists.sound ha
  obtain ⟨p, hp⟩ := Shape.placed h.inv.shape hn
  exact ⟨p, n, hp, hn, hfree, hsz⟩

/-- A cell list of the map is the list its key maps to. -/
theorem freeList_entry {e : Sigma (fun _ : Int => List Addr)} (he : e ∈ st.freeMap.entries) :
    st.freeList e.1 = e.2 := by
  have hl : st.freeMap.lookup e.1 = some e.2 := AList.mem_lookup_iff.mpr he
  rw [State.freeList, OsHeap.get, hl]
  rfl

/-- No node is listed twice, in one list or in two. -/
theorem entries_nodup (h : Good U L root st) :
    (st.freeMap.entries.flatMap (fun e => e.2)).Nodup := by
  refine List.nodup_flatMap.mpr ⟨fun e he => ?_, ?_⟩
  · rw [← freeList_entry he]
    exact h.inv.lists.nodup e.1
  · have hkeys : st.freeMap.entries.Pairwise (fun e f => e.1 ≠ f.1) :=
      List.nodupKeys_iff_pairwise.mp st.freeMap.nodupKeys
    refine hkeys.imp_of_mem (fun {e f} he hf hne a ha hb => hne ?_)
    simp only at ha hb
    rw [← freeList_entry he] at ha
    rw [← freeList_entry hf] at hb
    obtain ⟨-, n, hn, -, hs⟩ := h.inv.lists.sound ha
    obtain ⟨-, m, hm, -, hs'⟩ := h.inv.lists.sound hb
    rw [← hs, ← hs', Option.some.inj (hn.symm.trans hm)]

theorem alloc_sound (hd : Header U L) (h : Good U L root st) (b : Int) : AllocSound A st b where
  split := by
    intro want canGet lists curr rest s hfind hsearch hhead hv
    obtain ⟨k, j, rfl, rfl, hLk, hkj, -, hgood, -⟩ := found_spec hd h hfind hsearch
    have hc := (splitTurn_visits hLk hv (Carving.start hgood hkj hhead)).1
    obtain ⟨n, m, hn, hfree, -⟩ := hc.curr
    exact ⟨n, hn, hfree⟩
  handed := by
    intro want canGet lists s hfind hsearch hcarve
    have hT := hd.turns
    obtain ⟨k, j, rfl, rfl, hLk, hkj, hjU, hgood, hne⟩ := found_spec hd h hfind hsearch
    obtain ⟨s', n, hc, -, hn, hfree, -⟩ :=
      carve_spec (A := A) hgood hLk hkj (by omega) hne
    rw [hcarve] at hc
    cases hc
    exact ⟨n, hn, hfree⟩

theorem free_sound (h : Good U L root st) (P : Char) : FreeSound st P := by
  have visited : ∀ {s₀ s}, beginFree st P = .ok s₀ → Visits mergeTurn s₀ s →
      Merging U L root s := by
    intro s₀ s hb hv
    cases hp : st.runningRec.lookup P with
    | none =>
        rw [beginFree_absent hp] at hb
        cases hb
    | some p =>
        obtain ⟨a, n, s', -, hb', -, -, hm, -⟩ := beginFree_running h hp
        rw [hb] at hb'
        cases hb'
        exact (mergeTurn_visits hv hm).1
  constructor
  · intro s₀ s hb hv
    rcases mergeTurn_merging (visited hb hv) with ⟨hd, -⟩ | ⟨s', ha, -⟩
    · exact ⟨_, hd⟩
    · exact ⟨_, ha⟩
  · intro s₀ s st' p hb hv ha
    have hm := visited hb hv
    obtain ⟨x, t⟩ := s
    have ht : t ≠ root := by
      rintro rfl
      rw [mergeTurn, if_pos hm.isRoot.symm] at ha
      cases ha
    rcases mergeTurn_spec hm ht with ⟨q, nq, l, r, nl, nr, sib, ms, -, -, hd⟩ |
      ⟨q, nq, l, r, nl, nr, sib, ms, st'', hf, hu, hco, ha'⟩
    · rw [ha] at hd
      cases hd
    · rw [ha] at ha'
      cases ha'
      obtain ⟨nodes, cells, heq, -, hmem, -, hstock⟩ := coalesce_spec hm hf hu
      refine ⟨hco, nq, l, r, nl, hf.at_p, hf.linked.left, hf.linked.right, hf.linked.atLeft,
        hstock, ?_⟩
      intro k
      rw [heq] at hco
      cases hco
      have hk : ∀ y, y ∈ State.freeList { x with
          nodes := nodes, freeMap := x.freeMap.insert nl.size cells } k ↔
          y ∈ x.freeList k ∧ y ≠ l ∧ y ≠ r := by
        intro y
        rw [← hmem k y]
        show y ∈ OsHeap.get (x.freeMap.insert nl.size cells) k ↔ _
        rw [get_insert]
        rfl
      exact ⟨fun hl => ((hk l).mp hl).2.1 rfl, fun hr => ((hk r).mp hr).2.2 rfl⟩

/-- **FREE LISTS ARE SOUND** in every reached state and throughout the next
    call. -/
theorem freeMap_sound {A : Malloc} {U L : Nat} (hd : Header U L) {pid : Int} {out : List Line}
    {reqs : List Query} {st : State} (h : testCase A (boot pid out) U L reqs = .ok st) :
    ∃ root, st.root = some root ∧
      (∀ s a, a ∈ st.freeList s → EntrySound st root s a) ∧
      (st.freeMap.entries.flatMap (fun e => e.2)).Nodup ∧
      (∀ b, AllocSound A st b) ∧ (∀ P, FreeSound st P) := by
  obtain ⟨root, hgood⟩ := testCase_good hd h
  exact ⟨root, hgood.isRoot, fun s a ha => entry_sound hgood ha, entries_nodup hgood,
    fun b => alloc_sound hd hgood b, fun P => free_sound hgood P⟩

theorem freeMap_sound_run : ∃ st root,
    testCase bump (boot (-1) []) (3 : Nat) (1 : Nat) [⟨'A', 3⟩, ⟨'B', 2⟩, ⟨'A', 0⟩] = .ok st ∧
      st.root = some root ∧
      (∀ s a, a ∈ st.freeList s → EntrySound st root s a) ∧
      (st.freeMap.entries.flatMap (fun e => e.2)).Nodup ∧
      (∀ b, AllocSound bump st b) ∧ (∀ P, FreeSound st P) := by
  have hsome : (testCase bump (boot (-1) []) (3 : Nat) (1 : Nat)
      [⟨'A', 3⟩, ⟨'B', 2⟩, ⟨'A', 0⟩]).toOption.isSome = true := by decide
  obtain ⟨st, hst⟩ := ok_of_isSome hsome
  obtain ⟨root, hroot⟩ := freeMap_sound header_small hst
  exact ⟨st, root, hst, hroot⟩

end BuddyLists
