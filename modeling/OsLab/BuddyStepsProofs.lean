import OsLab.BuddySurgeryProofs

/-! # What each step of the allocator does

    One lemma for each function of the model: what it answers on a state that
    satisfies the invariant, as a surgery on the tree.  Later files cite
    these and never unfold the functions again. -/

namespace BuddySteps

open OsHeap OsLoop BuddyModel BuddyInvariant BuddySurgery

/-- A state whose tree satisfies the invariant with lists `fl` and a hole. -/
structure Held (U L : Nat) (root : Addr) (st : State) (fl : Int → List Addr)
    (hole : Ptr) : Prop where
  inv : Inv st.node root U L fl st.runningRec.lookup hole
  isRoot : st.root = some root
  total : st.totalSize = 2 ^ U
  gran : st.minGranularity = 2 ^ L

/-- A state between two calls. -/
def Good (U L : Nat) (root : Addr) (st : State) : Prop :=
  Held U L root st st.freeList none

@[simp] theorem llInsert_eq (head : List Addr) (x : Addr) : llInsert head x = x :: head := by
  cases head <;> rfl

theorem tdiv_two_pow (k : Nat) : (2 ^ (k + 1) : Int).tdiv 2 = 2 ^ k := by
  rw [pow_succ, Int.mul_tdiv_cancel _ (by decide)]

/-- Powers of two compare as their exponents do. -/
theorem pow_le_pow_iff {j k : Nat} : (2 ^ j : Int) ≤ 2 ^ k ↔ j ≤ k :=
  pow_le_pow_iff_right₀ (by decide)

theorem pow_inj {j k : Nat} (h : (2 ^ j : Int) = 2 ^ k) : j = k :=
  Nat.le_antisymm (pow_le_pow_iff.mp h.le) (pow_le_pow_iff.mp h.ge)

/-! ## Splitting -/

section Split

variable {A : Malloc} {st : State} {a : Addr} {n : BSTree} {k L : Nat}

/-- The record a new child starts with. -/
def childOf (a : Addr) (size : Int) : BSTree := { create size with parent := some a }

/-- What `split` does to a node of size `2^(k+1)` above the minimum. -/
theorem split_spec (hn : st.node a = some n) (hs : n.size = 2 ^ (k + 1))
    (hmin : st.minGranularity = 2 ^ L) (hk : L ≤ k) :
    ∃ l r up, split A st a = .ok { st with
        nodes := up
        freeMap := st.freeMap.insert (2 ^ k) (r :: st.freeList (2 ^ k)) } ∧
      st.node l = none ∧ st.node r = none ∧ l ≠ r ∧
      up.lookup a = some { n with left := some l, right := some r } ∧
      up.lookup l = some (childOf a (2 ^ k)) ∧ up.lookup r = some (childOf a (2 ^ k)) ∧
      ∀ b, b ≠ a → b ≠ l → b ≠ r → up.lookup b = st.node b := by
  have hn' : st.nodes.lookup a = some n := hn
  have hge : ¬ (2 ^ k : Int) < 2 ^ L := not_lt.mpr (pow_le_pow_iff.mpr hk)
  let l := alloc A st.nodes (create (2 ^ k))
  let r := alloc A l.2 (create (2 ^ k))
  have hl : st.nodes.lookup l.1 = none := alloc_fresh A st.nodes _
  have hr' : l.2.lookup r.1 = none := alloc_fresh A l.2 _
  have hlr : l.1 ≠ r.1 := by
    intro he
    rw [← he, lookup_alloc, if_pos rfl] at hr'
    exact nomatch hr'
  have hr : st.nodes.lookup r.1 = none := by
    rw [lookup_alloc, if_neg (Ne.symm hlr)] at hr'
    exact hr'
  have hal : a ≠ l.1 := fun he => nomatch (he ▸ hn').symm.trans hl
  have har : a ≠ r.1 := fun he => nomatch (he ▸ hn').symm.trans hr
  have hr2 : ∀ b, r.2.lookup b = if b = r.1 then some (create (2 ^ k)) else
      if b = l.1 then some (create (2 ^ k)) else st.nodes.lookup b := by
    intro b
    rw [lookup_alloc, lookup_alloc]
  let up := store (store
    (store r.2 a (fun n => { n with left := some l.1, right := some r.1 }))
    l.1 (fun n => { n with parent := some a })) r.1 (fun n => { n with parent := some a })
  refine ⟨l.1, r.1, up, ?_, hl, hr, hlr, ?_, ?_, ?_, ?_⟩
  · refine bind_ok.mpr ⟨_, follow_some hn', ?_⟩
    simp only [hs, tdiv_two_pow, hmin, if_neg hge, llInsert_eq]
    rfl
  · rw [lookup_store, if_neg har, lookup_store, if_neg hal, lookup_store, if_pos rfl, hr2,
      if_neg har, if_neg hal, hn']
    rfl
  · rw [lookup_store, if_neg hlr, lookup_store, if_pos rfl, lookup_store,
      if_neg (Ne.symm hal), hr2, if_neg hlr, if_pos rfl]
    rfl
  · rw [lookup_store, if_pos rfl, lookup_store, if_neg (Ne.symm hlr), lookup_store,
      if_neg (Ne.symm har), hr2, if_pos rfl]
    rfl
  · intro b hba hbl hbr
    rw [lookup_store, if_neg hbr, lookup_store, if_neg hbl, lookup_store, if_neg hba, hr2,
      if_neg hbr, if_neg hbl]
    rfl

/-- One turn of the splitting loop on a leaf of size `2^(k+1)`. -/
theorem splitTurn_spec {want : Int} (hn : st.node a = some n) (hleaf : IsLeaf n)
    (hs : n.size = 2 ^ (k + 1)) (hmin : st.minGranularity = 2 ^ L) (hk : L ≤ k)
    (hw : n.size ≠ want) :
    ∃ l r nodes, splitTurn A want (st, a, n.size) = .ok (.again ({ st with
        nodes := nodes
        freeMap := st.freeMap.insert (2 ^ k) (r :: st.freeList (2 ^ k)) }, l, 2 ^ k)) ∧
      Branches st.node (fun b => nodes.lookup b) a l r n
        { n with left := some l, right := some r, isUsed := 1 }
        (childOf a (2 ^ k)) (childOf a (2 ^ k)) := by
  obtain ⟨l, r, up, hsplit, hl, hr, hlr, ha, hul, hur, hoth⟩ :=
    split_spec (A := A) hn hs hmin hk
  have hn' : st.nodes.lookup a = some n := hn
  have hal : a ≠ l := fun he => nomatch (he ▸ hn).symm.trans hl
  have har : a ≠ r := fun he => nomatch (he ▸ hn).symm.trans hr
  let used := store up a (fun n => { n with isUsed := 1 })
  have hua : used.lookup a = some { n with left := some l, right := some r, isUsed := 1 } := by
    rw [lookup_store, if_pos rfl, ha]
    rfl
  have hulL : used.lookup l = some (childOf a (2 ^ k)) := by
    rw [lookup_store, if_neg (Ne.symm hal)]
    exact hul
  have hurR : used.lookup r = some (childOf a (2 ^ k)) := by
    rw [lookup_store, if_neg (Ne.symm har)]
    exact hur
  refine ⟨l, r, used, ?_, ?_⟩
  · rw [splitTurn, if_neg hw]
    exact bind_ok.mpr ⟨_, hsplit, bind_ok.mpr ⟨_, follow_some hua,
      bind_ok.mpr ⟨_, follow_some hulL, rfl⟩⟩⟩
  · exact {
      leafAt := hn
      leaf := hleaf
      noLeft := hl
      noRight := hr
      nodeAt := hua
      linked := {
        left := rfl
        right := rfl
        ne := hlr
        atLeft := hulL
        atRight := hurR
        upLeft := rfl
        upRight := rfl
        halfLeft := by
          show n.size = 2 * 2 ^ k
          rw [hs, pow_succ, mul_comm]
        halfRight := by
          show n.size = 2 * 2 ^ k
          rw [hs, pow_succ, mul_comm] }
      leafLeft := ⟨rfl, rfl⟩
      leafRight := ⟨rfl, rfl⟩
      parent := rfl
      size := rfl
      other := by
        intro b hba hbl hbr
        show used.lookup b = _
        rw [lookup_store, if_neg hba]
        exact hoth b hba hbl hbr }

end Split

/-! ## Merging -/

theorem mem_unlink {l r x : Addr} {cells : List Addr} :
    x ∈ unlink (some l) (some r) cells ↔ x ∈ cells ∧ x ≠ l ∧ x ≠ r := by
  induction cells with
  | nil => simp [unlink]
  | cons c cells ih =>
      by_cases hcl : c = l
      · simp only [unlink, hcl, if_true, ih, List.mem_cons]
        tauto
      · by_cases hcr : c = r
        · simp only [unlink, hcr, Option.some.injEq, if_true, ite_self, ih, List.mem_cons]
          tauto
        · simp only [unlink, Option.some.injEq, hcl, hcr, if_false, List.mem_cons, ih]
          constructor
          · rintro (rfl | ⟨hx, h1, h2⟩)
            · exact ⟨Or.inl rfl, hcl, hcr⟩
            · exact ⟨Or.inr hx, h1, h2⟩
          · rintro ⟨rfl | hx, h1, h2⟩
            · exact Or.inl rfl
            · exact Or.inr ⟨hx, h1, h2⟩

theorem unlink_sublist {l r : Ptr} {cells : List Addr} :
    (unlink l r cells).Sublist cells := by
  induction cells with
  | nil => exact .slnil
  | cons c cells ih =>
      rw [unlink]
      by_cases hcl : some c = l
      · rw [if_pos hcl]; exact .cons _ ih
      · by_cases hcr : some c = r
        · rw [if_neg hcl, if_pos hcr]; exact .cons _ ih
        · rw [if_neg hcl, if_neg hcr]; exact .cons_cons _ ih

/-- The list of the children loses both when at most one of them is in it. -/
theorem unlinkChildren_spec {l r : Addr} {cells : List Addr} (hne : cells ≠ [])
    (hnd : cells.Nodup) (hone : l ∉ cells ∨ r ∉ cells) :
    ∃ out, unlinkChildren (some l) (some r) cells = .ok out ∧
      (∀ x, x ∈ out ↔ x ∈ cells ∧ x ≠ l ∧ x ≠ r) ∧ out.Nodup := by
  cases cells with
  | nil => exact absurd rfl hne
  | cons c cells =>
      obtain ⟨hc, hcs⟩ := List.nodup_cons.mp hnd
      rw [List.mem_cons, List.mem_cons] at hone
      by_cases hcl : c = l
      · subst hcl
        refine ⟨cells, by simp [unlinkChildren], fun x => ?_, hcs⟩
        rw [List.mem_cons]
        constructor
        · intro hx
          refine ⟨Or.inr hx, fun he => hc (he ▸ hx), fun he => ?_⟩
          rcases hone with h' | h'
          · exact h' (Or.inl rfl)
          · exact h' (Or.inr (he ▸ hx))
        · rintro ⟨rfl | hx, h1, -⟩
          · exact absurd rfl h1
          · exact hx
      · by_cases hcr : c = r
        · subst hcr
          refine ⟨cells, by simp [unlinkChildren, hcl], fun x => ?_, hcs⟩
          rw [List.mem_cons]
          constructor
          · intro hx
            refine ⟨Or.inr hx, fun he => ?_, fun he => hc (he ▸ hx)⟩
            rcases hone with h' | h'
            · exact h' (Or.inr (he ▸ hx))
            · exact h' (Or.inl rfl)
          · rintro ⟨rfl | hx, -, h2⟩
            · exact absurd rfl h2
            · exact hx
        · refine ⟨c :: unlink (some l) (some r) cells, by simp [unlinkChildren, hcl, hcr],
            fun x => ?_, ?_⟩
          · rw [List.mem_cons, mem_unlink, List.mem_cons]
            constructor
            · rintro (rfl | ⟨hx, h1, h2⟩)
              · exact ⟨Or.inl rfl, hcl, hcr⟩
              · exact ⟨Or.inr hx, h1, h2⟩
            · rintro ⟨rfl | hx, h1, h2⟩
              · exact Or.inl rfl
              · exact Or.inr ⟨hx, h1, h2⟩
          · exact List.nodup_cons.mpr ⟨fun hm => hc (mem_unlink.mp hm).1,
              hcs.sublist unlink_sublist⟩

/-- Node `p` has the children `t` and `sib`, in some order. -/
structure Family (look : Look) (p : Addr) (np : BSTree) (l r : Addr) (nl nr : BSTree)
    (t sib : Addr) (ms : BSTree) : Prop where
  at_p : look p = some np
  linked : Linked look p np l r nl nr
  who : (t = l ∧ sib = r) ∨ (t = r ∧ sib = l)
  at_sib : look sib = some ms

section Merge

variable {U L : Nat} {root : Addr} {st : State} {t : Addr}

/-- A node that is not the root has a family. -/
theorem family (hs : Shape st.node root U L) {nt : BSTree} (hn : st.node t = some nt)
    (ht : t ≠ root) : ∃ p np l r nl nr sib ms, nt.parent = some p ∧
      Family st.node p np l r nl nr t sib ms := by
  obtain ⟨p, np, l, r, nl, nr, hp, hlp, hlk, rfl | rfl⟩ := hs.child hn ht
  · exact ⟨p, np, t, r, nl, nr, r, nr, hp, hlp, hlk, Or.inl ⟨rfl, rfl⟩, hlk.atRight⟩
  · exact ⟨p, np, l, t, nl, nr, l, nl, hp, hlp, hlk, Or.inr ⟨rfl, rfl⟩, hlk.atLeft⟩

theorem flag_bit {look : Look} {hole : Ptr} (hf : Flags look L hole) {a : Addr} {n : BSTree}
    (hn : look a = some n) (hne : hole ≠ some a) : n.isUsed = 0 ∨ n.isUsed = 1 := by
  by_cases hleaf : IsLeaf n
  · exact (hf.leaf hn hleaf hne).imp And.left And.left
  · exact Or.inr (hf.interior hn hleaf)

variable {p l r sib : Addr} {np nl nr ms : BSTree}

theorem Family.sib_ne (h : Family st.node p np l r nl nr t sib ms) : sib ≠ t := by
  have := h.linked.ne
  rcases h.who with ⟨rfl, rfl⟩ | ⟨rfl, rfl⟩
  · exact this.symm
  · exact this

theorem Family.halves (h : Family st.node p np l r nl nr t sib ms) : nl.size = nr.size := by
  have h1 := h.linked.halfLeft
  have h2 := h.linked.halfRight
  omega

/-- A parent is neither of its children: it is twice as large. -/
theorem Family.apart (hs : Shape st.node root U L)
    (h : Family st.node p np l r nl nr t sib ms) : p ≠ l ∧ p ≠ r := by
  have hpos := hs.size_pos h.at_p
  have h1 := h.linked.halfLeft
  have h2 := h.linked.halfRight
  constructor
  · rintro rfl
    rw [Option.some.inj (h.at_p.symm.trans h.linked.atLeft)] at hpos h1
    omega
  · rintro rfl
    rw [Option.some.inj (h.at_p.symm.trans h.linked.atRight)] at hpos h2
    omega

/-- With the hole at `t` and its sibling free both children are leaves, and of
    the two only the sibling is in the list of their size. -/
theorem Family.kids (h : Held U L root st st.freeList (some t))
    (hf : Family st.node p np l r nl nr t sib ms) (hfree : ms.isUsed = 0) :
    IsLeaf nl ∧ IsLeaf nr ∧ sib ∈ st.freeList nl.size ∧
      (l ∉ st.freeList nl.size ∨ r ∉ st.freeList nl.size) := by
  have hlk := hf.linked
  have hsibleaf : IsLeaf ms := by
    by_contra hnl
    have hused := h.inv.flags.interior hf.at_sib hnl
    rw [hfree] at hused
    exact absurd hused (by decide)
  obtain ⟨mt, hmt, htleaf⟩ := h.inv.flags.hole rfl
  have hroot : sib ≠ root := by
    rcases hf.who with ⟨-, rfl⟩ | ⟨-, rfl⟩
    · exact h.inv.shape.ne_root hlk.atRight hlk.upRight
    · exact h.inv.shape.ne_root hlk.atLeft hlk.upLeft
  have hlisted : sib ∈ st.freeList ms.size :=
    h.inv.lists.complete hf.at_sib ⟨hsibleaf, hfree⟩
      (fun he => hf.sib_ne (Option.some.inj he).symm) hroot
  have htlist : t ∉ st.freeList nl.size := fun hm => (h.inv.lists.sound hm).1 rfl
  rcases hf.who with ⟨rfl, rfl⟩ | ⟨rfl, rfl⟩
  · obtain rfl := Option.some.inj (hf.at_sib.symm.trans hlk.atRight)
    obtain rfl := Option.some.inj (hmt.symm.trans hlk.atLeft)
    exact ⟨htleaf, hsibleaf, hf.halves ▸ hlisted, Or.inl htlist⟩
  · obtain rfl := Option.some.inj (hf.at_sib.symm.trans hlk.atLeft)
    obtain rfl := Option.some.inj (hmt.symm.trans hlk.atRight)
    exact ⟨hsibleaf, htleaf, hlisted, Or.inr htlist⟩

/-- The heap `coalesce` leaves: the parent has no children, and they are
    released. -/
def merged (st : State) (p l r : Addr) : Heap BSTree :=
  ((store st.nodes p (fun n => { n with left := none, right := none })).erase l).erase r

theorem lookup_cut (hp : st.node p = some np) (b : Addr) :
    (store st.nodes p (fun n => { n with left := none, right := none })).lookup b =
      if b = p then some { np with left := none, right := none } else st.node b := by
  rw [lookup_store, show st.nodes.lookup p = some np from hp]
  rfl

theorem lookup_merged (hp : st.node p = some np) (b : Addr) :
    (merged st p l r).lookup b = if b = r then none else if b = l then none
      else if b = p then some { np with left := none, right := none } else st.node b := by
  rw [merged, lookup_erase_if, lookup_erase_if, lookup_cut hp]

/-- Merging two leaves is a split read backwards. -/
theorem merged_branches (hs : Shape st.node root U L)
    (hf : Family st.node p np l r nl nr t sib ms) (hll : IsLeaf nl) (hrl : IsLeaf nr) :
    Branches (fun b => (merged st p l r).lookup b) st.node p l r
      { np with left := none, right := none } np nl nr := by
  obtain ⟨hpl, hpr⟩ := hf.apart hs
  have hlook := fun b => lookup_merged (l := l) (r := r) hf.at_p b
  exact {
    leafAt := by rw [hlook, if_neg hpr, if_neg hpl, if_pos rfl]
    leaf := ⟨rfl, rfl⟩
    noLeft := by rw [hlook, if_neg hf.linked.ne, if_pos rfl]
    noRight := by rw [hlook, if_pos rfl]
    nodeAt := hf.at_p
    linked := hf.linked
    leafLeft := hll
    leafRight := hrl
    parent := rfl
    size := rfl
    other := by
      intro b hbp hbl hbr
      rw [hlook, if_neg hbr, if_neg hbl, if_neg hbp] }

/-- The children are in no list but that of their size. -/
theorem Family.unlisted (h : Held U L root st st.freeList (some t))
    (hf : Family st.node p np l r nl nr t sib ms) {s : Int} (hs : s ≠ nl.size) {x : Addr}
    (hx : x ∈ st.freeList s) : x ≠ l ∧ x ≠ r := by
  obtain ⟨-, mx, hmx, -, hsx⟩ := h.inv.lists.sound hx
  constructor
  · rintro rfl
    rw [Option.some.inj (hmx.symm.trans hf.linked.atLeft)] at hsx
    exact hs hsx.symm
  · rintro rfl
    rw [Option.some.inj (hmx.symm.trans hf.linked.atRight)] at hsx
    exact hs (hsx.symm.trans hf.halves.symm)

/-- **COALESCE**: below a family whose sibling is free, the children go. -/
theorem coalesce_spec (h : Held U L root st st.freeList (some t))
    (hf : Family st.node p np l r nl nr t sib ms) (hfree : ms.isUsed = 0) :
    ∃ nodes cells, coalesce st p = .ok { st with
        nodes := nodes
        freeMap := st.freeMap.insert nl.size cells } ∧
      Branches (fun b => nodes.lookup b) st.node p l r
        { np with left := none, right := none } np nl nr ∧
      (∀ s x, x ∈ (if s = nl.size then cells else st.freeList s) ↔
        x ∈ st.freeList s ∧ x ≠ l ∧ x ≠ r) ∧ cells.Nodup ∧ st.freeList nl.size ≠ [] := by
  have hlk := hf.linked
  obtain ⟨hll, hrl, hlisted, hone⟩ := hf.kids h hfree
  have hstock : st.freeList nl.size ≠ [] := List.ne_nil_of_mem hlisted
  obtain ⟨cells, hcells, hmem, hnd⟩ :=
    unlinkChildren_spec hstock (h.inv.lists.nodup nl.size) hone
  refine ⟨merged st p l r, cells, ?_, merged_branches h.inv.shape hf hll hrl, ?_, hnd, hstock⟩
  · -- both children are there when they are released
    obtain ⟨hpl, hpr⟩ := hf.apart h.inv.shape
    let cut := store st.nodes p (fun n => { n with left := none, right := none })
    have hcl : cut.lookup l = some nl := by
      rw [lookup_cut hf.at_p, if_neg (Ne.symm hpl)]
      exact hlk.atLeft
    have hcr : (cut.erase l).lookup r = some nr := by
      rw [lookup_erase_if, if_neg hlk.ne.symm, lookup_cut hf.at_p, if_neg (Ne.symm hpr)]
      exact hlk.atRight
    have hrel1 : release Fault.badNode cut (some l) = .ok (cut.erase l) :=
      release_ok.mpr ⟨AList.lookup_isSome.mp (by rw [hcl]; rfl), rfl⟩
    have hrel2 : release Fault.badNode (cut.erase l) (some r) = .ok (merged st p l r) :=
      release_ok.mpr ⟨AList.lookup_isSome.mp (by rw [hcr]; rfl), rfl⟩
    have hfl : follow Fault.badNode cut np.left = .ok (l, nl) := by
      rw [hlk.left]
      exact follow_some hcl
    refine bind_ok.mpr ⟨(p, np), follow_some hf.at_p, bind_ok.mpr ⟨(l, nl), hfl, ?_⟩⟩
    simp only [hlk.left, hlk.right]
    exact bind_ok.mpr ⟨cells, hcells, bind_ok.mpr ⟨_, hrel1, bind_ok.mpr ⟨_, hrel2, rfl⟩⟩⟩
  · intro s x
    by_cases hs : s = nl.size
    · rw [if_pos hs, hmem, hs]
    · rw [if_neg hs]
      exact ⟨fun hx => ⟨hx, hf.unlisted h hs hx⟩, And.left⟩

/-- **ONE TURN OF THE COALESCING LOOP**: it stops under a sibling in use, and
    otherwise merges and moves the hole to the parent. -/
theorem mergeTurn_spec (h : Held U L root st st.freeList (some t)) (ht : t ≠ root) :
    (∃ p np l r nl nr sib ms, Family st.node p np l r nl nr t sib ms ∧ ms.isUsed = 1 ∧
      mergeTurn (st, t) = .ok (.done (st, t))) ∨
    (∃ p np l r nl nr sib ms st', Family st.node p np l r nl nr t sib ms ∧ ms.isUsed = 0 ∧
      coalesce st p = .ok st' ∧ mergeTurn (st, t) = .ok (.again (st', p))) := by
  obtain ⟨nt, hnt, -⟩ := h.inv.flags.hole rfl
  obtain ⟨p, np, l, r, nl, nr, sib, ms, hpar, hf⟩ := family h.inv.shape hnt ht
  have hnroot : ¬ (some t = st.root) := by
    rw [h.isRoot]
    exact fun he => ht (Option.some.inj he)
  have hbit := flag_bit h.inv.flags hf.at_sib (fun he => hf.sib_ne (Option.some.inj he).symm)
  have hfp : follow Fault.badNode st.nodes nt.parent = .ok (p, np) := by
    rw [hpar]
    exact follow_some hf.at_p
  have hfs : follow Fault.badNode st.nodes (some sib) = .ok (sib, ms) := follow_some hf.at_sib
  have hdone : ms.isUsed = 1 → mergeTurn (st, t) = .ok (.done (st, t)) := by
    intro hu
    rw [mergeTurn, if_neg hnroot]
    refine bind_ok.mpr ⟨(t, nt), follow_some hnt, bind_ok.mpr ⟨(p, np), hfp, ?_⟩⟩
    have hu' : ¬ ms.isUsed = 0 := by rw [hu]; decide
    rcases hf.who with ⟨rfl, rfl⟩ | ⟨rfl, rfl⟩
    · simp only [hf.linked.left, if_true]
      refine bind_ok.mpr ⟨(sib, ms), by rw [hf.linked.right]; exact hfs, ?_⟩
      simp only [if_neg hu']
    · have hne : ¬ (np.left = some t) := by
        rw [hf.linked.left]
        exact fun he => hf.sib_ne (Option.some.inj he)
      simp only [if_neg hne, hf.linked.right, if_true]
      refine bind_ok.mpr ⟨(sib, ms), by rw [hf.linked.left]; exact hfs, ?_⟩
      simp only [if_neg hu']
  have hagain : ∀ st', ms.isUsed = 0 → coalesce st p = .ok st' →
      mergeTurn (st, t) = .ok (.again (st', p)) := by
    intro st' hu hco
    rw [mergeTurn, if_neg hnroot]
    refine bind_ok.mpr ⟨(t, nt), follow_some hnt, bind_ok.mpr ⟨(p, np), hfp, ?_⟩⟩
    rcases hf.who with ⟨rfl, rfl⟩ | ⟨rfl, rfl⟩
    · simp only [hf.linked.left, if_true]
      refine bind_ok.mpr ⟨(sib, ms), by rw [hf.linked.right]; exact hfs, ?_⟩
      simp only [if_pos hu]
      exact bind_ok.mpr ⟨st', hco, rfl⟩
    · have hne : ¬ (np.left = some t) := by
        rw [hf.linked.left]
        exact fun he => hf.sib_ne (Option.some.inj he)
      simp only [if_neg hne, hf.linked.right, if_true]
      refine bind_ok.mpr ⟨(sib, ms), by rw [hf.linked.left]; exact hfs, ?_⟩
      simp only [if_pos hu]
      exact bind_ok.mpr ⟨st', hco, rfl⟩
  rcases hbit with hu | hu
  · obtain ⟨nodes, cells, hco, -⟩ := coalesce_spec h hf hu
    exact Or.inr ⟨p, np, l, r, nl, nr, sib, ms, _, hf, hu, hco, hagain _ hu hco⟩
  · exact Or.inl ⟨p, np, l, r, nl, nr, sib, ms, hf, hu, hdone hu⟩

/-- Merging keeps the invariant, with the hole at the parent. -/
theorem coalesce_held (h : Held U L root st st.freeList (some t))
    (hf : Family st.node p np l r nl nr t sib ms) (hfree : ms.isUsed = 0) {st' : State}
    (hco : coalesce st p = .ok st') : Held U L root st' st'.freeList (some p) := by
  obtain ⟨nodes, cells, heq, hbr, hmem, hnd, -⟩ := coalesce_spec h hf hfree
  rw [heq] at hco
  have hfl : ∀ s, State.freeList { st with
      nodes := nodes, freeMap := st.freeMap.insert nl.size cells } s =
      if s = nl.size then cells else st.freeList s := fun s => get_insert ..
  cases hco
  refine ⟨Inv.shrink h.inv hbr hf.who hf.at_sib hfree ?_ ?_, h.isRoot, h.total, h.gran⟩
  · intro s x
    rw [hfl]
    exact hmem s x
  · intro s
    rw [hfl]
    by_cases hs : s = nl.size
    · rw [if_pos hs]; exact hnd
    · rw [if_neg hs]; exact h.inv.lists.nodup s

end Merge

/-! ## Sizes -/

/-- The exponent of a size. -/
def lg (i : Int) : Nat := i.toNat.log2

theorem lg_pow (k : Nat) : lg (2 ^ k) = k := by
  have h : (2 ^ k : Int) = ((2 ^ k : Nat) : Int) := by push_cast; rfl
  rw [lg, h, Int.toNat_natCast, Nat.log2_two_pow]

theorem double_pow {k : Nat} (h : (2 ^ (k + 1) : Int) ≤ intMax) :
    double (2 ^ k) = .ok (2 ^ (k + 1)) := by
  rw [double, ← pow_succ, if_pos h]

section Sizes

variable {U L : Nat} {st : State}

/-- The rounding loop stops at the smallest power of two that fits. -/
theorem find_spec (htot : st.totalSize = 2 ^ U) (hgran : st.minGranularity = 2 ^ L)
    (hLU : L ≤ U) (hU : U < turns) (hmax : (2 ^ U : Int) ≤ intMax) {b : Int}
    (hb : b ≤ 2 ^ U) :
    ∃ k, findReqdPowerOf2 st b = .ok (2 ^ k) ∧ L ≤ k ∧ k ≤ U ∧ b ≤ 2 ^ k ∧
      ∀ j, L ≤ j → b ≤ 2 ^ j → k ≤ j := by
  let I : Int → Prop := fun i => ∃ k, L ≤ k ∧ k ≤ U ∧ i = 2 ^ k ∧
    ∀ j, L ≤ j → b ≤ 2 ^ j → k ≤ j
  let Q : Int → Prop := fun i => ∃ k, i = 2 ^ k ∧ L ≤ k ∧ k ≤ U ∧ b ≤ 2 ^ k ∧
    ∀ j, L ≤ j → b ≤ 2 ^ j → k ≤ j
  have hbody : ∀ i, I i →
      (∃ a, (if i < b then (do .ok (Turn.again (← double i))) else .ok (.done i) :
          Except Fault (Turn Int Int)) = .ok (.done a) ∧ Q a) ∨
      (∃ i', (if i < b then (do .ok (Turn.again (← double i))) else .ok (.done i) :
          Except Fault (Turn Int Int)) = .ok (.again i') ∧ I i' ∧ U - lg i' < U - lg i) := by
    rintro i ⟨k, hk1, hk2, rfl, hmin⟩
    by_cases hlt : (2 ^ k : Int) < b
    · have hkU : k < U := by
        have hpow : (2 ^ k : Int) < 2 ^ U := lt_of_lt_of_le hlt hb
        exact lt_of_not_ge (fun hge => absurd (pow_le_pow_iff.mpr hge) (not_le.mpr hpow))
      refine Or.inr ⟨2 ^ (k + 1), ?_, ⟨k + 1, by omega, hkU, rfl, fun j hj hbj => ?_⟩, ?_⟩
      · rw [if_pos hlt, double_pow (le_trans (pow_le_pow_iff.mpr hkU) hmax)]
        rfl
      · have hkj := hmin j hj hbj
        have hne : k ≠ j := fun he => absurd (he ▸ hbj) (not_le.mpr hlt)
        omega
      · rw [lg_pow, lg_pow]
        omega
    · exact Or.inl ⟨2 ^ k, by rw [if_neg hlt], k, rfl, hk1, hk2, not_lt.mp hlt, hmin⟩
  have hstart : I (2 ^ L) := ⟨L, le_refl _, hLU, rfl, fun j hj _ => hj⟩
  obtain ⟨i, hloop, k, rfl, hrest⟩ := loop_total (fun i => U - lg i) hbody hstart
    (by rw [lg_pow]; omega : U - lg (2 ^ L) < turns)
  refine ⟨k, ?_, hrest⟩
  rw [findReqdPowerOf2, htot, if_neg (not_lt.mpr hb), hgran]
  exact hloop

/-- The availability search stops at the first list that is not empty. -/
theorem search_spec (htot : st.totalSize = 2 ^ U) (hU : U + 1 < turns)
    (hmax : (2 ^ (U + 1) : Int) ≤ intMax) {k : Nat} (hk : k ≤ U) :
    ∃ lists found, search st (2 ^ k) = .ok (lists, found) ∧
      (∀ s, get lists s = st.freeList s) ∧
      ((found = none ∧ ∀ j, k ≤ j → j ≤ U → st.freeList (2 ^ j) = []) ∨
       ∃ j, found = some (2 ^ j) ∧ k ≤ j ∧ j ≤ U ∧ st.freeList (2 ^ j) ≠ []) := by
  let I : DefMap Int (List Addr) × Int → Prop := fun s =>
    (∀ x, get s.1 x = st.freeList x) ∧ ∃ j, k ≤ j ∧ j ≤ U + 1 ∧ s.2 = 2 ^ j ∧
      ∀ i, k ≤ i → i < j → st.freeList (2 ^ i) = []
  let Q : DefMap Int (List Addr) × Option Int → Prop := fun s =>
    (∀ x, get s.1 x = st.freeList x) ∧
    ((s.2 = none ∧ ∀ j, k ≤ j → j ≤ U → st.freeList (2 ^ j) = []) ∨
      ∃ j, s.2 = some (2 ^ j) ∧ k ≤ j ∧ j ≤ U ∧ st.freeList (2 ^ j) ≠ [])
  have hbody : ∀ s, I s →
      (∃ a, searchTurn st.totalSize s = .ok (.done a) ∧ Q a) ∨
      (∃ s', searchTurn st.totalSize s = .ok (.again s') ∧ I s' ∧
        U + 1 - lg s'.2 < U + 1 - lg s.2) := by
    rintro ⟨m, i⟩ ⟨hm, j, hj1, hj2, hi, hempty⟩
    obtain rfl : i = 2 ^ j := hi
    rw [searchTurn, htot]
    by_cases hjU : j ≤ U
    · simp only [pow_le_pow_iff.mpr hjU, if_true]
      by_cases hl : get m (2 ^ j) = []
      · refine Or.inr ⟨(touch m (2 ^ j), 2 ^ (j + 1)), ?_, ⟨?_, j + 1, by omega, by omega, rfl, ?_⟩,
          ?_⟩
        · have hle : (2 ^ (j + 1) : Int) ≤ 2 ^ (U + 1) := pow_le_pow_iff.mpr (by omega)
          simp only [hl, ne_eq, not_true_eq_false, if_false, double_pow (le_trans hle hmax)]
          rfl
        · intro x; rw [get_touch]; exact hm x
        · intro i hi1 hi2
          by_cases hij : i = j
          · rw [hij, ← hm]; exact hl
          · exact hempty i hi1 (by omega)
        · show U + 1 - lg (2 ^ (j + 1)) < U + 1 - lg (2 ^ j)
          rw [lg_pow, lg_pow]
          omega
      · refine Or.inl ⟨(touch m (2 ^ j), some (2 ^ j)), ?_, ?_, Or.inr ⟨j, rfl, hj1, hjU, ?_⟩⟩
        · simp only [ne_eq, hl, not_false_eq_true, if_true]
        · intro x; rw [get_touch]; exact hm x
        · rw [← hm]; exact hl
    · have hgt : ¬ (2 ^ j : Int) ≤ 2 ^ U := fun h => hjU (pow_le_pow_iff.mp h)
      refine Or.inl ⟨(m, none), ?_, hm, Or.inl ⟨rfl, fun i hi1 hi2 => hempty i hi1 (by omega)⟩⟩
      simp only [hgt, if_false]
  have hstart : I (st.freeMap, 2 ^ k) :=
    ⟨fun _ => rfl, k, le_refl _, by omega, rfl, fun i h1 h2 => absurd h1 (by omega)⟩
  obtain ⟨⟨lists, found⟩, hloop, hQ⟩ := loop_total (fun s => U + 1 - lg s.2) hbody hstart
    (by show U + 1 - lg (2 ^ k) < turns; rw [lg_pow]; omega)
  exact ⟨lists, found, hloop, hQ⟩

end Sizes

end BuddySteps
