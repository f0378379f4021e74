import OsLab.BuddyCaseProofs

/-! # The tree in every reached state

    The tree is full, its blocks tile `[0, 2^U)`, and allocated leaves have
    the size their bytes round up to (`tree_shape`).

    The flags are exact: a node is interior if and only if an allocated leaf
    lies strictly below it (`interior_iff`).  So the tree is the smallest one
    that has its allocated leaves, and two runs that end with the same
    allocated blocks end with the same tree (`tree_canonical`), whatever was
    allocated and freed on the way. -/

namespace BuddyTree

open OsHeap OsLoop OsDyadic BuddyModel BuddyInvariant BuddySurgery BuddySteps
open BuddyPlacement BuddyFrame BuddyCalls BuddyCase

/-! ## Shape and tiling -/

/-- A node is placed once, and its depth says its size. -/
def PlacedOnce (st : State) (root : Addr) (U L : Nat) (a : Addr) (n : BSTree) : Prop :=
  ∃ p, nodeAt st.node root p = some a ∧ (∀ q, nodeAt st.node root q = some a → q = p) ∧
    p.length ≤ U ∧ n.size = 2 ^ (U - p.length) ∧ (2 ^ L : Int) ≤ n.size

/-- The leaves with their paths, from left to right. -/
def leaves (st : State) (root : Addr) (U : Nat) : List (Path × Addr) :=
  leavesFrom st.node (U + 1) [] root

/-- The leaves from left to right tile the whole range. -/
def Tiled (st : State) (root : Addr) (U : Nat) : Prop :=
  Tiles U 0 ((leaves st root U).map Prod.fst) (2 ^ U) ∧
  ∀ p a, (p, a) ∈ leaves st root U ↔
    nodeAt st.node root p = some a ∧ ∃ n, st.node a = some n ∧ IsLeaf n

section Shape

variable {U L : Nat} {root : Addr} {st : State}

theorem placed_once (h : Good U L root st) {a : Addr} {n : BSTree} (hn : st.node a = some n) :
    PlacedOnce st root U L a n := by
  obtain ⟨p, hp⟩ := Shape.placed h.inv.shape hn
  obtain ⟨hlen, hsz⟩ := Shape.size_at h.inv.shape hp hn
  refine ⟨p, hp, fun q hq => nodeAt_unique h.inv.shape hq hp, hlen, hsz, ?_⟩
  obtain ⟨k, hLk, -, hk⟩ := h.inv.shape.pow hn
  rw [hk]
  exact pow_le_pow_iff.mpr hLk

theorem tiled (h : Good U L root st) : Tiled st root U := by
  have hfuel : U - ([] : Path).length < U + 1 := by rw [List.length_nil]; omega
  refine ⟨?_, fun p a => ?_⟩
  · have htiles := leavesFrom_tiles h.inv.shape (p := []) rfl hfuel
    have hend : offset U [] + width U [] = 2 ^ U := by simp [offset, width]
    rw [hend] at htiles
    exact htiles
  · have hmem := mem_leavesFrom h.inv.shape (p := []) rfl hfuel (q := p) (b := a)
    exact hmem.trans ⟨And.right, fun ha => ⟨List.nil_prefix, ha⟩⟩

theorem allocated_fits (h : Good U L root st) {a : Addr} {n : BSTree} (hn : st.node a = some n)
    (ha : Allocated n) : Fits L n.size n.bytesOccupied := by
  rcases h.inv.flags.leaf hn ha.1 (fun he => nomatch he) with ⟨-, h0⟩ | ⟨-, -, hfit⟩
  · exact absurd h0 ha.2
  · exact hfit

end Shape

/-- **THE TREE** is full with proper parent pointers, its sizes halve from
    `2^U` down to at least `2^L`, its leaves tile the range, and allocated
    leaves are as small as they can be. -/
theorem tree_shape {A : Malloc} {U L : Nat} (hd : Header U L) {pid : Int} {out : List Line}
    {reqs : List Query} {st : State} (h : testCase A (boot pid out) U L reqs = .ok st) :
    ∃ root, st.root = some root ∧
      (∃ n, st.node root = some n ∧ n.parent = none) ∧
      (∀ a n, st.node a = some n →
        IsLeaf n ∨ ∃ l r nl nr, Linked st.node a n l r nl nr) ∧
      (∀ a n, st.node a = some n → PlacedOnce st root U L a n) ∧
      Tiled st root U ∧
      (∀ a n, st.node a = some n → Allocated n → Fits L n.size n.bytesOccupied) := by
  obtain ⟨root, hgood⟩ := testCase_good hd h
  obtain ⟨n, hn, hpar, -⟩ := hgood.inv.shape.top
  exact ⟨root, hgood.isRoot, ⟨n, hn, hpar⟩, fun a n ha => hgood.inv.shape.kids ha,
    fun a n ha => placed_once hgood ha, tiled hgood, fun a n ha hal => allocated_fits hgood ha hal⟩

theorem tree_shape_run : ∃ st root,
    testCase bump (boot (-1) []) (3 : Nat) (1 : Nat) [⟨'A', 3⟩, ⟨'B', 2⟩, ⟨'A', 0⟩] = .ok st ∧
      st.root = some root ∧
      (∃ n, st.node root = some n ∧ n.parent = none) ∧
      (∀ a n, st.node a = some n →
        IsLeaf n ∨ ∃ l r nl nr, Linked st.node a n l r nl nr) ∧
      (∀ a n, st.node a = some n → PlacedOnce st root 3 1 a n) ∧
      Tiled st root 3 ∧
      (∀ a n, st.node a = some n → Allocated n → Fits 1 n.size n.bytesOccupied) := by
  have hsome : (testCase bump (boot (-1) []) (3 : Nat) (1 : Nat)
      [⟨'A', 3⟩, ⟨'B', 2⟩, ⟨'A', 0⟩]).toOption.isSome = true := by decide
  obtain ⟨st, hst⟩ := ok_of_isSome hsome
  obtain ⟨root, hroot⟩ := tree_shape header_small hst
  exact ⟨st, root, hst, hroot⟩

/-! ## The flags are exact -/

/-- An allocated leaf with its path. -/
def AllocatedAt (st : State) (root : Addr) (p : Path) (a : Addr) (n : BSTree) : Prop :=
  nodeAt st.node root p = some a ∧ st.node a = some n ∧ Allocated n

section Flags

variable {U L : Nat} {root : Addr} {st : State}

/-- **INTERIOR MEANS OCCUPIED BELOW.** -/
theorem interior_iff (h : Good U L root st) {p : Path} {a : Addr} {n : BSTree}
    (hp : nodeAt st.node root p = some a) (hn : st.node a = some n) :
    ¬ IsLeaf n ↔ ∃ q b m, q ≠ [] ∧ AllocatedAt st root (p ++ q) b m := by
  constructor
  · intro hnl
    obtain ⟨q, b, m, hq, hset, hor⟩ := used_below h.inv.shape h.inv.flags hp hn
      (h.inv.flags.interior hn hnl)
    obtain ⟨hm, hal⟩ := (settled_iff h.inv.flags).mp hset
    exact ⟨q, b, m, hor.resolve_left hnl, hq, hm, hal⟩
  · rintro ⟨q, b, m, hne, hq, -, -⟩ hleaf
    cases q with
    | nil => exact hne rfl
    | cons d q =>
        obtain ⟨c, hc, hrest⟩ := nodeAt_append.mp hq
        obtain rfl : a = c := Option.some.inj (hp.symm.trans hc)
        obtain ⟨n', x, hn', hk, -⟩ := nodeAt_cons.mp hrest
        rw [← Option.some.inj (hn.symm.trans hn')] at hk
        cases d with
        | left => exact nomatch hleaf.1.symm.trans hk
        | right => exact nomatch hleaf.2.symm.trans hk

/-- `is_used` is set exactly on interior nodes and allocated leaves. -/
theorem used_iff (h : Good U L root st) {a : Addr} {n : BSTree} (hn : st.node a = some n) :
    n.isUsed = 1 ↔ ¬ IsLeaf n ∨ Allocated n := by
  constructor
  · intro hu
    by_cases hleaf : IsLeaf n
    · have hset : Settled st.node none a n := ⟨hn, hleaf, hu, fun he => nomatch he⟩
      exact Or.inr ((settled_iff h.inv.flags).mp hset).2
    · exact Or.inl hleaf
  · rintro (hnl | hal)
    · exact h.inv.flags.interior hn hnl
    · exact ((settled_iff h.inv.flags).mpr ⟨hn, hal⟩).2.2.1

/-- Two siblings are never both free leaves. -/
theorem not_both_free (h : Good U L root st) {a l r : Addr} {n nl nr : BSTree}
    (hn : st.node a = some n) (hlk : Linked st.node a n l r nl nr) :
    ¬ (FreeLeaf nl ∧ FreeLeaf nr) := by
  rintro ⟨hl, hr⟩
  have used : ∀ {c m}, st.node c = some m → m.isUsed = 0 → ¬ Busy st.node none c := by
    rintro c m hm h0 (he | ⟨m', hm', h1⟩)
    · exact nomatch he
    · rw [← Option.some.inj (hm.symm.trans hm'), h0] at h1
      exact absurd h1 (by decide)
  rcases h.inv.flags.busy hn hlk.left hlk.right with hb | hb
  · exact used hlk.atLeft hl.2 hb
  · exact used hlk.atRight hr.2 hb

/-! ## The tree is determined by its allocated blocks -/

/-- An allocated block: where it starts and how long it is. -/
def Block (st : State) (root : Addr) (U : Nat) (b : Nat × Int) : Prop :=
  ∃ p a n, AllocatedAt st root p a n ∧ offset U p = b.1 ∧ n.size = b.2

/-- A block of two trees has the same path in both. -/
theorem block_path {root' : Addr} {st' : State} (h : Good U L root st)
    (h' : Good U L root' st')
    (hsub : ∀ b, Block st root U b → Block st' root' U b) {p : Path} {a : Addr} {n : BSTree}
    (hp : AllocatedAt st root p a n) : ∃ a' n', AllocatedAt st' root' p a' n' := by
  obtain ⟨q, a', n', hq, hoff, hsz⟩ := hsub (offset U p, n.size) ⟨p, a, n, hp, rfl, rfl⟩
  obtain ⟨hlen, hs⟩ := Shape.size_at h.inv.shape hp.1 hp.2.1
  obtain ⟨hlen', hs'⟩ := Shape.size_at h'.inv.shape hq.1 hq.2.1
  have hexp : U - q.length = U - p.length := pow_inj (hs'.symm.trans (hsz.trans hs))
  have hpq : q = p := offset_inj (by omega) hlen' hoff
  exact ⟨a', n', hpq ▸ hq⟩

/-- A tree whose allocated blocks another tree has too is part of it. -/
theorem nodeAt_sub {root' : Addr} {st' : State} (h : Good U L root st)
    (h' : Good U L root' st')
    (hsub : ∀ b, Block st root U b → Block st' root' U b) {p : Path}
    (hp : ∃ a, nodeAt st.node root p = some a) : ∃ a', nodeAt st'.node root' p = some a' := by
  cases p using List.reverseRecOn with
  | nil => exact ⟨root', rfl⟩
  | append_singleton p d =>
      obtain ⟨c, hc⟩ := hp
      obtain ⟨a, n, ha, hn, hk⟩ := nodeAt_snoc.mp hc
      obtain ⟨l, r, nl, nr, hlk⟩ := Shape.linked_of_kid h.inv.shape hn hk
      -- below the parent some leaf is allocated, and the other tree has it
      obtain ⟨q, b, m, hne, hq⟩ := (interior_iff h ha hn).mp hlk.notLeaf
      obtain ⟨b', m', hq'⟩ := block_path h h' hsub hq
      obtain ⟨a', ha', hrest⟩ := nodeAt_append.mp hq'.1
      cases q with
      | nil => exact absurd rfl hne
      | cons e q =>
          obtain ⟨n', x, hn', hk', -⟩ := nodeAt_cons.mp hrest
          obtain ⟨l', r', nl', nr', hlk'⟩ := Shape.linked_of_kid h'.inv.shape hn' hk'
          cases d with
          | left => exact ⟨l', nodeAt_snoc.mpr ⟨a', n', ha', hn', hlk'.left⟩⟩
          | right => exact ⟨r', nodeAt_snoc.mpr ⟨a', n', ha', hn', hlk'.right⟩⟩

end Flags

/-- **THE TREE IS CANONICAL** in every reached state: interior nodes are those
    with an allocated leaf strictly below, `is_used` says so, no two siblings
    are free, and any run that ends with the same allocated blocks ends with
    the same tree. -/
theorem tree_canonical {A : Malloc} {U L : Nat} (hd : Header U L) {pid : Int} {out : List Line}
    {reqs : List Query} {st : State} (h : testCase A (boot pid out) U L reqs = .ok st) :
    ∃ root, st.root = some root ∧
      (∀ p a n, nodeAt st.node root p = some a → st.node a = some n →
        (¬ IsLeaf n ↔ ∃ q b m, q ≠ [] ∧ AllocatedAt st root (p ++ q) b m)) ∧
      (∀ a n, st.node a = some n → (n.isUsed = 1 ↔ ¬ IsLeaf n ∨ Allocated n)) ∧
      (∀ a n l r nl nr, st.node a = some n → Linked st.node a n l r nl nr →
        ¬ (FreeLeaf nl ∧ FreeLeaf nr)) ∧
      (∀ A' pid' out' reqs' st' root', testCase A' (boot pid' out') U L reqs' = .ok st' →
        st'.root = some root' → (∀ b, Block st root U b ↔ Block st' root' U b) →
        ∀ p, (nodeAt st.node root p).isSome = (nodeAt st'.node root' p).isSome) := by
  obtain ⟨root, hgood⟩ := testCase_good hd h
  refine ⟨root, hgood.isRoot, fun p a n hp hn => interior_iff hgood hp hn,
    fun a n hn => used_iff hgood hn, fun a n l r nl nr hn hlk => not_both_free hgood hn hlk, ?_⟩
  intro A' pid' out' reqs' st' root' h' hroot' hblocks p
  obtain ⟨root'', hgood'⟩ := testCase_good hd h'
  obtain rfl : root'' = root' := Option.some.inj (hgood'.isRoot.symm.trans hroot')
  rw [Bool.eq_iff_iff, Option.isSome_iff_exists, Option.isSome_iff_exists]
  exact ⟨nodeAt_sub hgood hgood' (fun b => (hblocks b).mp),
    nodeAt_sub hgood' hgood (fun b => (hblocks b).mpr)⟩

theorem tree_canonical_run : ∃ st root,
    testCase bump (boot (-1) []) (3 : Nat) (1 : Nat) [⟨'A', 3⟩, ⟨'B', 2⟩, ⟨'A', 0⟩] = .ok st ∧
      st.root = some root ∧
      (∀ p a n, nodeAt st.node root p = some a → st.node a = some n →
        (¬ IsLeaf n ↔ ∃ q b m, q ≠ [] ∧ AllocatedAt st root (p ++ q) b m)) ∧
      (∀ a n, st.node a = some n → (n.isUsed = 1 ↔ ¬ IsLeaf n ∨ Allocated n)) ∧
      (∀ a n l r nl nr, st.node a = some n → Linked st.node a n l r nl nr →
        ¬ (FreeLeaf nl ∧ FreeLeaf nr)) ∧
      (∀ A' pid' out' reqs' st' root',
        testCase A' (boot pid' out') (3 : Nat) (1 : Nat) reqs' = .ok st' →
        st'.root = some root' → (∀ b, Block st root 3 b ↔ Block st' root' 3 b) →
        ∀ p, (nodeAt st.node root p).isSome = (nodeAt st'.node root' p).isSome) := by
  have hsome : (testCase bump (boot (-1) []) (3 : Nat) (1 : Nat)
      [⟨'A', 3⟩, ⟨'B', 2⟩, ⟨'A', 0⟩]).toOption.isSome = true := by decide
  obtain ⟨st, hst⟩ := ok_of_isSome hsome
  obtain ⟨root, hroot⟩ := tree_canonical header_small hst
  exact ⟨st, root, hst, hroot⟩

end BuddyTree
