import OsLab.BuddySurgeryProofs
import OsLab.DyadicProofs

/-! # Where a node lies

    Following child pointers from the root along a path of turns reaches a
    node (`nodeAt`), and the path says which bytes of `[0, 2^U)` the node
    stands for.  Under the shape invariant every node has exactly one path
    (`nodeAt_unique`, `Shape.placed`), its size is the width of the path's
    block (`Shape.size_at`), and the leaves read from left to right tile the
    whole range (`leavesFrom_tiles`).

    Neither splitting nor merging moves a node that survives
    (`nodeAt_grow`, `nodeAt_shrink`). -/

namespace BuddyPlacement

open OsHeap OsDyadic BuddyModel BuddyInvariant BuddySurgery

/-- The child pointer on a side. -/
def kid : Side → BSTree → Ptr
  | .left, n => n.left
  | .right, n => n.right

/-- The node reached from `a` along a path. -/
def nodeAt (look : Look) : Addr → Path → Ptr
  | a, [] => some a
  | a, d :: p =>
      match look a with
      | none => none
      | some n =>
          match kid d n with
          | none => none
          | some c => nodeAt look c p

section Paths

variable {look look' : Look} {root : Addr} {U L : Nat}

theorem nodeAt_cons {a c : Addr} {d : Side} {p : Path} :
    nodeAt look a (d :: p) = some c ↔
      ∃ n b, look a = some n ∧ kid d n = some b ∧ nodeAt look b p = some c := by
  cases hn : look a with
  | none => simp [nodeAt, hn]
  | some n =>
      cases hk : kid d n with
      | none => simp [nodeAt, hn, hk]
      | some b => simp [nodeAt, hn, hk]

theorem nodeAt_append {a c : Addr} {p q : Path} :
    nodeAt look a (p ++ q) = some c ↔
      ∃ b, nodeAt look a p = some b ∧ nodeAt look b q = some c := by
  induction p generalizing a with
  | nil => simp [nodeAt]
  | cons d p ih =>
      rw [List.cons_append, nodeAt_cons]
      constructor
      · rintro ⟨n, b, h1, h2, h3⟩
        obtain ⟨b', h4, h5⟩ := ih.mp h3
        exact ⟨b', nodeAt_cons.mpr ⟨n, b, h1, h2, h4⟩, h5⟩
      · rintro ⟨b', h4, h5⟩
        obtain ⟨n, b, h1, h2, h3⟩ := nodeAt_cons.mp h4
        exact ⟨n, b, h1, h2, ih.mpr ⟨b', h3, h5⟩⟩

theorem nodeAt_snoc {a c : Addr} {p : Path} {d : Side} :
    nodeAt look a (p ++ [d]) = some c ↔
      ∃ b n, nodeAt look a p = some b ∧ look b = some n ∧ kid d n = some c := by
  rw [nodeAt_append]
  constructor
  · rintro ⟨b, h1, h2⟩
    obtain ⟨n, c', h3, h4, h5⟩ := nodeAt_cons.mp h2
    cases h5
    exact ⟨b, n, h1, h3, h4⟩
  · rintro ⟨b, n, h1, h2, h3⟩
    exact ⟨b, h1, nodeAt_cons.mpr ⟨n, c, h2, h3, rfl⟩⟩

/-- The side a child is on. -/
theorem Linked.kid {a l r c : Addr} {n nl nr : BSTree} {d : Side}
    (h : Linked look a n l r nl nr) (hc : BuddyPlacement.kid d n = some c) :
    (d = .left ∧ c = l) ∨ (d = .right ∧ c = r) := by
  cases d with
  | left => exact Or.inl ⟨rfl, Option.some.inj (hc.symm.trans h.left)⟩
  | right => exact Or.inr ⟨rfl, Option.some.inj (hc.symm.trans h.right)⟩

/-- A node with a child is properly linked. -/
theorem Shape.linked_of_kid (hs : Shape look root U L) {a c : Addr} {n : BSTree} {d : Side}
    (hn : look a = some n) (hc : kid d n = some c) :
    ∃ l r nl nr, Linked look a n l r nl nr := by
  refine hs.linked hn (fun hl => ?_)
  cases d with
  | left => exact nomatch hl.1.symm.trans hc
  | right => exact nomatch hl.2.symm.trans hc

/-- A child is a live node of half the size that points back. -/
theorem Shape.at_kid (hs : Shape look root U L) {a c : Addr} {n : BSTree} {d : Side}
    (hn : look a = some n) (hc : kid d n = some c) :
    ∃ m, look c = some m ∧ m.parent = some a ∧ n.size = 2 * m.size := by
  obtain ⟨l, r, nl, nr, hlk⟩ := Shape.linked_of_kid hs hn hc
  rcases Linked.kid hlk hc with ⟨-, rfl⟩ | ⟨-, rfl⟩
  · exact ⟨nl, hlk.atLeft, hlk.upLeft, hlk.halfLeft⟩
  · exact ⟨nr, hlk.atRight, hlk.upRight, hlk.halfRight⟩

/-- A path from the root leads to a live node. -/
theorem Shape.live (hs : Shape look root U L) {p : Path} {a : Addr}
    (h : nodeAt look root p = some a) : ∃ n, look a = some n := by
  induction p using List.reverseRecOn generalizing a with
  | nil =>
      cases h
      obtain ⟨n, hn, -⟩ := hs.top
      exact ⟨n, hn⟩
  | append_singleton p d ih =>
      obtain ⟨b, n, -, hb, hc⟩ := nodeAt_snoc.mp h
      obtain ⟨m, hm, -⟩ := Shape.at_kid hs hb hc
      exact ⟨m, hm⟩

/-- **ONE PATH TO EACH NODE.** -/
theorem nodeAt_unique (hs : Shape look root U L) {p q : Path} {a : Addr}
    (hp : nodeAt look root p = some a) (hq : nodeAt look root q = some a) : p = q := by
  induction p using List.reverseRecOn generalizing q a with
  | nil =>
      cases hp
      cases q using List.reverseRecOn with
      | nil => rfl
      | append_singleton q e =>
          obtain ⟨b, n, -, hb, hc⟩ := nodeAt_snoc.mp hq
          obtain ⟨m, hm, hpar, -⟩ := Shape.at_kid hs hb hc
          rw [hs.rootParent hm] at hpar
          exact nomatch hpar
  | append_singleton p d ih =>
      obtain ⟨b, n, hb, hn, hc⟩ := nodeAt_snoc.mp hp
      obtain ⟨m, hm, hpar, -⟩ := Shape.at_kid hs hn hc
      cases q using List.reverseRecOn with
      | nil =>
          cases hq
          rw [hs.rootParent hm] at hpar
          exact nomatch hpar
      | append_singleton q e =>
          obtain ⟨b', n', hb', hn', hc'⟩ := nodeAt_snoc.mp hq
          obtain ⟨m', hm', hpar', -⟩ := Shape.at_kid hs hn' hc'
          have hmm : m = m' := Option.some.inj (hm.symm.trans hm')
          have hbb : b = b' := by
            rw [← hmm, hpar] at hpar'
            exact Option.some.inj hpar'
          subst hbb
          have hnn : n = n' := Option.some.inj (hn.symm.trans hn')
          subst hnn
          have hde : d = e := by
            obtain ⟨l, r, nl, nr, hlk⟩ := Shape.linked_of_kid hs hn hc
            rcases Linked.kid hlk hc with ⟨rfl, rfl⟩ | ⟨rfl, rfl⟩
            · rcases Linked.kid hlk hc' with ⟨rfl, -⟩ | ⟨-, h'⟩
              · rfl
              · exact absurd h' hlk.ne
            · rcases Linked.kid hlk hc' with ⟨-, h'⟩ | ⟨rfl, -⟩
              · exact absurd h'.symm hlk.ne
              · rfl
          rw [ih hb hb', hde]

/-- A node at depth `d` has size `2^(U-d)`. -/
theorem Shape.size_at (hs : Shape look root U L) {p : Path} {a : Addr} {n : BSTree}
    (h : nodeAt look root p = some a) (hn : look a = some n) :
    p.length ≤ U ∧ n.size = 2 ^ (U - p.length) := by
  induction p using List.reverseRecOn generalizing a n with
  | nil =>
      cases h
      obtain ⟨m, hm, -, hsz⟩ := hs.top
      rw [Option.some.inj (hn.symm.trans hm)]
      exact ⟨Nat.zero_le _, hsz⟩
  | append_singleton p d ih =>
      obtain ⟨b, m, hb, hm, hc⟩ := nodeAt_snoc.mp h
      obtain ⟨hle, hsz⟩ := ih hb hm
      obtain ⟨n', hn', -, hhalf⟩ := Shape.at_kid hs hm hc
      rw [Option.some.inj (hn'.symm.trans hn)] at hhalf
      have hpos := hs.size_pos hn
      have hlt : p.length < U := by
        rcases Nat.lt_or_ge p.length U with h' | h'
        · exact h'
        · rw [Nat.sub_eq_zero_of_le h', pow_zero] at hsz
          omega
      refine ⟨by rw [List.length_append]; exact hlt, ?_⟩
      have he : U - p.length = U - (p ++ [d]).length + 1 := by
        rw [List.length_append, List.length_cons, List.length_nil]
        omega
      rw [he, pow_succ] at hsz
      omega

/-- **EVERY NODE IS PLACED**: some path leads to it. -/
theorem Shape.placed (hs : Shape look root U L) {a : Addr} {n : BSTree}
    (hn : look a = some n) : ∃ p, nodeAt look root p = some a := by
  obtain ⟨k, -, hkU, hk⟩ := hs.pow hn
  obtain ⟨j, hj⟩ : ∃ j, j = U - k := ⟨_, rfl⟩
  induction j generalizing a n k with
  | zero =>
      by_cases har : a = root
      · exact ⟨[], by rw [har]; rfl⟩
      · -- a parent would be larger than the root
        exfalso
        obtain ⟨p, np, l, r, nl, nr, -, hp, hlk, hor⟩ := hs.child hn har
        obtain ⟨kp, -, hkp, hsz⟩ := hs.pow hp
        have hhalf : np.size = 2 * n.size := by
          rcases hor with rfl | rfl
          · rw [Option.some.inj (hn.symm.trans hlk.atLeft)]; exact hlk.halfLeft
          · rw [Option.some.inj (hn.symm.trans hlk.atRight)]; exact hlk.halfRight
        have hle : (2 ^ kp : Int) ≤ 2 ^ k := pow_le_pow_right₀ (by decide) (by omega)
        have hpos : (0 : Int) < 2 ^ k := by positivity
        omega
  | succ j ih =>
      by_cases har : a = root
      · exact ⟨[], by rw [har]; rfl⟩
      · obtain ⟨p, np, l, r, nl, nr, -, hp, hlk, hor⟩ := hs.child hn har
        have hhalf : np.size = 2 * n.size ∧ ∃ d, kid d np = some a := by
          rcases hor with rfl | rfl
          · rw [Option.some.inj (hn.symm.trans hlk.atLeft)]
            exact ⟨hlk.halfLeft, .left, hlk.left⟩
          · rw [Option.some.inj (hn.symm.trans hlk.atRight)]
            exact ⟨hlk.halfRight, .right, hlk.right⟩
        obtain ⟨hsz, d, hd⟩ := hhalf
        have hsz' : np.size = 2 ^ (k + 1) := by rw [hsz, hk, pow_succ, mul_comm]
        obtain ⟨q, hq⟩ := ih hp (k + 1) (by omega) hsz' (by omega)
        exact ⟨q ++ [d], nodeAt_snoc.mpr ⟨p, np, hq, hp, hd⟩⟩

/-- Only the root is a node when the root is a leaf. -/
theorem Shape.only_root (hs : Shape look root U L) {a : Addr} {n m : BSTree}
    (hr : look root = some m) (hleaf : IsLeaf m) (hn : look a = some n) : a = root := by
  obtain ⟨p, hp⟩ := Shape.placed hs hn
  cases p with
  | nil => exact (Option.some.inj hp).symm
  | cons d p =>
      obtain ⟨m', b, hm', hk, -⟩ := nodeAt_cons.mp hp
      rw [← Option.some.inj (hr.symm.trans hm')] at hk
      cases d with
      | left => exact nomatch hleaf.1.symm.trans hk
      | right => exact nomatch hleaf.2.symm.trans hk

end Paths

/-! ## Paths under surgery -/

section Surgery

variable {small big : Look} {root : Addr} {U L : Nat} {a l r : Addr}
variable {n n' nl nr : BSTree}

/-- Growing the tree moves no node. -/
theorem nodeAt_grow (h : Branches small big a l r n n' nl nr) {p : Path} {b : Addr}
    (hp : nodeAt small root p = some b) : nodeAt big root p = some b := by
  induction p using List.reverseRecOn generalizing b with
  | nil => exact hp
  | append_singleton p d ih =>
      obtain ⟨c, m, hc, hm, hk⟩ := nodeAt_snoc.mp hp
      have hca : c ≠ a := by
        rintro rfl
        rw [← Option.some.inj (h.leafAt.symm.trans hm)] at hk
        cases d with
        | left => exact nomatch h.leaf.1.symm.trans hk
        | right => exact nomatch h.leaf.2.symm.trans hk
      obtain ⟨m', hm', -, -, hsame⟩ := h.carry hm
      rw [hsame hca] at hm'
      exact nodeAt_snoc.mpr ⟨c, m, ih hc, hm', hk⟩

/-- Shrinking the tree moves no node that survives. -/
theorem nodeAt_shrink (h : Branches small big a l r n n' nl nr) {p : Path} {b : Addr}
    (hp : nodeAt big root p = some b) (hbl : b ≠ l) (hbr : b ≠ r) :
    nodeAt small root p = some b := by
  induction p using List.reverseRecOn generalizing b with
  | nil => exact hp
  | append_singleton p d ih =>
      obtain ⟨c, m, hc, hm, hk⟩ := nodeAt_snoc.mp hp
      have hnk : ∀ {x : BSTree}, IsLeaf x → kid d x ≠ some b := by
        intro x hx he
        cases d with
        | left => exact nomatch hx.1.symm.trans he
        | right => exact nomatch hx.2.symm.trans he
      rcases h.cases hm with ⟨rfl, rfl⟩ | ⟨rfl, rfl⟩ | ⟨rfl, rfl⟩ | ⟨-, hcl, hcr, hsm⟩
      · rcases Linked.kid h.linked hk with ⟨-, rfl⟩ | ⟨-, rfl⟩
        · exact absurd rfl hbl
        · exact absurd rfl hbr
      · exact absurd hk (hnk h.leafLeft)
      · exact absurd hk (hnk h.leafRight)
      · exact nodeAt_snoc.mpr ⟨c, m, ih hc hcl hcr, hsm, hk⟩

/-- Relabelling a node moves nothing. -/
theorem nodeAt_relabel {look look' : Look} {n n' : BSTree}
    (h : Relabels look look' a n n') {p : Path} {b c : Addr} :
    nodeAt look c p = some b ↔ nodeAt look' c p = some b := by
  have one : ∀ {lk lk' : Look} {m m' : BSTree}, Relabels lk lk' a m m' →
      ∀ {q : Path} {x y : Addr}, nodeAt lk x q = some y → nodeAt lk' x q = some y := by
    intro lk lk' m m' hrel q
    induction q with
    | nil => intro x y hq; exact hq
    | cons d q ih =>
        intro x y hq
        obtain ⟨k, z, hk, hz, hrest⟩ := nodeAt_cons.mp hq
        obtain ⟨k', hk', e1, e2, -, -⟩ := hrel.carry hk
        refine nodeAt_cons.mpr ⟨k', z, hk', ?_, ih hrest⟩
        cases d with
        | left => exact e1.trans hz
        | right => exact e2.trans hz
  exact ⟨one h, one h.symm⟩

end Surgery

/-! ## Leaves from left to right -/

/-- The leaves below a node with their paths, in the order `print_status`
    prints them. -/
def leavesFrom (look : Look) : Nat → Path → Addr → List (Path × Addr)
  | 0, _, _ => []
  | f + 1, p, a =>
      match look a with
      | none => []
      | some n =>
          match n.left, n.right with
          | some l, some r =>
              leavesFrom look f (p ++ [.left]) l ++ leavesFrom look f (p ++ [.right]) r
          | _, _ => [(p, a)]

section Leaves

variable {look : Look} {root : Addr} {U L : Nat}

theorem leavesFrom_leaf {f : Nat} {p : Path} {a : Addr} {n : BSTree}
    (hn : look a = some n) (hleaf : IsLeaf n) : leavesFrom look (f + 1) p a = [(p, a)] := by
  rw [leavesFrom, hn]
  simp only [hleaf.1]

theorem leavesFrom_linked {f : Nat} {p : Path} {a l r : Addr} {n nl nr : BSTree}
    (hn : look a = some n) (hlk : Linked look a n l r nl nr) :
    leavesFrom look (f + 1) p a =
      leavesFrom look f (p ++ [.left]) l ++ leavesFrom look f (p ++ [.right]) r := by
  rw [leavesFrom, hn]
  simp only [hlk.left, hlk.right]

/-- The children of an inner node are one step further down. -/
theorem linked_places (hs : Shape look root U L) {p : Path} {a l r : Addr} {n nl nr : BSTree}
    (hp : nodeAt look root p = some a) (hn : look a = some n)
    (hlk : Linked look a n l r nl nr) :
    nodeAt look root (p ++ [.left]) = some l ∧ nodeAt look root (p ++ [.right]) = some r ∧
      p.length < U := by
  have hl : nodeAt look root (p ++ [.left]) = some l := nodeAt_snoc.mpr ⟨a, n, hp, hn, hlk.left⟩
  refine ⟨hl, nodeAt_snoc.mpr ⟨a, n, hp, hn, hlk.right⟩, ?_⟩
  have hlen := (Shape.size_at hs hl hlk.atLeft).1
  rw [List.length_append] at hlen
  exact hlen

/-- There is no node further down from a leaf. -/
theorem leaf_end {p s : Path} {a b : Addr} {n : BSTree} (hp : nodeAt look root p = some a)
    (hn : look a = some n) (hleaf : IsLeaf n) (hq : nodeAt look root (p ++ s) = some b) :
    s = [] := by
  cases s with
  | nil => rfl
  | cons d s =>
      obtain ⟨a', h1, h2⟩ := nodeAt_append.mp hq
      rw [← Option.some.inj (hp.symm.trans h1)] at h2
      obtain ⟨n', c, hn', hk, -⟩ := nodeAt_cons.mp h2
      rw [← Option.some.inj (hn.symm.trans hn')] at hk
      cases d with
      | left => exact nomatch hleaf.1.symm.trans hk
      | right => exact nomatch hleaf.2.symm.trans hk

/-- **THE LEAVES TILE** the block of the node they are below. -/
theorem leavesFrom_tiles (hs : Shape look root U L) {f : Nat} :
    ∀ {p : Path} {a : Addr}, nodeAt look root p = some a → U - p.length < f →
      Tiles U (offset U p) ((leavesFrom look f p a).map Prod.fst)
        (offset U p + width U p) := by
  induction f with
  | zero => intro p a _ hf; exact absurd hf (Nat.not_lt_zero _)
  | succ f ih =>
      intro p a hp hf
      obtain ⟨n, hn⟩ := Shape.live hs hp
      rcases hs.kids hn with hleaf | ⟨l, r, nl, nr, hlk⟩
      · rw [leavesFrom_leaf hn hleaf]
        exact tiles_single U p
      · obtain ⟨hl, hr, hlen⟩ := linked_places hs hp hn hlk
        have hlen' : ∀ d : Side, U - (p ++ [d]).length < f := by
          intro d
          rw [List.length_append, List.length_cons, List.length_nil]
          omega
        obtain ⟨h1, h2, h3⟩ := halves hlen
        have t1 := ih hl (hlen' _)
        have t2 := ih hr (hlen' _)
        rw [h1, ← h1, h2] at t1
        rw [h3] at t2
        rw [leavesFrom_linked hn hlk, List.map_append]
        rw [h1] at t1
        exact t1.append t2

/-- The list of leaves below a node holds the leaves below it. -/
theorem mem_leavesFrom (hs : Shape look root U L) {f : Nat} :
    ∀ {p : Path} {a : Addr}, nodeAt look root p = some a → U - p.length < f →
      ∀ {q : Path} {b : Addr}, (q, b) ∈ leavesFrom look f p a ↔
        p <+: q ∧ nodeAt look root q = some b ∧ ∃ m, look b = some m ∧ IsLeaf m := by
  induction f with
  | zero => intro p a _ hf; exact absurd hf (Nat.not_lt_zero _)
  | succ f ih =>
      intro p a hp hf q b
      obtain ⟨n, hn⟩ := Shape.live hs hp
      rcases hs.kids hn with hleaf | ⟨l, r, nl, nr, hlk⟩
      · rw [leavesFrom_leaf hn hleaf, List.mem_singleton]
        constructor
        · intro he
          obtain ⟨rfl, rfl⟩ := Prod.mk.inj he
          exact ⟨List.prefix_refl _, hp, n, hn, hleaf⟩
        · rintro ⟨⟨s, rfl⟩, hq, -⟩
          obtain rfl := leaf_end hp hn hleaf hq
          rw [List.append_nil] at hq ⊢
          rw [Option.some.inj (hp.symm.trans hq)]
      · obtain ⟨hl, hr, hlen⟩ := linked_places hs hp hn hlk
        have hlen' : ∀ d : Side, U - (p ++ [d]).length < f := by
          intro d
          rw [List.length_append, List.length_cons, List.length_nil]
          omega
        rw [leavesFrom_linked hn hlk, List.mem_append, ih hl (hlen' _), ih hr (hlen' _)]
        constructor
        · rintro (⟨hpre, hrest⟩ | ⟨hpre, hrest⟩)
          · exact ⟨(List.prefix_append _ _).trans hpre, hrest⟩
          · exact ⟨(List.prefix_append _ _).trans hpre, hrest⟩
        · rintro ⟨⟨s, rfl⟩, hq, m, hm, hml⟩
          cases s with
          | nil =>
              rw [List.append_nil] at hq
              rw [← Option.some.inj (hp.symm.trans hq), hn] at hm
              rw [← Option.some.inj hm] at hml
              exact absurd hml hlk.notLeaf
          | cons d s =>
              have hsplit : p ++ d :: s = (p ++ [d]) ++ s := by rw [List.append_assoc]; rfl
              have hpre : p ++ [d] <+: p ++ d :: s := hsplit ▸ List.prefix_append _ _
              cases d with
              | left => exact Or.inl ⟨hpre, hq, m, hm, hml⟩
              | right => exact Or.inr ⟨hpre, hq, m, hm, hml⟩

end Leaves

end BuddyPlacement
