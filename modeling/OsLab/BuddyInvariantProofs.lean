import OsLab.BuddyModelProofs

/-! # The invariant of the buddy allocator

    The invariant is stated over what the heap answers at each address
    (`Look`), so that it speaks about pointers and not about the order in
    which records are stored:

    * `Shape`: the nodes form a full binary tree by their child and parent
      pointers, and sizes halve from `2^U` down to at least `2^L`;
    * `Flags`: `is_used` is set on interior nodes and on leaves that hold a
      process, and no two siblings are both unset;
    * `Lists`: the free lists hold free leaves of their size, each once, and
      every free leaf but the root;
    * `Running`: the running table points at leaves that hold the process.

    Between the turns of the two loops one leaf is out of step with its flag
    and its list: the leaf being split or being merged upwards.  It is the
    `hole`, and the invariant exempts it. -/

namespace BuddyInvariant

open OsHeap OsLoop BuddyModel

/-- What the heap holds at an address. -/
abbrev Look := Addr → Option BSTree

/-- A node without children. -/
def IsLeaf (n : BSTree) : Prop := n.left = none ∧ n.right = none

instance (n : BSTree) : Decidable (IsLeaf n) :=
  inferInstanceAs (Decidable (_ ∧ _))

/-- The children `l`, `r` of node `a` and how they are linked. -/
structure Linked (look : Look) (a : Addr) (n : BSTree) (l r : Addr)
    (nl nr : BSTree) : Prop where
  left : n.left = some l
  right : n.right = some r
  ne : l ≠ r
  atLeft : look l = some nl
  atRight : look r = some nr
  upLeft : nl.parent = some a
  upRight : nr.parent = some a
  halfLeft : n.size = 2 * nl.size
  halfRight : n.size = 2 * nr.size

/-- The nodes form a full binary tree whose sizes halve. -/
structure Shape (look : Look) (root : Addr) (U L : Nat) : Prop where
  top : ∃ n, look root = some n ∧ n.parent = none ∧ n.size = 2 ^ U
  kids : ∀ {a n}, look a = some n →
    IsLeaf n ∨ ∃ l r nl nr, Linked look a n l r nl nr
  up : ∀ {a n}, look a = some n → a ≠ root →
    ∃ p np, n.parent = some p ∧ look p = some np ∧
      (np.left = some a ∨ np.right = some a)
  pow : ∀ {a n}, look a = some n → ∃ k, L ≤ k ∧ k ≤ U ∧ n.size = 2 ^ k

/-- `s` is the smallest power of two from `2^L` on that holds `b` bytes. -/
def Fits (L : Nat) (s b : Int) : Prop :=
  ∃ k, L ≤ k ∧ s = 2 ^ k ∧ b ≤ 2 ^ k ∧ ∀ j, L ≤ j → b ≤ 2 ^ j → k ≤ j

/-- A leaf that holds the bytes of a process. -/
def Allocated (n : BSTree) : Prop := IsLeaf n ∧ n.bytesOccupied ≠ 0

/-- A leaf that is not in use. -/
def FreeLeaf (n : BSTree) : Prop := IsLeaf n ∧ n.isUsed = 0

instance (n : BSTree) : Decidable (Allocated n) :=
  inferInstanceAs (Decidable (_ ∧ _))

instance (n : BSTree) : Decidable (FreeLeaf n) :=
  inferInstanceAs (Decidable (_ ∧ _))

/-- A child that keeps its sibling from being merged. -/
def Busy (look : Look) (hole : Ptr) (c : Addr) : Prop :=
  hole = some c ∨ ∃ m, look c = some m ∧ m.isUsed = 1

/-- The flags tell interior nodes and allocated leaves from free leaves. -/
structure Flags (look : Look) (L : Nat) (hole : Ptr) : Prop where
  interior : ∀ {a n}, look a = some n → ¬ IsLeaf n → n.isUsed = 1
  busy : ∀ {a n l r}, look a = some n → n.left = some l → n.right = some r →
    Busy look hole l ∨ Busy look hole r
  leaf : ∀ {a n}, look a = some n → IsLeaf n → hole ≠ some a →
    (n.isUsed = 0 ∧ n.bytesOccupied = 0) ∨
    (n.isUsed = 1 ∧ n.bytesOccupied ≠ 0 ∧ Fits L n.size n.bytesOccupied)
  hole : ∀ {a}, hole = some a → ∃ n, look a = some n ∧ IsLeaf n

/-- The free lists hold the free leaves. -/
structure Lists (look : Look) (root : Addr) (fl : Int → List Addr) (hole : Ptr) :
    Prop where
  sound : ∀ {s a}, a ∈ fl s →
    hole ≠ some a ∧ ∃ n, look a = some n ∧ FreeLeaf n ∧ n.size = s
  complete : ∀ {a n}, look a = some n → FreeLeaf n → hole ≠ some a → a ≠ root →
    a ∈ fl n.size
  nodup : ∀ s, (fl s).Nodup

/-- The running table points at the leaves its processes occupy. -/
def Running (look : Look) (rr : Char → Option Ptr) (hole : Ptr) : Prop :=
  ∀ {P p}, rr P = some p → ∃ a n, p = some a ∧ look a = some n ∧
    hole ≠ some a ∧ IsLeaf n ∧ n.isUsed = 1 ∧ n.pname = P

/-- The invariant of the heap, the lists and the table, with a hole. -/
structure Inv (look : Look) (root : Addr) (U L : Nat) (fl : Int → List Addr)
    (rr : Char → Option Ptr) (hole : Ptr) : Prop where
  shape : Shape look root U L
  flags : Flags look L hole
  lists : Lists look root fl hole
  running : Running look rr hole

/-! ## Reading the shape -/

section Shape

variable {look : Look} {root : Addr} {U L : Nat}

theorem Linked.notLeaf {a l r : Addr} {n nl nr : BSTree}
    (h : Linked look a n l r nl nr) : ¬ IsLeaf n := by
  intro hl
  exact nomatch hl.1.symm.trans h.left

/-- A child points back at its parent. -/
theorem Linked.up {a l r c : Addr} {n nl nr m : BSTree} (h : Linked look a n l r nl nr)
    (hc : c = l ∨ c = r) (hm : look c = some m) : m.parent = some a := by
  rcases hc with rfl | rfl
  · rw [Option.some.inj (hm.symm.trans h.atLeft)]
    exact h.upLeft
  · rw [Option.some.inj (hm.symm.trans h.atRight)]
    exact h.upRight

/-- A parent keeps its children where they keep their parent and size. -/
theorem Linked.move {look' : Look} {a l r : Addr} {n nl nr nl' nr' : BSTree}
    (h : Linked look a n l r nl nr)
    (hl : look' l = some nl' ∧ nl'.parent = nl.parent ∧ nl'.size = nl.size)
    (hr : look' r = some nr' ∧ nr'.parent = nr.parent ∧ nr'.size = nr.size) :
    Linked look' a n l r nl' nr' where
  left := h.left
  right := h.right
  ne := h.ne
  atLeft := hl.1
  atRight := hr.1
  upLeft := hl.2.1.trans h.upLeft
  upRight := hr.2.1.trans h.upRight
  halfLeft := by rw [hl.2.2]; exact h.halfLeft
  halfRight := by rw [hr.2.2]; exact h.halfRight

/-- The root has no parent. -/
theorem Shape.rootParent (h : Shape look root U L) {n : BSTree}
    (hn : look root = some n) : n.parent = none := by
  obtain ⟨m, hm, hp, -⟩ := h.top
  rw [hn] at hm
  cases hm
  exact hp

/-- A node with a parent is not the root. -/
theorem Shape.ne_root (h : Shape look root U L) {a p : Addr} {n : BSTree}
    (hn : look a = some n) (hp : n.parent = some p) : a ≠ root := by
  rintro rfl
  rw [h.rootParent hn] at hp
  exact nomatch hp

/-- A node with a child has two, properly linked. -/
theorem Shape.linked (h : Shape look root U L) {a : Addr} {n : BSTree}
    (hn : look a = some n) (hl : ¬ IsLeaf n) :
    ∃ l r nl nr, Linked look a n l r nl nr :=
  (h.kids hn).resolve_left hl

/-- The parent of a node, with both its children. -/
theorem Shape.parent (h : Shape look root U L) {a p : Addr} {n np : BSTree}
    (hn : look a = some n) (ha : n.parent = some p) (hp : look p = some np) :
    ∃ l r nl nr, Linked look p np l r nl nr ∧ (a = l ∨ a = r) := by
  obtain ⟨q, nq, hq, hlq, hor⟩ := h.up hn (h.ne_root hn ha)
  rw [ha] at hq
  cases hq
  rw [hp] at hlq
  cases hlq
  have hnl : ¬ IsLeaf np := by
    rintro ⟨h1, h2⟩
    rw [h1, h2] at hor
    rcases hor with h' | h' <;> exact nomatch h'
  obtain ⟨l, r, nl, nr, hlk⟩ := h.linked hp hnl
  refine ⟨l, r, nl, nr, hlk, ?_⟩
  rw [hlk.left, hlk.right] at hor
  rcases hor with h' | h' <;> cases h' <;> simp

/-- Every node but the root is a child of a node. -/
theorem Shape.child (h : Shape look root U L) {a : Addr} {n : BSTree}
    (hn : look a = some n) (ha : a ≠ root) :
    ∃ p np l r nl nr, n.parent = some p ∧ look p = some np ∧
      Linked look p np l r nl nr ∧ (a = l ∨ a = r) := by
  obtain ⟨p, np, hp, hlp, -⟩ := h.up hn ha
  obtain ⟨l, r, nl, nr, hlk, hor⟩ := h.parent hn hp hlp
  exact ⟨p, np, l, r, nl, nr, hp, hlp, hlk, hor⟩

theorem Shape.size_pos (h : Shape look root U L) {a : Addr} {n : BSTree}
    (hn : look a = some n) : 0 < n.size := by
  obtain ⟨k, -, -, hk⟩ := h.pow hn
  rw [hk]
  positivity

end Shape

/-! ## Relabelling a node -/

/-- `look'` is `look` with the record of `a` changed, links and size kept. -/
structure Relabels (look look' : Look) (a : Addr) (n n' : BSTree) : Prop where
  before : look a = some n
  after : look' a = some n'
  left : n'.left = n.left
  right : n'.right = n.right
  parent : n'.parent = n.parent
  size : n'.size = n.size
  other : ∀ b, b ≠ a → look' b = look b

section Relabel

variable {look look' : Look} {root : Addr} {U L : Nat} {a : Addr} {n n' : BSTree}

theorem Relabels.symm (h : Relabels look look' a n n') : Relabels look' look a n' n where
  before := h.after
  after := h.before
  left := h.left.symm
  right := h.right.symm
  parent := h.parent.symm
  size := h.size.symm
  other := fun b hb => (h.other b hb).symm

/-- Every record keeps its links under a relabelling. -/
theorem Relabels.carry (h : Relabels look look' a n n') {b : Addr} {m : BSTree}
    (hb : look b = some m) :
    ∃ m', look' b = some m' ∧ m'.left = m.left ∧ m'.right = m.right ∧
      m'.parent = m.parent ∧ m'.size = m.size := by
  by_cases hba : b = a
  · subst hba
    have hm : n = m := Option.some.inj (h.before.symm.trans hb)
    subst hm
    exact ⟨n', h.after, h.left, h.right, h.parent, h.size⟩
  · exact ⟨m, by rw [h.other b hba]; exact hb, rfl, rfl, rfl, rfl⟩

theorem Relabels.isLeaf (h : Relabels look look' a n n') : IsLeaf n' ↔ IsLeaf n := by
  rw [IsLeaf, IsLeaf, h.left, h.right]

theorem Relabels.linked (h : Relabels look look' a n n') {b l r : Addr}
    {m m' nl nr : BSTree} (hl : m'.left = m.left) (hr : m'.right = m.right)
    (hs : m'.size = m.size) (hlk : Linked look b m l r nl nr) :
    ∃ nl' nr', Linked look' b m' l r nl' nr' := by
  obtain ⟨nl', l0, -, -, l3, l4⟩ := h.carry hlk.atLeft
  obtain ⟨nr', r0, -, -, r3, r4⟩ := h.carry hlk.atRight
  exact ⟨nl', nr', {
    left := hl.trans hlk.left
    right := hr.trans hlk.right
    ne := hlk.ne
    atLeft := l0
    atRight := r0
    upLeft := l3.trans hlk.upLeft
    upRight := r3.trans hlk.upRight
    halfLeft := by rw [hs, l4]; exact hlk.halfLeft
    halfRight := by rw [hs, r4]; exact hlk.halfRight }⟩

theorem Shape.relabel (hs : Shape look root U L) (h : Relabels look look' a n n') :
    Shape look' root U L where
  top := by
    obtain ⟨m, hm, hp, hsz⟩ := hs.top
    obtain ⟨m', hm', -, -, e3, e4⟩ := h.carry hm
    exact ⟨m', hm', e3.trans hp, e4.trans hsz⟩
  kids := by
    intro b m' hb
    obtain ⟨m, hm, e1, e2, -, e4⟩ := h.symm.carry hb
    rcases hs.kids hm with hleaf | ⟨l, r, nl, nr, hlk⟩
    · exact Or.inl ⟨e1.symm.trans hleaf.1, e2.symm.trans hleaf.2⟩
    · obtain ⟨nl', nr', hlk'⟩ := h.linked e1.symm e2.symm e4.symm hlk
      exact Or.inr ⟨l, r, nl', nr', hlk'⟩
  up := by
    intro b m' hb hne
    obtain ⟨m, hm, -, -, e3, -⟩ := h.symm.carry hb
    obtain ⟨p, np, hp, hlp, hor⟩ := hs.up hm hne
    obtain ⟨np', hp', p1, p2, -, -⟩ := h.carry hlp
    exact ⟨p, np', e3.symm.trans hp, hp', by rw [p1, p2]; exact hor⟩
  pow := by
    intro b m' hb
    obtain ⟨m, hm, -, -, -, e4⟩ := h.symm.carry hb
    rw [← e4]
    exact hs.pow hm

/-- A child that is busy stays so when its record is not touched, and when it
    is marked used. -/
theorem Relabels.busy (h : Relabels look look' a n n') {hole hole' : Ptr} {c : Addr}
    (hb : Busy look hole c) (ha : c = a → Busy look' hole' c)
    (hh : c ≠ a → hole ≠ some c) : Busy look' hole' c := by
  by_cases hca : c = a
  · exact ha hca
  · rcases hb with hb | ⟨m, hm, hu⟩
    · exact absurd hb (hh hca)
    · exact Or.inr ⟨m, by rw [h.other c hca]; exact hm, hu⟩

end Relabel

end BuddyInvariant
