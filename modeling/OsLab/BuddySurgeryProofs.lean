import OsLab.BuddyInvariantProofs

/-! # Surgery on the tree

    Splitting a leaf and merging two leaves are one picture read in two
    directions: `Branches small big` says that `big` is `small` with the leaf
    `a` turned into a parent of two new leaves.  `Inv.grow` carries the
    invariant from the small tree to the big one and `Inv.shrink` carries it
    back.  In both the hole sits at the leaf the code is working on: it moves
    to the left child when the leaf is split, and from a child to the parent
    when the children are merged.

    The hole is made when a block is taken from a list (`Inv.take`) or a
    process ends (`Inv.open`), and filled when the block is handed out
    (`Inv.fill`) or left free (`Inv.vacate`). -/

namespace BuddySurgery

open OsHeap OsLoop BuddyModel BuddyInvariant

/-- `big` is `small` with leaf `a` turned into a parent of leaves `l`, `r`. -/
structure Branches (small big : Look) (a l r : Addr) (n n' nl nr : BSTree) : Prop where
  leafAt : small a = some n
  leaf : IsLeaf n
  noLeft : small l = none
  noRight : small r = none
  nodeAt : big a = some n'
  linked : Linked big a n' l r nl nr
  leafLeft : IsLeaf nl
  leafRight : IsLeaf nr
  parent : n'.parent = n.parent
  size : n'.size = n.size
  other : ∀ b, b ≠ a → b ≠ l → b ≠ r → big b = small b

section Branches

variable {small big : Look} {root : Addr} {U L : Nat} {a l r : Addr}
variable {n n' nl nr : BSTree}

/-- A node of the small tree is not one of the two leaves. -/
theorem Branches.apart (h : Branches small big a l r n n' nl nr) {b : Addr} {m : BSTree}
    (hb : small b = some m) : b ≠ l ∧ b ≠ r := by
  constructor
  · intro hbl; exact nomatch (hbl ▸ hb).symm.trans h.noLeft
  · intro hbr; exact nomatch (hbr ▸ hb).symm.trans h.noRight

/-- The nodes of the big tree, one by one. -/
theorem Branches.cases (h : Branches small big a l r n n' nl nr) {b : Addr} {m : BSTree}
    (hb : big b = some m) :
    (b = a ∧ m = n') ∨ (b = l ∧ m = nl) ∨ (b = r ∧ m = nr) ∨
      (b ≠ a ∧ b ≠ l ∧ b ≠ r ∧ small b = some m) := by
  by_cases hba : b = a
  · subst hba
    exact Or.inl ⟨rfl, Option.some.inj (hb.symm.trans h.nodeAt)⟩
  · by_cases hbl : b = l
    · subst hbl
      exact Or.inr (Or.inl ⟨rfl, Option.some.inj (hb.symm.trans h.linked.atLeft)⟩)
    · by_cases hbr : b = r
      · subst hbr
        exact Or.inr (Or.inr (Or.inl
          ⟨rfl, Option.some.inj (hb.symm.trans h.linked.atRight)⟩))
      · exact Or.inr (Or.inr (Or.inr
          ⟨hba, hbl, hbr, (h.other b hba hbl hbr).symm.trans hb⟩))

/-- Every node of the small tree survives with its parent and size. -/
theorem Branches.carry (h : Branches small big a l r n n' nl nr) {b : Addr} {m : BSTree}
    (hb : small b = some m) :
    ∃ m', big b = some m' ∧ m'.parent = m.parent ∧ m'.size = m.size ∧
      (b ≠ a → m' = m) := by
  by_cases hba : b = a
  · subst hba
    have hm : n = m := Option.some.inj (h.leafAt.symm.trans hb)
    subst hm
    exact ⟨n', h.nodeAt, h.parent, h.size, fun hne => absurd rfl hne⟩
  · obtain ⟨hbl, hbr⟩ := h.apart hb
    exact ⟨m, (h.other b hba hbl hbr).trans hb, rfl, rfl, fun _ => rfl⟩

/-- The other way round, for a node that is not one of the leaves. -/
theorem Branches.carryBack (h : Branches small big a l r n n' nl nr) {b : Addr}
    {m : BSTree} (hb : big b = some m) (hl : b ≠ l) (hr : b ≠ r) :
    ∃ m', small b = some m' ∧ m'.parent = m.parent ∧ m'.size = m.size ∧
      (b ≠ a → m' = m) := by
  rcases h.cases hb with ⟨rfl, rfl⟩ | ⟨hbl, -⟩ | ⟨hbr, -⟩ | ⟨hba, -, -, hs⟩
  · exact ⟨n, h.leafAt, h.parent.symm, h.size.symm, fun hne => absurd rfl hne⟩
  · exact absurd hbl hl
  · exact absurd hbr hr
  · exact ⟨m, hs, rfl, rfl, fun _ => rfl⟩

/-- The leaf is nobody's parent in the small tree. -/
theorem Branches.parent_ne (h : Branches small big a l r n n' nl nr) {p c : Addr} {m : BSTree}
    (hp : small p = some m) (hc : m.left = some c ∨ m.right = some c) : p ≠ a := by
  rintro rfl
  rw [← Option.some.inj (h.leafAt.symm.trans hp), h.leaf.1, h.leaf.2] at hc
  rcases hc with hc | hc <;> exact nomatch hc

/-- A child of another node is not one of the two leaves. -/
theorem Branches.child_apart (h : Branches small big a l r n n' nl nr)
    (hs : Shape big root U L) {b c : Addr} {m : BSTree} (hba : b ≠ a)
    (hb : big b = some m) (hc : m.left = some c ∨ m.right = some c) :
    c ≠ l ∧ c ≠ r := by
  have hnl : ¬ IsLeaf m := by
    rintro ⟨h1, h2⟩
    rw [h1, h2] at hc
    rcases hc with hc | hc <;> exact nomatch hc
  obtain ⟨l', r', ml, mr, hlk⟩ := hs.linked hb hnl
  have hkid : c = l' ∨ c = r' := by
    rw [hlk.left, hlk.right] at hc
    exact hc.imp (fun he => (Option.some.inj he).symm) (fun he => (Option.some.inj he).symm)
  constructor
  · rintro rfl
    have hpar := (hlk.up hkid h.linked.atLeft).symm.trans h.linked.upLeft
    exact hba (Option.some.inj hpar)
  · rintro rfl
    have hpar := (hlk.up hkid h.linked.atRight).symm.trans h.linked.upRight
    exact hba (Option.some.inj hpar)

/-! ### Shape -/

theorem Shape.grow (hs : Shape small root U L) (h : Branches small big a l r n n' nl nr)
    (hk : ∃ k, L ≤ k ∧ k ≤ U ∧ nl.size = 2 ^ k) : Shape big root U L where
  top := by
    obtain ⟨m, hm, hp, hsz⟩ := hs.top
    obtain ⟨m', hm', e1, e2, -⟩ := h.carry hm
    exact ⟨m', hm', e1.trans hp, e2.trans hsz⟩
  kids := by
    intro b m hb
    rcases h.cases hb with ⟨rfl, rfl⟩ | ⟨rfl, rfl⟩ | ⟨rfl, rfl⟩ | ⟨-, -, -, hsm⟩
    · exact Or.inr ⟨l, r, nl, nr, h.linked⟩
    · exact Or.inl h.leafLeft
    · exact Or.inl h.leafRight
    · rcases hs.kids hsm with hleaf | ⟨l', r', ml, mr, hlk⟩
      · exact Or.inl hleaf
      · obtain ⟨ml', l0, l1, l2, -⟩ := h.carry hlk.atLeft
        obtain ⟨mr', r0, r1, r2, -⟩ := h.carry hlk.atRight
        exact Or.inr ⟨l', r', ml', mr', hlk.move ⟨l0, l1, l2⟩ ⟨r0, r1, r2⟩⟩
  up := by
    intro b m hb hne
    rcases h.cases hb with ⟨rfl, rfl⟩ | ⟨rfl, rfl⟩ | ⟨rfl, rfl⟩ | ⟨hba, -, -, hsm⟩
    · obtain ⟨p, np, hp, hlp, hor⟩ := hs.up h.leafAt hne
      have hpb : p ≠ b := h.parent_ne hlp hor
      obtain ⟨np', hp', -, -, hsame⟩ := h.carry hlp
      exact ⟨p, np', h.parent.trans hp, hp', by rw [hsame hpb]; exact hor⟩
    · exact ⟨a, n', h.linked.upLeft, h.nodeAt, Or.inl h.linked.left⟩
    · exact ⟨a, n', h.linked.upRight, h.nodeAt, Or.inr h.linked.right⟩
    · obtain ⟨p, np, hp, hlp, hor⟩ := hs.up hsm hne
      have hpa : p ≠ a := h.parent_ne hlp hor
      obtain ⟨np', hp', -, -, hsame⟩ := h.carry hlp
      exact ⟨p, np', hp, hp', by rw [hsame hpa]; exact hor⟩
  pow := by
    intro b m hb
    rcases h.cases hb with ⟨rfl, rfl⟩ | ⟨rfl, rfl⟩ | ⟨rfl, rfl⟩ | ⟨-, -, -, hsm⟩
    · rw [h.size]; exact hs.pow h.leafAt
    · exact hk
    · have : m.size = nl.size := by
        have h1 := h.linked.halfLeft
        have h2 := h.linked.halfRight
        omega
      rw [this]; exact hk
    · exact hs.pow hsm

theorem Shape.shrink (hs : Shape big root U L) (h : Branches small big a l r n n' nl nr) :
    Shape small root U L where
  top := by
    obtain ⟨m, hm, hp, hsz⟩ := hs.top
    have hl : root ≠ l := by
      rintro rfl
      have := (hs.rootParent h.linked.atLeft).symm.trans h.linked.upLeft
      exact nomatch this
    have hr : root ≠ r := by
      rintro rfl
      have := (hs.rootParent h.linked.atRight).symm.trans h.linked.upRight
      exact nomatch this
    obtain ⟨m', hm', e1, e2, -⟩ := h.carryBack hm hl hr
    exact ⟨m', hm', e1.trans hp, e2.trans hsz⟩
  kids := by
    intro b m hb
    by_cases hba : b = a
    · subst hba
      rw [← Option.some.inj (h.leafAt.symm.trans hb)]
      exact Or.inl h.leaf
    · obtain ⟨m', hm', -, -, hsame⟩ := h.carry hb
      rw [hsame hba] at hm'
      rcases hs.kids hm' with hleaf | ⟨l', r', ml, mr, hlk⟩
      · exact Or.inl hleaf
      · have hcl := h.child_apart hs hba hm' (Or.inl hlk.left)
        have hcr := h.child_apart hs hba hm' (Or.inr hlk.right)
        obtain ⟨ml', l0, l1, l2, -⟩ := h.carryBack hlk.atLeft hcl.1 hcl.2
        obtain ⟨mr', r0, r1, r2, -⟩ := h.carryBack hlk.atRight hcr.1 hcr.2
        exact Or.inr ⟨l', r', ml', mr', hlk.move ⟨l0, l1, l2⟩ ⟨r0, r1, r2⟩⟩
  up := by
    intro b m hb hne
    obtain ⟨m', hm', e1, -, -⟩ := h.carry hb
    obtain ⟨hbl, hbr⟩ := h.apart hb
    obtain ⟨p, np, hp, hlp, hor⟩ := hs.up hm' hne
    have hleaf : ∀ {x}, IsLeaf x → ¬ (x.left = some b ∨ x.right = some b) := by
      rintro x ⟨h1, h2⟩ (ho | ho)
      · exact nomatch h1.symm.trans ho
      · exact nomatch h2.symm.trans ho
    rcases h.cases hlp with ⟨rfl, rfl⟩ | ⟨rfl, rfl⟩ | ⟨rfl, rfl⟩ | ⟨-, -, -, hsm⟩
    · rw [h.linked.left, h.linked.right] at hor
      rcases hor with ho | ho
      · exact absurd (Option.some.inj ho).symm hbl
      · exact absurd (Option.some.inj ho).symm hbr
    · exact absurd hor (hleaf h.leafLeft)
    · exact absurd hor (hleaf h.leafRight)
    · exact ⟨p, np, e1.symm.trans hp, hsm, hor⟩
  pow := by
    intro b m hb
    obtain ⟨m', hm', -, e2, -⟩ := h.carry hb
    rw [← e2]
    exact hs.pow hm'

/-! ### Flags, lists and the running table -/

theorem Flags.grow (hf : Flags small L (some a)) (h : Branches small big a l r n n' nl nr)
    (hused : n'.isUsed = 1) (hfree : nr.isUsed = 0) (hbytes : nr.bytesOccupied = 0) :
    Flags big L (some l) where
  interior := by
    intro b m hb hnl
    rcases h.cases hb with ⟨-, rfl⟩ | ⟨-, rfl⟩ | ⟨-, rfl⟩ | ⟨-, -, -, hsm⟩
    · exact hused
    · exact absurd h.leafLeft hnl
    · exact absurd h.leafRight hnl
    · exact hf.interior hsm hnl
  busy := by
    intro b m c d hb hc hd
    -- the leaf that was the hole is in use now, as a parent
    have up : ∀ {x}, Busy small (some a) x → Busy big (some l) x := by
      rintro x (hx | ⟨mx, hmx, hu⟩)
      · exact Or.inr ⟨n', by rw [← Option.some.inj hx]; exact h.nodeAt, hused⟩
      · obtain ⟨mx', hmx', -, -, hsame⟩ := h.carry hmx
        by_cases hxa : x = a
        · exact Or.inr ⟨n', by rw [hxa]; exact h.nodeAt, hused⟩
        · exact Or.inr ⟨mx', hmx', by rw [hsame hxa]; exact hu⟩
    rcases h.cases hb with ⟨-, rfl⟩ | ⟨-, rfl⟩ | ⟨-, rfl⟩ | ⟨-, -, -, hsm⟩
    · exact Or.inl (Or.inl (h.linked.left.symm.trans hc))
    · exact nomatch h.leafLeft.1.symm.trans hc
    · exact nomatch h.leafRight.1.symm.trans hc
    · exact (hf.busy hsm hc hd).imp up up
  leaf := by
    intro b m hb hleaf hne
    rcases h.cases hb with ⟨-, rfl⟩ | ⟨rfl, -⟩ | ⟨-, rfl⟩ | ⟨hba, -, -, hsm⟩
    · exact absurd hleaf h.linked.notLeaf
    · exact absurd rfl hne
    · exact Or.inl ⟨hfree, hbytes⟩
    · exact hf.leaf hsm hleaf (fun he => hba (Option.some.inj he).symm)
  hole := by
    intro b hb
    rw [← Option.some.inj hb]
    exact ⟨nl, h.linked.atLeft, h.leafLeft⟩

theorem Lists.grow {fl fl' : Int → List Addr} (hl : Lists small root fl (some a))
    (h : Branches small big a l r n n' nl nr) (hfree : nr.isUsed = 0)
    (hfl : ∀ s, fl' s = if s = nr.size then r :: fl s else fl s) :
    Lists big root fl' (some l) where
  sound := by
    intro s x hx
    rw [hfl] at hx
    have hold : x ∈ fl s → some l ≠ some x ∧
        ∃ m, big x = some m ∧ FreeLeaf m ∧ m.size = s := by
      intro hmem
      obtain ⟨hne, m, hm, hfm, hsz⟩ := hl.sound hmem
      obtain ⟨hxl, -⟩ := h.apart hm
      obtain ⟨m', hm', -, -, hsame⟩ := h.carry hm
      rw [hsame (fun he => hne (congrArg some he.symm))] at hm'
      exact ⟨fun he => hxl (Option.some.inj he).symm, m, hm', hfm, hsz⟩
    by_cases hs : s = nr.size
    · rw [if_pos hs] at hx
      rcases List.mem_cons.mp hx with rfl | hmem
      · exact ⟨fun he => h.linked.ne (Option.some.inj he), nr, h.linked.atRight,
          ⟨h.leafRight, hfree⟩, hs.symm⟩
      · exact hold hmem
    · rw [if_neg hs] at hx
      exact hold hx
  complete := by
    intro b m hb hfm hne hroot
    rw [hfl]
    rcases h.cases hb with ⟨-, rfl⟩ | ⟨rfl, -⟩ | ⟨rfl, rfl⟩ | ⟨hba, -, -, hsm⟩
    · exact absurd hfm.1 h.linked.notLeaf
    · exact absurd rfl hne
    · rw [if_pos rfl]; exact List.mem_cons_self
    · have hmem := hl.complete hsm hfm (fun he => hba (Option.some.inj he).symm) hroot
      by_cases hs : m.size = nr.size
      · rw [if_pos hs]; exact List.mem_cons_of_mem _ hmem
      · rw [if_neg hs]; exact hmem
  nodup := by
    intro s
    rw [hfl]
    by_cases hs : s = nr.size
    · rw [if_pos hs]
      refine List.nodup_cons.mpr ⟨fun hmem => ?_, hl.nodup s⟩
      obtain ⟨-, m, hm, -⟩ := hl.sound hmem
      exact (h.apart hm).2 rfl
    · rw [if_neg hs]; exact hl.nodup s

theorem Running.grow {rr : Char → Option Ptr} (hr : Running small rr (some a))
    (h : Branches small big a l r n n' nl nr) : Running big rr (some l) := by
  intro P p hp
  obtain ⟨x, m, rfl, hm, hne, hleaf, hu, hname⟩ := hr hp
  obtain ⟨hxl, -⟩ := h.apart hm
  obtain ⟨m', hm', -, -, hsame⟩ := h.carry hm
  rw [hsame (fun he => hne (congrArg some he.symm))] at hm'
  exact ⟨x, m, rfl, hm', fun he => hxl (Option.some.inj he).symm, hleaf, hu, hname⟩

/-- **SPLIT**: the hole moves to the left child, the right child is listed. -/
theorem Inv.grow {fl fl' : Int → List Addr} {rr : Char → Option Ptr}
    (hi : Inv small root U L fl rr (some a)) (h : Branches small big a l r n n' nl nr)
    (hk : ∃ k, L ≤ k ∧ k ≤ U ∧ nl.size = 2 ^ k) (hused : n'.isUsed = 1)
    (hfree : nr.isUsed = 0) (hbytes : nr.bytesOccupied = 0)
    (hfl : ∀ s, fl' s = if s = nr.size then r :: fl s else fl s) :
    Inv big root U L fl' rr (some l) where
  shape := Shape.grow hi.shape h hk
  flags := Flags.grow hi.flags h hused hfree hbytes
  lists := Lists.grow hi.lists h hfree hfl
  running := Running.grow hi.running h

theorem Flags.shrink {t : Addr} (hf : Flags big L (some t)) (hs : Shape big root U L)
    (h : Branches small big a l r n n' nl nr) (ht : t = l ∨ t = r) :
    Flags small L (some a) where
  interior := by
    intro b m hb hnl
    have hba : b ≠ a := by
      rintro rfl
      exact hnl (Option.some.inj (h.leafAt.symm.trans hb) ▸ h.leaf)
    obtain ⟨m', hm', -, -, hsame⟩ := h.carry hb
    rw [hsame hba] at hm'
    exact hf.interior hm' hnl
  busy := by
    intro b m c d hb hc hd
    have hba : b ≠ a := by
      rintro rfl
      rw [← Option.some.inj (h.leafAt.symm.trans hb), h.leaf.1] at hc
      exact nomatch hc
    obtain ⟨m', hm', -, -, hsame⟩ := h.carry hb
    rw [hsame hba] at hm'
    -- the parent that was in use is the hole now
    have down : ∀ {x}, x ≠ l ∧ x ≠ r → Busy big (some t) x → Busy small (some a) x := by
      rintro x ⟨hxl, hxr⟩ (hx | ⟨mx, hmx, hu⟩)
      · have hxt : t = x := Option.some.inj hx
        rcases ht with rfl | rfl
        · exact absurd hxt.symm hxl
        · exact absurd hxt.symm hxr
      · obtain ⟨mx', hmx', -, -, hsame'⟩ := h.carryBack hmx hxl hxr
        by_cases hxa : x = a
        · exact Or.inl (congrArg some hxa.symm)
        · exact Or.inr ⟨mx', hmx', by rw [hsame' hxa]; exact hu⟩
    rcases hf.busy hm' hc hd with hx | hx
    · exact Or.inl (down (h.child_apart hs hba hm' (Or.inl hc)) hx)
    · exact Or.inr (down (h.child_apart hs hba hm' (Or.inr hd)) hx)
  leaf := by
    intro b m hb hleaf hne
    have hba : b ≠ a := fun he => hne (congrArg some he.symm)
    obtain ⟨hbl, hbr⟩ := h.apart hb
    obtain ⟨m', hm', -, -, hsame⟩ := h.carry hb
    rw [hsame hba] at hm'
    refine hf.leaf hm' hleaf (fun he => ?_)
    rcases ht with rfl | rfl
    · exact hbl (Option.some.inj he).symm
    · exact hbr (Option.some.inj he).symm
  hole := by
    intro b hb
    rw [← Option.some.inj hb]
    exact ⟨n, h.leafAt, h.leaf⟩

theorem Lists.shrink {fl fl' : Int → List Addr} {t : Addr} (hl : Lists big root fl (some t))
    (h : Branches small big a l r n n' nl nr) (ht : t = l ∨ t = r)
    (hfl : ∀ s x, x ∈ fl' s ↔ x ∈ fl s ∧ x ≠ l ∧ x ≠ r)
    (hnd : ∀ s, (fl' s).Nodup) : Lists small root fl' (some a) where
  sound := by
    intro s x hx
    obtain ⟨hmem, hxl, hxr⟩ := (hfl s x).mp hx
    obtain ⟨-, m, hm, hfm, hsz⟩ := hl.sound hmem
    have hxa : x ≠ a := by
      rintro rfl
      rw [← Option.some.inj (h.nodeAt.symm.trans hm)] at hfm
      exact h.linked.notLeaf hfm.1
    obtain ⟨m', hm', -, -, hsame⟩ := h.carryBack hm hxl hxr
    rw [hsame hxa] at hm'
    exact ⟨fun he => hxa (Option.some.inj he).symm, m, hm', hfm, hsz⟩
  complete := by
    intro b m hb hfm hne hroot
    have hba : b ≠ a := fun he => hne (congrArg some he.symm)
    obtain ⟨hbl, hbr⟩ := h.apart hb
    obtain ⟨m', hm', -, -, hsame⟩ := h.carry hb
    rw [hsame hba] at hm'
    have hnt : some t ≠ some b := by
      intro he
      rcases ht with rfl | rfl
      · exact hbl (Option.some.inj he).symm
      · exact hbr (Option.some.inj he).symm
    exact (hfl _ _).mpr ⟨hl.complete hm' hfm hnt hroot, hbl, hbr⟩
  nodup := hnd

theorem Running.shrink {rr : Char → Option Ptr} {t : Addr} {sib : Addr} {ms : BSTree}
    (hr : Running big rr (some t)) (h : Branches small big a l r n n' nl nr)
    (ht : (t = l ∧ sib = r) ∨ (t = r ∧ sib = l)) (hsib : big sib = some ms)
    (hfree : ms.isUsed = 0) : Running small rr (some a) := by
  intro P p hp
  obtain ⟨x, m, rfl, hm, hne, hleaf, hu, hname⟩ := hr hp
  have hxs : x ≠ sib := by
    rintro rfl
    rw [← Option.some.inj (hsib.symm.trans hm), hfree] at hu
    exact absurd hu (by decide)
  have hxt : x ≠ t := fun he => hne (congrArg some he.symm)
  have hxl : x ≠ l ∧ x ≠ r := by
    rcases ht with ⟨rfl, rfl⟩ | ⟨rfl, rfl⟩
    · exact ⟨hxt, hxs⟩
    · exact ⟨hxs, hxt⟩
  have hxa : x ≠ a := by
    rintro rfl
    rw [← Option.some.inj (h.nodeAt.symm.trans hm)] at hleaf
    exact h.linked.notLeaf hleaf
  obtain ⟨m', hm', -, -, hsame⟩ := h.carryBack hm hxl.1 hxl.2
  rw [hsame hxa] at hm'
  exact ⟨x, m, rfl, hm', fun he => hxa (Option.some.inj he).symm, hleaf, hu, hname⟩

/-- **MERGE**: the hole moves from a child to the parent, and both children
    leave the lists. -/
theorem Inv.shrink {fl fl' : Int → List Addr} {rr : Char → Option Ptr} {t sib : Addr}
    {ms : BSTree} (hi : Inv big root U L fl rr (some t))
    (h : Branches small big a l r n n' nl nr)
    (ht : (t = l ∧ sib = r) ∨ (t = r ∧ sib = l)) (hsib : big sib = some ms)
    (hfree : ms.isUsed = 0)
    (hfl : ∀ s x, x ∈ fl' s ↔ x ∈ fl s ∧ x ≠ l ∧ x ≠ r)
    (hnd : ∀ s, (fl' s).Nodup) : Inv small root U L fl' rr (some a) where
  shape := Shape.shrink hi.shape h
  flags := Flags.shrink hi.flags hi.shape h (ht.imp And.left And.left)
  lists := Lists.shrink hi.lists h (ht.imp And.left And.left) hfl hnd
  running := Running.shrink hi.running h ht hsib hfree

end Branches

/-! ## Making and filling the hole -/

section Hole

variable {look look' : Look} {root : Addr} {U L : Nat} {a : Addr} {n n' : BSTree}
variable {fl fl' : Int → List Addr} {rr rr' : Char → Option Ptr}

/-- Take the head of a free list: it becomes the hole. -/
theorem Inv.take (hi : Inv look root U L fl rr none) {s : Int} {rest : List Addr}
    (hs : fl s = a :: rest)
    (hfl : ∀ s', fl' s' = if s' = s then rest else fl s') :
    Inv look root U L fl' rr (some a) where
  shape := hi.shape
  flags := {
    interior := hi.flags.interior
    busy := by
      intro b m c d hb hc hd
      have up : ∀ {x}, Busy look none x → Busy look (some a) x :=
        fun hx => hx.imp (fun he => nomatch he) id
      exact (hi.flags.busy hb hc hd).imp up up
    leaf := fun hb hleaf _ => hi.flags.leaf hb hleaf (fun he => nomatch he)
    hole := by
      intro b hb
      rw [← Option.some.inj hb]
      obtain ⟨-, m, hm, hfm, -⟩ := hi.lists.sound (hs ▸ List.mem_cons_self : a ∈ fl s)
      exact ⟨m, hm, hfm.1⟩ }
  lists := {
    sound := by
      intro s' x hx
      rw [hfl] at hx
      by_cases hss : s' = s
      · rw [if_pos hss] at hx
        have hmem : x ∈ fl s' := by rw [hss, hs]; exact List.mem_cons_of_mem _ hx
        have hnd := hi.lists.nodup s
        rw [hs] at hnd
        refine ⟨fun he => ?_, (hi.lists.sound hmem).2⟩
        exact (List.nodup_cons.mp hnd).1 (Option.some.inj he ▸ hx)
      · -- a node of two lists would have two sizes
        rw [if_neg hss] at hx
        obtain ⟨-, m, hm, hfm, hsz⟩ := hi.lists.sound hx
        refine ⟨fun he => hss ?_, m, hm, hfm, hsz⟩
        obtain ⟨-, ma, hma, -, hsa⟩ :=
          hi.lists.sound (hs ▸ List.mem_cons_self : a ∈ fl s)
        rw [Option.some.inj he] at hma
        rw [← hsz, ← hsa, Option.some.inj (hma.symm.trans hm)]
    complete := by
      intro b m hb hfm hne hroot
      have hmem := hi.lists.complete hb hfm (fun he => nomatch he) hroot
      rw [hfl]
      by_cases hss : m.size = s
      · rw [if_pos hss]
        rw [hss, hs] at hmem
        rcases List.mem_cons.mp hmem with rfl | hmem
        · exact absurd rfl hne
        · exact hmem
      · rw [if_neg hss]; exact hmem
    nodup := by
      intro s'
      rw [hfl]
      by_cases hss : s' = s
      · rw [if_pos hss]
        have hnd := hi.lists.nodup s
        rw [hs] at hnd
        exact (List.nodup_cons.mp hnd).2
      · rw [if_neg hss]; exact hi.lists.nodup s' }
  running := by
    intro P p hp
    obtain ⟨x, m, rfl, hm, -, hleaf, hu, hname⟩ := hi.running hp
    refine ⟨x, m, rfl, hm, fun he => ?_, hleaf, hu, hname⟩
    -- a listed node is free, so no process has it
    obtain ⟨-, ma, hma, hfa, -⟩ := hi.lists.sound (hs ▸ List.mem_cons_self : a ∈ fl s)
    rw [Option.some.inj he] at hma
    rw [← Option.some.inj (hma.symm.trans hm), hfa.2] at hu
    exact absurd hu (by decide)

/-- A process ends: its leaf becomes the hole and its name is forgotten. -/
theorem Inv.open (hi : Inv look root U L fl rr none) (h : Relabels look look' a n n')
    {P : Char} (hrun : rr P = some (some a))
    (hrr : ∀ Q, rr' Q = if Q = P then none else rr Q) :
    Inv look' root U L fl rr' (some a) := by
  obtain ⟨a', m, ha, hm, -, hleaf, hu, hname⟩ := hi.running hrun
  have haa : a = a' := Option.some.inj ha
  subst haa
  have hnm : n = m := Option.some.inj (h.before.symm.trans hm)
  subst hnm
  refine ⟨hi.shape.relabel h, ?_, ?_, ?_⟩
  · constructor
    · intro b x hb hnl
      have hba : b ≠ a := by
        rintro rfl
        rw [← Option.some.inj (h.after.symm.trans hb)] at hnl
        exact hnl (h.isLeaf.mpr hleaf)
      exact hi.flags.interior (h.other b hba ▸ hb) hnl
    · intro b x c d hb hc hd
      obtain ⟨x', hx', e1, e2, -, -⟩ := h.symm.carry hb
      have up : ∀ {y}, Busy look none y → Busy look' (some a) y :=
        fun hy => h.busy hy (fun he => Or.inl (congrArg some he.symm))
          (fun _ he => nomatch he)
      exact (hi.flags.busy hx' (e1.trans hc) (e2.trans hd)).imp up up
    · intro b x hb hlf hne
      have hba : b ≠ a := fun he => hne (congrArg some he.symm)
      exact hi.flags.leaf (h.other b hba ▸ hb) hlf (fun he => nomatch he)
    · intro b hb
      rw [← Option.some.inj hb]
      exact ⟨n', h.after, h.isLeaf.mpr hleaf⟩
  · constructor
    · intro s x hx
      obtain ⟨-, y, hy, hfy, hsz⟩ := hi.lists.sound hx
      -- the leaf of a process is in use, hence in no list
      have hxa : x ≠ a := by
        rintro rfl
        rw [← Option.some.inj (h.before.symm.trans hy), FreeLeaf, hu] at hfy
        exact absurd hfy.2 (by decide)
      exact ⟨fun he => hxa (Option.some.inj he).symm, y, by rw [h.other x hxa]; exact hy,
        hfy, hsz⟩
    · intro b x hb hfx hne hroot
      have hba : b ≠ a := fun he => hne (congrArg some he.symm)
      exact hi.lists.complete (h.other b hba ▸ hb) hfx (fun he => nomatch he) hroot
    · exact hi.lists.nodup
  · intro Q p hp
    rw [hrr] at hp
    by_cases hQ : Q = P
    · rw [if_pos hQ] at hp; exact nomatch hp
    · rw [if_neg hQ] at hp
      obtain ⟨x, y, rfl, hy, -, hlf, huy, hny⟩ := hi.running hp
      -- the leaf has one name, so another process has another leaf
      have hxa : x ≠ a := by
        rintro rfl
        rw [← Option.some.inj (h.before.symm.trans hy), hname] at hny
        exact hQ hny.symm
      exact ⟨x, y, rfl, by rw [h.other x hxa]; exact hy,
        fun he => hxa (Option.some.inj he).symm, hlf, huy, hny⟩

/-- Hand the hole to a process. -/
theorem Inv.fill (hi : Inv look root U L fl rr (some a)) (h : Relabels look look' a n n')
    {P : Char} (hused : n'.isUsed = 1) (hpos : n'.bytesOccupied ≠ 0)
    (hfit : Fits L n'.size n'.bytesOccupied) (hname : n'.pname = P)
    (hrr : ∀ Q, rr' Q = if Q = P then some (some a) else rr Q) :
    Inv look' root U L fl rr' none := by
  obtain ⟨m, hm, hleaf⟩ := hi.flags.hole rfl
  have hnm : n = m := Option.some.inj (h.before.symm.trans hm)
  subst hnm
  refine ⟨hi.shape.relabel h, ?_, ?_, ?_⟩
  · constructor
    · intro b x hb hnl
      by_cases hba : b = a
      · subst hba
        rw [← Option.some.inj (h.after.symm.trans hb)]
        exact hused
      · exact hi.flags.interior (h.other b hba ▸ hb) hnl
    · intro b x c d hb hc hd
      obtain ⟨x', hx', e1, e2, -, -⟩ := h.symm.carry hb
      have up : ∀ {y}, Busy look (some a) y → Busy look' none y :=
        fun hy => h.busy hy (fun he => Or.inr ⟨n', by rw [he]; exact h.after, hused⟩)
          (fun hne he => hne (Option.some.inj he).symm)
      exact (hi.flags.busy hx' (e1.trans hc) (e2.trans hd)).imp up up
    · intro b x hb hlf _
      by_cases hba : b = a
      · subst hba
        rw [← Option.some.inj (h.after.symm.trans hb)]
        exact Or.inr ⟨hused, hpos, hfit⟩
      · exact hi.flags.leaf (h.other b hba ▸ hb) hlf
          (fun he => hba (Option.some.inj he).symm)
    · intro b hb; exact nomatch hb
  · constructor
    · intro s x hx
      obtain ⟨hne, y, hy, hfy, hsz⟩ := hi.lists.sound hx
      have hxa : x ≠ a := fun he => hne (congrArg some he.symm)
      exact ⟨fun he => (nomatch he), y, by rw [h.other x hxa]; exact hy, hfy, hsz⟩
    · intro b x hb hfx _ hroot
      have hba : b ≠ a := by
        rintro rfl
        rw [← Option.some.inj (h.after.symm.trans hb), FreeLeaf, hused] at hfx
        exact absurd hfx.2 (by decide)
      exact hi.lists.complete (h.other b hba ▸ hb) hfx
        (fun he => hba (Option.some.inj he).symm) hroot
    · exact hi.lists.nodup
  · intro Q p hp
    rw [hrr] at hp
    by_cases hQ : Q = P
    · rw [if_pos hQ] at hp
      cases hp
      exact ⟨a, n', rfl, h.after, fun he => (nomatch he), h.isLeaf.mpr hleaf, hused,
        hname.trans hQ.symm⟩
    · rw [if_neg hQ] at hp
      obtain ⟨x, y, rfl, hy, hne, hlf, huy, hny⟩ := hi.running hp
      have hxa : x ≠ a := fun he => hne (congrArg some he.symm)
      exact ⟨x, y, rfl, by rw [h.other x hxa]; exact hy, fun he => (nomatch he), hlf, huy,
        hny⟩

/-- Leave the hole free: its sibling, if it has one, is in use. -/
theorem Inv.vacate (hi : Inv look root U L fl rr (some a))
    (h : Relabels look look' a n n') (hfree : n'.isUsed = 0)
    (hbytes : n'.bytesOccupied = 0)
    (hsib : ∀ {p np l r}, look p = some np → np.left = some l → np.right = some r →
      (l = a ∨ r = a) → ∃ c m, (c = l ∨ c = r) ∧ c ≠ a ∧ look c = some m ∧ m.isUsed = 1)
    (hfl : ∀ s x, x ∈ fl' s ↔ x ∈ fl s ∨ (x = a ∧ a ≠ root ∧ s = n'.size))
    (hnd : ∀ s, (fl' s).Nodup) :
    Inv look' root U L fl' rr none := by
  obtain ⟨m, hm, hleaf⟩ := hi.flags.hole rfl
  have hnm : n = m := Option.some.inj (h.before.symm.trans hm)
  subst hnm
  refine ⟨hi.shape.relabel h, ?_, ?_, ?_⟩
  · constructor
    · intro b x hb hnl
      have hba : b ≠ a := by
        rintro rfl
        rw [← Option.some.inj (h.after.symm.trans hb)] at hnl
        exact hnl (h.isLeaf.mpr hleaf)
      exact hi.flags.interior (h.other b hba ▸ hb) hnl
    · intro b x c d hb hc hd
      obtain ⟨x', hx', e1, e2, -, -⟩ := h.symm.carry hb
      by_cases hca : c = a ∨ d = a
      · -- the parent of the hole: the other child is in use
        obtain ⟨y, my, hor, hya, hmy, huy⟩ := hsib hx' (e1.trans hc) (e2.trans hd) hca
        have hy : Busy look' none y := Or.inr ⟨my, by rw [h.other y hya]; exact hmy, huy⟩
        rcases hor with rfl | rfl
        · exact Or.inl hy
        · exact Or.inr hy
      · have up : ∀ {y}, y ≠ a → Busy look (some a) y → Busy look' none y :=
          fun hya hy => h.busy hy (fun he => absurd he hya)
            (fun hne he => hne (Option.some.inj he).symm)
        exact (hi.flags.busy hx' (e1.trans hc) (e2.trans hd)).imp
          (up (fun he => hca (Or.inl he))) (up (fun he => hca (Or.inr he)))
    · intro b x hb hlf _
      by_cases hba : b = a
      · subst hba
        rw [← Option.some.inj (h.after.symm.trans hb)]
        exact Or.inl ⟨hfree, hbytes⟩
      · exact hi.flags.leaf (h.other b hba ▸ hb) hlf
          (fun he => hba (Option.some.inj he).symm)
    · intro b hb; exact nomatch hb
  · constructor
    · intro s x hx
      rcases (hfl s x).mp hx with hmem | ⟨rfl, -, hsz⟩
      · obtain ⟨hne, y, hy, hfy, hsz⟩ := hi.lists.sound hmem
        have hxa : x ≠ a := fun he => hne (congrArg some he.symm)
        exact ⟨fun he => (nomatch he), y, by rw [h.other x hxa]; exact hy, hfy, hsz⟩
      · exact ⟨fun he => (nomatch he), n', h.after, ⟨h.isLeaf.mpr hleaf, hfree⟩, hsz.symm⟩
    · intro b x hb hfx _ hroot
      by_cases hba : b = a
      · subst hba
        rw [← Option.some.inj (h.after.symm.trans hb)]
        exact (hfl _ _).mpr (Or.inr ⟨rfl, hroot, rfl⟩)
      · exact (hfl _ _).mpr (Or.inl (hi.lists.complete (h.other b hba ▸ hb) hfx
          (fun he => hba (Option.some.inj he).symm) hroot))
    · exact hnd
  · intro Q p hp
    obtain ⟨x, y, rfl, hy, hne, hlf, huy, hny⟩ := hi.running hp
    have hxa : x ≠ a := fun he => hne (congrArg some he.symm)
    exact ⟨x, y, rfl, by rw [h.other x hxa]; exact hy, fun he => (nomatch he), hlf, huy, hny⟩

end Hole

end BuddySurgery
