import OsLab.BuddyPlacementProofs

/-! # What the loops leave alone

    A leaf in use that is not the hole is settled.  Splitting and merging
    neither make, remove, change nor move a settled leaf (`Keeps`), in either
    direction: this is the frame of the allocator's two loops, and it
    composes over any number of turns.

    Below every used interior node there is a settled leaf (`used_below`),
    so the flags of interior nodes say exactly what lies under them. -/

namespace BuddyFrame

open OsHeap OsDyadic BuddyModel BuddyInvariant BuddySurgery BuddyPlacement

/-- A leaf in use that no loop is working on. -/
def Settled (look : Look) (hole : Ptr) (b : Addr) (n : BSTree) : Prop :=
  look b = some n ∧ IsLeaf n ∧ n.isUsed = 1 ∧ hole ≠ some b

/-- The settled leaves of two trees are the same, at the same places. -/
structure Keeps (root : Addr) (look look' : Look) (hole hole' : Ptr) : Prop where
  settled : ∀ b n, Settled look hole b n ↔ Settled look' hole' b n
  path : ∀ {b n p}, Settled look hole b n → nodeAt look root p = some b →
    nodeAt look' root p = some b

section Frame

variable {look look' look'' : Look} {small big : Look} {root : Addr} {U L : Nat}
variable {hole hole' hole'' : Ptr} {a l r : Addr} {n n' nl nr : BSTree}

theorem Keeps.refl (root : Addr) (look : Look) (hole : Ptr) :
    Keeps root look look hole hole :=
  ⟨fun _ _ => Iff.rfl, fun _ h => h⟩

theorem Keeps.trans (h1 : Keeps root look look' hole hole')
    (h2 : Keeps root look' look'' hole' hole'') : Keeps root look look'' hole hole'' :=
  ⟨fun b n => (h1.settled b n).trans (h2.settled b n),
    fun hs hp => h2.path ((h1.settled _ _).mp hs) (h1.path hs hp)⟩

/-- Splitting the hole keeps every settled leaf. -/
theorem Keeps.grow (h : Branches small big a l r n n' nl nr) (hfree : nr.isUsed = 0) :
    Keeps root small big (some a) (some l) where
  settled := by
    intro b m
    constructor
    · rintro ⟨hm, hleaf, hu, hne⟩
      obtain ⟨hbl, -⟩ := h.apart hm
      obtain ⟨m', hm', -, -, hsame⟩ := h.carry hm
      rw [hsame (fun he => hne (congrArg some he.symm))] at hm'
      exact ⟨hm', hleaf, hu, fun he => hbl (Option.some.inj he).symm⟩
    · rintro ⟨hm, hleaf, hu, hne⟩
      rcases h.cases hm with ⟨-, rfl⟩ | ⟨rfl, -⟩ | ⟨-, rfl⟩ | ⟨hba, -, -, hsm⟩
      · exact absurd hleaf h.linked.notLeaf
      · exact absurd rfl hne
      · rw [hfree] at hu
        exact absurd hu (by decide)
      · exact ⟨hsm, hleaf, hu, fun he => hba (Option.some.inj he).symm⟩
  path := fun _ hp => nodeAt_grow h hp

/-- Merging the hole with its free sibling keeps every settled leaf. -/
theorem Keeps.shrink {t sib : Addr} {ms : BSTree} (h : Branches small big a l r n n' nl nr)
    (ht : (t = l ∧ sib = r) ∨ (t = r ∧ sib = l)) (hsib : big sib = some ms)
    (hfree : ms.isUsed = 0) : Keeps root big small (some t) (some a) := by
  have gone : ∀ {b m}, Settled big (some t) b m → b ≠ l ∧ b ≠ r := by
    rintro b m ⟨hm, -, hu, hne⟩
    have hbs : b ≠ sib := by
      rintro rfl
      rw [← Option.some.inj (hsib.symm.trans hm), hfree] at hu
      exact absurd hu (by decide)
    have hbt : b ≠ t := fun he => hne (congrArg some he.symm)
    rcases ht with ⟨rfl, rfl⟩ | ⟨rfl, rfl⟩
    · exact ⟨hbt, hbs⟩
    · exact ⟨hbs, hbt⟩
  refine ⟨fun b m => ⟨fun hs => ?_, ?_⟩, fun hs hp => ?_⟩
  · obtain ⟨hbl, hbr⟩ := gone hs
    obtain ⟨hm, hleaf, hu, -⟩ := hs
    rcases h.cases hm with ⟨-, rfl⟩ | ⟨rfl, -⟩ | ⟨rfl, -⟩ | ⟨hba, -, -, hsm⟩
    · exact absurd hleaf h.linked.notLeaf
    · exact absurd rfl hbl
    · exact absurd rfl hbr
    · exact ⟨hsm, hleaf, hu, fun he => hba (Option.some.inj he).symm⟩
  · rintro ⟨hm, hleaf, hu, hne⟩
    obtain ⟨hbl, hbr⟩ := h.apart hm
    obtain ⟨m', hm', -, -, hsame⟩ := h.carry hm
    rw [hsame (fun he => hne (congrArg some he.symm))] at hm'
    refine ⟨hm', hleaf, hu, fun he => ?_⟩
    rcases ht with ⟨rfl, -⟩ | ⟨rfl, -⟩
    · exact hbl (Option.some.inj he).symm
    · exact hbr (Option.some.inj he).symm
  · obtain ⟨hbl, hbr⟩ := gone hs
    exact nodeAt_shrink h hp hbl hbr

/-- Taking a free leaf as the hole keeps every settled leaf. -/
theorem Keeps.take (hn : look a = some n) (hfree : n.isUsed = 0) :
    Keeps root look look none (some a) := by
  refine ⟨fun b m => ⟨?_, ?_⟩, fun _ hp => hp⟩
  · rintro ⟨hm, hleaf, hu, -⟩
    refine ⟨hm, hleaf, hu, fun he => ?_⟩
    rw [← Option.some.inj he, hn] at hm
    rw [← Option.some.inj hm, hfree] at hu
    exact absurd hu (by decide)
  · rintro ⟨hm, hleaf, hu, -⟩
    exact ⟨hm, hleaf, hu, fun he => nomatch he⟩

/-- A relabelled node aside, relabelling keeps every settled leaf. -/
theorem Settled.relabel (h : Relabels look look' a n n') {b : Addr} {m : BSTree}
    (hs : Settled look hole b m) (hba : b ≠ a) (hh : hole' ≠ some b) :
    Settled look' hole' b m := by
  obtain ⟨hm, hleaf, hu, -⟩ := hs
  exact ⟨by rw [h.other b hba]; exact hm, hleaf, hu, hh⟩

/-- Leaving the hole free keeps every settled leaf. -/
theorem Keeps.vacate (h : Relabels look look' a n n') (hfree : n'.isUsed = 0) :
    Keeps root look look' (some a) none := by
  refine ⟨fun b m => ⟨fun hs => ?_, fun hs => ?_⟩, fun _ hp => (nodeAt_relabel h).mp hp⟩
  · exact hs.relabel h (fun he => hs.2.2.2 (congrArg some he.symm)) (fun he => nomatch he)
  · have hba : b ≠ a := by
      rintro rfl
      obtain ⟨hm, -, hu, -⟩ := hs
      rw [← Option.some.inj (h.after.symm.trans hm), hfree] at hu
      exact absurd hu (by decide)
    exact hs.relabel h.symm hba (fun he => hba (Option.some.inj he).symm)

end Frame

/-! ## What a used interior node has below it -/

section Below

variable {look : Look} {root : Addr} {U L : Nat}

/-- Without a hole, in use and settled are one thing for a leaf. -/
theorem settled_iff (hf : Flags look L none) {b : Addr} {n : BSTree} :
    Settled look none b n ↔ look b = some n ∧ Allocated n := by
  constructor
  · rintro ⟨hn, hleaf, hu, hne⟩
    rcases hf.leaf hn hleaf hne with ⟨h0, -⟩ | ⟨-, hb, -⟩
    · rw [hu] at h0
      exact absurd h0 (by decide)
    · exact ⟨hn, hleaf, hb⟩
  · rintro ⟨hn, hleaf, hb⟩
    rcases hf.leaf hn hleaf (fun he => nomatch he) with ⟨-, h0⟩ | ⟨hu, -, -⟩
    · exact absurd h0 hb
    · exact ⟨hn, hleaf, hu, fun he => nomatch he⟩

/-- **A USED NODE HAS A SETTLED LEAF** at or below it. -/
theorem used_below (hs : Shape look root U L) (hf : Flags look L none) {p : Path} {a : Addr}
    {n : BSTree} (hp : nodeAt look root p = some a) (hn : look a = some n)
    (hu : n.isUsed = 1) : ∃ q b m, nodeAt look root (p ++ q) = some b ∧ Settled look none b m ∧
      (IsLeaf n ∨ q ≠ []) := by
  obtain ⟨j, hj⟩ : ∃ j, j = U - p.length := ⟨_, rfl⟩
  induction j generalizing p a n with
  | zero =>
      rcases hs.kids hn with hleaf | ⟨l, r, nl, nr, hlk⟩
      · exact ⟨[], a, n, by rw [List.append_nil]; exact hp,
          ⟨hn, hleaf, hu, fun he => nomatch he⟩, Or.inl hleaf⟩
      · -- at full depth there is no room for children
        have hl : nodeAt look root (p ++ [.left]) = some l :=
          nodeAt_snoc.mpr ⟨a, n, hp, hn, hlk.left⟩
        have hlen := (Shape.size_at hs hl hlk.atLeft).1
        rw [List.length_append, List.length_singleton] at hlen
        omega
  | succ j ih =>
      rcases hs.kids hn with hleaf | ⟨l, r, nl, nr, hlk⟩
      · exact ⟨[], a, n, by rw [List.append_nil]; exact hp,
          ⟨hn, hleaf, hu, fun he => nomatch he⟩, Or.inl hleaf⟩
      · have descend : ∀ {d c}, kid d n = some c → Busy look none c →
            ∃ q b m, nodeAt look root (p ++ q) = some b ∧ Settled look none b m ∧
              (IsLeaf n ∨ q ≠ []) := by
          intro d c hk hb
          rcases hb with he | ⟨mc, hmc, huc⟩
          · exact nomatch he
          · have hc : nodeAt look root (p ++ [d]) = some c :=
              nodeAt_snoc.mpr ⟨a, n, hp, hn, hk⟩
            obtain ⟨q, b, m, hq, hset, -⟩ := ih hc hmc huc (by
              rw [List.length_append, List.length_singleton]; omega)
            refine ⟨d :: q, b, m, ?_, hset, Or.inr (List.cons_ne_nil _ _)⟩
            rw [List.append_assoc] at hq
            exact hq
        rcases hf.busy hn hlk.left hlk.right with hb | hb
        · exact descend (d := .left) hlk.left hb
        · exact descend (d := .right) hlk.right hb

end Below

end BuddyFrame
