import OsLab.BuddyInputModelProofs
import OsLab.BuddyTreeProofs

/-! # What the printed tree tells

    `print_status` prints a line for each leaf, from left to right: the size of
    a free block, or a process and the bytes it asked for.  Where a block starts
    and how long the block of a process is are not printed.

    The bytes of a process round up to the size of its block (`fits_span`), so
    adding up sizes finds where each block starts (`located`), and the report
    alone tells which addresses every process holds (`report_locates`).  A
    freed block gives up its name (`Nameless`); only a process named `_` is
    printed as a free block. -/

namespace BuddyReport

open OsHeap OsLoop OsDyadic BuddyModel BuddyInvariant BuddySteps BuddyPlacement BuddyCalls
open BuddyCase BuddyTree
open BuddyInput (StatusLine statusLine printStatus)

/-- The size of the block that a line is printed for. -/
def span (L : Nat) : StatusLine → Nat
  | .freeBlock size => size.toNat
  | .process _ bytes => 2 ^ max L (Nat.clog 2 bytes.toNat)

/-- The lines with the addresses of their blocks, the first of them `lo`. -/
def located (L : Nat) : Nat → List StatusLine → List (Nat × StatusLine)
  | _, [] => []
  | lo, line :: rest => (lo, line) :: located L (lo + span L line) rest

/-- A leaf whose block starts at address `x`. -/
def LeafAt (st : State) (root : Addr) (U x : Nat) (n : BSTree) : Prop :=
  ∃ p a, nodeAt st.node root p = some a ∧ st.node a = some n ∧ IsLeaf n ∧ offset U p = x

/-! ## A block without bytes has no name -/

/-- A node that holds no bytes is named `_`. -/
def Nameless (h : Heap BSTree) : Prop :=
  ∀ a n, h.lookup a = some n → n.bytesOccupied = 0 → n.pname = '_'

section Names

variable {A : Malloc} {nodes nodes' : Heap BSTree} {st st' : State}

theorem nameless_store (h : Nameless nodes) (a : Addr) {f : BSTree → BSTree}
    (hf : ∀ n, nodes.lookup a = some n → (f n).bytesOccupied = 0 → (f n).pname = '_') :
    Nameless (store nodes a f) := by
  intro b n hn h0
  rw [lookup_store] at hn
  split at hn
  · obtain ⟨m, hm, rfl⟩ := Option.map_eq_some_iff.mp hn
    exact hf m hm h0
  · exact h b n hn h0

/-- A store that leaves bytes and name as they are. -/
theorem nameless_relink (h : Nameless nodes) (a : Addr) {f : BSTree → BSTree}
    (hbytes : ∀ n, (f n).bytesOccupied = n.bytesOccupied) (hname : ∀ n, (f n).pname = n.pname) :
    Nameless (store nodes a f) := by
  refine nameless_store h a fun n hn h0 => ?_
  rw [hbytes] at h0
  rw [hname]
  exact h a n hn h0

theorem nameless_alloc (h : Nameless nodes) (size : Int) :
    Nameless (alloc A nodes (create size)).2 := by
  intro b n hn h0
  rw [lookup_alloc] at hn
  split at hn
  · obtain rfl := Option.some.inj hn
    rfl
  · exact h b n hn h0

theorem nameless_release {p : Ptr} (h : Nameless nodes)
    (hrel : release Fault.badNode nodes p = .ok nodes') : Nameless nodes' := by
  cases p with
  | none =>
      obtain rfl := Except.ok.inj hrel
      exact h
  | some a =>
      obtain ⟨-, rfl⟩ := release_ok.mp hrel
      intro b n hn h0
      rw [lookup_erase_if] at hn
      split at hn
      · cases hn
      · exact h b n hn h0

theorem split_nameless {a : Addr} (h : Nameless st.nodes) (hrun : split A st a = .ok st') :
    Nameless st'.nodes := by
  obtain ⟨n, -, hrun⟩ := bind_ok.mp hrun
  dsimp only at hrun
  split at hrun
  · cases hrun
    exact h
  · cases hrun
    refine nameless_relink (nameless_relink (nameless_relink ?_ _ ?_ ?_) _ ?_ ?_) _ ?_ ?_
    · exact nameless_alloc (nameless_alloc h _) _
    all_goals
      intro m
      rfl

theorem splitTurn_nameless {want : Int} {s s' : State × Addr × Int} (h : Nameless s.1.nodes)
    (hrun : splitTurn A want s = .ok (.again s')) : Nameless s'.1.nodes := by
  rw [splitTurn] at hrun
  split at hrun
  · cases hrun
  · obtain ⟨st₁, hsplit, hrun⟩ := bind_ok.mp hrun
    obtain ⟨n, -, hrun⟩ := bind_ok.mp hrun
    obtain ⟨c, -, hrun⟩ := bind_ok.mp hrun
    cases hrun
    exact nameless_relink (split_nameless h hsplit) _ (fun _ => rfl) (fun _ => rfl)

theorem splitLoop_nameless {want : Int} {n : Nat} {s : State × Addr × Int} {s' : State × Addr}
    (h : Nameless s.1.nodes) (hrun : loop .endless (splitTurn A want) n s = .ok s') :
    Nameless s'.1.nodes := by
  obtain ⟨s₁, hvisits, hdone⟩ := loop_ok hrun
  have hkept : Nameless s₁.1.nodes :=
    visits_inv (I := fun s => Nameless s.1.nodes)
      (fun _ _ hs hturn => splitTurn_nameless hs hturn) hvisits h
  rw [splitTurn] at hdone
  split at hdone
  · cases hdone
    exact hkept
  · obtain ⟨st₁, -, hdone⟩ := bind_ok.mp hdone
    obtain ⟨n, -, hdone⟩ := bind_ok.mp hdone
    obtain ⟨c, -, hdone⟩ := bind_ok.mp hdone
    cases hdone

theorem dropHead_nodes {s : Int} (hrun : dropHead st s = .ok st') : st'.nodes = st.nodes := by
  rw [dropHead] at hrun
  split at hrun
  · cases hrun
  · cases hrun
    rfl

theorem carve_nameless {want canGet : Int} {s : State × Addr} (h : Nameless st.nodes)
    (hrun : carve A st want canGet = .ok s) : Nameless s.1.nodes := by
  rw [carve] at hrun
  split at hrun
  · cases hrun
  · have hdropped : ∀ s₁ : State × Addr, Nameless s₁.1.nodes →
        (do .ok (← dropHead s₁.1 canGet, s₁.2)) = Except.ok s → Nameless s.1.nodes := by
      intro s₁ hkept hrun
      obtain ⟨st₂, hdrop, hrun⟩ := bind_ok.mp hrun
      cases hrun
      rw [dropHead_nodes hdrop]
      exact hkept
    dsimp only at hrun
    split at hrun
    · exact hdropped _ h hrun
    · obtain ⟨s₁, hloop, hrun⟩ := bind_ok.mp hrun
      exact hdropped s₁ (splitLoop_nameless h hloop) hrun

theorem allocQuery_nameless {P : Char} {b : Int} (h : Nameless st.nodes) (hb : b ≠ 0)
    (hrun : allocQuery A st P b = .ok st') : Nameless st'.nodes := by
  obtain ⟨want, -, hrun⟩ := bind_ok.mp hrun
  obtain ⟨found, -, hrun⟩ := bind_ok.mp hrun
  dsimp only at hrun
  split at hrun
  · cases hrun
    exact h
  · obtain ⟨s, hcarve, hrun⟩ := bind_ok.mp hrun
    obtain ⟨n, -, hrun⟩ := bind_ok.mp hrun
    cases hrun
    have hsearched : Nameless ({ st with freeMap := found.1 } : State).nodes := h
    exact nameless_store (carve_nameless hsearched hcarve) _ (fun _ _ h0 => absurd h0 hb)

theorem coalesce_nameless {a : Addr} (h : Nameless st.nodes) (hrun : coalesce st a = .ok st') :
    Nameless st'.nodes := by
  obtain ⟨n, -, hrun⟩ := bind_ok.mp hrun
  obtain ⟨lt, -, hrun⟩ := bind_ok.mp hrun
  obtain ⟨cells, -, hrun⟩ := bind_ok.mp hrun
  obtain ⟨nodes₁, hleft, hrun⟩ := bind_ok.mp hrun
  obtain ⟨nodes₂, hright, hrun⟩ := bind_ok.mp hrun
  cases hrun
  have hcut := nameless_relink h a (f := fun n => { n with left := none, right := none })
    (fun _ => rfl) (fun _ => rfl)
  exact nameless_release (nameless_release hcut hleft) hright

theorem mergeTurn_nameless {s : State × Addr} {turn : Turn (State × Addr) (State × Addr)}
    (h : Nameless s.1.nodes) (hrun : mergeTurn s = .ok turn) :
    (∃ s', turn = .again s' ∧ Nameless s'.1.nodes) ∨ turn = .done s := by
  rw [mergeTurn] at hrun
  split at hrun
  · cases hrun
    exact Or.inr rfl
  · obtain ⟨t, -, hrun⟩ := bind_ok.mp hrun
    obtain ⟨p, -, hrun⟩ := bind_ok.mp hrun
    have hsibling : ∀ q : Ptr, (do
        let sibling ← follow Fault.badNode s.1.nodes q
        if sibling.2.isUsed = 0 then do
          .ok (.again (← coalesce s.1 p.1, p.1))
        else .ok (.done s)) = Except.ok turn →
        (∃ s', turn = .again s' ∧ Nameless s'.1.nodes) ∨ turn = .done s := by
      intro q hrun
      obtain ⟨sibling, -, hrun⟩ := bind_ok.mp hrun
      split at hrun
      · obtain ⟨st₁, hmerge, hrun⟩ := bind_ok.mp hrun
        cases hrun
        exact Or.inl ⟨_, rfl, coalesce_nameless h hmerge⟩
      · cases hrun
        exact Or.inr rfl
    split at hrun
    · exact hsibling _ hrun
    · split at hrun
      · exact hsibling _ hrun
      · cases hrun
        exact Or.inl ⟨s, rfl, h⟩

theorem endFree_nameless {s : State × Addr} (h : Nameless s.1.nodes) (hrun : endFree s = .ok st') :
    Nameless st'.nodes := by
  rw [endFree] at hrun
  obtain ⟨t, -, hrun⟩ := bind_ok.mp hrun
  have hvacated : Nameless (store s.1.nodes s.2 vacate) := nameless_store h _ fun _ _ _ => rfl
  dsimp only at hrun
  split at hrun
  · cases hrun
    exact hvacated
  · cases hrun
    exact hvacated

theorem freeQuery_nameless {P : Char} (h : Nameless st.nodes) (hrun : freeQuery st P = .ok st') :
    Nameless st'.nodes := by
  obtain ⟨s, hbegin, hrun⟩ := bind_ok.mp hrun
  obtain ⟨s', hloop, hend⟩ := bind_ok.mp hrun
  obtain ⟨temp, -, hbegin⟩ := bind_ok.mp hbegin
  cases hbegin
  obtain ⟨s₂, hvisits, hdone⟩ := loop_ok hloop
  have hopened : Nameless (store st.nodes temp.1 (fun n => { n with isUsed := 0 })) :=
    nameless_relink h _ (fun _ => rfl) (fun _ => rfl)
  have hkept : Nameless s₂.1.nodes := by
    refine visits_inv (I := fun s => Nameless s.1.nodes) (fun s s' hs hturn => ?_) hvisits hopened
    rcases mergeTurn_nameless hs hturn with ⟨s₃, hagain, hkept⟩ | hleft
    · cases hagain
      exact hkept
    · cases hleft
  rcases mergeTurn_nameless hkept hdone with ⟨s₃, hagain, -⟩ | hleft
  · cases hagain
  · cases hleft
    exact endFree_nameless hkept hend

theorem sendQuery_nameless {q : Query} (h : Nameless st.nodes)
    (hrun : sendQuery A st q = .ok st') : Nameless st'.nodes := by
  rw [sendQuery] at hrun
  split at hrun
  · exact freeQuery_nameless h hrun
  · next hb => exact allocQuery_nameless h hb hrun

/-- **NO NAME OUTLIVES ITS PROCESS** in a test case. -/
theorem testCase_nameless {pid : Int} {out : List Line} {U L : Int} {reqs : List Query}
    (hrun : testCase A (boot pid out) U L reqs = .ok st) : Nameless st.nodes := by
  obtain ⟨st₀, hstart, hrun⟩ := bind_ok.mp hrun
  obtain ⟨cleared, hclear, hstart⟩ := bind_ok.mp hstart
  obtain ⟨totalSize, -, hstart⟩ := bind_ok.mp hstart
  obtain ⟨minGranularity, -, hstart⟩ := bind_ok.mp hstart
  obtain ⟨lists, -, hstart⟩ := bind_ok.mp hstart
  cases hstart
  rw [clear_boot] at hclear
  cases hclear
  have hempty : Nameless ∅ := by
    intro a n hn
    cases hn
  refine runAll_inv (I := fun st => Nameless st.nodes) (fun s q s' hs _ hq => ?_)
    (nameless_alloc hempty totalSize) (fun _ _ => trivial) hrun
  exact sendQuery_nameless hs hq

end Names

/-! ## The lines of the leaves -/

/-- A line is printed for a leaf and tells the size of its block. -/
def Printed (look : Look) (U L : Nat) (leaf : Path × Addr) (line : StatusLine) : Prop :=
  ∃ n, look leaf.2 = some n ∧ statusLine n = line ∧ span L line = width U leaf.1

section Lines

variable {U L : Nat} {root : Addr} {st : State}

/-- The smallest power of two that holds the bytes. -/
theorem fits_span {s b : Int} (h : Fits L s b) (P : Char) : (span L (.process P b) : Int) = s := by
  obtain ⟨k, hLk, rfl, hb, hmin⟩ := h
  have hclog : b.toNat ≤ 2 ^ Nat.clog 2 b.toNat := Nat.le_pow_clog (by simp) _
  have hup : 2 ^ Nat.clog 2 b.toNat ≤ 2 ^ max L (Nat.clog 2 b.toNat) :=
    Nat.pow_le_pow_right (by simp) (le_max_right _ _)
  have hholds : b ≤ 2 ^ max L (Nat.clog 2 b.toNat) := by
    exact_mod_cast Int.toNat_le.mp (hclog.trans hup)
  have hbytes : b.toNat ≤ 2 ^ k := Int.toNat_le.mpr (by exact_mod_cast hb)
  have hk : max L (Nat.clog 2 b.toNat) = k :=
    le_antisymm (max_le hLk (Nat.clog_le_of_le_pow hbytes)) (hmin _ (le_max_left _ _) hholds)
  rw [span, hk]
  push_cast
  rfl

/-- The line of a leaf tells its size. -/
theorem span_leaf (h : Good U L root st) (hnames : Nameless st.nodes) {a : Addr} {n : BSTree}
    (hn : st.node a = some n) (hleaf : IsLeaf n) : (span L (statusLine n) : Int) = n.size := by
  rw [statusLine]
  split
  · obtain ⟨k, -, -, hk⟩ := h.inv.shape.pow hn
    have hnonneg : 0 ≤ n.size := by
      rw [hk]
      positivity
    exact Int.toNat_of_nonneg hnonneg
  · next hname =>
      have hbytes : n.bytesOccupied ≠ 0 := fun h0 => hname (hnames a n hn h0)
      exact fits_span (allocated_fits h hn ⟨hleaf, hbytes⟩) _

theorem printStatus_none (f : Nat) (h : Heap BSTree) : printStatus f h none = .ok [] := by
  cases f <;> rfl

theorem printStatus_leaf {a : Addr} {n : BSTree} (hn : st.node a = some n) (hleaf : IsLeaf n)
    (f : Nat) : printStatus (f + 1) st.nodes (some a) = .ok [statusLine n] := by
  refine bind_ok.mpr ⟨(a, n), follow_some hn, ?_⟩
  refine bind_ok.mpr ⟨[], by rw [hleaf.1, printStatus_none], ?_⟩
  refine bind_ok.mpr ⟨[], by rw [hleaf.2, printStatus_none], ?_⟩
  have hline : (if n.left = none ∧ n.right = none then [statusLine n] else []) = [statusLine n] :=
    if_pos hleaf
  exact congrArg Except.ok hline

theorem printStatus_linked {a l r : Addr} {n nl nr : BSTree} {f : Nat}
    {left right : List StatusLine}
    (hn : st.node a = some n) (hlk : Linked st.node a n l r nl nr)
    (hl : printStatus f st.nodes (some l) = .ok left)
    (hr : printStatus f st.nodes (some r) = .ok right) :
    printStatus (f + 1) st.nodes (some a) = .ok (left ++ right) := by
  refine bind_ok.mpr ⟨(a, n), follow_some hn, ?_⟩
  refine bind_ok.mpr ⟨left, by rw [hlk.left, hl], ?_⟩
  refine bind_ok.mpr ⟨right, by rw [hlk.right, hr], ?_⟩
  have hline : (if n.left = none ∧ n.right = none then [statusLine n] else []) = [] :=
    if_neg hlk.notLeaf
  dsimp only
  rw [hline, List.append_nil]

/-- **A LINE FOR EACH LEAF**, from left to right. -/
theorem printStatus_leaves (h : Good U L root st) (hnames : Nameless st.nodes) {f : Nat} :
    ∀ {p : Path} {a : Addr}, nodeAt st.node root p = some a → U - p.length < f →
      ∃ report, printStatus f st.nodes (some a) = .ok report ∧
        List.Forall₂ (Printed st.node U L) (leavesFrom st.node f p a) report := by
  have hs := h.inv.shape
  induction f with
  | zero =>
      intro p a _ hf
      exact absurd hf (Nat.not_lt_zero _)
  | succ f ih =>
      intro p a hp hf
      obtain ⟨n, hn⟩ := Shape.live hs hp
      rcases hs.kids hn with hleaf | ⟨l, r, nl, nr, hlk⟩
      · refine ⟨[statusLine n], printStatus_leaf hn hleaf f, ?_⟩
        rw [leavesFrom_leaf hn hleaf]
        refine .cons ⟨n, hn, rfl, ?_⟩ .nil
        have hspan := span_leaf h hnames hn hleaf
        rw [(Shape.size_at hs hp hn).2] at hspan
        exact_mod_cast hspan
      · obtain ⟨hl, hr, hlen⟩ := linked_places hs hp hn hlk
        have hfuel : ∀ d : Side, U - (p ++ [d]).length < f := by
          intro d
          rw [List.length_append, List.length_singleton]
          omega
        obtain ⟨left, hleft, hlines⟩ := ih hl (hfuel _)
        obtain ⟨right, hright, hlines'⟩ := ih hr (hfuel _)
        refine ⟨left ++ right, printStatus_linked hn hlk hleft hright, ?_⟩
        rw [leavesFrom_linked hn hlk]
        exact List.rel_append hlines hlines'

/-- **THE TREE IS PRINTED** after every test case that comes to its end. -/
theorem testCase_printed {A : Malloc} (hd : Header U L) {pid : Int} {out : List Line}
    {reqs : List Query} (h : testCase A (boot pid out) U L reqs = .ok st) :
    ∃ report, printStatus turns st.nodes st.root = .ok report := by
  obtain ⟨root, hgood⟩ := testCase_good hd h
  have hU : U < turns := Nat.lt_of_succ_lt hd.turns
  obtain ⟨report, hprint, -⟩ := printStatus_leaves hgood (testCase_nameless h) (f := turns)
    (p := []) rfl (by simpa using hU)
  exact ⟨report, by rw [hgood.isRoot]; exact hprint⟩

end Lines

/-! ## Locating the blocks -/

section Located

variable {look : Look} {U L : Nat} {leaves : List (Path × Addr)} {report : List StatusLine}

/-- The sizes of the lines add up. -/
theorem sum_span (h : List.Forall₂ (Printed look U L) leaves report) :
    ∀ {lo hi : Nat}, Tiles U lo (leaves.map Prod.fst) hi → lo + (report.map (span L)).sum = hi := by
  induction h with
  | nil =>
      intro lo hi htiles
      exact htiles
  | cons hline _ ih =>
      intro lo hi htiles
      obtain ⟨n, -, -, hspan⟩ := hline
      have hrest := ih htiles.2
      rw [List.map_cons, List.sum_cons, hspan, ← Nat.add_assoc]
      exact hrest

/-- **ADDING UP SIZES** finds the block of every line. -/
theorem mem_located (h : List.Forall₂ (Printed look U L) leaves report) {x : Nat}
    {line : StatusLine} : ∀ {lo hi : Nat}, Tiles U lo (leaves.map Prod.fst) hi →
      ((x, line) ∈ located L lo report ↔
        ∃ q ∈ leaves, ∃ n, look q.2 = some n ∧ offset U q.1 = x ∧ statusLine n = line) := by
  induction h with
  | nil =>
      intro lo hi _
      simp [located]
  | @cons q line' leaves report hline _ ih =>
      intro lo hi htiles
      obtain ⟨n, hn, hprinted, hspan⟩ := hline
      obtain ⟨hlo, htiles⟩ := htiles
      rw [located, List.mem_cons, hspan, ih htiles]
      constructor
      · rintro (heq | ⟨q', hq', hrest⟩)
        · obtain ⟨rfl, rfl⟩ := Prod.mk.inj heq
          exact ⟨q, List.mem_cons_self, n, hn, hlo, hprinted⟩
        · exact ⟨q', List.mem_cons_of_mem _ hq', hrest⟩
      · rintro ⟨q', hq', m, hm, hx, hline⟩
        rcases List.mem_cons.mp hq' with rfl | hq'
        · obtain rfl := Option.some.inj (hn.symm.trans hm)
          rw [← hx, ← hline, hlo, hprinted]
          exact Or.inl rfl
        · exact Or.inr ⟨q', hq', m, hm, hx, hline⟩

end Located

section Report

variable {U L : Nat} {root : Addr} {st : State}

theorem leaves_tile (h : Good U L root st) {f : Nat} (hf : U < f) :
    Tiles U 0 ((leavesFrom st.node f [] root).map Prod.fst) (2 ^ U) := by
  have htiles := leavesFrom_tiles h.inv.shape (f := f) (p := []) rfl (by simpa using hf)
  have hend : offset U [] + width U [] = 2 ^ U := by simp [offset, width]
  rw [hend] at htiles
  exact htiles

/-- A line stands at an address when the leaf there prints it. -/
theorem mem_report (h : Good U L root st) {f : Nat} (hf : U < f) {report : List StatusLine}
    (hlines : List.Forall₂ (Printed st.node U L) (leavesFrom st.node f [] root) report) {x : Nat}
    {line : StatusLine} :
    (x, line) ∈ located L 0 report ↔ ∃ n, LeafAt st root U x n ∧ statusLine n = line := by
  have hmem : ∀ p a, (p, a) ∈ leavesFrom st.node f [] root ↔
      [] <+: p ∧ nodeAt st.node root p = some a ∧ ∃ m, st.node a = some m ∧ IsLeaf m :=
    fun p a => mem_leavesFrom h.inv.shape rfl (by simpa using hf)
  rw [mem_located hlines (leaves_tile h hf)]
  constructor
  · rintro ⟨⟨p, a⟩, hq, n, hn, hx, hline⟩
    obtain ⟨-, hp, m, hm, hleaf⟩ := (hmem p a).mp hq
    obtain rfl := Option.some.inj (hn.symm.trans hm)
    exact ⟨n, ⟨p, a, hp, hn, hleaf, hx⟩, hline⟩
  · rintro ⟨n, ⟨p, a, hp, hn, hleaf, hx⟩, hline⟩
    exact ⟨(p, a), (hmem p a).mpr ⟨List.nil_prefix, hp, n, hn, hleaf⟩, n, hn, hx, hline⟩

theorem statusLine_process (hnames : Nameless st.nodes) {x : Nat}
    {n : BSTree} (hat : LeafAt st root U x n) {P : Char} {b : Int} :
    statusLine n = .process P b ↔
      Allocated n ∧ n.pname = P ∧ n.bytesOccupied = b ∧ P ≠ '_' := by
  obtain ⟨p, a, -, hn, hleaf, -⟩ := hat
  rw [statusLine]
  split
  · next hname =>
      constructor
      · intro heq
        cases heq
      · rintro ⟨-, rfl, -, hP⟩
        exact absurd hname hP
  · next hname =>
      constructor
      · intro heq
        obtain ⟨rfl, rfl⟩ := StatusLine.process.inj heq
        exact ⟨⟨hleaf, fun h0 => hname (hnames a n hn h0)⟩, rfl, rfl, hname⟩
      · rintro ⟨-, rfl, rfl, -⟩
        rfl

theorem statusLine_free (h : Good U L root st) (hnames : Nameless st.nodes) {x : Nat}
    {n : BSTree} (hat : LeafAt st root U x n) {s : Int} :
    statusLine n = .freeBlock s ↔
      n.size = s ∧ (FreeLeaf n ∨ (Allocated n ∧ n.pname = '_')) := by
  obtain ⟨p, a, -, hn, hleaf, -⟩ := hat
  have hstate := h.inv.flags.leaf hn hleaf (by simp)
  rw [statusLine]
  split
  · next hname =>
      constructor
      · intro heq
        refine ⟨StatusLine.freeBlock.inj heq, ?_⟩
        rcases hstate with ⟨hfree, -⟩ | ⟨-, hbytes, -⟩
        · exact Or.inl ⟨hleaf, hfree⟩
        · exact Or.inr ⟨⟨hleaf, hbytes⟩, hname⟩
      · rintro ⟨rfl, -⟩
        rfl
  · next hname =>
      constructor
      · intro heq
        cases heq
      · rintro ⟨-, ⟨-, hfree⟩ | ⟨-, hunder⟩⟩
        · rcases hstate with ⟨-, h0⟩ | ⟨hused, -⟩
          · exact absurd (hnames a n hn h0) hname
          · rw [hfree] at hused
            cases hused
        · exact absurd hunder hname

end Report

/-- What the lines of a report tell of a state. -/
structure Locates (U L : Nat) (root : Addr) (st : State) (report : List StatusLine) : Prop where
  total : (report.map (span L)).sum = 2 ^ U
  process : ∀ x P b, (x, .process P b) ∈ located L 0 report ↔
    ∃ n, LeafAt st root U x n ∧ Allocated n ∧ n.pname = P ∧ n.bytesOccupied = b ∧ P ≠ '_'
  free : ∀ x s, (x, .freeBlock s) ∈ located L 0 report ↔
    ∃ n, LeafAt st root U x n ∧ n.size = s ∧ (FreeLeaf n ∨ (Allocated n ∧ n.pname = '_'))
  running : ∀ P p, P ≠ '_' → st.runningRec.lookup P = some p →
    ∃ x b, (x, .process P b) ∈ located L 0 report

/-- **THE REPORT TELLS WHERE EVERY PROCESS LIES**: the sizes add up to the
    whole memory, a process is printed exactly at the blocks it holds, a block
    is printed as free exactly when it is or its process is named `_`, and no
    other running process is missing. -/
theorem report_locates {A : Malloc} {U L : Nat} (hd : Header U L) {pid : Int} {out : List Line}
    {reqs : List Query} {st : State} (h : testCase A (boot pid out) U L reqs = .ok st) :
    ∃ root report, st.root = some root ∧ printStatus turns st.nodes st.root = .ok report ∧
      Locates U L root st report := by
  obtain ⟨root, hgood⟩ := testCase_good hd h
  have hnames := testCase_nameless h
  have hU : U < turns := Nat.lt_of_succ_lt hd.turns
  obtain ⟨report, hprint, hlines⟩ :=
    printStatus_leaves hgood hnames (f := turns) (p := []) rfl (by simpa using hU)
  have hreport : ∀ x line, (x, line) ∈ located L 0 report ↔
      ∃ n, LeafAt st root U x n ∧ statusLine n = line := fun x line => mem_report hgood hU hlines
  refine ⟨root, report, hgood.isRoot, ?_, ?_, ?_, ?_, ?_⟩
  · rw [hgood.isRoot]
    exact hprint
  · have hsum := sum_span hlines (leaves_tile hgood hU)
    rw [Nat.zero_add] at hsum
    exact hsum
  · intro x P b
    rw [hreport]
    exact exists_congr fun n => and_congr_right fun hat => statusLine_process hnames hat
  · intro x s
    rw [hreport]
    exact exists_congr fun n => and_congr_right fun hat => statusLine_free hgood hnames hat
  · intro P p hP hrun
    obtain ⟨a, n, rfl, hn, -, hleaf, hused, hname⟩ := hgood.inv.running hrun
    obtain ⟨q, hq⟩ := Shape.placed hgood.inv.shape hn
    refine ⟨offset U q, n.bytesOccupied, (hreport _ _).mpr ⟨n, ⟨q, a, hq, hn, hleaf, rfl⟩, ?_⟩⟩
    rw [statusLine, if_neg (by rw [hname]; exact hP), hname]

theorem report_locates_run : ∃ st root report,
    testCase bump (boot (-1) []) (3 : Nat) (1 : Nat) [⟨'A', 3⟩, ⟨'B', 2⟩, ⟨'A', 0⟩] = .ok st ∧
      st.root = some root ∧ printStatus turns st.nodes st.root = .ok report ∧
      Locates 3 1 root st report := by
  have hsome : (testCase bump (boot (-1) []) (3 : Nat) (1 : Nat)
      [⟨'A', 3⟩, ⟨'B', 2⟩, ⟨'A', 0⟩]).toOption.isSome = true := by decide
  obtain ⟨st, hst⟩ := ok_of_isSome hsome
  obtain ⟨root, report, hroot⟩ := report_locates header_small hst
  exact ⟨st, root, report, hst, hroot⟩

end BuddyReport
