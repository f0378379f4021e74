import OsLab.BuddyCaseProofs

/-! # The set-up of a test case and the search of its lists

    `main` rejects a header with `U <= L` or `L == 0`.  For the headers it
    accepts, with `2^U` an `int`, the set-up ends exactly if `L` is positive
    and `2^(U+1)` is an `int` too: with a negative `L` the smallest size is
    0 and the loop of `initialize_free_map` does not leave 0, and with `U`
    at 30 its last doubling overflows (`setup_exact`).

    No call takes a size out of the map (`sendQuery_keeps`), so the search
    of a reachable state only looks at lists that the set-up made. -/

namespace BuddySetup

open OsHeap OsLoop OsDyadic BuddyModel BuddyInvariant BuddySurgery BuddySteps BuddyCalls
open BuddyCase

/-- `main` goes on with this header. -/
def Accepts (U L : Int) : Prop := ¬ (U ≤ L ∨ L = 0)

instance (U L : Int) : Decidable (Accepts U L) := inferInstanceAs (Decidable (¬ _))

/-- The states of the program in front of a test case. -/
inductive Between (A : Malloc) : State → Prop where
  | boot (pidGlobal : Int) (stdout : List Line) : Between A (boot pidGlobal stdout)
  | next {st st' : State} {U L : Int} {reqs : List Query} (h : Between A st)
      (hacc : Accepts U L) (hrun : testCase A st U L reqs = .ok st') : Between A st'

/-- The states in a test case with the header `U L`. -/
def Reached (A : Malloc) (U L : Int) (st : State) : Prop :=
  ∃ st₀ reqs, Between A st₀ ∧ testCase A st₀ U L reqs = .ok st

/-- The state has a list for each key that the search for `want` uses, and
    the search ends. -/
def SearchEnds (st : State) (want : Int) : Prop :=
  (∃ found, search st want = .ok found) ∧
    ∀ s, Visits (searchTurn st.totalSize) (st.freeMap, want) s → s.2 ≤ st.totalSize →
      s.1 = st.freeMap ∧ s.2 ∈ st.freeMap

/-- The set-up makes the lists of the sizes from `2^L` to `2^U`, and in every
    state of a test case the two loops of a request end. -/
structure SetUp (A : Malloc) (U L : Int) : Prop where
  lists : ∃ totalSize minGranularity lists, pow2 U = .ok totalSize ∧
    pow2 L = .ok minGranularity ∧ initializeFreeMap minGranularity totalSize = .ok lists ∧
    ∀ s, s ∈ lists ↔ ∃ k : Nat, L ≤ k ∧ k ≤ U ∧ s = 2 ^ k
  starts : ∀ st, Between A st → ∃ st', startCase A st U L = .ok st'
  loops : ∀ st, Reached A U L st → ∀ b, 1 ≤ b → b ≤ 2 ^ U.toNat →
    ∃ want, findReqdPowerOf2 st b = .ok want ∧ SearchEnds st want

/-! ## No list goes away -/

/-- The second map has the keys of the first. -/
def KeepsLists (m m' : DefMap Int (List Addr)) : Prop := ∀ s ∈ m, s ∈ m'

section Keys

variable {A : Malloc} {st st' : State} {m m' m'' : DefMap Int (List Addr)}

theorem KeepsLists.refl (m : DefMap Int (List Addr)) : KeepsLists m m := fun _ => id

theorem KeepsLists.trans (h : KeepsLists m m') (h' : KeepsLists m' m'') : KeepsLists m m'' :=
  fun s hs => h' s (h s hs)

theorem keeps_insert (m : DefMap Int (List Addr)) (s : Int) (cells : List Addr) :
    KeepsLists m (m.insert s cells) := fun _ hs => (AList.mem_insert m).mpr (Or.inr hs)

theorem keeps_touch (m : DefMap Int (List Addr)) (s : Int) : KeepsLists m (touch m s) :=
  fun _ hs => mem_touch.mpr (Or.inr hs)

theorem split_keeps {a : Addr} (h : split A st a = .ok st') : KeepsLists st.freeMap st'.freeMap := by
  obtain ⟨n, -, h⟩ := bind_ok.mp h
  dsimp only at h
  split at h
  · cases h
    exact KeepsLists.refl _
  · cases h
    exact keeps_insert _ _ _

theorem splitTurn_keeps {want : Int} {s s' : State × Addr × Int}
    (h : splitTurn A want s = .ok (.again s')) : KeepsLists s.1.freeMap s'.1.freeMap := by
  rw [splitTurn] at h
  split at h
  · cases h
  · obtain ⟨st₁, hsplit, h⟩ := bind_ok.mp h
    obtain ⟨n, -, h⟩ := bind_ok.mp h
    obtain ⟨c, -, h⟩ := bind_ok.mp h
    have hkept := split_keeps hsplit
    cases h
    exact hkept

theorem splitLoop_keeps {want : Int} {n : Nat} {s : State × Addr × Int} {s' : State × Addr}
    (h : loop .endless (splitTurn A want) n s = .ok s') : KeepsLists s.1.freeMap s'.1.freeMap := by
  obtain ⟨s₁, hvisits, hdone⟩ := loop_ok h
  have hkept : KeepsLists s.1.freeMap s₁.1.freeMap :=
    visits_inv (I := fun s₁ => KeepsLists s.1.freeMap s₁.1.freeMap)
      (fun _ _ hs hturn => hs.trans (splitTurn_keeps hturn)) hvisits (KeepsLists.refl _)
  rw [splitTurn] at hdone
  split at hdone
  · cases hdone
    exact hkept
  · obtain ⟨st₁, -, hdone⟩ := bind_ok.mp hdone
    obtain ⟨n, -, hdone⟩ := bind_ok.mp hdone
    obtain ⟨c, -, hdone⟩ := bind_ok.mp hdone
    cases hdone

theorem dropHead_keeps {s : Int} (h : dropHead st s = .ok st') :
    KeepsLists st.freeMap st'.freeMap := by
  rw [dropHead] at h
  split at h
  · cases h
  · cases h
    exact keeps_insert _ _ _

theorem carve_keeps {want canGet : Int} {s : State × Addr}
    (h : carve A st want canGet = .ok s) : KeepsLists st.freeMap s.1.freeMap := by
  rw [carve] at h
  split at h
  · cases h
  · have hdropped : ∀ s₁ : State × Addr, KeepsLists st.freeMap s₁.1.freeMap →
        (do .ok (← dropHead s₁.1 canGet, s₁.2)) = Except.ok s → KeepsLists st.freeMap s.1.freeMap := by
      intro s₁ hkept h
      obtain ⟨st₂, hdrop, h⟩ := bind_ok.mp h
      cases h
      exact hkept.trans (dropHead_keeps hdrop)
    dsimp only at h
    split at h
    · exact hdropped _ (KeepsLists.refl _) h
    · obtain ⟨s₁, hloop, h⟩ := bind_ok.mp h
      exact hdropped s₁ (splitLoop_keeps hloop) h

theorem searchTurn_keeps {totalSize : Int} {s s' : DefMap Int (List Addr) × Int}
    (h : searchTurn totalSize s = .ok (.again s')) : KeepsLists s.1 s'.1 := by
  rw [searchTurn] at h
  split at h
  · split at h
    · cases h
    · obtain ⟨i, -, h⟩ := bind_ok.mp h
      cases h
      exact keeps_touch _ _
  · cases h

theorem search_keeps {want : Int} {found : DefMap Int (List Addr) × Option Int}
    (h : search st want = .ok found) : KeepsLists st.freeMap found.1 := by
  obtain ⟨s, hvisits, hdone⟩ := loop_ok h
  have hkept : KeepsLists st.freeMap s.1 := visits_inv (I := fun s => KeepsLists st.freeMap s.1)
    (fun s s' hs hturn => hs.trans (searchTurn_keeps hturn)) hvisits (KeepsLists.refl _)
  rw [searchTurn] at hdone
  split at hdone
  · split at hdone
    · cases hdone
      exact hkept.trans (keeps_touch _ _)
    · obtain ⟨i, -, hdone⟩ := bind_ok.mp hdone
      cases hdone
  · cases hdone
    exact hkept

theorem allocQuery_keeps {P : Char} {b : Int} (h : allocQuery A st P b = .ok st') :
    KeepsLists st.freeMap st'.freeMap := by
  obtain ⟨want, -, h⟩ := bind_ok.mp h
  obtain ⟨found, hsearch, h⟩ := bind_ok.mp h
  refine KeepsLists.trans (search_keeps hsearch) ?_
  dsimp only at h
  split at h
  · cases h
    exact KeepsLists.refl _
  · obtain ⟨s, hcarve, h⟩ := bind_ok.mp h
    obtain ⟨n, -, h⟩ := bind_ok.mp h
    cases h
    exact carve_keeps hcarve

theorem coalesce_keeps {a : Addr} (h : coalesce st a = .ok st') :
    KeepsLists st.freeMap st'.freeMap := by
  obtain ⟨n, -, h⟩ := bind_ok.mp h
  obtain ⟨lt, -, h⟩ := bind_ok.mp h
  obtain ⟨cells, -, h⟩ := bind_ok.mp h
  obtain ⟨nodes₁, -, h⟩ := bind_ok.mp h
  obtain ⟨nodes₂, -, h⟩ := bind_ok.mp h
  cases h
  exact keeps_insert _ _ _

/-- A turn of the coalescing loop goes on, or leaves as it is. -/
theorem mergeTurn_keeps {s : State × Addr} {turn : Turn (State × Addr) (State × Addr)}
    (h : mergeTurn s = .ok turn) :
    (∃ s', turn = .again s' ∧ KeepsLists s.1.freeMap s'.1.freeMap) ∨ turn = .done s := by
  rw [mergeTurn] at h
  split at h
  · cases h
    exact Or.inr rfl
  · obtain ⟨t, -, h⟩ := bind_ok.mp h
    obtain ⟨p, -, h⟩ := bind_ok.mp h
    have hsibling : ∀ q : Ptr, (do
        let sibling ← follow Fault.badNode s.1.nodes q
        if sibling.2.isUsed = 0 then do
          .ok (.again (← coalesce s.1 p.1, p.1))
        else .ok (.done s)) = Except.ok turn →
        (∃ s', turn = .again s' ∧ KeepsLists s.1.freeMap s'.1.freeMap) ∨ turn = .done s := by
      intro q h
      obtain ⟨sibling, -, h⟩ := bind_ok.mp h
      split at h
      · obtain ⟨st₁, hmerge, h⟩ := bind_ok.mp h
        cases h
        exact Or.inl ⟨_, rfl, coalesce_keeps hmerge⟩
      · cases h
        exact Or.inr rfl
    split at h
    · exact hsibling _ h
    · split at h
      · exact hsibling _ h
      · cases h
        exact Or.inl ⟨s, rfl, KeepsLists.refl _⟩

theorem endFree_keeps {s : State × Addr} (h : endFree s = .ok st') :
    KeepsLists s.1.freeMap st'.freeMap := by
  rw [endFree] at h
  obtain ⟨t, -, h⟩ := bind_ok.mp h
  dsimp only at h
  split at h
  · cases h
    exact KeepsLists.refl _
  · cases h
    exact keeps_insert _ _ _

theorem freeQuery_keeps {P : Char} (h : freeQuery st P = .ok st') :
    KeepsLists st.freeMap st'.freeMap := by
  obtain ⟨s, hbegin, h⟩ := bind_ok.mp h
  obtain ⟨s', hloop, hend⟩ := bind_ok.mp h
  obtain ⟨temp, -, hbegin⟩ := bind_ok.mp hbegin
  cases hbegin
  obtain ⟨s₂, hvisits, hdone⟩ := loop_ok hloop
  have hkept : KeepsLists st.freeMap s₂.1.freeMap := by
    refine visits_inv (I := fun s => KeepsLists st.freeMap s.1.freeMap)
      (fun s s' hs hturn => ?_) hvisits (KeepsLists.refl _)
    rcases mergeTurn_keeps hturn with ⟨s₃, hagain, hkeep⟩ | hleft
    · cases hagain
      exact hs.trans hkeep
    · exact nomatch hleft
  rcases mergeTurn_keeps hdone with ⟨s₃, hagain, -⟩ | hleft
  · exact nomatch hagain
  · cases hleft
    exact hkept.trans (endFree_keeps hend)

/-- **NO LIST GOES AWAY**: a call leaves every size in the map. -/
theorem sendQuery_keeps {q : Query} (h : sendQuery A st q = .ok st') :
    KeepsLists st.freeMap st'.freeMap := by
  rw [sendQuery] at h
  split at h
  · exact freeQuery_keeps h
  · exact allocQuery_keeps h

end Keys

/-! ## Headers -/

section Headers

variable {A : Malloc} {U L : Int}

/-- The exponents of a header for which the set-up ends. -/
theorem header_of {U L : Int} (hacc : Accepts U L) (hL : 1 ≤ L) (hU : U ≤ 29) :
    ∃ u l : Nat, U = u ∧ L = l ∧ Header u l := by
  have hlt : L < U := not_le.mp (fun hle => hacc (Or.inl hle))
  lift U to ℕ using by omega
  lift L to ℕ using by omega
  have hint : (2 ^ (U + 1) : Int) ≤ 2 ^ 30 := pow_le_pow_iff.mpr (by omega)
  exact ⟨U, L, rfl, rfl, by omega, by omega, hint.trans (by decide)⟩

/-- A smallest size of 0 is never doubled past the largest. -/
theorem initializeFreeMap_zero {totalSize : Int} (h : 0 ≤ totalSize)
    {lists : DefMap Int (List Addr)} : initializeFreeMap 0 totalSize ≠ .ok lists := by
  intro hok
  obtain ⟨s, hvisits, hdone⟩ := loop_ok hok
  have hzero : s.2 = 0 := by
    refine visits_inv (I := fun s : DefMap Int (List Addr) × Int => s.2 = 0)
      (fun s s' hs hturn => ?_) hvisits rfl
    rw [hs, if_pos h] at hturn
    obtain ⟨i, hi, hend⟩ := bind_ok.mp hturn
    cases hi
    cases hend
    rfl
  rw [hzero, if_pos h] at hdone
  exact nomatch hdone

/-- From `2^L` on, the doubling behind `2^30` overflows. -/
theorem initializeFreeMap_overflow {L : Nat} (h : L ≤ 30) {lists : DefMap Int (List Addr)} :
    initializeFreeMap (2 ^ L) (2 ^ 30) ≠ .ok lists := by
  intro hok
  obtain ⟨s, hvisits, hdone⟩ := loop_ok hok
  have hpow : ∃ j, j ≤ 30 ∧ s.2 = 2 ^ j := by
    refine visits_inv (I := fun s : DefMap Int (List Addr) × Int => ∃ j, j ≤ 30 ∧ s.2 = 2 ^ j)
      (fun s s' hs hturn => ?_) hvisits ⟨L, h, rfl⟩
    obtain ⟨j, hj, hs⟩ := hs
    rw [hs, if_pos (pow_le_pow_iff.mpr hj)] at hturn
    obtain ⟨i, hi, hend⟩ := bind_ok.mp hturn
    cases hend
    rw [double] at hi
    split at hi
    · next hle =>
      cases hi
      refine ⟨j + 1, ?_, by rw [pow_succ]⟩
      by_contra hj30
      obtain rfl : j = 30 := by omega
      exact absurd hle (by decide)
    · cases hi
  obtain ⟨j, hj, hs⟩ := hpow
  rw [hs, if_pos (pow_le_pow_iff.mpr hj)] at hdone
  obtain ⟨i, -, hend⟩ := bind_ok.mp hdone
  cases hend

/-- **ONLY THESE HEADERS**: where the lists are made, `L` is positive and
    `2^(U+1)` is an `int`. -/
theorem header_of_lists (hacc : Accepts U L) {totalSize minGranularity : Int}
    {lists : DefMap Int (List Addr)} (htotal : pow2 U = .ok totalSize)
    (hleast : pow2 L = .ok minGranularity)
    (hinit : initializeFreeMap minGranularity totalSize = .ok lists) : 1 ≤ L ∧ U ≤ 29 := by
  rw [Accepts, not_or] at hacc
  by_cases hL : L < 0
  · rw [pow2, if_pos hL] at hleast
    cases hleast
    refine absurd hinit (initializeFreeMap_zero ?_)
    rw [pow2] at htotal
    split at htotal
    · cases htotal
      exact le_refl _
    · split at htotal
      · cases htotal
        exact le_of_lt (pow_pos (by decide) _)
      · cases htotal
  · refine ⟨by omega, ?_⟩
    by_contra hU
    lift U to ℕ using by omega
    lift L to ℕ using by omega
    rw [pow2, if_neg (by omega), Int.toNat_natCast] at htotal hleast
    split at htotal
    · next hint =>
      have hlt : U < 31 := by
        by_contra hge
        have hpow : (2 ^ 31 : Int) ≤ 2 ^ U := pow_le_pow_iff.mpr (by omega)
        exact absurd (hpow.trans hint) (by decide)
      obtain rfl : U = 30 := by omega
      cases htotal
      split at hleast
      · cases hleast
        exact initializeFreeMap_overflow (by omega) hinit
      · cases hleast
    · cases htotal

/-- What a set-up that ends has made. -/
theorem startCase_ok {st st₀ : State} (h : startCase A st U L = .ok st₀) :
    ∃ totalSize minGranularity lists, pow2 U = .ok totalSize ∧ pow2 L = .ok minGranularity ∧
      initializeFreeMap minGranularity totalSize = .ok lists ∧
      KeepsLists lists st₀.freeMap := by
  obtain ⟨cleared, -, h⟩ := bind_ok.mp h
  obtain ⟨totalSize, htotal, h⟩ := bind_ok.mp h
  obtain ⟨minGranularity, hleast, h⟩ := bind_ok.mp h
  obtain ⟨lists, hinit, h⟩ := bind_ok.mp h
  cases h
  exact ⟨_, _, lists, htotal, hleast, hinit, keeps_insert _ _ _⟩

end Headers

/-! ## Reachable states -/

section Reached

variable {A : Malloc} {U L : Nat} {st : State}

/-- A state with the lists of all its sizes. -/
structure Listed (U L : Nat) (root : Addr) (st : State) : Prop where
  good : Good U L root st
  keys : ∀ k, L ≤ k → k ≤ U → 2 ^ k ∈ st.freeMap

/-- A test case that starts over an empty heap keeps its lists. -/
theorem testCase_listed (hd : Header U L) {st st' : State}
    (hclear : clear turns st.nodes st.root = .ok ∅) {reqs : List Query}
    (hrun : testCase A st U L reqs = .ok st') : ∃ root, Listed U L root st' := by
  obtain ⟨st₀, hstart, hrun⟩ := bind_ok.mp hrun
  obtain ⟨totalSize, minGranularity, lists, htotal, hleast, hinit, hkept⟩ := startCase_ok hstart
  obtain ⟨st₁, root, hs, hstarted⟩ := startCase_spec (A := A) hd hclear
  cases hstart.symm.trans hs
  have hU : (2 ^ U : Int) ≤ intMax :=
    le_trans (pow_le_pow_iff.mpr (Nat.le_succ U)) hd.int
  have hL : (2 ^ L : Int) ≤ intMax := le_trans (pow_le_pow_iff.mpr hd.lt.le) hU
  cases htotal.symm.trans (pow2_spec hU)
  cases hleast.symm.trans (pow2_spec hL)
  obtain ⟨lists', hinit', -, hkeys⟩ := initializeFreeMap_spec hd
  cases hinit.symm.trans hinit'
  have hstep : ∀ s q s', Listed U L root s → True → sendQuery A s q = .ok s' →
      Listed U L root s' := by
    intro s q s' hs _ hq
    exact ⟨(sendQuery_good hd hs.good hq).1,
      fun k hk1 hk2 => sendQuery_keeps hq _ (hs.keys k hk1 hk2)⟩
  refine ⟨root, runAll_inv hstep ⟨hstarted.good, fun k hk1 hk2 => ?_⟩ (fun _ _ => trivial) hrun⟩
  exact hkept _ ((hkeys _).mpr ⟨k, hk1, hk2, rfl⟩)

/-- The heap is cleared at the start of every test case. -/
theorem between_clear (h : Between A st) : clear turns st.nodes st.root = .ok ∅ := by
  induction h with
  | boot pid out => exact clear_boot pid out
  | next _ hacc hrun ih =>
      obtain ⟨st₀, hstart, -⟩ := bind_ok.mp hrun
      obtain ⟨totalSize, minGranularity, lists, htotal, hleast, hinit, -⟩ := startCase_ok hstart
      obtain ⟨hL, hU⟩ := header_of_lists hacc htotal hleast hinit
      obtain ⟨u, l, rfl, rfl, hd⟩ := header_of hacc hL hU
      obtain ⟨root, hlisted⟩ := testCase_listed hd ih hrun
      exact clear_good hd hlisted.good

/-- **THE SEARCH** of a state with all its lists looks at these only, and
    ends. -/
theorem search_ends (hd : Header U L) {root : Addr} (h : Listed U L root st) {k : Nat}
    (hLk : L ≤ k) (hkU : k ≤ U) : SearchEnds st (2 ^ k) := by
  obtain ⟨lists, found, hsearch, -⟩ := search_spec h.good.total hd.turns hd.int hkU
  refine ⟨⟨_, hsearch⟩, ?_⟩
  have hinv : ∀ s, Visits (searchTurn st.totalSize) (st.freeMap, 2 ^ k) s →
      s.1 = st.freeMap ∧ ∃ j, k ≤ j ∧ s.2 = 2 ^ j := by
    intro s hvisits
    refine visits_inv (I := fun s : DefMap Int (List Addr) × Int =>
      s.1 = st.freeMap ∧ ∃ j, k ≤ j ∧ s.2 = 2 ^ j) (fun s s' hs hturn => ?_) hvisits
      ⟨rfl, k, le_refl _, rfl⟩
    obtain ⟨hmap, j, hkj, hj⟩ := hs
    rw [searchTurn] at hturn
    split at hturn
    · next hle =>
      split at hturn
      · cases hturn
      · obtain ⟨i, hi, hend⟩ := bind_ok.mp hturn
        cases hend
        rw [hj, h.good.total] at hle
        have hmem := h.keys j (by omega) (pow_le_pow_iff.mp hle)
        rw [double] at hi
        split at hi
        · cases hi
          refine ⟨?_, j + 1, by omega, by rw [hj, pow_succ]⟩
          rw [hmap, hj]
          exact touch_of_mem hmem
        · cases hi
    · cases hturn
  intro s hvisits hle
  obtain ⟨hmap, j, hkj, hj⟩ := hinv s hvisits
  rw [hj, h.good.total] at hle
  exact ⟨hmap, hj ▸ h.keys j (by omega) (pow_le_pow_iff.mp hle)⟩

/-- The set-up ends for a header whose sizes are `int`s. -/
theorem setUp_of_header (hd : Header U L) (A : Malloc) : SetUp A U L := by
  have hU : (2 ^ U : Int) ≤ intMax :=
    le_trans (pow_le_pow_iff.mpr (Nat.le_succ U)) hd.int
  have hL : (2 ^ L : Int) ≤ intMax := le_trans (pow_le_pow_iff.mpr hd.lt.le) hU
  have hT := hd.turns
  obtain ⟨lists, hinit, -, hkeys⟩ := initializeFreeMap_spec hd
  refine ⟨⟨_, _, lists, pow2_spec hU, pow2_spec hL, hinit, fun s => ?_⟩, fun st hst => ?_,
    fun st hst b hb1 hbU => ?_⟩
  · rw [hkeys]
    simp only [Nat.cast_le]
  · obtain ⟨st', root, hstart, -⟩ := startCase_spec (A := A) hd (between_clear hst)
    exact ⟨st', hstart⟩
  · obtain ⟨st₀, reqs, hbetween, hrun⟩ := hst
    obtain ⟨root, hlisted⟩ := testCase_listed hd (between_clear hbetween) hrun
    rw [Int.toNat_natCast] at hbU
    obtain ⟨k, hfind, hLk, hkU, -⟩ :=
      find_spec hlisted.good.total hlisted.good.gran hd.lt.le (by omega) hU hbU
    exact ⟨_, hfind, search_ends hd hlisted hLk hkU⟩

end Reached

/-- **THE SET-UP ENDS** for an accepted header exactly if `L` is at least 1
    and `U` at most 29. -/
theorem setup_exact {U L : Int} (hacc : Accepts U L) (A : Malloc) :
    SetUp A U L ↔ 1 ≤ L ∧ U ≤ 29 := by
  constructor
  · intro h
    obtain ⟨totalSize, minGranularity, lists, htotal, hleast, hinit, -⟩ := h.lists
    exact header_of_lists hacc htotal hleast hinit
  · rintro ⟨hL, hU⟩
    obtain ⟨u, l, rfl, rfl, hd⟩ := header_of hacc hL hU
    exact setUp_of_header hd A

theorem setup_exact_small : SetUp bump 3 1 ↔ (1 : Int) ≤ 1 ∧ (3 : Int) ≤ 29 :=
  setup_exact (by decide) bump

/-- The largest `U` for which `2^U` is an `int`, and a negative `L`. -/
theorem setup_fails : Accepts 30 1 ∧ ¬ SetUp bump 30 1 ∧ Accepts 3 (-1) ∧ ¬ SetUp bump 3 (-1) := by
  have hfails : ∀ {U L : Int}, Accepts U L → ¬ (1 ≤ L ∧ U ≤ 29) → ¬ SetUp bump U L := by
    intro U L hacc hno h
    obtain ⟨totalSize, minGranularity, lists, htotal, hleast, hinit, -⟩ := h.lists
    exact hno (header_of_lists hacc htotal hleast hinit)
  exact ⟨by decide, hfails (by decide) (by decide), by decide, hfails (by decide) (by decide)⟩

end BuddySetup
