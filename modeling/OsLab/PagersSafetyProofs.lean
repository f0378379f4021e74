import OsLab.PagersSpecProofs

/-! # What the simulators accept without checking

    `main` compares the number of pages with that of blocks and nothing else:
    with as many blocks as pages `frames` may be zero or negative, and Random takes the requests for
    indices although they count from 1.  With `frames` at zero LRU and FIFO
    take the last page of an empty container, below zero the container grows
    without bound, and a request for the last page is behind the end of
    Random's table.  In all other cases the three simulators stay inside
    their data structures (`pagers_exact`). -/

namespace PagersSafety

open OsLoop OsPaging PagersModel PagersRun PagersSpec

/-! ## What is asked of the simulators -/

/-- After every request LRU or FIFO goes on, with at most `frames` pages
    resident, and every request is counted once. -/
def Served (frames : Int) (run : List Int → Except Fault Sim) (requests : List Int) : Prop :=
  ∀ done, done <+: requests → ∃ st, run done = .ok st ∧
    (st.pageTable.count : Int) ≤ frames ∧ st.hit + st.pageFaults = done.length

/-- Random looks for a victim before it serves the request. -/
def Searches (frames : Int) (st : RandomSim) (r : Int) : Prop :=
  st.pageTable.entry r = -1 ∧ (st.pageTable.count : Int) = frames

/-- The first answers of `rand()`. -/
def answers (stream : Nat → Nat) (n : Nat) : List Nat := (List.range n).map stream

/-- Every search of the run is offered a resident page sooner or later. -/
def Offered (pages frames : Int) (requests : List Int) (stream : Nat → Nat) : Prop :=
  ∀ done r n st, done ++ [r] <+: requests → Random pages frames done (answers stream n) = .ok st →
    st.draws = [] → Searches frames st r →
      ∃ m, n ≤ m ∧ st.pageTable.entry ((stream m : Int) % pages) = 1

/-- The same of Random, whatever `rand()` answers. -/
structure RandomServed (pages frames : Int) (requests : List Int) : Prop where
  /-- nothing goes wrong as long as there are answers -/
  run : ∀ done draws, done <+: requests → Random pages frames done draws = .error .noDraw ∨
    ∃ st, Random pages frames done draws = .ok st ∧
      (st.pageTable.count : Int) ≤ frames ∧ st.hit + st.pageFaults = done.length
  /-- a victim is looked for among the resident pages, and there are some -/
  search : ∀ done r draws st, done ++ [r] <+: requests →
    Random pages frames done draws = .ok st → Searches frames st r → 0 < st.pageTable.count
  /-- and the run comes to an end -/
  ends : ∀ stream, Offered pages frames requests stream →
    ∃ n st, Random pages frames requests (answers stream n) = .ok st

/-- The simulators stay inside their data structures. -/
structure Safe (pages frames : Int) (requests : List Int) : Prop where
  lru : Served frames (LRU pages frames) requests
  fifo : Served frames (FIFO pages frames) requests
  random : RandomServed pages frames requests

/-- There is a frame, or no request and no frame, and nobody requests the last
    page. -/
def Acceptable (pages frames : Int) (requests : List Int) : Prop :=
  (1 ≤ frames ∨ frames = 0 ∧ requests = []) ∧ ∀ r ∈ requests, r ≠ pages

/-! ## LRU and FIFO -/

section Lists

variable {pages frames r : Int} {k : Nat} {l requests done : List Int} {t : Table}

theorem count_fresh (pages : Int) : (freshTable pages).count = 0 := by
  rw [Table.count, List.countP_eq_zero]
  intro i _
  simp [freshTable]

/-- A table counts no more pages than the list it marks. -/
theorem Marks.count_le (h : Marks pages l t) : t.count ≤ l.length := by
  have hsub : residents t ⊆ (indices l).toFinset := by
    intro p hp
    have hentry := (mem_residents.mp hp).2
    rw [h.entry] at hentry
    split at hentry
    · next hmem =>
        have hidx := mem_indices.mpr hmem
        rw [show p + 1 - 1 = p by omega] at hidx
        exact List.mem_toFinset.mpr hidx
    · exact absurd hentry (by decide)
  calc t.count = (residents t).card := count_eq t
    _ ≤ (indices l).toFinset.card := Finset.card_le_card hsub
    _ ≤ (indices l).length := List.toFinset_card_le _
    _ = l.length := List.length_map _

/-- A simulator whose table marks a list of at most `k` pages after every
    prefix, and whose turn goes by the entry that it reads. -/
theorem served_of_marks {run : List Int → Except Fault Sim} {turn : Sim → Int → Except Fault Sim}
    (hrun : ∀ rs, run rs = runAll turn (Sim.fresh pages) rs)
    (hreads : ∀ a b q, turn a q = .ok b →
      ∃ v, a.pageTable.read (q - 1) = .ok v ∧ Counted (v ≠ -1) a b)
    (hreq : ∀ q ∈ requests, 1 ≤ q ∧ q ≤ pages)
    (hmarks : ∀ rs, rs <+: requests →
      ∃ st l, run rs = .ok st ∧ Marks pages l st.pageTable ∧ l.length ≤ k) :
    Served k run requests := by
  intro done
  induction done using List.reverseRecOn with
  | nil =>
      intro hdone
      obtain ⟨st, l, hst, hl, hlen⟩ := hmarks [] hdone
      have hfresh : Sim.fresh pages = st := Except.ok.inj ((hrun []).symm.trans hst)
      exact ⟨st, hst, Int.ofNat_le.mpr ((Marks.count_le hl).trans hlen), by rw [← hfresh]; rfl⟩
  | append_singleton done q ih =>
      intro hdone
      have hbefore := (List.prefix_append done [q]).trans hdone
      obtain ⟨a, ha, -, htotal⟩ := ih hbefore
      obtain ⟨a', l, ha', hl, -⟩ := hmarks done hbefore
      obtain rfl : a = a' := Except.ok.inj (ha.symm.trans ha')
      obtain ⟨b, l', hb, hl', hlen⟩ := hmarks _ hdone
      have hq : turn a q = .ok b := runAll_snoc ((hrun _).symm.trans ha) ((hrun _).symm.trans hb)
      have hin := hreq q (hdone.subset (List.mem_append_right _ (List.mem_singleton_self q)))
      refine ⟨b, hb, Int.ofNat_le.mpr ((Marks.count_le hl').trans hlen), ?_⟩
      rw [(turn_counted hl hin (hreads a b q hq)).total, htotal, List.length_append,
        List.length_singleton]

theorem lru_served (hk : 1 ≤ k) (hreq : ∀ q ∈ requests, 1 ≤ q ∧ q ≤ pages) :
    Served k (LRU pages k) requests := by
  refine served_of_marks (fun _ => rfl) (fun _ _ _ => lruTurn_reads) hreq (fun rs hrs => ?_)
  obtain ⟨st, hst, hof⟩ := lru_follows hk (fun q hq => hreq q (hrs.subset hq))
  exact ⟨st, _, hst, hof.table, List.length_take_le _ _⟩

theorem fifo_served (hk : 1 ≤ k) (hreq : ∀ q ∈ requests, 1 ≤ q ∧ q ≤ pages) :
    Served k (FIFO pages k) requests := by
  refine served_of_marks (fun _ => rfl) (fun _ _ _ => fifoTurn_reads) hreq (fun rs hrs => ?_)
  obtain ⟨st, hst, c, hof, -, hqueue, -⟩ := fifo_loads hk (fun q hq => hreq q (hrs.subset hq))
  refine ⟨st, _, hst, hof.table, ?_⟩
  rw [hqueue, List.length_drop]
  omega

/-- Without a frame a run of LRU ends at its first request. -/
theorem frames_of_served (hreq : ∀ q ∈ requests, 1 ≤ q ∧ q ≤ pages)
    (h : Served frames (LRU pages frames) requests) :
    1 ≤ frames ∨ frames = 0 ∧ requests = [] := by
  obtain ⟨st, hst, hcount, -⟩ := h [] List.nil_prefix
  have hzero : (0 : Int) ≤ frames := (Int.natCast_nonneg _).trans hcount
  by_cases hframes : 1 ≤ frames
  · exact Or.inl hframes
  · obtain rfl : frames = 0 := by omega
    refine Or.inr ⟨rfl, ?_⟩
    cases requests with
    | nil => rfl
    | cons r rest =>
        obtain ⟨st', hst', -⟩ := h [r] (List.prefix_append [r] rest)
        obtain ⟨st₁, hturn, -⟩ := runAll_cons.mp hst'
        obtain ⟨v, hv, hrest⟩ := bind_ok.mp hturn
        have hread := (marks_fresh pages).read (hreq r List.mem_cons_self)
        rw [if_neg List.not_mem_nil] at hread
        obtain rfl : -1 = v := Except.ok.inj (hread.symm.trans hv)
        rw [if_pos rfl] at hrest
        -- the list is as long as there are frames, and has no last page
        obtain ⟨evicted, hevict, -⟩ := bind_ok.mp hrest
        rw [lruEvict, if_pos (show ((Sim.fresh pages).container.length : Int) = 0 from rfl)] at hevict
        cases hevict

end Lists

/-! ## Random -/

/-- What holds between two requests of Random. -/
structure RandomOk (pages : Int) (k : Nat) (st : RandomSim) : Prop where
  pages : st.pageTable.pages = pages
  binary : Binary st.pageTable
  few : (residents st.pageTable).card ≤ k

/-- The state with more answers of `rand()` to come. -/
def withMore (st : RandomSim) (ds : List Nat) : RandomSim := { st with draws := st.draws ++ ds }

section Random

variable {pages r : Int} {k : Nat} {requests done : List Int} {st st' : RandomSim} {t t' : Table}
  {draws ds : List Nat}

theorem findVictim_error (hpages : 1 ≤ t.pages) {e : Fault} (h : findVictim t draws = .error e) :
    e = .noDraw := by
  -- on the draws: each is an index of the table
  induction draws with
  | nil => exact (Except.error.inj h).symm
  | cons d rest ih =>
      have hin : 0 ≤ (d : Int) % t.pages ∧ (d : Int) % t.pages < t.pages :=
        ⟨Int.emod_nonneg _ (by omega), Int.emod_lt_of_pos _ (by omega)⟩
      have hread : t.read ((d : Int) % t.pages) = .ok (t.entry ((d : Int) % t.pages)) := if_pos hin
      rcases bind_error.mp h with hbad | ⟨v, -, hrest⟩
      · rw [hread] at hbad
        exact nomatch hbad
      · split at hrest
        · exact nomatch hrest
        · exact ih hrest

theorem write_pages {i v : Int} (h : t.write i v = .ok t') : t'.pages = t.pages := by
  obtain ⟨-, rfl⟩ := write_ok h
  rfl

/-- A write inside the table succeeds. -/
theorem write_inside {i v : Int} (h : 0 ≤ i ∧ i < t.pages) : ∃ t', t.write i v = .ok t' :=
  ⟨_, if_pos h⟩

theorem randomEvict_pages {evicted : Table × List Nat} (h : randomEvict k st = .ok evicted) :
    evicted.1.pages = st.pageTable.pages := by
  rw [randomEvict] at h
  split at h
  · obtain ⟨found, -, hrest⟩ := bind_ok.mp h
    obtain ⟨t, hwrite, hend⟩ := bind_ok.mp hrest
    cases hend
    exact write_pages hwrite
  · cases h
    rfl

/-- An eviction fails only for want of draws: its victim is resident, and so
    has an entry. -/
theorem randomEvict_error (hpages : 1 ≤ st.pageTable.pages) {e : Fault}
    (h : randomEvict k st = .error e) : e = .noDraw := by
  rw [randomEvict] at h
  split at h
  · rcases bind_error.mp h with hbad | ⟨found, hfound, hrest⟩
    · exact findVictim_error hpages hbad
    · obtain ⟨t, ht⟩ := write_inside (v := -1) (mem_residents.mp (findVictim_ok hfound)).1
      rcases bind_error.mp hrest with hbad | ⟨t', -, hbad⟩
      · rw [ht] at hbad
        cases hbad
      · cases hbad
  · cases h

/-- So does a turn for a page of the table. -/
theorem randomTurn_error (hin : 0 ≤ r ∧ r < st.pageTable.pages) {e : Fault}
    (h : randomTurn k st r = .error e) : e = .noDraw := by
  have hread : st.pageTable.read r = .ok (st.pageTable.entry r) := if_pos hin
  rcases bind_error.mp h with hbad | ⟨v, -, hrest⟩
  · rw [hread] at hbad
    exact nomatch hbad
  split at hrest
  · rcases bind_error.mp hrest with hbad | ⟨evicted, hevict, hrest⟩
    · exact randomEvict_error (by omega) hbad
    · obtain ⟨t, ht⟩ := write_inside (t := evicted.1) (v := 1)
        (by rw [randomEvict_pages hevict]; exact hin)
      rcases bind_error.mp hrest with hbad | ⟨t', -, hbad⟩
      · rw [ht] at hbad
        exact nomatch hbad
      · exact nomatch hbad
  · exact nomatch hrest

/-- What a turn does to the length of the table, and to the counters. -/
theorem randomTurn_counts (h : randomTurn k st r = .ok st') :
    st'.pageTable.pages = st.pageTable.pages ∧
      st'.hit + st'.pageFaults = st.hit + st.pageFaults + 1 := by
  obtain ⟨v, -, hrest⟩ := bind_ok.mp h
  split at hrest
  · obtain ⟨evicted, hevict, hrest⟩ := bind_ok.mp hrest
    obtain ⟨t, hwrite, hend⟩ := bind_ok.mp hrest
    cases hend
    exact ⟨(write_pages hwrite).trans (randomEvict_pages hevict), (Nat.add_assoc _ _ _).symm⟩
  · cases hrest
    exact ⟨rfl, Nat.add_right_comm _ _ _⟩

/-- **A TURN OF RANDOM** keeps to the table, and counts the request. -/
theorem RandomOk.turn (h : RandomOk pages k st) (hk : 1 ≤ k) (hr : 1 ≤ r ∧ r < pages) :
    randomTurn k st r = .error .noDraw ∨ ∃ st', randomTurn k st r = .ok st' ∧ RandomOk pages k st' ∧
      st'.hit + st'.pageFaults = st.hit + st.pageFaults + 1 := by
  cases hturn : randomTurn k st r with
  | error e =>
      have hin : 0 ≤ r ∧ r < st.pageTable.pages := by
        rw [h.pages]
        omega
      exact Or.inl (congrArg Except.error (randomTurn_error hin hturn))
  | ok st' =>
      obtain ⟨hpages, hcount⟩ := randomTurn_counts hturn
      obtain ⟨hb', hserve⟩ := random_serves h.binary h.few hk hturn
      refine Or.inr ⟨st', rfl, ⟨hpages.trans h.pages, hb', ?_⟩, hcount⟩
      generalize hc : (residents st.pageTable, st.pageFaults) = c at hserve
      generalize hc' : (residents st'.pageTable, st'.pageFaults) = c' at hserve
      cases hserve with
      | hit _ =>
          rw [(Prod.mk.inj hc').1, ← (Prod.mk.inj hc).1]
          exact h.few
      | load _ _ _ hcard =>
          rw [(Prod.mk.inj hc').1]
          exact hcard

theorem randomOk_fresh (pages : Int) (k : Nat) (draws : List Nat) : RandomOk pages k
    { pageTable := freshTable pages, pageFaults := 0, hit := 0, draws := draws } := by
  refine ⟨rfl, fun _ => Or.inr rfl, ?_⟩
  rw [← count_eq]
  exact (count_fresh pages).le.trans (Nat.zero_le k)

/-- A run with one more request. -/
theorem random_snoc : Random pages k (done ++ [r]) draws =
    Random pages k done draws >>= fun st => randomTurn k st r := by
  rw [PagersModel.Random, runAll_append]
  refine congrArg _ (funext fun st => ?_)
  rw [runAll]
  cases randomTurn k st r with
  | error e => rfl
  | ok st' => rfl

/-- **A RUN OF RANDOM** goes on as long as there are answers. -/
theorem random_run (draws : List Nat) (hk : 1 ≤ k) (hreq : ∀ q ∈ done, 1 ≤ q ∧ q < pages) :
    Random pages k done draws = .error .noDraw ∨ ∃ st, Random pages k done draws = .ok st ∧
      RandomOk pages k st ∧ st.hit + st.pageFaults = done.length := by
  induction done using List.reverseRecOn with
  | nil => exact Or.inr ⟨_, rfl, randomOk_fresh pages k draws, rfl⟩
  | append_singleton done r ih =>
      rw [random_snoc]
      rcases ih (fun q hq => hreq q (List.mem_append_left _ hq)) with hno | ⟨st, hst, hok, htotal⟩
      · rw [hno]
        exact Or.inl rfl
      · rw [hst]
        have hr := hreq r (List.mem_append_right _ (List.mem_singleton_self r))
        rcases hok.turn hk hr with hno | ⟨st', hst', hok', htotal'⟩
        · exact Or.inl hno
        · refine Or.inr ⟨st', hst', hok', ?_⟩
          rw [htotal', htotal, List.length_append, List.length_singleton]

/-! ## Enough answers -/

theorem findVictim_more {found : Int × List Nat} (h : findVictim t draws = .ok found)
    (ds : List Nat) : findVictim t (draws ++ ds) = .ok (found.1, found.2 ++ ds) := by
  induction draws with
  | nil => exact nomatch h
  | cons d rest ih =>
      obtain ⟨v, hread, hrest⟩ := bind_ok.mp h
      refine bind_ok.mpr ⟨v, hread, ?_⟩
      by_cases hv : v = 1
      · rw [if_pos hv] at hrest ⊢
        cases hrest
        rfl
      · rw [if_neg hv] at hrest ⊢
        exact ih hrest

/-- A turn does not look at the answers that it leaves. -/
theorem randomTurn_more (h : randomTurn k st r = .ok st') (ds : List Nat) :
    randomTurn k (withMore st ds) r = .ok (withMore st' ds) := by
  obtain ⟨v, hread, hrest⟩ := bind_ok.mp h
  refine bind_ok.mpr ⟨v, hread, ?_⟩
  split at hrest
  · next hv =>
      obtain ⟨evicted, hevict, hrest⟩ := bind_ok.mp hrest
      obtain ⟨table, hwrite, hend⟩ := bind_ok.mp hrest
      cases hend
      rw [if_pos hv]
      refine bind_ok.mpr ⟨(evicted.1, evicted.2 ++ ds), ?_, bind_ok.mpr ⟨table, hwrite, rfl⟩⟩
      rw [randomEvict] at hevict ⊢
      by_cases hfull : (st.pageTable.count : Int) = k
      · rw [if_pos hfull] at hevict
        rw [if_pos (show ((withMore st ds).pageTable.count : Int) = k from hfull)]
        obtain ⟨found, hfound, hrest⟩ := bind_ok.mp hevict
        obtain ⟨t, ht, hend⟩ := bind_ok.mp hrest
        cases hend
        exact bind_ok.mpr ⟨_, findVictim_more hfound ds, bind_ok.mpr ⟨t, ht, rfl⟩⟩
      · rw [if_neg hfull] at hevict
        rw [if_neg (show ¬ ((withMore st ds).pageTable.count : Int) = k from hfull)]
        cases hevict
        rfl
  · next hv =>
      cases hrest
      rw [if_neg hv]
      rfl

theorem random_more (h : Random pages k done draws = .ok st) (ds : List Nat) :
    Random pages k done (draws ++ ds) = .ok (withMore st ds) := by
  induction done using List.reverseRecOn generalizing st with
  | nil => cases h; rfl
  | append_singleton done r ih =>
      rw [random_snoc] at h ⊢
      obtain ⟨a, ha, hturn⟩ := bind_ok.mp h
      exact bind_ok.mpr ⟨_, ih ha, randomTurn_more hturn ds⟩

/-- A resident page is found behind any number of misses. -/
theorem findVictim_found (hpages : 1 ≤ t.pages) {d : Nat} (hd : t.entry ((d : Int) % t.pages) = 1)
    (hmiss : ∀ x ∈ ds, t.entry ((x : Int) % t.pages) ≠ 1) :
    findVictim t (ds ++ [d]) = .ok ((d : Int) % t.pages, []) := by
  have hread : ∀ x : Nat, t.read ((x : Int) % t.pages) = .ok (t.entry ((x : Int) % t.pages)) :=
    fun x => if_pos ⟨Int.emod_nonneg _ (by omega), Int.emod_lt_of_pos _ (by omega)⟩
  induction ds with
  | nil =>
      refine bind_ok.mpr ⟨_, hread d, ?_⟩
      rw [if_pos hd]
  | cons x ds ih =>
      refine bind_ok.mpr ⟨_, hread x, ?_⟩
      rw [if_neg (hmiss x List.mem_cons_self)]
      exact ih (fun y hy => hmiss y (List.mem_cons_of_mem x hy))

/-- A turn without a search needs no answer. -/
theorem turn_without (h : RandomOk pages k st) (hr : 1 ≤ r ∧ r < pages)
    (hdraws : st.draws = []) (hno : ¬ Searches k st r) :
    ∃ st', randomTurn k st r = .ok st' ∧ st'.draws = [] := by
  have hin : 0 ≤ r ∧ r < st.pageTable.pages := by
    rw [h.pages]
    omega
  have hread : st.pageTable.read r = .ok (st.pageTable.entry r) := if_pos hin
  by_cases hfault : st.pageTable.entry r = -1
  · have hfree : ¬ (st.pageTable.count : Int) = k := fun hfull => hno ⟨hfault, hfull⟩
    obtain ⟨t, ht⟩ := write_inside (v := 1) hin
    refine ⟨{ st with pageTable := t, pageFaults := st.pageFaults + 1 },
      bind_ok.mpr ⟨_, hread, ?_⟩, hdraws⟩
    rw [if_pos hfault]
    exact bind_ok.mpr ⟨(st.pageTable, st.draws), if_neg hfree, bind_ok.mpr ⟨t, ht, rfl⟩⟩
  · refine ⟨{ st with hit := st.hit + 1 }, bind_ok.mpr ⟨_, hread, ?_⟩, hdraws⟩
    rw [if_neg hfault]

/-- A turn with a search needs the answers up to the first resident page. -/
theorem turn_with (h : RandomOk pages k st) (hr : 1 ≤ r ∧ r < pages)
    (hdraws : st.draws = []) (hsearch : Searches k st r) {d : Nat}
    (hd : st.pageTable.entry ((d : Int) % pages) = 1)
    (hmiss : ∀ x ∈ ds, st.pageTable.entry ((x : Int) % pages) ≠ 1) :
    ∃ st', randomTurn k (withMore st (ds ++ [d])) r = .ok st' ∧ st'.draws = [] := by
  have hin : 0 ≤ r ∧ r < st.pageTable.pages := by
    rw [h.pages]
    omega
  have hread : st.pageTable.read r = .ok (st.pageTable.entry r) := if_pos hin
  have hfound : findVictim st.pageTable (ds ++ [d]) = .ok ((d : Int) % st.pageTable.pages, []) :=
    findVictim_found (by rw [h.pages]; omega) (by rw [h.pages]; exact hd)
      (by rw [h.pages]; exact hmiss)
  obtain ⟨t, ht⟩ := write_inside (v := -1) (mem_residents.mp (findVictim_ok hfound)).1
  obtain ⟨t', ht'⟩ := write_inside (t := t) (v := 1) (by rw [write_pages ht]; exact hin)
  have hevict : randomEvict k (withMore st (ds ++ [d])) = .ok (t, []) := by
    rw [randomEvict, if_pos (show ((withMore st (ds ++ [d])).pageTable.count : Int) = k from hsearch.2)]
    refine bind_ok.mpr ⟨((d : Int) % st.pageTable.pages, []), ?_, bind_ok.mpr ⟨t, ht, rfl⟩⟩
    show findVictim st.pageTable (st.draws ++ (ds ++ [d])) = _
    rw [hdraws]
    exact hfound
  refine ⟨{ st with pageTable := t', draws := [], pageFaults := st.pageFaults + 1 },
    bind_ok.mpr ⟨_, hread, ?_⟩, rfl⟩
  rw [if_pos hsearch.1]
  exact bind_ok.mpr ⟨_, hevict, bind_ok.mpr ⟨t', ht', rfl⟩⟩

/-- **RANDOM COMES TO AN END** when its searches are offered resident pages. -/
theorem random_ends (hk : 1 ≤ k) (hreq : ∀ q ∈ requests, 1 ≤ q ∧ q < pages) {stream : Nat → Nat}
    (hoffer : Offered pages k requests stream) (hdone : done <+: requests) :
    ∃ n st, Random pages k done (answers stream n) = .ok st ∧ st.draws = [] := by
  induction done using List.reverseRecOn with
  | nil => exact ⟨0, _, rfl, rfl⟩
  | append_singleton done r ih =>
      have hall : ∀ q ∈ done ++ [r], 1 ≤ q ∧ q < pages := fun q hq => hreq q (hdone.subset hq)
      have hr := hall r (List.mem_append_right _ (List.mem_singleton_self r))
      obtain ⟨n, st, hst, hdraws⟩ := ih ((List.prefix_append done [r]).trans hdone)
      obtain ⟨st₀, hst₀, hok, -⟩ := (random_run (answers stream n) hk
        (fun q hq => hall q (List.mem_append_left _ hq))).resolve_left
          (fun hno => nomatch hno.symm.trans hst)
      obtain rfl : st = st₀ := Except.ok.inj (hst.symm.trans hst₀)
      by_cases hsearch : Searches k st r
      · -- up to the first answer from `n` on that is a resident page
        have hex : ∃ i, st.pageTable.entry ((stream (n + i) : Int) % pages) = 1 := by
          obtain ⟨m, hm, hentry⟩ := hoffer done r n st hdone hst hdraws hsearch
          exact ⟨m - n, by rw [show n + (m - n) = m by omega]; exact hentry⟩
        have hmiss : ∀ x ∈ (List.range (Nat.find hex)).map (fun i => stream (n + i)),
            st.pageTable.entry ((x : Int) % pages) ≠ 1 := by
          intro x hx
          obtain ⟨i, hi, rfl⟩ := List.mem_map.mp hx
          exact Nat.find_min hex (List.mem_range.mp hi)
        obtain ⟨st', hturn, hdraws'⟩ :=
          turn_with hok hr hdraws hsearch (Nat.find_spec hex) hmiss
        refine ⟨n + (Nat.find hex + 1), st', ?_, hdraws'⟩
        have hsplit : answers stream (n + (Nat.find hex + 1)) = answers stream n ++
            ((List.range (Nat.find hex)).map (fun i => stream (n + i)) ++
              [stream (n + Nat.find hex)]) := by
          rw [answers, List.range_add, List.map_append, List.map_map, List.range_succ,
            List.map_append]
          rfl
        rw [random_snoc, hsplit]
        exact bind_ok.mpr ⟨_, random_more hst _, hturn⟩
      · obtain ⟨st', hturn, hdraws'⟩ := turn_without hok hr hdraws hsearch
        refine ⟨n, st', ?_, hdraws'⟩
        rw [random_snoc]
        exact bind_ok.mpr ⟨st, hst, hturn⟩

theorem random_served (hk : 1 ≤ k) (hreq : ∀ q ∈ requests, 1 ≤ q ∧ q < pages) :
    RandomServed pages k requests where
  run := by
    intro done draws hdone
    refine (random_run draws hk (fun q hq => hreq q (hdone.subset hq))).imp id ?_
    rintro ⟨st, hst, hok, htotal⟩
    refine ⟨st, hst, ?_, htotal⟩
    rw [count_eq]
    exact Int.ofNat_le.mpr hok.few
  search := by
    rintro done r draws st - - ⟨-, hfull⟩
    omega
  ends := by
    intro stream hoffer
    obtain ⟨n, st, hst, -⟩ := random_ends hk hreq hoffer (List.prefix_refl requests)
    exact ⟨n, st, hst⟩

/-- A stream that offers every page again and again. -/
theorem offered_all (hk : 1 ≤ k) (hreq : ∀ q ∈ requests, 1 ≤ q ∧ q < pages) :
    Offered pages k requests id := by
  rintro done r n st hdone hst - ⟨-, hfull⟩
  obtain ⟨st₀, hst₀, hok, -⟩ := (random_run (answers id n) hk
    (fun q hq => hreq q (hdone.subset (List.mem_append_left _ hq)))).resolve_left
      (fun hno => nomatch hno.symm.trans hst)
  obtain rfl : st = st₀ := Except.ok.inj (hst.symm.trans hst₀)
  have hsome : (residents st.pageTable).Nonempty := by
    rw [← Finset.card_pos, ← count_eq]
    omega
  obtain ⟨p, hp⟩ := hsome
  obtain ⟨⟨hp0, hplt⟩, hentry⟩ := mem_residents.mp hp
  rw [hok.pages] at hplt
  obtain ⟨i, rfl⟩ := Int.eq_ofNat_of_zero_le hp0
  obtain ⟨b, rfl⟩ := Int.eq_ofNat_of_zero_le (show 0 ≤ pages by omega)
  -- the answer `n * pages + p` comes after the first `n`
  have hb : 1 ≤ b := by omega
  refine ⟨n * b + i, Nat.le_add_right_of_le (Nat.le_mul_of_pos_right n hb), ?_⟩
  have hmod : ((n * b + i : Nat) : Int) % (b : Int) = (i : Int) := by
    have hlt : i < b := Int.ofNat_lt.mp hplt
    rw [← Int.natCast_emod, Nat.mul_add_mod_of_lt hlt]
  exact hmod ▸ hentry

/-- Random reads behind the end of its table at the first request for the last
    page. -/
theorem requests_of_served (hk : 1 ≤ k) (hreq : ∀ q ∈ requests, 1 ≤ q ∧ q ≤ pages)
    (h : RandomServed pages k requests) : ∀ q ∈ requests, q ≠ pages := by
  -- on the requests before it
  have hpre : ∀ done, done <+: requests → ∀ q ∈ done, 1 ≤ q ∧ q < pages := by
    intro done
    induction done using List.reverseRecOn with
    | nil => exact fun _ q hq => nomatch hq
    | append_singleton done r ih =>
        intro hdone q hq
        have hbefore := ih ((List.prefix_append done [r]).trans hdone)
        rcases List.mem_append.mp hq with hq' | hq'
        · exact hbefore q hq'
        · obtain rfl : q = r := List.mem_singleton.mp hq'
          have hrange := hreq q (hdone.subset hq)
          refine ⟨hrange.1, lt_of_le_of_ne hrange.2 (fun hlast => ?_)⟩
          obtain ⟨n, st, hst, -⟩ := random_ends hk hbefore (offered_all hk hbefore)
            (List.prefix_refl done)
          obtain ⟨st₀, hst₀, hok, -⟩ := (random_run (answers id n) hk
            hbefore).resolve_left (fun hno => nomatch hno.symm.trans hst)
          obtain rfl : st = st₀ := Except.ok.inj (hst.symm.trans hst₀)
          have hread : st.pageTable.read q = .error .badIndex := by
            refine if_neg (fun hin => ?_)
            rw [hok.pages] at hin
            omega
          have hbad : Random pages k (done ++ [q]) (answers id n) = .error .badIndex := by
            rw [random_snoc, hst]
            exact bind_error.mpr (Or.inr ⟨st, rfl, bind_error.mpr (Or.inl hread)⟩)
          rcases h.run _ (answers id n) hdone with hno | ⟨st', hst', -⟩
          · exact nomatch hno.symm.trans hbad
          · exact nomatch hst'.symm.trans hbad
  intro q hq hlast
  have := (hpre requests (List.prefix_refl requests) q hq).2
  omega

end Random

/-- **THE SIMULATORS ARE SAFE** exactly when there is a frame, or neither a
    frame nor a request, and the last page is not requested. -/
theorem pagers_exact {pages frames : Int} {requests : List Int}
    (hreq : ∀ r ∈ requests, 1 ≤ r ∧ r ≤ pages) :
    Safe pages frames requests ↔ Acceptable pages frames requests := by
  constructor
  · intro h
    have hframes := frames_of_served hreq h.lru
    refine ⟨hframes, ?_⟩
    rcases hframes with hone | ⟨-, rfl⟩
    · obtain ⟨k, rfl⟩ := Int.eq_ofNat_of_zero_le (show 0 ≤ frames by omega)
      exact requests_of_served (by omega) hreq h.random
    · exact fun r hr => nomatch hr
  · rintro ⟨hone | ⟨rfl, rfl⟩, hlast⟩
    · obtain ⟨k, rfl⟩ := Int.eq_ofNat_of_zero_le (show 0 ≤ frames by omega)
      have hk : 1 ≤ k := by omega
      refine ⟨lru_served hk hreq, fifo_served hk hreq, random_served hk (fun r hr => ?_)⟩
      exact ⟨(hreq r hr).1, lt_of_le_of_ne (hreq r hr).2 (hlast r hr)⟩
    · -- nothing is requested, and nothing happens
      have hnil : ∀ done : List Int, done <+: [] → done = [] := fun done h => List.prefix_nil.mp h
      have hcount : ((freshTable pages).count : Int) ≤ 0 := (congrArg _ (count_fresh pages)).le
      refine ⟨fun done h => ?_, fun done h => ?_, ⟨fun done draws h => ?_, ?_, ?_⟩⟩
      · rw [hnil done h]
        exact ⟨_, rfl, hcount, rfl⟩
      · rw [hnil done h]
        exact ⟨_, rfl, hcount, rfl⟩
      · rw [hnil done h]
        exact Or.inr ⟨_, rfl, hcount, rfl⟩
      · intro done r draws st h
        exact absurd (hnil _ h) (List.append_ne_nil_of_right_ne_nil done (List.cons_ne_nil r []))
      · exact fun stream _ => ⟨0, _, rfl⟩

theorem pagers_exact_run : Safe 4 2 [1, 2, 3, 1] ↔ Acceptable 4 2 [1, 2, 3, 1] :=
  pagers_exact (by decide)

/-- **THE LAST PAGE IS OUT OF RANGE** for Random, as 60 is with 60 pages. -/
theorem last_page_lost : Random 60 10 [60] [] = .error .badIndex ∧ ¬ Safe 60 10 [60] := by
  have hbad : Random 60 10 [60] [] = .error .badIndex := rfl
  refine ⟨hbad, fun h => ?_⟩
  rcases h.random.run [60] [] (List.prefix_refl _) with hno | ⟨st, hst, -⟩
  · exact nomatch hno.symm.trans hbad
  · exact nomatch hst.symm.trans hbad

end PagersSafety
