import OsLab.PagersRunProofs

/-! # What LRU and FIFO count as a hit

    The containers of the two simulators are determined by the requests:
    LRU's by the order of the last requests for each page (`lru_spec`),
    FIFO's by the order of the faults it counted itself (`fifo_spec`).  Either
    way a page is in the container when fewer than `frames` others came after
    it, so a hit can be told from the past alone. -/

namespace PagersSpec

open OsLoop OsPaging PagersModel PagersRun

/-! ## Counting -/

/-- Of two states around a request, the later has one more hit or one more
    fault. -/
def Counted (hit : Prop) (a b : Sim) : Prop :=
  (hit ∧ b.hit = a.hit + 1 ∧ b.pageFaults = a.pageFaults) ∨
    (¬ hit ∧ b.hit = a.hit ∧ b.pageFaults = a.pageFaults + 1)

section Count

variable {pages frames r : Int} {l : List Int} {st st' : Sim} {hit hit' : Prop}

theorem Counted.congr (h : Counted hit st st') (hiff : hit ↔ hit') : Counted hit' st st' := by
  rw [Counted, ← hiff]
  exact h

theorem Counted.total (h : Counted hit st st') :
    st'.hit + st'.pageFaults = st.hit + st.pageFaults + 1 := by
  rcases h with ⟨-, h1, h2⟩ | ⟨-, h1, h2⟩ <;> omega

/-- A turn that reads the entry of its page and takes -1 for a fault counts
    the request as a hit when the page is in the list that the table marks. -/
theorem turn_counted (hm : Marks pages l st.pageTable) (hr : 1 ≤ r ∧ r ≤ pages)
    (hturn : ∃ v, st.pageTable.read (r - 1) = .ok v ∧ Counted (v ≠ -1) st st') :
    Counted (r ∈ l) st st' := by
  obtain ⟨v, hv, hcount⟩ := hturn
  rw [hm.read hr] at hv
  cases hv
  refine hcount.congr ?_
  by_cases hmem : r ∈ l
  · rw [if_pos hmem]
    exact iff_of_true (by decide) hmem
  · rw [if_neg hmem]
    exact iff_of_false (by decide) hmem

theorem lruTurn_reads (h : lruTurn frames st r = .ok st') :
    ∃ v, st.pageTable.read (r - 1) = .ok v ∧ Counted (v ≠ -1) st st' := by
  obtain ⟨v, hv, hrest⟩ := bind_ok.mp h
  refine ⟨v, hv, ?_⟩
  split at hrest
  · next hfault =>
      obtain ⟨evicted, -, hrest⟩ := bind_ok.mp hrest
      obtain ⟨table, -, hend⟩ := bind_ok.mp hrest
      cases hend
      exact Or.inr ⟨not_not.mpr hfault, rfl, rfl⟩
  · next hhit =>
      split at hrest
      · cases hrest
        exact Or.inl ⟨hhit, rfl, rfl⟩
      · cases hrest

theorem fifoTurn_reads (h : fifoTurn frames st r = .ok st') :
    ∃ v, st.pageTable.read (r - 1) = .ok v ∧ Counted (v ≠ -1) st st' := by
  obtain ⟨v, hv, hrest⟩ := bind_ok.mp h
  refine ⟨v, hv, ?_⟩
  split at hrest
  · next hfault =>
      obtain ⟨evicted, -, hrest⟩ := bind_ok.mp hrest
      obtain ⟨table, -, hend⟩ := bind_ok.mp hrest
      cases hend
      exact Or.inr ⟨not_not.mpr hfault, rfl, rfl⟩
  · next hhit =>
      cases hrest
      exact Or.inl ⟨hhit, rfl, rfl⟩

/-- A run with one more request. -/
theorem runAll_snoc {step : Sim → Int → Except Fault Sim} {s a b : Sim} {done : List Int}
    (ha : runAll step s done = .ok a) (hb : runAll step s (done ++ [r]) = .ok b) :
    step a r = .ok b := by
  rw [runAll_append, ha] at hb
  obtain ⟨c, hc, hend⟩ := runAll_cons.mp hb
  cases hend
  exact hc

/-- The table and the container are in step. -/
theorem Marks.container (hm : Marks pages l st.pageTable) (hl : st.container = indices l) (p : Int) :
    st.pageTable.entry p = 1 ↔ p ∈ st.container := by
  have hmem : p + 1 - 1 ∈ indices l ↔ p + 1 ∈ l := mem_indices
  rw [show p + 1 - 1 = p by omega] at hmem
  rw [hl, hmem, hm.entry]
  by_cases hp : p + 1 ∈ l
  · rw [if_pos hp]
    exact iff_of_true rfl hp
  · rw [if_neg hp]
    exact iff_of_false (by decide) hp

theorem indices_nodup (h : l.Nodup) : (indices l).Nodup :=
  h.map (fun a b hab => by simpa using hab)

end Count

/-! ## LRU -/

section Lru

variable {pages frames r : Int} {requests done : List Int}

/-- **LRU MEETS ITS SPECIFICATION** at every request: it counts a hit exactly
    when the page was requested before and fewer than `frames` distinct others
    were since, and then its list has the pages requested last, the latest
    first. -/
theorem lru_spec (hframes : 1 ≤ frames) (hreq : ∀ q ∈ requests, 1 ≤ q ∧ q ≤ pages)
    (hdone : done ++ [r] <+: requests) :
    ∃ a b, LRU pages frames done = .ok a ∧ LRU pages frames (done ++ [r]) = .ok b ∧
      Counted (r ∈ done ∧ ((since done r).toFinset.card : Int) < frames) a b ∧
      (∀ p, b.pageTable.entry p = 1 ↔ p ∈ b.container) ∧ b.container.Nodup ∧
      b.container = indices ((recent (done ++ [r])).take
        (min frames.toNat (done ++ [r]).toFinset.card)) := by
  obtain ⟨k, rfl⟩ := Int.eq_ofNat_of_zero_le (show 0 ≤ frames by omega)
  have hall : ∀ q ∈ done ++ [r], 1 ≤ q ∧ q ≤ pages := fun q hq => hreq q (hdone.subset hq)
  have hbefore : ∀ q ∈ done, 1 ≤ q ∧ q ≤ pages := fun q hq => hall q (List.mem_append_left _ hq)
  have hr : 1 ≤ r ∧ r ≤ pages := hall r (List.mem_append_right _ (List.mem_singleton_self r))
  obtain ⟨a, ha, hla⟩ := lru_follows (k := k) (by omega) hbefore
  obtain ⟨b, hb, hlb⟩ := lru_follows (k := k) (by omega) hall
  have hfront : ∀ rs : List Int, (rs.foldl (lruStep k) ([], 0)).1 = recent rs := fun rs =>
    (lru_recency k rs).trans (recency_eq rs)
  have htable := hla.table
  rw [hfront] at htable
  refine ⟨a, b, ha, hb, ?_, Marks.container hlb.table hlb.list, ?_, ?_⟩
  · refine (turn_counted htable hr (lruTurn_reads (runAll_snoc ha hb))).congr (mem_recent_take.trans ?_)
    rw [Int.ofNat_lt]
  · rw [hlb.list]
    exact indices_nodup (hlb.nodup.sublist (List.take_sublist _ _))
  · rw [hlb.list, hfront, ← recent_length, Int.toNat_natCast, ← List.take_eq_take_min]

end Lru

theorem lru_spec_run : ∃ a b, LRU 4 2 [1, 2, 3] = .ok a ∧ LRU 4 2 ([1, 2, 3] ++ [2]) = .ok b ∧
    Counted ((2 : Int) ∈ [1, 2, 3] ∧ ((since [1, 2, 3] 2).toFinset.card : Int) < 2) a b ∧
    (∀ p, b.pageTable.entry p = 1 ↔ p ∈ b.container) ∧ b.container.Nodup ∧
    b.container = indices ((recent ([1, 2, 3] ++ [2])).take
      (min (2 : Int).toNat ([1, 2, 3] ++ [(2 : Int)]).toFinset.card)) :=
  lru_spec (by decide) (show ∀ q ∈ ([1, 2, 3, 2, 4] : List Int), 1 ≤ q ∧ q ≤ 4 by decide) (by decide)

/-! ## FIFO -/

/-- The requests at which a simulator counts a fault, in their order. -/
def loads (turn : Sim → Int → Except Fault Sim) : Sim → List Int → List Int
  | _, [] => []
  | st, r :: rs =>
      match turn st r with
      | .error _ => []
      | .ok st' => if st'.pageFaults = st.pageFaults + 1 then r :: loads turn st' rs
          else loads turn st' rs

section Fifo

variable {pages frames r : Int} {k : Nat} {requests done : List Int}

theorem loads_append {turn : Sim → Int → Except Fault Sim} {st a : Sim}
    (h : runAll turn st done = .ok a) (rs : List Int) :
    loads turn st (done ++ rs) = loads turn st done ++ loads turn a rs := by
  induction done generalizing st with
  | nil => cases h; rfl
  | cons q done ih =>
      obtain ⟨st', hq, hrest⟩ := runAll_cons.mp h
      simp only [List.cons_append, loads, hq]
      split
      · rw [ih hrest, List.cons_append]
      · exact ih hrest

/-- A counted request is a load when it is a fault. -/
theorem loads_counted {turn : Sim → Int → Except Fault Sim} {st st' : Sim} {hit : Prop}
    [Decidable hit] (h : turn st r = .ok st') (hc : Counted hit st st') :
    loads turn st [r] = if hit then [] else [r] := by
  simp only [loads, h]
  rcases hc with ⟨hhit, -, hfaults⟩ | ⟨hmiss, -, hfaults⟩
  · rw [if_pos hhit, if_neg (by omega)]
  · rw [if_neg hmiss, if_pos hfaults]

/-- The queue of the policy has the last of the pages that the simulator has
    counted as faults. -/
theorem fifo_loads (hk : 1 ≤ k) (hreq : ∀ q ∈ done, 1 ≤ q ∧ q ≤ pages) :
    ∃ a, FIFO pages k done = .ok a ∧ ∃ c : (List Int × Nat) × List Int, FifoOf pages k c.1 a ∧
      c.2 = loads (fifoTurn k) (Sim.fresh pages) done ∧
      c.1.1 = c.2.drop (c.2.length - k) ∧ c.1.2 = c.2.length := by
  induction done using List.reverseRecOn with
  | nil =>
      obtain ⟨a, ha, hof⟩ := fifo_follows hk
        (show ∀ q ∈ ([] : List Int), 1 ≤ q ∧ q ≤ pages from fun _ hq => nomatch hq)
      exact ⟨a, ha, (([], 0), []), hof, rfl, List.drop_nil.symm, rfl⟩
  | append_singleton done r ih =>
      have hr : 1 ≤ r ∧ r ≤ pages := hreq r (List.mem_append_right _ (List.mem_singleton_self r))
      obtain ⟨a, ha, c, hof, hloads, hlast⟩ :=
        ih (fun q hq => hreq q (List.mem_append_left _ hq))
      obtain ⟨b, hb, hof'⟩ := fifoTurn_follows hof hk hr
      have hrun : FIFO pages k (done ++ [r]) = .ok b := by
        rw [FIFO, runAll_append]
        exact bind_ok.mpr ⟨a, ha, runAll_cons.mpr ⟨b, hb, rfl⟩⟩
      refine ⟨b, hrun, fifoLoad k c r, hof', ?_, fifo_last hk hlast r⟩
      rw [loads_append ha, loads_counted hb (turn_counted hof.table hr (fifoTurn_reads hb)), ← hloads,
        fifoLoad]
      split
      · exact (List.append_nil _).symm
      · rfl

/-- **FIFO MEETS ITS SPECIFICATION** at every request: it counts a hit exactly
    when the page was loaded by a fault and fewer than `frames` faults were
    counted since the last time, and then its queue has the pages that faulted
    last, in their order. -/
theorem fifo_spec (hframes : 1 ≤ frames) (hreq : ∀ q ∈ requests, 1 ≤ q ∧ q ≤ pages)
    (hdone : done ++ [r] <+: requests) :
    ∃ a b, FIFO pages frames done = .ok a ∧ FIFO pages frames (done ++ [r]) = .ok b ∧
      Counted (r ∈ loads (fifoTurn frames) (Sim.fresh pages) done ∧
        ((since (loads (fifoTurn frames) (Sim.fresh pages) done) r).length : Int) < frames) a b ∧
      (∀ p, b.pageTable.entry p = 1 ↔ p ∈ b.container) ∧ b.container.Nodup ∧
      b.container = indices ((loads (fifoTurn frames) (Sim.fresh pages) (done ++ [r])).drop
        (b.pageFaults - min frames.toNat b.pageFaults)) := by
  obtain ⟨k, rfl⟩ := Int.eq_ofNat_of_zero_le (show 0 ≤ frames by omega)
  have hk : 1 ≤ k := by omega
  have hall : ∀ q ∈ done ++ [r], 1 ≤ q ∧ q ≤ pages := fun q hq => hreq q (hdone.subset hq)
  have hr : 1 ≤ r ∧ r ≤ pages := hall r (List.mem_append_right _ (List.mem_singleton_self r))
  obtain ⟨a, ha, c, hof, hloads, hqueue, -⟩ :=
    fifo_loads hk (fun q hq => hall q (List.mem_append_left _ hq))
  obtain ⟨b, hb, d, hofb, hloadsb, hqueueb, hfaultsb⟩ := fifo_loads hk hall
  refine ⟨a, b, ha, hb, ?_, Marks.container hofb.table hofb.list, ?_, ?_⟩
  · refine (turn_counted hof.table hr (fifoTurn_reads (runAll_snoc ha hb))).congr ?_
    rw [hqueue, mem_last, Int.ofNat_lt, hloads]
  · rw [hofb.list]
    exact indices_nodup hofb.nodup
  · -- the faults that are counted are as many as the loads
    have hcount : b.pageFaults = d.2.length := hofb.faults.trans hfaultsb
    rw [hofb.list, hqueueb, ← hloadsb, hcount, Int.toNat_natCast]
    exact congrArg (fun n => indices (d.2.drop n)) (by omega)

end Fifo

theorem fifo_spec_run : ∃ a b, FIFO 4 2 [1, 2, 3] = .ok a ∧ FIFO 4 2 ([1, 2, 3] ++ [2]) = .ok b ∧
    Counted ((2 : Int) ∈ loads (fifoTurn 2) (Sim.fresh 4) [1, 2, 3] ∧
      ((since (loads (fifoTurn 2) (Sim.fresh 4) [1, 2, 3]) 2).length : Int) < 2) a b ∧
    (∀ p, b.pageTable.entry p = 1 ↔ p ∈ b.container) ∧ b.container.Nodup ∧
    b.container = indices ((loads (fifoTurn 2) (Sim.fresh 4) ([1, 2, 3] ++ [2])).drop
      (b.pageFaults - min (2 : Int).toNat b.pageFaults)) :=
  fifo_spec (by decide) (show ∀ q ∈ ([1, 2, 3, 2, 4] : List Int), 1 ≤ q ∧ q ≤ 4 by decide) (by decide)

end PagersSpec
