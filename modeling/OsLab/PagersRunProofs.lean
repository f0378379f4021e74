import OsLab.PagersModelProofs

/-! # The simulators follow their policies

    LRU and FIFO keep a container and a table in step: the table is 1
    exactly at the pages of the container (`Marks`).  The container of LRU
    is the front of the recency list (`lru_follows`), that of FIFO the
    queue of the policy (`fifo_follows`), and a turn of Random is one thing
    that a demand-paging policy may do (`random_serves`).

    Two properties follow: LRU with more frames holds at least what it holds
    with fewer (`inclusion`), and neither LRU nor FIFO faults more than
    `frames` times as often as Random, whatever Random draws
    (`competitive_bound`). -/

namespace PagersRun

open OsLoop OsPaging PagersModel

/-! ## The table -/

/-- The table is 1 at the pages of the list, as requests number them. -/
structure Marks (pages : Int) (l : List Int) (t : Table) : Prop where
  pages : t.pages = pages
  entry : ∀ p, t.entry p = if p + 1 ∈ l then 1 else -1

section Table

variable {pages r v : Int} {l m : List Int} {t : Table}

theorem marks_fresh (pages : Int) : Marks pages [] (freshTable pages) :=
  ⟨rfl, fun _ => (if_neg List.not_mem_nil).symm⟩

theorem Marks.read (h : Marks pages l t) (hr : 1 ≤ r ∧ r ≤ pages) :
    t.read (r - 1) = .ok (if r ∈ l then 1 else -1) := by
  have hin : 0 ≤ r - 1 ∧ r - 1 < t.pages := by
    rw [h.pages]
    omega
  rw [Table.read, if_pos hin, h.entry, show r - 1 + 1 = r by omega]

/-- A page is marked as loaded. -/
theorem Marks.load (h : Marks pages l t) (hr : 1 ≤ r ∧ r ≤ pages)
    (hl : ∀ p, p ∈ m ↔ p = r ∨ p ∈ l) : ∃ t', t.write (r - 1) 1 = .ok t' ∧ Marks pages m t' := by
  have hin : 0 ≤ r - 1 ∧ r - 1 < t.pages := by
    rw [h.pages]
    omega
  refine ⟨{ t with entry := Function.update t.entry (r - 1) 1 }, if_pos hin, h.pages, fun p => ?_⟩
  show Function.update t.entry (r - 1) 1 p = _
  by_cases hp : p = r - 1
  · rw [hp, Function.update_self, if_pos ((hl _).mpr (Or.inl (by omega)))]
  · have hne : p + 1 ≠ r := by omega
    rw [Function.update_of_ne hp, h.entry]
    refine if_congr ?_ rfl rfl
    rw [hl]
    exact ⟨Or.inr, fun hor => hor.resolve_left hne⟩

/-- A page is marked as evicted. -/
theorem Marks.evict (h : Marks pages l t) (hv : 1 ≤ v ∧ v ≤ pages)
    (hl : ∀ p, p ∈ m ↔ p ∈ l ∧ p ≠ v) :
    ∃ t', t.write (v - 1) (-1) = .ok t' ∧ Marks pages m t' := by
  have hin : 0 ≤ v - 1 ∧ v - 1 < t.pages := by
    rw [h.pages]
    omega
  refine ⟨{ t with entry := Function.update t.entry (v - 1) (-1) }, if_pos hin, h.pages,
    fun p => ?_⟩
  show Function.update t.entry (v - 1) (-1) p = _
  by_cases hp : p = v - 1
  · rw [hp, Function.update_self, if_neg (fun hm => ((hl _).mp hm).2 (by omega))]
  · have hne : p + 1 ≠ v := by omega
    rw [Function.update_of_ne hp, h.entry]
    refine if_congr ?_ rfl rfl
    rw [hl]
    exact ⟨fun hm => ⟨hm, hne⟩, And.left⟩

end Table

/-- Requests number the pages from 1. -/
def indices (l : List Int) : List Int := l.map (· - 1)

theorem mem_indices {l : List Int} {r : Int} : r - 1 ∈ indices l ↔ r ∈ l := by
  rw [indices, List.mem_map]
  constructor
  · rintro ⟨p, hp, he⟩
    rwa [show r = p by omega]
  · exact fun hr => ⟨r, hr, rfl⟩

theorem indices_erase (l : List Int) (r : Int) :
    indices (l.erase r) = (indices l).erase (r - 1) := by
  rw [indices, List.map_erase (fun a b h => by simpa using h)]
  rfl

/-! ## LRU -/

/-- The simulator has the front of the recency list, and its faults. -/
structure LruOf (pages : Int) (k : Nat) (c : List Int × Nat) (st : Sim) : Prop where
  list : st.container = indices (c.1.take k)
  table : Marks pages (c.1.take k) st.pageTable
  faults : st.pageFaults = c.2
  nodup : c.1.Nodup
  range : ∀ r ∈ c.1, 1 ≤ r ∧ r ≤ pages

section Lru

variable {pages r : Int} {k j : Nat} {c : List Int × Nat} {st : Sim}

/-- With all frames taken the least recent page goes. -/
theorem lruEvict_spec (h : LruOf pages (j + 1) c st) : ∃ t, lruEvict (j + 1 : Nat) st =
    .ok (t, indices (c.1.take j)) ∧ Marks pages (c.1.take j) t := by
  have hlen : st.container.length = min (j + 1) c.1.length := by
    rw [h.list, indices, List.length_map, List.length_take]
  -- the frames are full when the recency list is longer than one less
  by_cases hfull : j < c.1.length
  · have hsplit : c.1.take (j + 1) = c.1.take j ++ [c.1[j]] :=
      List.take_succ_eq_append_getElem hfull
    have hnot : c.1[j] ∉ c.1.take j := by
      have hnodup := h.nodup.sublist (List.take_sublist (j + 1) c.1)
      rw [hsplit] at hnodup
      exact fun hm => (List.nodup_append.mp hnodup).2.2 _ hm _ (List.mem_singleton_self _) rfl
    have hlist : st.container = indices (c.1.take j) ++ [c.1[j] - 1] := by
      rw [h.list, hsplit, indices, List.map_append]
      rfl
    obtain ⟨t, ht, hmarks⟩ := h.table.evict (v := c.1[j]) (m := c.1.take j)
      (h.range _ (List.getElem_mem hfull)) (by
        intro p
        rw [hsplit, List.mem_append, List.mem_singleton]
        constructor
        · exact fun hp => ⟨Or.inl hp, fun he => hnot (he ▸ hp)⟩
        · exact fun hp => hp.1.resolve_right hp.2)
    refine ⟨t, ?_, hmarks⟩
    have hframes : (st.container.length : Int) = (j + 1 : Nat) := by
      rw [hlen]
      omega
    rw [lruEvict, if_pos hframes, hlist, List.getLast?_concat, List.dropLast_concat]
    exact bind_ok.mpr ⟨t, ht, rfl⟩
  · have hall : c.1.take (j + 1) = c.1.take j := by
      rw [List.take_of_length_le (by omega), List.take_of_length_le (by omega)]
    have hframes : ¬ (st.container.length : Int) = (j + 1 : Nat) := by
      rw [hlen]
      omega
    refine ⟨st.pageTable, ?_, hall ▸ h.table⟩
    rw [lruEvict, if_neg hframes, h.list, hall]

/-- **A TURN OF LRU** follows the policy. -/
theorem lruTurn_follows (h : LruOf pages (j + 1) c st) (hr : 1 ≤ r ∧ r ≤ pages) :
    ∃ st', lruTurn (j + 1 : Nat) st r = .ok st' ∧
      LruOf pages (j + 1) (lruStep (j + 1) c r) st' := by
  have hrange : ∀ p ∈ moveToFront c.1 r, 1 ≤ p ∧ p ≤ pages := by
    intro p hp
    rcases mem_moveToFront.mp hp with rfl | hp'
    · exact hr
    · exact h.range p hp'
  have hread := h.table.read hr
  by_cases hres : r ∈ c.1.take (j + 1)
  · rw [if_pos hres] at hread
    have hfront := take_moveToFront_of_mem hres
    refine ⟨{ st with
      container := (r - 1) :: st.container.erase (r - 1)
      hit := st.hit + 1 }, ?_, ?_, ?_, ?_, nodup_moveToFront h.nodup, hrange⟩
    · refine bind_ok.mpr ⟨1, hread, ?_⟩
      rw [if_neg (by decide), if_pos (by rw [h.list]; exact mem_indices.mpr hres)]
    · show (r - 1) :: st.container.erase (r - 1) = indices ((moveToFront c.1 r).take (j + 1))
      rw [hfront, h.list, ← indices_erase]
      rfl
    · show Marks pages ((moveToFront c.1 r).take (j + 1)) st.pageTable
      refine ⟨h.table.pages, fun p => ?_⟩
      rw [h.table.entry, hfront]
      refine if_congr ?_ rfl rfl
      rw [mem_moveToFront]
      exact ⟨Or.inr, fun hor => hor.elim (fun he => he ▸ hres) id⟩
    · show st.pageFaults = if r ∈ c.1.take (j + 1) then c.2 else c.2 + 1
      rw [if_pos hres]
      exact h.faults
  · rw [if_neg hres] at hread
    have hless : r ∉ c.1.take j := fun hm =>
      hres (List.take_subset_take_left c.1 (Nat.le_succ j) hm)
    have hfront := take_moveToFront_of_not_mem hless
    obtain ⟨t, hevict, hmarks⟩ := lruEvict_spec h
    obtain ⟨t', hload, hmarks'⟩ := hmarks.load (m := r :: c.1.take j) hr
      (fun p => List.mem_cons)
    refine ⟨{ st with
      pageTable := t'
      container := (r - 1) :: indices (c.1.take j)
      pageFaults := st.pageFaults + 1 }, ?_, ?_, ?_, ?_, nodup_moveToFront h.nodup, hrange⟩
    · refine bind_ok.mpr ⟨-1, hread, ?_⟩
      rw [if_pos rfl]
      exact bind_ok.mpr ⟨_, hevict, bind_ok.mpr ⟨t', hload, rfl⟩⟩
    · show (r - 1) :: indices (c.1.take j) = indices ((moveToFront c.1 r).take (j + 1))
      rw [hfront]
      rfl
    · show Marks pages ((moveToFront c.1 r).take (j + 1)) t'
      rw [hfront]
      exact hmarks'
    · show st.pageFaults + 1 = if r ∈ c.1.take (j + 1) then c.2 else c.2 + 1
      rw [if_neg hres, h.faults]

/-- **LRU FOLLOWS ITS POLICY** over any requests for pages of the table. -/
theorem lru_follows {requests : List Int} (hk : 1 ≤ k)
    (hreq : ∀ r ∈ requests, 1 ≤ r ∧ r ≤ pages) : ∃ st, LRU pages k requests = .ok st ∧
      LruOf pages k (requests.foldl (lruStep k) ([], 0)) st := by
  obtain ⟨j, rfl⟩ := Nat.exists_eq_succ_of_ne_zero (Nat.one_le_iff_ne_zero.mp hk)
  have hturn : ∀ c st r, LruOf pages (j + 1) c st → (1 ≤ r ∧ r ≤ pages) →
      ∃ st', lruTurn (j + 1 : Nat) st r = .ok st' ∧
        LruOf pages (j + 1) (lruStep (j + 1) c r) st' := fun _ _ _ h hr => lruTurn_follows h hr
  refine runAll_sim hturn ?_ hreq
  exact ⟨rfl, marks_fresh pages, rfl, List.nodup_nil, fun r hr => nomatch hr⟩

/-- **THE INCLUSION PROPERTY** of LRU, after every prefix of the requests:
    with fewer frames the list is the front of the list with more, what is
    resident is resident, and there are at least as many faults. -/
theorem inclusion {pages f g : Int} (hf : 1 ≤ f) (hfg : f ≤ g) {requests : List Int}
    (hreq : ∀ r ∈ requests, 1 ≤ r ∧ r ≤ pages) (done : List Int) (hdone : done <+: requests) :
    ∃ a b, LRU pages f done = .ok a ∧ LRU pages g done = .ok b ∧
      a.container = b.container.take (min f.toNat b.container.length) ∧
      (∀ p, a.pageTable.entry p = 1 → b.pageTable.entry p = 1) ∧ b.pageFaults ≤ a.pageFaults := by
  obtain ⟨m, rfl⟩ := Int.eq_ofNat_of_zero_le (show 0 ≤ f by omega)
  obtain ⟨n, rfl⟩ := Int.eq_ofNat_of_zero_le (show 0 ≤ g by omega)
  have hmn : m ≤ n := by omega
  have hdone' : ∀ r ∈ done, 1 ≤ r ∧ r ≤ pages := fun r hr => hreq r (hdone.subset hr)
  obtain ⟨a, ha, hla⟩ := lru_follows (k := m) (by omega) hdone'
  obtain ⟨b, hb, hlb⟩ := lru_follows (k := n) (by omega) hdone'
  have hlist : a.container = b.container.take m := by
    rw [hla.list, hlb.list, lru_recency, lru_recency, indices, indices, ← List.map_take,
      List.take_take, Nat.min_eq_left hmn]
  refine ⟨a, b, ha, hb, ?_, fun p hp => ?_, ?_⟩
  · rw [hlist, Int.toNat_natCast, ← List.take_eq_take_min]
  · rw [hlb.table.entry, lru_recency]
    rw [hla.table.entry, lru_recency] at hp
    by_cases hm : p + 1 ∈ (done.foldl moveToFront []).take m
    · rw [if_pos (List.take_subset_take_left _ hmn hm)]
    · rw [if_neg hm] at hp
      exact absurd hp (by decide)
  · rw [hla.faults, hlb.faults]
    exact lru_faults_antitone hmn done (le_refl 0)

end Lru

theorem inclusion_run : ∃ a b, LRU 4 2 [1, 2, 3, 1] = .ok a ∧ LRU 4 3 [1, 2, 3, 1] = .ok b ∧
    a.container = b.container.take (min (2 : Int).toNat b.container.length) ∧
    (∀ p, a.pageTable.entry p = 1 → b.pageTable.entry p = 1) ∧ b.pageFaults ≤ a.pageFaults :=
  inclusion (by decide) (by decide) (by decide) [1, 2, 3, 1]
    (show [1, 2, 3, 1] <+: [1, 2, 3, 1, 4] by decide)

/-! ## FIFO -/

/-- The simulator has the queue of the policy, and its faults. -/
structure FifoOf (pages : Int) (k : Nat) (c : List Int × Nat) (st : Sim) : Prop where
  list : st.container = indices c.1
  table : Marks pages c.1 st.pageTable
  faults : st.pageFaults = c.2
  nodup : c.1.Nodup
  range : ∀ r ∈ c.1, 1 ≤ r ∧ r ≤ pages

section Fifo

variable {pages r : Int} {k : Nat} {c : List Int × Nat} {st : Sim}

/-- With all frames taken the page at the front goes. -/
theorem fifoEvict_spec (h : FifoOf pages k c st) (hk : 1 ≤ k) : ∃ t, fifoEvict k st =
    .ok (t, indices (if c.1.length = k then c.1.tail else c.1)) ∧
      Marks pages (if c.1.length = k then c.1.tail else c.1) t := by
  have hlen : st.container.length = c.1.length := by rw [h.list, indices, List.length_map]
  by_cases hfull : c.1.length = k
  · rw [if_pos hfull, fifoEvict, if_pos (by rw [hlen, hfull])]
    obtain ⟨v, rest, hc⟩ : ∃ v rest, c.1 = v :: rest :=
      List.exists_cons_of_length_pos (by omega)
    have hnodup := h.nodup
    rw [hc] at hnodup
    obtain ⟨t, ht, hmarks⟩ := h.table.evict (v := v) (m := rest)
      (h.range v (hc ▸ List.mem_cons_self)) (by
        intro p
        rw [hc, List.mem_cons]
        constructor
        · exact fun hp => ⟨Or.inr hp, fun he => (List.nodup_cons.mp hnodup).1 (he ▸ hp)⟩
        · exact fun hp => hp.1.resolve_left hp.2)
    have hlist : st.container = (v - 1) :: indices rest := by rw [h.list, hc]; rfl
    refine ⟨t, ?_, by rw [hc]; exact hmarks⟩
    rw [hlist, hc]
    exact bind_ok.mpr ⟨t, ht, rfl⟩
  · have hframes : ¬ (st.container.length : Int) = k := by
      rw [hlen]
      omega
    rw [if_neg hfull, fifoEvict, if_neg hframes, h.list]
    exact ⟨_, rfl, h.table⟩

/-- **A TURN OF FIFO** follows the policy. -/
theorem fifoTurn_follows (h : FifoOf pages k c st) (hk : 1 ≤ k) (hr : 1 ≤ r ∧ r ≤ pages) :
    ∃ st', fifoTurn k st r = .ok st' ∧ FifoOf pages k (fifoStep k c r) st' := by
  have hread := h.table.read hr
  by_cases hres : r ∈ c.1
  · rw [if_pos hres] at hread
    rw [fifoStep, if_pos hres]
    refine ⟨{ st with hit := st.hit + 1 }, ?_, h.list, h.table, h.faults, h.nodup, h.range⟩
    refine bind_ok.mpr ⟨1, hread, ?_⟩
    rw [if_neg (by decide)]
  · rw [if_neg hres] at hread
    obtain ⟨t, hevict, hmarks⟩ := fifoEvict_spec h hk
    rw [fifoStep, if_neg hres]
    have hsub : ∀ p ∈ (if c.1.length = k then c.1.tail else c.1), p ∈ c.1 := by
      intro p hp
      by_cases hfull : c.1.length = k
      · rw [if_pos hfull] at hp
        exact List.mem_of_mem_tail hp
      · rw [if_neg hfull] at hp
        exact hp
    have hnodup : (if c.1.length = k then c.1.tail else c.1).Nodup := by
      split
      · exact h.nodup.tail
      · exact h.nodup
    -- whether or not a page went, the request goes behind the others
    generalize (if c.1.length = k then c.1.tail else c.1) = kept at *
    obtain ⟨t', hload, hmarks'⟩ := hmarks.load (m := kept ++ [r]) hr (fun p => by
      rw [List.mem_append, List.mem_singleton, or_comm])
    refine ⟨{ st with
      pageTable := t'
      container := indices kept ++ [r - 1]
      pageFaults := st.pageFaults + 1 }, ?_, ?_, hmarks', ?_, ?_, ?_⟩
    · refine bind_ok.mpr ⟨-1, hread, ?_⟩
      rw [if_pos rfl]
      exact bind_ok.mpr ⟨_, hevict, bind_ok.mpr ⟨t', hload, rfl⟩⟩
    · show indices kept ++ [r - 1] = indices (kept ++ [r])
      rw [indices, indices, List.map_append]
      rfl
    · show st.pageFaults + 1 = c.2 + 1
      rw [h.faults]
    · exact List.Nodup.append hnodup (List.nodup_singleton r)
        (List.disjoint_singleton.mpr (fun hm => hres (hsub r hm)))
    · intro p hp
      rcases List.mem_append.mp hp with hp' | hp'
      · exact h.range p (hsub p hp')
      · exact List.mem_singleton.mp hp' ▸ hr

/-- **FIFO FOLLOWS ITS POLICY** over any requests for pages of the table. -/
theorem fifo_follows {requests : List Int} (hk : 1 ≤ k)
    (hreq : ∀ r ∈ requests, 1 ≤ r ∧ r ≤ pages) : ∃ st, FIFO pages k requests = .ok st ∧
      FifoOf pages k (requests.foldl (fifoStep k) ([], 0)) st := by
  have hturn : ∀ c st r, FifoOf pages k c st → (1 ≤ r ∧ r ≤ pages) →
      ∃ st', fifoTurn k st r = .ok st' ∧ FifoOf pages k (fifoStep k c r) st' :=
    fun _ _ _ h hr => fifoTurn_follows h hk hr
  refine runAll_sim hturn ?_ hreq
  exact ⟨rfl, marks_fresh pages, rfl, List.nodup_nil, fun r hr => nomatch hr⟩

end Fifo

/-! ## Random -/

/-- The pages whose entry is 1. -/
def residents (t : Table) : Finset Int :=
  ((Finset.range t.pages.toNat).filter (fun i : Nat => t.entry (i : Int) = 1)).image Int.ofNat

section Random

variable {pages r : Int} {k : Nat} {st st' : RandomSim} {t t' : Table}

theorem mem_residents {p : Int} : p ∈ residents t ↔ (0 ≤ p ∧ p < t.pages) ∧ t.entry p = 1 := by
  rw [residents, Finset.mem_image]
  constructor
  · rintro ⟨i, hi, rfl⟩
    obtain ⟨hlt, hentry⟩ := Finset.mem_filter.mp hi
    have := Finset.mem_range.mp hlt
    exact ⟨⟨Int.natCast_nonneg i, show (i : Int) < t.pages by omega⟩, hentry⟩
  · rintro ⟨⟨h0, hlt⟩, hentry⟩
    obtain ⟨i, rfl⟩ := Int.eq_ofNat_of_zero_le h0
    exact ⟨i, Finset.mem_filter.mpr ⟨Finset.mem_range.mpr (by omega), hentry⟩, rfl⟩

/-- `count` counts the resident pages. -/
theorem count_eq (t : Table) : t.count = (residents t).card := by
  have hinj : Function.Injective Int.ofNat := fun _ _ h => Int.ofNat.inj h
  rw [residents, Finset.card_image_of_injective _ hinj, Table.count, List.countP_eq_length_filter]
  rfl

theorem read_ok {i v : Int} (h : t.read i = .ok v) : (0 ≤ i ∧ i < t.pages) ∧ v = t.entry i := by
  rw [Table.read] at h
  split at h
  · next hin => exact ⟨hin, (Except.ok.inj h).symm⟩
  · exact nomatch h

theorem write_ok {i v : Int} (h : t.write i v = .ok t') :
    (0 ≤ i ∧ i < t.pages) ∧ t' = { t with entry := Function.update t.entry i v } := by
  rw [Table.write] at h
  split at h
  · next hin => exact ⟨hin, (Except.ok.inj h).symm⟩
  · exact nomatch h

/-- Writing 1 makes a page resident. -/
theorem residents_load {i : Int} (h : t.write i 1 = .ok t') :
    residents t' = insert i (residents t) := by
  obtain ⟨hin, rfl⟩ := write_ok h
  ext p
  rw [Finset.mem_insert, mem_residents, mem_residents]
  show (0 ≤ p ∧ p < t.pages) ∧ Function.update t.entry i 1 p = 1 ↔ _
  by_cases hp : p = i
  · rw [hp, Function.update_self]
    exact ⟨fun _ => Or.inl rfl, fun _ => ⟨hin, rfl⟩⟩
  · rw [Function.update_of_ne hp]
    exact ⟨Or.inr, fun hor => hor.resolve_left hp⟩

/-- Writing -1 makes a page go. -/
theorem residents_evict {i : Int} (h : t.write i (-1) = .ok t') :
    residents t' = (residents t).erase i := by
  obtain ⟨-, rfl⟩ := write_ok h
  ext p
  rw [Finset.mem_erase, mem_residents, mem_residents]
  show (0 ≤ p ∧ p < t.pages) ∧ Function.update t.entry i (-1) p = 1 ↔ _
  by_cases hp : p = i
  · rw [hp, Function.update_self]
    exact ⟨fun hm => absurd hm.2 (by decide), fun hm => absurd rfl hm.1⟩
  · rw [Function.update_of_ne hp]
    exact ⟨fun hm => ⟨hp, hm⟩, And.right⟩

/-- The victim is a resident page. -/
theorem findVictim_ok {draws : List Nat} {found : Int × List Nat}
    (h : findVictim t draws = .ok found) : found.1 ∈ residents t := by
  -- on the draws: those that miss are dropped
  induction draws with
  | nil => exact nomatch h
  | cons d rest ih =>
      obtain ⟨v, hread, hrest⟩ := bind_ok.mp h
      obtain ⟨hin, rfl⟩ := read_ok hread
      by_cases hres : t.entry ((d : Int) % t.pages) = 1
      · rw [if_pos hres] at hrest
        cases hrest
        exact mem_residents.mpr ⟨hin, hres⟩
      · rw [if_neg hres] at hrest
        exact ih hrest

/-- The entries of a table are -1 and 1. -/
def Binary (t : Table) : Prop := ∀ p, t.entry p = 1 ∨ t.entry p = -1

theorem Binary.write (h : Binary t) {i v : Int} (hw : t.write i v = .ok t')
    (hv : v = 1 ∨ v = -1) : Binary t' := by
  obtain ⟨-, rfl⟩ := write_ok hw
  intro p
  show Function.update t.entry i v p = 1 ∨ Function.update t.entry i v p = -1
  by_cases hp : p = i
  · rw [hp, Function.update_self]
    exact hv
  · rw [Function.update_of_ne hp]
    exact h p

/-- An empty slot is found or made. -/
theorem randomEvict_ok {evicted : Table × List Nat} (hb : Binary st.pageTable)
    (hcard : (residents st.pageTable).card ≤ k) (hk : 1 ≤ k)
    (h : randomEvict k st = .ok evicted) :
    Binary evicted.1 ∧ residents evicted.1 ⊆ residents st.pageTable ∧
      (residents evicted.1).card + 1 ≤ k := by
  rw [randomEvict] at h
  by_cases hfull : (st.pageTable.count : Int) = k
  · rw [if_pos hfull] at h
    obtain ⟨found, hfound, hrest⟩ := bind_ok.mp h
    obtain ⟨t, hwrite, hend⟩ := bind_ok.mp hrest
    cases hend
    have hres := residents_evict hwrite
    refine ⟨hb.write hwrite (Or.inr rfl), ?_, ?_⟩
    · rw [hres]
      exact Finset.erase_subset _ _
    · rw [hres, Finset.card_erase_of_mem (findVictim_ok hfound), ← count_eq]
      omega
  · rw [if_neg hfull] at h
    cases h
    -- with a free slot the count is below the frames
    rw [count_eq] at hfull
    have hless : (residents st.pageTable).card + 1 ≤ k := by omega
    exact ⟨hb, Finset.Subset.refl _, hless⟩

/-- **A TURN OF RANDOM** is something a demand-paging policy may do. -/
theorem random_serves (hb : Binary st.pageTable) (hcard : (residents st.pageTable).card ≤ k)
    (hk : 1 ≤ k) (h : randomTurn k st r = .ok st') :
    Binary st'.pageTable ∧
      Serve k (residents st.pageTable, st.pageFaults) r
        (residents st'.pageTable, st'.pageFaults) := by
  obtain ⟨v, hread, hrest⟩ := bind_ok.mp h
  obtain ⟨hin, rfl⟩ := read_ok hread
  by_cases hfault : st.pageTable.entry r = -1
  · rw [if_pos hfault] at hrest
    obtain ⟨evicted, hevict, hrest⟩ := bind_ok.mp hrest
    obtain ⟨t, hwrite, hend⟩ := bind_ok.mp hrest
    cases hend
    obtain ⟨hb', hsub, hless⟩ := randomEvict_ok hb hcard hk hevict
    have hres := residents_load hwrite
    refine ⟨hb'.write hwrite (Or.inl rfl), .load ?_ ?_ ?_ ?_⟩
    · intro hm
      rw [(mem_residents.mp hm).2] at hfault
      exact absurd hfault (by decide)
    · show r ∈ residents t
      rw [hres]
      exact Finset.mem_insert_self _ _
    · show residents t ⊆ insert r (residents st.pageTable)
      rw [hres]
      exact Finset.insert_subset_insert r hsub
    · show (residents t).card ≤ k
      rw [hres]
      exact le_trans (Finset.card_insert_le _ _) hless
  · rw [if_neg hfault] at hrest
    cases hrest
    exact ⟨hb, .hit (mem_residents.mpr ⟨hin, (hb r).resolve_right hfault⟩)⟩

/-- Random pays for every phase of its requests. -/
theorem random_paid {requests : List Int} {draws : List Nat} (hk : 1 ≤ k)
    (h : Random pages k requests draws = .ok st) :
    Paid k (requests.foldl (Phase.step k) .first) (residents st.pageTable, st.pageFaults) := by
  have hturn : ∀ (ph : Phase Int) (s : RandomSim) (q : Int) (s' : RandomSim),
      (Binary s.pageTable ∧ Paid k ph (residents s.pageTable, s.pageFaults)) → True →
      randomTurn k s q = .ok s' → Binary s'.pageTable ∧
        Paid k (ph.step k q) (residents s'.pageTable, s'.pageFaults) := by
    rintro ph s q s' ⟨hb, hpaid⟩ - hq
    obtain ⟨hb', hserve⟩ := random_serves hb hpaid.1 hk hq
    exact ⟨hb', serve_phase hk hpaid hserve⟩
  have hempty : residents (freshTable pages) = ∅ := by
    refine Finset.eq_empty_of_forall_notMem (fun p hp => ?_)
    exact absurd (mem_residents.mp hp).2 (show ¬ (-1 : Int) = 1 by decide)
  refine (runAll_follow hturn ⟨fun _ => Or.inr rfl, ?_⟩ (fun _ _ => trivial) h).2
  show Paid k .first (residents (freshTable pages), 0)
  rw [hempty]
  exact paid_first

end Random

/-- The policies pay at most once for each page of a phase. -/
theorem policies_paid {k : Nat} (hk : 1 ≤ k) (requests : List Int) :
    LruPaid k (requests.foldl (Phase.step k) .first) (requests.foldl (lruStep k) ([], 0)) ∧
      FifoPaid k (requests.foldl (Phase.step k) .first)
        (requests.foldl (fifoStep k) ([], 0)) := by
  induction requests using List.reverseRecOn with
  | nil => exact ⟨lruPaid_first, fifoPaid_first⟩
  | append_singleton rs r ih =>
      simp only [List.foldl_append, List.foldl_cons, List.foldl_nil]
      exact ⟨lru_phase hk ih.1, fifo_phase hk ih.2⟩

/-- **LRU AND FIFO ARE COMPETITIVE**: they fault at most `frames` times as
    often as Random, whatever `rand()` answers. -/
theorem competitive_bound {pages frames : Int} (hframes : 1 ≤ frames) {requests : List Int}
    (hreq : ∀ r ∈ requests, 1 ≤ r ∧ r ≤ pages - 1) {draws : List Nat} {chosen : RandomSim}
    (hrandom : Random pages frames requests draws = .ok chosen) :
    ∃ lru fifo, LRU pages frames requests = .ok lru ∧ FIFO pages frames requests = .ok fifo ∧
      (lru.pageFaults : Int) ≤ frames * chosen.pageFaults ∧
      (fifo.pageFaults : Int) ≤ frames * chosen.pageFaults := by
  obtain ⟨k, rfl⟩ := Int.eq_ofNat_of_zero_le (show 0 ≤ frames by omega)
  have hk : 1 ≤ k := by omega
  have hreq' : ∀ r ∈ requests, 1 ≤ r ∧ r ≤ pages := fun r hr => by
    have := hreq r hr
    omega
  obtain ⟨lru, hlru, hl⟩ := lru_follows hk hreq'
  obtain ⟨fifo, hfifo, hf⟩ := fifo_follows hk hreq'
  have hpaid := random_paid hk hrandom
  obtain ⟨hlpaid, hfpaid⟩ := policies_paid hk requests
  refine ⟨lru, fifo, hlru, hfifo, ?_, ?_⟩
  · rw [hl.faults]
    exact_mod_cast competitive hlpaid.faults hlpaid.few hpaid
  · rw [hf.faults]
    exact_mod_cast competitive hfpaid.faults hfpaid.few hpaid

theorem competitive_bound_run : ∃ chosen, Random 6 3 [1, 2, 3, 4, 1] [0, 1, 2, 3, 4] = .ok chosen ∧
    ∃ lru fifo, LRU 6 3 [1, 2, 3, 4, 1] = .ok lru ∧ FIFO 6 3 [1, 2, 3, 4, 1] = .ok fifo ∧
      (lru.pageFaults : Int) ≤ 3 * chosen.pageFaults ∧
      (fifo.pageFaults : Int) ≤ 3 * chosen.pageFaults := by
  obtain ⟨chosen, hchosen⟩ := ok_of_isSome
    (show (Random 6 3 [1, 2, 3, 4, 1] [0, 1, 2, 3, 4]).toOption.isSome = true by decide)
  exact ⟨chosen, hchosen, competitive_bound (by decide) (by decide) hchosen⟩

end PagersRun
