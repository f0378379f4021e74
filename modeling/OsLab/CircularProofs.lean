import OsLab.HeapProofs
import OsLab.LoopProofs

/-! # Circular lists on a heap

    A `Chain` follows a link from record to record.  A `Ring` is a chain of
    distinct records back to where it started, or nothing at all when there
    is no head.

    The loop `while (p->link != head) p = p->link` ends at the last record
    of a ring (`Ring.walk`).  A ring grows at its end (`Ring.snoc`), loses
    its first record (`Ring.uncons`), and can be entered at the second
    (`Ring.rotate`). -/

namespace OsRing

open OsHeap OsLoop

variable {ε α : Type} {link : α → Ptr} {h h' : Heap α} {p q head : Ptr}
  {L M : List (Addr × α)} {a t : Addr} {n m : α}

/-- From `p`, the links lead through the records of the list to `q`. -/
def Chain (link : α → Ptr) (h : Heap α) : Ptr → List (Addr × α) → Ptr → Prop
  | p, [], q => p = q
  | p, (a, n) :: rest, q => p = some a ∧ h.lookup a = some n ∧ Chain link h (link n) rest q

/-! ## Chains -/

theorem chain_append : Chain link h p (L ++ M) q ↔
    ∃ r, Chain link h p L r ∧ Chain link h r M q := by
  induction L generalizing p with
  | nil => exact ⟨fun hc => ⟨p, rfl, hc⟩, fun ⟨_, hp, hc⟩ => hp ▸ hc⟩
  | cons x L ih =>
      constructor
      · rintro ⟨hp, hx, hc⟩
        obtain ⟨r, hL, hM⟩ := ih.mp hc
        exact ⟨r, ⟨hp, hx, hL⟩, hM⟩
      · rintro ⟨r, ⟨hp, hx, hL⟩, hM⟩
        exact ⟨hp, hx, ih.mpr ⟨r, hL, hM⟩⟩

theorem chain_snoc : Chain link h p (L ++ [(t, n)]) q ↔
    Chain link h p L (some t) ∧ h.lookup t = some n ∧ link n = q := by
  rw [chain_append]
  constructor
  · rintro ⟨r, hL, rfl, ht, hq⟩
    exact ⟨hL, ht, hq⟩
  · rintro ⟨hL, ht, hq⟩
    exact ⟨some t, hL, rfl, ht, hq⟩

/-- The records of a chain are live. -/
theorem Chain.live (hc : Chain link h p L q) {x : Addr × α} (hx : x ∈ L) :
    h.lookup x.1 = some x.2 := by
  induction L generalizing p with
  | nil => exact nomatch hx
  | cons y L ih =>
      obtain ⟨-, hy, hrest⟩ := hc
      rcases List.mem_cons.mp hx with rfl | hx
      · exact hy
      · exact ih hrest hx

/-- A chain is the same on a heap with the same records. -/
theorem Chain.congr (hc : Chain link h p L q)
    (heq : ∀ x ∈ L, h'.lookup x.1 = h.lookup x.1) : Chain link h' p L q := by
  induction L generalizing p with
  | nil => exact hc
  | cons x L ih =>
      obtain ⟨hp, hx, hrest⟩ := hc
      rw [List.forall_mem_cons] at heq
      exact ⟨hp, heq.1.trans hx, ih hrest heq.2⟩

/-! ## Rings -/

/-- The records from `head` on, back to `head`. -/
structure Ring (link : α → Ptr) (h : Heap α) (head : Ptr) (L : List (Addr × α)) : Prop where
  chain : Chain link h head L head
  distinct : (L.map Prod.fst).Nodup
  null : L = [] → head = none

theorem Ring.nil (link : α → Ptr) (h : Heap α) : Ring link h none [] :=
  ⟨rfl, List.nodup_nil, fun _ => rfl⟩

theorem Ring.single (hn : h.lookup a = some n) (hlink : link n = some a) :
    Ring link h (some a) [(a, n)] :=
  ⟨⟨rfl, hn, hlink⟩, List.nodup_singleton a, nofun⟩

theorem Ring.head_iff (hr : Ring link h head L) : head = none ↔ L = [] := by
  constructor
  · rintro rfl
    cases L with
    | nil => rfl
    | cons x L => exact nomatch hr.chain.1
  · exact hr.null

/-- A ring has no more records than the heap. -/
theorem Ring.length_le (hr : Ring link h head L) : L.length ≤ h.keys.length := by
  have hsub : L.map Prod.fst ⊆ h.keys := by
    intro b hb
    obtain ⟨x, hx, rfl⟩ := List.mem_map.mp hb
    exact AList.mem_keys.mp (AList.lookup_isSome.mp (by rw [hr.chain.live hx]; rfl))
  have hle := (List.subperm_of_subset hr.distinct hsub).length_le
  rwa [List.length_map] at hle

/-- A ring is the same on a heap with the same records. -/
theorem Ring.congr (hr : Ring link h head L) (heq : ∀ x ∈ L, h'.lookup x.1 = h.lookup x.1) :
    Ring link h' head L := ⟨hr.chain.congr heq, hr.distinct, hr.null⟩

theorem Ring.ne_last (hr : Ring link h head (L ++ [(t, n)])) : ∀ x ∈ L, x.1 ≠ t := by
  intro x hx heq
  have hdistinct := hr.distinct
  rw [List.map_append, List.nodup_append] at hdistinct
  exact hdistinct.2.2 x.1 (List.mem_map_of_mem hx) t List.mem_cons_self heq

/-- The address of a record behind the first is not the head. -/
theorem Ring.ne_head {x : Addr × α} (hr : Ring link h head (x :: L)) :
    ∀ y ∈ L, some y.1 ≠ head := by
  intro y hy heq
  have hx := hr.chain.1
  rw [hx, Option.some.injEq] at heq
  have hnot := (List.nodup_cons.mp hr.distinct).1
  exact hnot (heq ▸ List.mem_map_of_mem hy)

/-- The chain `L` from `p` stops in front of `stop`, and only there. -/
structure Ahead (link : α → Ptr) (h : Heap α) (stop : Ptr) (L : List (Addr × α)) (p : Ptr) :
    Prop where
  chain : Chain link h p L stop
  apart : ∀ x ∈ L.tail, some x.1 ≠ stop
  nonempty : L ≠ []

theorem Ring.ahead (hr : Ring link h head L) (hne : L ≠ []) : Ahead link h head L head := by
  refine ⟨hr.chain, ?_, hne⟩
  cases L with
  | nil => exact absurd rfl hne
  | cons x L => exact hr.ne_head

/-- The first record of what is ahead, and whether it is the last. -/
theorem Ahead.first {x : Addr × α} {stop : Ptr} (ha : Ahead link h stop (x :: L) p) :
    p = some x.1 ∧ h.lookup x.1 = some x.2 ∧ (link x.2 = stop ↔ L = []) ∧
      (link x.2 ≠ stop → Ahead link h stop L (link x.2)) := by
  obtain ⟨hp, hx, hrest⟩ := ha.chain
  have hiff : link x.2 = stop ↔ L = [] := by
    cases L with
    | nil => exact ⟨fun _ => rfl, fun _ => hrest⟩
    | cons y L =>
        refine iff_of_false (fun heq => ?_) (List.cons_ne_nil y L)
        exact ha.apart y List.mem_cons_self (hrest.1.symm.trans heq)
  exact ⟨hp, hx, hiff, fun hne => ⟨hrest, fun y hy => ha.apart y (List.mem_of_mem_tail hy),
    fun hnil => hne (hiff.mpr hnil)⟩⟩

/-- One turn of `while (p->link != stop) p = p->link`. -/
def hop (e : ε) (link : α → Ptr) (h : Heap α) (stop p : Ptr) : Except ε (Turn Ptr Addr) := do
  let r ← follow e h p
  if link r.2 = stop then .ok (.done r.1) else .ok (.again (link r.2))

/-- **THE WALK** from the head of a ring ends at its last record. -/
theorem Ring.walk {e stuck : ε} (hr : Ring link h head (L ++ [(t, n)])) {fuel : Nat}
    (hfuel : h.keys.length ≤ fuel) : loop stuck (hop e link h head) fuel head = .ok t := by
  have hne : L ++ [(t, n)] ≠ [] :=
    List.append_ne_nil_of_right_ne_nil L (List.cons_ne_nil (t, n) [])
  have hbody : ∀ x rest p, Ahead link h head (x :: rest) p ∧ (x :: rest).getLast? = some (t, n) →
      (∃ a, hop e link h head p = .ok (.done a) ∧ a = t) ∨
      ∃ p', hop e link h head p = .ok (.again p') ∧
        Ahead link h head rest p' ∧ rest.getLast? = some (t, n) := by
    rintro x rest p ⟨hahead, hlast⟩
    obtain ⟨rfl, hx, hiff, hnext⟩ := hahead.first
    by_cases hstop : link x.2 = head
    · rw [hiff.mp hstop, List.getLast?_singleton, Option.some.injEq] at hlast
      refine Or.inl ⟨x.1, bind_ok.mpr ⟨x, follow_some hx, ?_⟩, by rw [hlast]⟩
      rw [if_pos hstop]
    · refine Or.inr ⟨link x.2, bind_ok.mpr ⟨x, follow_some hx, ?_⟩, hnext hstop, ?_⟩
      · rw [if_neg hstop]
      · rwa [List.getLast?_cons_of_ne_nil (fun hnil => hstop (hiff.mpr hnil))] at hlast
  have hleft : ∃ a, loop stuck (hop e link h head) fuel head = .ok a ∧ a = t :=
    loop_list (I := fun M p => Ahead link h head M p ∧ M.getLast? = some (t, n))
      (fun p hI => hI.1.nonempty rfl) hbody ⟨hr.ahead hne, List.getLast?_concat⟩
      (hr.length_le.trans hfuel)
  obtain ⟨a, hloop, rfl⟩ := hleft
  exact hloop

/-- **A RING GROWS** at its end: the last record is linked to a new one. -/
theorem Ring.snoc {n' : α} (hr : Ring link h head (L ++ [(t, n)]))
    (hL : ∀ x ∈ L, h'.lookup x.1 = h.lookup x.1) (ht : h'.lookup t = some n')
    (ha : h'.lookup a = some m) (hfresh : h.lookup a = none) (hlink : link n' = some a)
    (hback : link m = head) : Ring link h' head (L ++ [(t, n')] ++ [(a, m)]) := by
  obtain ⟨hchain, -, -⟩ := chain_snoc.mp hr.chain
  refine ⟨chain_snoc.mpr ⟨chain_snoc.mpr ⟨hchain.congr hL, ht, hlink⟩, ha, hback⟩, ?_, ?_⟩
  · have hnew : a ∉ (L ++ [(t, n)]).map Prod.fst := by
      intro hmem
      obtain ⟨x, hx, rfl⟩ := List.mem_map.mp hmem
      rw [hr.chain.live hx] at hfresh
      exact nomatch hfresh
    have hsame : (L ++ [(t, n')]).map Prod.fst = (L ++ [(t, n)]).map Prod.fst := by
      rw [List.map_append, List.map_append]
      rfl
    rw [List.map_append, hsame]
    exact hr.distinct.append (List.nodup_singleton a)
      (List.disjoint_singleton.mpr hnew)
  · exact fun hnil => absurd hnil (List.append_ne_nil_of_right_ne_nil _ (List.cons_ne_nil _ _))

/-- **A RING LOSES ITS FIRST RECORD**: the last one is linked to the second,
    which is the new head. -/
theorem Ring.uncons {x : Addr × α} {n' : α} (hr : Ring link h head (x :: (L ++ [(t, n)])))
    (hL : ∀ y ∈ L, h'.lookup y.1 = h.lookup y.1) (ht : h'.lookup t = some n')
    (hlink : link n' = link x.2) : Ring link h' (link x.2) (L ++ [(t, n')]) := by
  obtain ⟨-, -, hrest⟩ := hr.chain
  obtain ⟨hchain, -, -⟩ := chain_snoc.mp hrest
  refine ⟨chain_snoc.mpr ⟨hchain.congr hL, ht, hlink⟩, ?_, ?_⟩
  · have hsame : (L ++ [(t, n')]).map Prod.fst = (L ++ [(t, n)]).map Prod.fst := by
      rw [List.map_append, List.map_append]
      rfl
    rw [hsame]
    exact (List.nodup_cons.mp hr.distinct).2
  · exact fun hnil => absurd hnil (List.append_ne_nil_of_right_ne_nil _ (List.cons_ne_nil _ _))

/-- **A RING IS ENTERED** at its second record. -/
theorem Ring.rotate {x : Addr × α} (hr : Ring link h head (x :: L)) :
    Ring link h (link x.2) (L ++ [x]) := by
  obtain ⟨hhead, hx, hrest⟩ := hr.chain
  refine ⟨chain_snoc.mpr ⟨hhead ▸ hrest, hx, rfl⟩, ?_, ?_⟩
  · rw [List.map_append]
    exact (List.perm_append_singleton x.1 (L.map Prod.fst)).nodup_iff.mpr hr.distinct
  · exact fun hnil => absurd hnil (List.append_ne_nil_of_right_ne_nil _ (List.cons_ne_nil _ _))

end OsRing
