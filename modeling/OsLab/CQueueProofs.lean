import OsLab.CQueueModelProofs

/-! # The circular queue is a FIFO queue, until its last node goes

    As long as `delete_begin` is not called on a queue of one node, the
    nodes form a ring (`Holds`), and the ring has the contents of a list that
    grows at its end and shrinks at its front.  On a queue of one node
    `delete_begin` frees the node and leaves `cpuQueueHead` pointing to it:
    every later call follows it, or the `NULL` of a node that took its place
    (`dangling_serve`). -/

namespace CQueue

open OsHeap OsLoop OsRing CQueueModel

/-- What a node holds. -/
def entry (n : CpuQueueNode) : Int × Int := (n.pid, n.timeLeft)

/-- A call, on the list of what is queued. -/
def fifo (q : List (Int × Int)) : Op → List (Int × Int)
  | .enqueue ipid ival => q ++ [(ipid, ival)]
  | .deleteBegin => q.tail

/-- The call deletes the last entry. -/
def TakesLast (q : List (Int × Int)) (op : Op) : Prop := op = .deleteBegin ∧ q.length = 1

/-- One turn of the walk around the queue. -/
def collectTurn (st : State) (s : List (Int × Int) × Ptr) :
    Except Fault (Turn (List (Int × Int) × Ptr) (List (Int × Int))) := do
  let t ← follow .badNode st.nodes s.2
  let seen := s.1 ++ [entry t.2]
  if t.2.next = st.cpuQueueHead then .ok (.done seen) else .ok (.again (seen, t.2.next))

/-- What is reached from `cpuQueueHead` by following `next` until it returns
    to the head. -/
def reached (st : State) : Except Fault (List (Int × Int)) :=
  if st.cpuQueueHead = none then .ok []
  else loop .endless (collectTurn st) st.turns ([], st.cpuQueueHead)

/-- The state stands for the list `q`. -/
structure Implements (st : State) (q : List (Int × Int)) : Prop where
  /-- in order, and through no freed node -/
  reached : reached st = .ok q
  null : st.cpuQueueHead = none ↔ q = []
  member : ∀ p, inCQueue st p = .ok (decide (p ∈ q.map Prod.fst))

/-- The nodes form a ring with the entries of `q`. -/
def Holds (st : State) (q : List (Int × Int)) : Prop :=
  ∃ L, Ring CpuQueueNode.next st.nodes st.cpuQueueHead L ∧ L.map (fun x => entry x.2) = q

/-- The head points to no node. -/
def Dangling (st : State) : Prop :=
  ∃ a, st.cpuQueueHead = some a ∧ st.nodes.lookup a = none

section Walks

variable {st : State} {L M : List (Addr × CpuQueueNode)} {p : Int}

theorem findTail_ring {t : Addr} {n : CpuQueueNode}
    (hr : Ring CpuQueueNode.next st.nodes st.cpuQueueHead (L ++ [(t, n)])) :
    findTail st = .ok t :=
  hr.walk (Nat.le_succ _)

/-- What was seen, followed by what is ahead, is the whole. -/
def Collecting (st : State) (L M : List (Addr × CpuQueueNode)) (s : List (Int × Int) × Ptr) :
    Prop :=
  Ahead CpuQueueNode.next st.nodes st.cpuQueueHead M s.2 ∧
    s.1 ++ M.map (fun x => entry x.2) = L.map fun x => entry x.2

theorem collectTurn_step {x : Addr × CpuQueueNode} {s : List (Int × Int) × Ptr}
    (h : Collecting st L (x :: M) s) :
    (∃ a, collectTurn st s = .ok (.done a) ∧ a = L.map fun x => entry x.2) ∨
      ∃ s', collectTurn st s = .ok (.again s') ∧ Collecting st L M s' := by
  obtain ⟨seen, p⟩ := s
  obtain ⟨hahead, hseen⟩ := h
  obtain ⟨rfl, hx, hiff, hnext⟩ := hahead.first
  have hseen' : (seen ++ [entry x.2]) ++ M.map (fun x => entry x.2) =
      L.map fun x => entry x.2 := by
    rw [← hseen, List.append_assoc]
    rfl
  by_cases hstop : x.2.next = st.cpuQueueHead
  · refine Or.inl ⟨seen ++ [entry x.2], bind_ok.mpr ⟨x, follow_some hx, if_pos hstop⟩, ?_⟩
    rw [hiff.mp hstop] at hseen'
    exact (List.append_nil _).symm.trans hseen'
  · exact Or.inr ⟨(seen ++ [entry x.2], x.2.next),
      bind_ok.mpr ⟨x, follow_some hx, if_neg hstop⟩, hnext hstop, hseen'⟩

/-- The walk around a ring meets its entries in order. -/
theorem reached_ring (hr : Ring CpuQueueNode.next st.nodes st.cpuQueueHead L) :
    reached st = .ok (L.map fun x => entry x.2) := by
  by_cases hnil : L = []
  · rw [reached, if_pos (hr.null hnil), hnil]
    rfl
  · rw [reached, if_neg (fun hnone => hnil (hr.head_iff.mp hnone))]
    have hleft : ∃ a, loop .endless (collectTurn st) st.turns ([], st.cpuQueueHead) = .ok a ∧
        a = L.map fun x => entry x.2 :=
      loop_list (I := Collecting st L) (fun _ hI => hI.1.nonempty rfl)
        (fun _ _ _ hI => collectTurn_step hI) ⟨hr.ahead hnil, rfl⟩
        (hr.length_le.trans (Nat.le_succ _))
    obtain ⟨a, hloop, rfl⟩ := hleft
    exact hloop

/-- The pid is not that of the next node, and it is ahead if it is anywhere. -/
def Scanning (st : State) (L : List (Addr × CpuQueueNode)) (p : Int)
    (M : List (Addr × CpuQueueNode)) (tail : Ptr) : Prop :=
  Ahead CpuQueueNode.next st.nodes st.cpuQueueHead M tail ∧ (∀ x ∈ M.head?, x.2.pid ≠ p) ∧
    (p ∈ L.map (fun x => x.2.pid) ↔ p ∈ M.map fun x => x.2.pid)

theorem scanTurn_step {x : Addr × CpuQueueNode} {tail : Ptr}
    (h : Scanning st L p (x :: M) tail) :
    (∃ b, scanTurn st p tail = .ok (.done b) ∧ b = decide (p ∈ L.map fun x => x.2.pid)) ∨
      ∃ tail', scanTurn st p tail = .ok (.again tail') ∧ Scanning st L p M tail' := by
  obtain ⟨hahead, hhead, hmem⟩ := h
  obtain ⟨rfl, hx, hiff, hnext⟩ := hahead.first
  have hxp : x.2.pid ≠ p := hhead x rfl
  have hmem' : p ∈ L.map (fun x => x.2.pid) ↔ p ∈ M.map fun x => x.2.pid := by
    rw [hmem, List.map_cons, List.mem_cons]
    exact or_iff_right (fun heq => hxp heq.symm)
  by_cases hstop : x.2.next = st.cpuQueueHead
  · refine Or.inl ⟨decide (x.2.pid = p), bind_ok.mpr ⟨x, follow_some hx, ?_⟩, ?_⟩
    · exact if_neg (not_not.mpr hstop)
    · rw [decide_eq_decide, hmem', hiff.mp hstop]
      exact iff_of_false hxp List.not_mem_nil
  · have hahead' := hnext hstop
    obtain ⟨y, M', rfl⟩ := List.exists_cons_of_ne_nil hahead'.nonempty
    obtain ⟨hy, hlook, -⟩ := hahead'.first
    have hfollow : follow Fault.badNode st.nodes x.2.next = .ok y := by
      rw [hy]
      exact follow_some hlook
    by_cases hyp : y.2.pid = p
    · refine Or.inl ⟨true, bind_ok.mpr ⟨x, follow_some hx, ?_⟩, ?_⟩
      · rw [if_pos hstop]
        exact bind_ok.mpr ⟨y, hfollow, if_pos hyp⟩
      · exact (decide_eq_true (hmem'.mpr (List.mem_map.mpr ⟨y, List.mem_cons_self, hyp⟩))).symm
    · refine Or.inr ⟨x.2.next, bind_ok.mpr ⟨x, follow_some hx, ?_⟩, hahead', ?_, hmem'⟩
      · rw [if_pos hstop]
        exact bind_ok.mpr ⟨y, hfollow, if_neg hyp⟩
      · intro z hz
        rwa [← Option.some.inj hz]

/-- The scan of a ring answers whether the pid is in it. -/
theorem inCQueue_ring (hr : Ring CpuQueueNode.next st.nodes st.cpuQueueHead L) (p : Int) :
    inCQueue st p = .ok (decide (p ∈ L.map fun x => x.2.pid)) := by
  cases L with
  | nil =>
      rw [inCQueue, if_pos (hr.null rfl)]
      rfl
  | cons y L =>
      have hne : st.cpuQueueHead ≠ none := fun hnone => List.cons_ne_nil y L (hr.head_iff.mp hnone)
      have hahead := hr.ahead (List.cons_ne_nil y L)
      obtain ⟨hhead, hy, -⟩ := hahead.first
      have hfollow : follow Fault.badNode st.nodes st.cpuQueueHead = .ok y := by
        rw [hhead]
        exact follow_some hy
      rw [inCQueue, if_neg hne]
      refine bind_ok.mpr ⟨y, hfollow, ?_⟩
      by_cases hyp : y.2.pid = p
      · rw [if_pos hyp]
        refine congrArg Except.ok (decide_eq_true ?_).symm
        exact List.mem_map.mpr ⟨y, List.mem_cons_self, hyp⟩
      · rw [if_neg hyp]
        have hfirst : ∀ x ∈ (y :: L).head?, x.2.pid ≠ p := by
          intro x hx
          rwa [← Option.some.inj hx]
        have hleft : ∃ b, loop .endless (scanTurn st p) st.turns st.cpuQueueHead = .ok b ∧
            b = decide (p ∈ (y :: L).map fun x => x.2.pid) :=
          loop_list (I := Scanning st (y :: L) p) (fun _ hI => hI.1.nonempty rfl)
            (fun _ _ _ hI => scanTurn_step hI) ⟨hahead, hfirst, Iff.rfl⟩
            (hr.length_le.trans (Nat.le_succ _))
        obtain ⟨b, hloop, rfl⟩ := hleft
        exact hloop

end Walks

section Calls

variable {A : Malloc} {st : State} {q : List (Int × Int)}

/-- **A RING STANDS FOR** the list of its entries. -/
theorem Holds.implements (h : Holds st q) : Implements st q := by
  obtain ⟨L, hr, rfl⟩ := h
  refine ⟨reached_ring hr, ?_, fun p => ?_⟩
  · rw [hr.head_iff, List.map_eq_nil_iff]
  · rw [inCQueue_ring hr, List.map_map]
    rfl

theorem start_holds : Holds start [] := ⟨[], Ring.nil _ _, rfl⟩

theorem lookup_setNext (nodes : Heap CpuQueueNode) (a b : Addr) (p : Ptr) :
    (setNext nodes a p).lookup b =
      if b = a then (nodes.lookup a).map (fun n => { n with next := p }) else nodes.lookup b :=
  lookup_store nodes a b _

/-- The new node comes last. -/
theorem enqueue_holds (A : Malloc) (h : Holds st q) (ipid ival : Int) :
    ∃ st', enqueue A st ipid ival = .ok st' ∧ Holds st' (q ++ [(ipid, ival)]) := by
  obtain ⟨L, hr, rfl⟩ := h
  let node : CpuQueueNode := { pid := ipid, timeLeft := ival, next := none }
  let new := alloc A st.nodes node
  have hfresh : st.nodes.lookup new.1 = none := alloc_fresh A st.nodes node
  have hnew : ∀ b, new.2.lookup b = if b = new.1 then some node else st.nodes.lookup b :=
    lookup_alloc A st.nodes node
  rcases List.eq_nil_or_concat' L with rfl | ⟨M, ⟨t, n⟩, rfl⟩
  · refine ⟨⟨setNext new.2 new.1 (some new.1), some new.1⟩, if_pos (hr.null rfl),
      [(new.1, { node with next := some new.1 })], Ring.single ?_ rfl, rfl⟩
    rw [lookup_setNext, if_pos rfl, hnew, if_pos rfl]
    rfl
  · have hne : st.cpuQueueHead ≠ none := fun hnone =>
      List.append_ne_nil_of_right_ne_nil M (List.cons_ne_nil (t, n) []) (hr.head_iff.mp hnone)
    -- a node of the queue is not the new one
    have hold : ∀ x ∈ M ++ [(t, n)], x.1 ≠ new.1 := by
      intro x hx heq
      have hlive := hr.chain.live hx
      rw [heq, hfresh] at hlive
      exact nomatch hlive
    have hkept : ∀ x ∈ M ++ [(t, n)], new.2.lookup x.1 = st.nodes.lookup x.1 := by
      intro x hx
      rw [hnew, if_neg (hold x hx)]
    have htail : findTail ⟨new.2, st.cpuQueueHead⟩ = .ok t := findTail_ring (hr.congr hkept)
    have hM : ∀ x ∈ M, x ∈ M ++ [(t, n)] := fun x hx => List.mem_append_left _ hx
    have ht : (t, n) ∈ M ++ [(t, n)] := List.mem_append_right _ List.mem_cons_self
    refine ⟨⟨setNext (setNext new.2 t (some new.1)) new.1 st.cpuQueueHead, st.cpuQueueHead⟩, ?_,
      M ++ [(t, { n with next := some new.1 })] ++ [(new.1, { node with next := st.cpuQueueHead })],
      hr.snoc (fun x hx => ?_) ?_ ?_ hfresh rfl rfl, ?_⟩
    · rw [enqueue]
      exact (if_neg hne).trans (bind_ok.mpr ⟨t, htail, rfl⟩)
    · rw [lookup_setNext, if_neg (hold x (hM x hx)), lookup_setNext, if_neg (hr.ne_last x hx),
        hkept x (hM x hx)]
    · rw [lookup_setNext, if_neg (hold _ ht), lookup_setNext, if_pos rfl, hkept _ ht,
        hr.chain.live ht]
      rfl
    · rw [lookup_setNext, if_pos rfl, lookup_setNext, if_neg (Ne.symm (hold _ ht)), hnew, if_pos rfl]
      rfl
    · rw [List.map_append, List.map_append, List.map_append]
      rfl

/-- The first node goes, if it is not the only one. -/
theorem deleteBegin_holds (h : Holds st q) (hq : q.length ≠ 1) :
    ∃ st', deleteBegin st = .ok st' ∧ Holds st' q.tail := by
  obtain ⟨L, hr, rfl⟩ := h
  cases L with
  | nil => exact ⟨st, if_pos (hr.null rfl), [], hr, rfl⟩
  | cons x L =>
      have hahead := hr.ahead (List.cons_ne_nil x L)
      obtain ⟨hhead, hx, hiff, -⟩ := hahead.first
      rcases List.eq_nil_or_concat' L with rfl | ⟨M, ⟨t, n⟩, rfl⟩
      · exact absurd rfl hq
      · have hne : st.cpuQueueHead ≠ none := by
          rw [hhead]
          exact nofun
        have hlink : st.cpuQueueHead ≠ x.2.next := fun heq =>
          List.append_ne_nil_of_right_ne_nil M (List.cons_ne_nil (t, n) []) (hiff.mp heq.symm)
        have hfollow : follow Fault.badNode st.nodes st.cpuQueueHead = .ok x := by
          rw [hhead]
          exact follow_some hx
        have htail : findTail st = .ok t := findTail_ring (L := x :: M) hr
        have hfirst : ∀ y ∈ M ++ [(t, n)], y.1 ≠ x.1 := by
          intro y hy heq
          refine hr.ne_head y hy ?_
          rw [hhead, heq]
        have ht : (t, n) ∈ M ++ [(t, n)] := List.mem_append_right _ List.mem_cons_self
        have hfree : release Fault.badNode (setNext st.nodes t x.2.next) st.cpuQueueHead =
            .ok ((setNext st.nodes t x.2.next).erase x.1) := by
          rw [hhead]
          refine release_ok.mpr ⟨AList.lookup_isSome.mp ?_, rfl⟩
          rw [lookup_setNext, if_neg (Ne.symm (hfirst _ ht)), hx]
          rfl
        refine ⟨⟨(setNext st.nodes t x.2.next).erase x.1, x.2.next⟩, ?_,
          M ++ [(t, { n with next := x.2.next })], hr.uncons (fun y hy => ?_) ?_ rfl, ?_⟩
        · rw [deleteBegin, if_neg hne]
          refine bind_ok.mpr ⟨x, hfollow, ?_⟩
          rw [if_neg hlink]
          exact bind_ok.mpr ⟨t, htail, bind_ok.mpr ⟨_, hfree, rfl⟩⟩
        · rw [lookup_erase_if, if_neg (hfirst y (List.mem_append_left _ hy)), lookup_setNext,
            if_neg (Ring.ne_last (L := x :: M) hr y (List.mem_cons_of_mem x hy))]
        · have hlive : st.nodes.lookup t = some n :=
            hr.chain.live (x := (t, n)) (List.mem_cons_of_mem x ht)
          rw [lookup_erase_if, if_neg (hfirst _ ht), lookup_setNext, if_pos rfl, hlive]
          rfl
        · rw [List.map_cons, List.tail_cons, List.map_append, List.map_append]
          rfl

/-- **THE LAST NODE** is freed, and the head keeps pointing to it. -/
theorem deleteBegin_last (h : Holds st q) (hq : q.length = 1) :
    ∃ st', deleteBegin st = .ok st' ∧ Dangling st' := by
  obtain ⟨L, hr, rfl⟩ := h
  rw [List.length_map, List.length_eq_one_iff] at hq
  obtain ⟨x, rfl⟩ := hq
  obtain ⟨hhead, hx, hiff, -⟩ := (hr.ahead (List.cons_ne_nil x [])).first
  have hfollow : follow Fault.badNode st.nodes st.cpuQueueHead = .ok x := by
    rw [hhead]
    exact follow_some hx
  have hfree : release Fault.badNode (setNext st.nodes x.1 none) st.cpuQueueHead =
      .ok ((setNext st.nodes x.1 none).erase x.1) := by
    rw [hhead]
    refine release_ok.mpr ⟨AList.lookup_isSome.mp ?_, rfl⟩
    rw [lookup_setNext, if_pos rfl, hx]
    rfl
  refine ⟨⟨(setNext st.nodes x.1 none).erase x.1, st.cpuQueueHead⟩, ?_, x.1, hhead,
    AList.lookup_erase _ _⟩
  rw [deleteBegin, if_neg (by rw [hhead]; exact nofun)]
  refine bind_ok.mpr ⟨x, hfollow, ?_⟩
  rw [if_pos (hiff.mpr rfl).symm]
  exact bind_ok.mpr ⟨_, hfree, rfl⟩

/-- **AFTER THAT** no call returns. -/
theorem dangling_serve (h : Dangling st) (op : Op) : ∃ e, serve A st op = .error e := by
  obtain ⟨a, hhead, hfreed⟩ := h
  have hne : st.cpuQueueHead ≠ none := by
    rw [hhead]
    exact Option.some_ne_none a
  cases op with
  | deleteBegin =>
      refine ⟨.badNode, ?_⟩
      show deleteBegin st = _
      rw [deleteBegin, if_neg hne, hhead]
      refine bind_error.mpr (Or.inl ?_)
      rw [follow, hfreed]
  | enqueue ipid ival =>
      refine ⟨.badNode, ?_⟩
      let node : CpuQueueNode := { pid := ipid, timeLeft := ival, next := none }
      let new := alloc A st.nodes node
      have hnew : new.2.lookup a = if a = new.1 then some node else st.nodes.lookup a :=
        lookup_alloc A st.nodes node a
      -- the freed address is dead, or that of the new node, with nothing behind it
      have hlost : findTail ⟨new.2, st.cpuQueueHead⟩ = .error .badNode := by
        rw [findTail, hhead]
        by_cases ha : a = new.1
        · rw [if_pos ha] at hnew
          have hhop : hop Fault.badNode CpuQueueNode.next new.2 (some a) (some a) =
              .ok (.again none) := bind_ok.mpr ⟨(a, node), follow_some hnew, if_neg (Option.some_ne_none a).symm⟩
          obtain ⟨n, hn⟩ : ∃ n, new.2.keys.length = n + 1 :=
            Nat.exists_eq_succ_of_ne_zero (List.length_pos_of_mem (AList.mem_keys.mp
              (AList.lookup_isSome.mp (by rw [hnew]; rfl)))).ne'
          have hnull : hop Fault.badNode CpuQueueNode.next new.2 (some a) none =
              .error .badNode := rfl
          rw [State.turns, hn, loop_again hhop, loop_fail hnull]
        · rw [if_neg ha, hfreed] at hnew
          have hhop : hop Fault.badNode CpuQueueNode.next new.2 (some a) (some a) =
              .error .badNode := by
            rw [hop, follow, hnew]
            rfl
          exact loop_fail hhop _
      show enqueue A st ipid ival = _
      rw [enqueue]
      exact (if_neg hne).trans (bind_error.mpr (Or.inl hlost))

/-- **THE CALLS OF A RUN** work on a ring exactly when none of them takes the
    last node. -/
theorem run_exact (A : Malloc) {ops : List Op} : ∀ {st : State} {q : List (Int × Int)},
    Holds st q → ((∃ st', runAll (serve A) st ops = .ok st' ∧
      Implements st' (ops.foldl fifo q)) ↔ NeverTakes fifo TakesLast q ops) := by
  induction ops with
  | nil => exact fun h => ⟨fun _ => trivial, fun _ => ⟨_, rfl, h.implements⟩⟩
  | cons op ops ih =>
      intro st q h
      by_cases hlast : TakesLast q op
      · refine iff_of_false ?_ (fun hnever => hnever.1 hlast)
        rintro ⟨st', hrun, himpl⟩
        obtain ⟨rfl, hq⟩ := hlast
        obtain ⟨st₁, hserve, hdangling⟩ := deleteBegin_last h hq
        obtain ⟨st₂, hserve', hrun'⟩ := runAll_cons.mp hrun
        obtain rfl : st₂ = st₁ := Except.ok.inj (hserve'.symm.trans hserve)
        cases ops with
        | nil =>
            cases hrun'
            obtain ⟨a, hhead, -⟩ := hdangling
            have hnil : q.tail = [] := List.length_eq_zero_iff.mp (by rw [List.length_tail, hq])
            have hnull := himpl.null.mpr hnil
            rw [hhead] at hnull
            exact nomatch hnull
        | cons op' ops =>
            obtain ⟨e, he⟩ := dangling_serve (A := A) hdangling op'
            rw [runAll_first he] at hrun'
            exact nomatch hrun'
      · have hstep : ∃ st₁, serve A st op = .ok st₁ ∧ Holds st₁ (fifo q op) := by
          cases op with
          | enqueue ipid ival => exact enqueue_holds A h ipid ival
          | deleteBegin => exact deleteBegin_holds h (fun hq => hlast ⟨rfl, hq⟩)
        obtain ⟨st₁, hserve, hholds⟩ := hstep
        rw [NeverTakes, ← ih hholds, List.foldl_cons]
        constructor
        · rintro ⟨st', hrun, himpl⟩
          obtain ⟨st₂, hserve', hrun'⟩ := runAll_cons.mp hrun
          obtain rfl : st₂ = st₁ := Except.ok.inj (hserve'.symm.trans hserve)
          exact ⟨hlast, st', hrun', himpl⟩
        · rintro ⟨-, st', hrun, himpl⟩
          exact ⟨st', runAll_cons.mpr ⟨st₁, hserve, hrun⟩, himpl⟩

end Calls

/-- **THE QUEUE IS FIFO** exactly as long as it is not emptied. -/
theorem fifo_exact (A : Malloc) (ops : List Op) :
    (∃ st, runAll (serve A) start ops = .ok st ∧ Implements st (ops.foldl fifo [])) ↔
      NeverTakes fifo TakesLast [] ops := run_exact A start_holds

/-- One process enters, and leaves. -/
theorem fifo_empties :
    ¬ ∃ st, runAll (serve bump) start [.enqueue 1 5, .deleteBegin] = .ok st ∧
      Implements st ([.enqueue 1 5, .deleteBegin].foldl fifo []) := by
  rintro ⟨st, hrun, himpl⟩
  have hhead : st.cpuQueueHead = some 1 := by
    cases hrun
    rfl
  have hnull : st.cpuQueueHead = none := himpl.null.mpr rfl
  rw [hhead] at hnull
  exact nomatch hnull

end CQueue
