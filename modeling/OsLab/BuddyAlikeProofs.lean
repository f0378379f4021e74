import OsLab.BuddyInputModelProofs
import OsLab.BuddySetupProofs
import OsLab.SimilarProofs

/-! # A test case does not look at the ones before it

    An earlier case leaves `pid_global` and what was printed behind, and
    nothing else: the heap is cleared.  A pid is stored in a node and never
    read, so two states that only differ in pids and in what was printed
    take every call alike (`sendQuery_alike`), and the same tree is printed
    for both (`printStatus_alike`). -/

namespace BuddyAlike

open OsHeap OsLoop OsSimilar BuddyModel

/-- Two nodes that only differ in their pids. -/
def AlikeNode (n n' : BSTree) : Prop := ∃ pid, n' = { n with pid := pid }

/-- Two states that only differ in pids and in what was printed. -/
def Alike (st st' : State) : Prop :=
  ∃ nodes pid out, Similar AlikeNode st.nodes nodes ∧
    st' = { st with nodes := nodes, pidGlobal := pid, stdout := out }

/-- Such states, with one place in the tree. -/
def AlikeAt {τ : Type} (s s' : State × τ) : Prop := ∃ st', Alike s.1 st' ∧ s' = (st', s.2)

section Calls

variable {A : Malloc} {st st' : State} {nodes nodes' : Heap BSTree}

/-- The same update on both sides. -/
theorem store_alike (h : Similar AlikeNode nodes nodes') (a : Addr) {f : BSTree → BSTree}
    (hf : ∀ n pid, ∃ pid', f { n with pid := pid } = { f n with pid := pid' }) :
    Similar AlikeNode (store nodes a f) (store nodes' a f) := by
  refine h.store a ?_
  rintro n _ ⟨pid, rfl⟩
  exact hf n pid

theorem split_alike (h : Alike st st') (a : Addr) :
    Agrees Alike (split A st a) (split A st' a) := by
  obtain ⟨nodes, pid, out, hs, rfl⟩ := h
  refine agrees_bind (hs.follow _ _ _) ?_
  rintro ⟨b, n⟩ ⟨_, _⟩ ⟨rfl, p, rfl⟩
  dsimp only
  split
  · exact ⟨nodes, pid, _, hs, rfl⟩
  · have hnew : AlikeNode (create (n.size.tdiv 2)) (create (n.size.tdiv 2)) := ⟨-1, rfl⟩
    obtain ⟨l, h₁, h₁', hl, hl', hs₁⟩ := hs.alloc A hnew
    rw [hl, hl']
    dsimp only
    obtain ⟨r, h₂, h₂', hr, hr', hs₂⟩ := hs₁.alloc A hnew
    rw [hr, hr']
    refine ⟨_, pid, out, ?_, rfl⟩
    refine store_alike ?_ _ (fun n pid => ⟨pid, rfl⟩)
    refine store_alike ?_ _ (fun n pid => ⟨pid, rfl⟩)
    exact store_alike hs₂ _ (fun n pid => ⟨pid, rfl⟩)

theorem coalesce_alike (h : Alike st st') (a : Addr) :
    Agrees Alike (coalesce st a) (coalesce st' a) := by
  obtain ⟨nodes, pid, out, hs, rfl⟩ := h
  refine agrees_bind (hs.follow _ _ _) ?_
  rintro ⟨b, n⟩ ⟨_, _⟩ ⟨rfl, p, rfl⟩
  have hunlinked := store_alike hs a (f := fun n => { n with left := none, right := none })
    (fun n pid => ⟨pid, rfl⟩)
  refine agrees_bind (hunlinked.follow _ _ _) ?_
  rintro ⟨b', lt⟩ ⟨_, _⟩ ⟨rfl, p', rfl⟩
  refine agrees_bind (agrees_self (unlinkChildren n.left n.right (st.freeList lt.size))) ?_
  rintro cells _ rfl
  refine agrees_bind (hunlinked.release _ _ _) fun nodes₁ nodes₁' hs₁ => ?_
  refine agrees_bind (hs₁.release _ _ _) fun nodes₂ nodes₂' hs₂ => ?_
  exact ⟨nodes₂', pid, out, hs₂, rfl⟩

/-- One turn of the coalescing loop. -/
theorem mergeTurn_alike (s s' : State × Addr) (h : AlikeAt s s') :
    Agrees (SameTurn AlikeAt AlikeAt) (mergeTurn s) (mergeTurn s') := by
  obtain ⟨st, a⟩ := s
  obtain ⟨st', hself, rfl⟩ := h
  have hst := hself
  obtain ⟨nodes, pid, out, hs, rfl⟩ := hst
  rw [mergeTurn, mergeTurn]
  dsimp only
  by_cases hroot : some a = st.root
  · rw [if_pos hroot, if_pos hroot]
    exact ⟨_, hself, rfl⟩
  · rw [if_neg hroot, if_neg hroot]
    refine agrees_bind (hs.follow _ _ _) ?_
    rintro ⟨b, t⟩ ⟨_, _⟩ ⟨rfl, p, rfl⟩
    refine agrees_bind (hs.follow _ _ _) ?_
    rintro ⟨b', parent⟩ ⟨_, _⟩ ⟨rfl, p', rfl⟩
    dsimp only
    -- the sibling, on either side
    have hsibling : ∀ q : Ptr, Agrees (SameTurn AlikeAt AlikeAt)
        (follow Fault.badNode st.nodes q >>= fun sibling =>
          if sibling.2.isUsed = 0 then
            coalesce st b' >>= fun st₁ => .ok (Turn.again (st₁, b'))
          else Except.ok (Turn.done (st, a)))
        (follow Fault.badNode nodes q >>= fun sibling =>
          if sibling.2.isUsed = 0 then
            coalesce { st with nodes := nodes, pidGlobal := pid, stdout := out } b' >>=
              fun st₁ => .ok (Turn.again (st₁, b'))
          else Except.ok
            (Turn.done ({ st with nodes := nodes, pidGlobal := pid, stdout := out }, a))) := by
      intro q
      refine agrees_bind (hs.follow _ _ _) ?_
      rintro ⟨b₂, sibling⟩ ⟨_, _⟩ ⟨rfl, p₂, rfl⟩
      dsimp only
      by_cases hused : sibling.isUsed = 0
      · rw [if_pos hused, if_pos hused]
        exact agrees_bind (coalesce_alike hself b') fun st₁ st₁' h₁ => ⟨st₁', h₁, rfl⟩
      · rw [if_neg hused, if_neg hused]
        exact ⟨_, hself, rfl⟩
    by_cases hleft : parent.left = some a
    · rw [if_pos hleft, if_pos hleft]
      exact hsibling parent.right
    · rw [if_neg hleft, if_neg hleft]
      by_cases hright : parent.right = some a
      · rw [if_pos hright, if_pos hright]
        exact hsibling parent.left
      · rw [if_neg hright, if_neg hright]
        exact ⟨_, hself, rfl⟩

theorem freeQuery_alike (h : Alike st st') (P : Char) :
    Agrees Alike (freeQuery st P) (freeQuery st' P) := by
  refine agrees_bind (R := AlikeAt) ?_ fun s s' hs => ?_
  · obtain ⟨nodes, pid, out, hs, rfl⟩ := h
    refine agrees_bind (hs.follow _ _ _) ?_
    rintro ⟨b, n⟩ ⟨_, _⟩ ⟨rfl, p, rfl⟩
    exact ⟨_, ⟨_, pid, out, store_alike hs _ (fun n pid => ⟨pid, rfl⟩), rfl⟩, rfl⟩
  · refine agrees_bind (loop_agrees mergeTurn_alike hs) ?_
    rintro ⟨st₁, a⟩ _ ⟨_, ⟨nodes, pid, out, hs₁, rfl⟩, rfl⟩
    refine agrees_bind (hs₁.follow _ _ _) ?_
    rintro ⟨b, n⟩ ⟨_, _⟩ ⟨rfl, p, rfl⟩
    dsimp only
    have hvacated := store_alike hs₁ a (f := vacate) (fun n pid => ⟨-1, rfl⟩)
    split
    · exact ⟨_, pid, out, hvacated, rfl⟩
    · exact ⟨_, pid, out, hvacated, rfl⟩

theorem splitTurn_alike (want : Int) (s s' : State × Addr × Int) (h : AlikeAt s s') :
    Agrees (SameTurn AlikeAt AlikeAt) (splitTurn A want s) (splitTurn A want s') := by
  obtain ⟨st, a, temp⟩ := s
  obtain ⟨st', hst, rfl⟩ := h
  rw [splitTurn, splitTurn]
  dsimp only
  by_cases hwant : temp = want
  · rw [if_pos hwant, if_pos hwant]
    exact ⟨_, hst, rfl⟩
  · rw [if_neg hwant, if_neg hwant]
    refine agrees_bind (split_alike hst a) ?_
    rintro st₁ _ ⟨nodes, pid, out, hs, rfl⟩
    have hused := store_alike hs a (f := fun n => { n with isUsed := 1 }) (fun n pid => ⟨pid, rfl⟩)
    refine agrees_bind (hused.follow _ _ _) ?_
    rintro ⟨b, n⟩ ⟨_, _⟩ ⟨rfl, p, rfl⟩
    refine agrees_bind (hused.follow _ _ _) ?_
    rintro ⟨b', c⟩ ⟨_, _⟩ ⟨rfl, p', rfl⟩
    exact ⟨_, ⟨_, pid, out, hused, rfl⟩, rfl⟩

theorem dropHead_alike (h : Alike st st') (s : Int) :
    Agrees Alike (dropHead st s) (dropHead st' s) := by
  obtain ⟨nodes, pid, out, hs, rfl⟩ := h
  have hlist : State.freeList { st with nodes := nodes, pidGlobal := pid, stdout := out } s =
      st.freeList s := rfl
  rw [dropHead, dropHead, hlist]
  cases st.freeList s with
  | nil => trivial
  | cons first next => exact ⟨nodes, pid, out, hs, rfl⟩

theorem carve_alike (h : Alike st st') (want canGet : Int) :
    Agrees AlikeAt (carve A st want canGet) (carve A st' want canGet) := by
  have hlist : st'.freeList canGet = st.freeList canGet := by
    obtain ⟨nodes, pid, out, -, rfl⟩ := h
    rfl
  rw [carve, carve, hlist]
  cases st.freeList canGet with
  | nil => trivial
  | cons curr next =>
      dsimp only
      have hdrop : ∀ s s' : State × Addr, AlikeAt s s' →
          Agrees AlikeAt (dropHead s.1 canGet >>= fun st₁ => .ok (st₁, s.2))
            (dropHead s'.1 canGet >>= fun st₁ => .ok (st₁, s'.2)) := by
        rintro ⟨st₁, a⟩ _ ⟨st₁', hst, rfl⟩
        exact agrees_bind (dropHead_alike hst canGet) fun st₂ st₂' h₂ => ⟨st₂', h₂, rfl⟩
      by_cases hwant : want = canGet
      · rw [if_pos hwant, if_pos hwant]
        exact hdrop _ _ ⟨_, h, rfl⟩
      · rw [if_neg hwant, if_neg hwant]
        exact agrees_bind (loop_agrees (splitTurn_alike want) ⟨_, h, rfl⟩) hdrop

theorem allot_alike (h : Alike st st') (curr : Addr) (P : Char) (b : Int) :
    Agrees Alike (allot st curr P b) (allot st' curr P b) := by
  obtain ⟨nodes, pid, out, hs, rfl⟩ := h
  refine agrees_bind (hs.follow _ _ _) fun n n' _ => ?_
  refine ⟨_, pid + 1, out, hs.store curr ?_, rfl⟩
  rintro n _ ⟨p, rfl⟩
  exact ⟨pid + 1, rfl⟩

theorem allocQuery_alike (h : Alike st st') (P : Char) (b : Int) :
    Agrees Alike (allocQuery A st P b) (allocQuery A st' P b) := by
  obtain ⟨nodes, pid, out, hs, rfl⟩ := h
  refine agrees_bind (agrees_self (findReqdPowerOf2 st b)) ?_
  rintro want _ rfl
  refine agrees_bind (agrees_self (search st want)) ?_
  rintro ⟨lists, found⟩ _ rfl
  cases found with
  | none => exact ⟨nodes, pid, _, hs, rfl⟩
  | some canGet =>
      have hsearched : Alike { st with freeMap := lists }
          { st with nodes := nodes, freeMap := lists, pidGlobal := pid, stdout := out } :=
        ⟨nodes, pid, out, hs, rfl⟩
      refine agrees_bind (carve_alike (A := A) hsearched want canGet) ?_
      rintro ⟨st₁, a⟩ _ ⟨_, hcarved, rfl⟩
      exact allot_alike hcarved a P b

/-- **A CALL** is served alike. -/
theorem sendQuery_alike (h : Alike st st') (q : Query) :
    Agrees Alike (sendQuery A st q) (sendQuery A st' q) := by
  rw [sendQuery, sendQuery]
  by_cases hq : q.pbytes = 0
  · rw [if_pos hq, if_pos hq]
    exact freeQuery_alike h q.pname
  · rw [if_neg hq, if_neg hq]
    exact allocQuery_alike h q.pname q.pbytes

/-- **THE TREE** that is printed is the same. -/
theorem printStatus_alike (h : Similar AlikeNode nodes nodes') (n : Nat) (p : Ptr) :
    Agrees Eq (BuddyInput.printStatus n nodes p) (BuddyInput.printStatus n nodes' p) := by
  induction n generalizing p with
  | zero =>
      cases p with
      | none => rfl
      | some a => trivial
  | succ n ih =>
      cases p with
      | none => rfl
      | some a =>
          refine agrees_bind (h.follow _ _ _) ?_
          rintro ⟨b, node⟩ ⟨_, _⟩ ⟨rfl, pid, rfl⟩
          refine agrees_bind (ih node.left) ?_
          rintro left _ rfl
          refine agrees_bind (ih node.right) ?_
          rintro right _ rfl
          rfl

/-- A set-up over empty heaps. -/
theorem startCase_alike (h : clear turns st.nodes st.root = .ok ∅)
    (h' : clear turns st'.nodes st'.root = .ok ∅) (U L : Int) :
    Agrees Alike (startCase A st U L) (startCase A st' U L) := by
  rw [startCase, startCase, h, h']
  refine agrees_bind (R := Eq) rfl ?_
  rintro cleared _ rfl
  refine agrees_bind (agrees_self (pow2 U)) ?_
  rintro totalSize _ rfl
  refine agrees_bind (agrees_self (pow2 L)) ?_
  rintro minGranularity _ rfl
  refine agrees_bind (agrees_self (initializeFreeMap minGranularity totalSize)) ?_
  rintro lists _ rfl
  have hself : ∀ n, Option.Rel AlikeNode n n := by
    rintro (_ | n)
    · exact .none
    · exact .some ⟨n.pid, rfl⟩
  exact ⟨_, st'.pidGlobal, st'.stdout, ⟨rfl, fun a => hself _⟩, rfl⟩

theorem testCase_alike (h : clear turns st.nodes st.root = .ok ∅)
    (h' : clear turns st'.nodes st'.root = .ok ∅) (U L : Int) (reqs : List Query) :
    Agrees Alike (testCase A st U L reqs) (testCase A st' U L reqs) :=
  agrees_bind (startCase_alike h h' U L) fun _ _ hst =>
    runAll_agrees (fun _ _ q hs => sendQuery_alike hs q) hst

end Calls

end BuddyAlike
