import OsLab.CQueueProofs
import OsLab.RrModelProofs

/-! # The queue of the simulator is the one of pointers

    `RrModel` keeps the circular queue as the list of its nodes, or as
    `freed`.  Each of its operations is what the pointers compute: it
    succeeds on a list when they do on the ring that stands for it, and it
    fails on `freed` as they do behind the freed node. -/

namespace RrQueue

open OsHeap OsLoop OsRing CQueueModel CQueue
open RrModel (CpuQueue)

/-- The entries of the nodes of a list. -/
def entries (nodes : List RrModel.CpuQueueNode) : List (Int × Int) :=
  nodes.map fun n => ((n.pid : Int), n.timeLeft)

/-- The pointers stand for the queue. -/
def Represents (st : State) : CpuQueue → Prop
  | .ring nodes => Holds st (entries nodes)
  | .freed => Dangling st

variable {st : State} {q : CpuQueue}

theorem entries_pids (nodes : List RrModel.CpuQueueNode) (p : Nat) :
    (p : Int) ∈ (entries nodes).map Prod.fst ↔ p ∈ nodes.map RrModel.CpuQueueNode.pid := by
  rw [entries, List.map_map, List.mem_map, List.mem_map]
  exact exists_congr (fun n => and_congr_right (fun _ => Int.natCast_inj))

theorem start_represents : Represents start (.ring []) := start_holds

theorem enqueue_agrees (A : Malloc) (h : Represents st q) (ipid : Nat) (ival : Int) :
    Agrees Represents (enqueue A st ipid ival) (RrModel.enqueue q ipid ival) := by
  cases q with
  | freed =>
      obtain ⟨e, he⟩ := dangling_serve (A := A) h (.enqueue ipid ival)
      exact agrees_error he rfl
  | ring nodes =>
      obtain ⟨st', hst', hholds⟩ := enqueue_holds A h ipid ival
      refine agrees_ok hst' rfl ?_
      have hentries : entries (nodes ++ [{ pid := ipid, timeLeft := ival }]) =
          entries nodes ++ [((ipid : Int), ival)] := List.map_append
      rw [Represents, hentries]
      exact hholds

theorem deleteBegin_agrees (h : Represents st q) :
    Agrees Represents (deleteBegin st) (RrModel.deleteBegin q) := by
  cases q with
  | freed =>
      obtain ⟨e, he⟩ := dangling_serve (A := bump) h .deleteBegin
      exact agrees_error he rfl
  | ring nodes =>
      match nodes, h with
      | [], h =>
          obtain ⟨st', hst', hholds⟩ := deleteBegin_holds h (by decide)
          exact agrees_ok hst' rfl hholds
      | [n], h =>
          obtain ⟨st', hst', hdangling⟩ := deleteBegin_last h rfl
          exact agrees_ok hst' rfl hdangling
      | _ :: n :: rest, h =>
          obtain ⟨st', hst', hholds⟩ := deleteBegin_holds h (by simp [entries])
          exact agrees_ok hst' rfl hholds

theorem inCQueue_agrees (h : Represents st q) (ipid : Nat) :
    Agrees Eq (inCQueue st ipid) (RrModel.inCQueue q ipid) := by
  cases q with
  | freed =>
      obtain ⟨a, hhead, hfreed⟩ := h
      have hlost : inCQueue st ipid = .error .badNode := by
        rw [inCQueue, if_neg (by rw [hhead]; exact Option.some_ne_none a), hhead]
        refine bind_error.mpr (Or.inl ?_)
        rw [follow, hfreed]
      exact agrees_error hlost rfl
  | ring nodes =>
      have hmember := (Holds.implements h).member ipid
      refine agrees_ok hmember rfl ?_
      rw [Bool.eq_iff_iff, decide_eq_true_iff, entries_pids, List.any_eq_true, List.mem_map]
      exact exists_congr (fun n => and_congr_right (fun _ => decide_eq_true_iff.symm))

theorem advance_agrees (h : Represents st q) :
    Agrees Represents (advance st) q.advance := by
  cases q with
  | freed =>
      obtain ⟨a, hhead, hfreed⟩ := h
      have hlost : advance st = .error .badNode := by
        rw [advance, hhead]
        refine bind_error.mpr (Or.inl ?_)
        rw [follow, hfreed]
      exact agrees_error hlost rfl
  | ring nodes =>
      obtain ⟨L, hr, hL⟩ := h
      cases L with
      | nil =>
          obtain rfl : nodes = [] := List.map_eq_nil_iff.mp hL.symm
          have hlost : advance st = .error .badNode := by
            rw [advance, hr.null rfl]
            rfl
          exact agrees_error hlost rfl
      | cons x L =>
          obtain ⟨n, rest, rfl⟩ : ∃ n rest, nodes = n :: rest := by
            cases nodes with
            | nil => cases hL
            | cons n rest => exact ⟨n, rest, rfl⟩
          rw [entries, List.map_cons, List.map_cons, List.cons.injEq] at hL
          obtain ⟨hx, hrest⟩ := hL
          have hadvance : advance st = .ok { st with cpuQueueHead := x.2.next } :=
            bind_ok.mpr ⟨x, follow_ok.mpr ⟨hr.chain.1, hr.chain.2.1⟩, rfl⟩
          refine agrees_ok hadvance rfl ⟨L ++ [x], hr.rotate, ?_⟩
          rw [entries, List.map_append, List.map_append, hrest]
          exact congrArg (fun e => rest.map _ ++ [e]) hx

/-- What the walk around the pointers prints. -/
theorem reached_agrees (h : Represents st q) :
    Agrees (fun seen nodes => seen = entries nodes) (reached st) q.nodes := by
  cases q with
  | freed =>
      obtain ⟨a, hhead, hfreed⟩ := h
      have hturn : collectTurn st ([], some a) = .error .badNode := by
        rw [collectTurn]
        refine bind_error.mpr (Or.inl ?_)
        rw [follow, hfreed]
      have hlost : reached st = .error .badNode := by
        rw [reached, if_neg (by rw [hhead]; exact Option.some_ne_none a), hhead]
        exact loop_fail hturn _
      exact agrees_error hlost rfl
  | ring nodes => exact agrees_ok (Holds.implements h).reached rfl rfl

/-- The calls that a simulator makes on the queue. -/
inductive Call where
  | enqueue (ipid : Nat) (ival : Int)
  | deleteBegin
  | advance
  deriving DecidableEq, Repr

def pointers (A : Malloc) (st : State) : Call → Except Fault State
  | .enqueue ipid ival => enqueue A st ipid ival
  | .deleteBegin => deleteBegin st
  | .advance => advance st

def nodes (q : CpuQueue) : Call → Except RrModel.Fault CpuQueue
  | .enqueue ipid ival => RrModel.enqueue q ipid ival
  | .deleteBegin => RrModel.deleteBegin q
  | .advance => q.advance

/-- **THE LIST IS FAITHFUL** over every run of calls. -/
theorem run_agrees (A : Malloc) (calls : List Call) : ∀ {st : State} {q : CpuQueue},
    Represents st q → Agrees Represents (runAll (pointers A) st calls) (runAll nodes q calls) := by
  intro st q h
  refine runAll_agrees (fun st q call h => ?_) h
  cases call with
  | enqueue ipid ival => exact enqueue_agrees A h ipid ival
  | deleteBegin => exact deleteBegin_agrees h
  | advance => exact advance_agrees h

end RrQueue
