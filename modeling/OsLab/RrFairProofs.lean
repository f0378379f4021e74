import OsLab.RrRunProofs
import OsLab.WaitingProofs

/-! # Whose turn it is

    An entry of the log is made for every process that enters the queue and
    for every one that gets the CPU.  A dispatch is fair if no process in the
    queue has waited longer.

    When a burst ends in the turn of its dispatch, `delete_begin` has moved
    the head to the next process and nothing else is done.  When it ends in
    a later turn, the head is moved once more, past a process whose turn it
    was (`Skips`).  With two processes in the queue that brings it back, and
    with three it does not: then the next dispatch is unfair, and no other
    turn leads to an unfair one (`step_exact`). -/

namespace RrFair

open OsLoop OsWaiting RrModel RrRun

/-! ## Fairness -/

/-- The processes in the queue, from the head on. -/
def queuePids (s : State) : List Nat :=
  match s.cpuQueue with
  | .ring ns => ns.map CpuQueueNode.pid
  | .freed => []

/-- The processes in the queue when the CPU part of the turn from `s` begins. -/
def present (s : State) : List Nat :=
  match enterAll s with
  | .error _ => []
  | .ok s' => queuePids s'

/-- Those that entered in this turn. -/
def entering (s : State) : List Nat := (present s).drop (queuePids s).length

/-- The process that the idle CPU takes in the turn from `s`. -/
def dispatched (s : State) : Option Nat :=
  match enterAll s with
  | .error _ => none
  | .ok s' => if s'.cpu.idle then (queuePids s').head? else none

/-- A state, and the log of the turns so far. -/
structure Watched where
  st : State
  log : List Nat

/-- The turn from `w` does not fail and leads to `w'`. -/
def watch (w : Watched) (_ : Unit) (w' : Watched) : Prop :=
  tick w.st = .ok (.again w'.st) ∧
    w'.log = w.log ++ entering w.st ++ (dispatched w.st).toList

/-- The CPU is idle, and the queue has any processes, which entered in its
    order. -/
structure Starts (s : State) : Prop where
  idle : s.cpu.idle = true
  queue : ∃ ns, s.cpuQueue = .ring ns ∧ (ns.map CpuQueueNode.pid).Nodup

def watched (s : State) : Watched := ⟨s, queuePids s⟩

/-- Who is dispatched has waited longest. -/
def Fair (w : Watched) : Prop :=
  ∀ p, dispatched w.st = some p → ∀ q ∈ present w.st, q ≠ p → Longer (w.log ++ entering w.st) p q

/-- Between two dispatches of a process, every other that stays in the queue
    is dispatched exactly once. -/
def TakeTurns (states : List Watched) : Prop :=
  ∀ before a between b after, states = before ++ a :: (between ++ b :: after) →
    ∀ p, dispatched a.st = some p → dispatched b.st = some p →
      (∀ x ∈ between, dispatched x.st ≠ some p) →
      ∀ q ≠ p, (∀ x ∈ between ++ [b], q ∈ queuePids x.st) →
        between.countP (fun x => dispatched x.st = some q) = 1

/-- Round robin over the states in which the turns of a run start. -/
structure RoundRobin (states : List Watched) : Prop where
  fair : ∀ w ∈ states, Fair w
  turns : TakeTurns states

/-- The quantum ends in the turn from `s`, later than it began, and with it
    the burst of the head. -/
def Ends (s : State) : Prop :=
  s.cpu.idle = false ∧ s.cpu.timeLeft = 1 ∧
    ∃ head rest, s.cpuQueue = .ring (head :: rest) ∧ head.timeLeft = 0

/-- And there are at least two other processes. -/
def Skips (s : State) : Prop := Ends s ∧ 3 ≤ (queuePids s).length

/-! ## The CPU part -/

/-- What the CPU part does to the pids in the queue. -/
inductive CpuMove (s s' : State) : List Nat → List Nat → Prop
  /-- the queue is empty -/
  | rest (hidle : s.cpu.idle = true) (hidle' : s'.cpu.idle = true) : CpuMove s s' [] []
  /-- the head is served its last unit at once -/
  | spent {p : Nat} {ps : List Nat} (hidle : s.cpu.idle = true) (hidle' : s'.cpu.idle = true) :
      CpuMove s s' (p :: ps) ps
  /-- the head is taken for more than a unit -/
  | taken {p : Nat} {ps : List Nat} (hidle : s.cpu.idle = true) (hbusy' : s'.cpu.idle = false)
      (hcurr : s'.cpu.currPid = p) : CpuMove s s' (p :: ps) (p :: ps)
  /-- and served, without an end -/
  | served {p : Nat} {ps : List Nat} (hbusy : s.cpu.idle = false) (hbusy' : s'.cpu.idle = false)
      (hcurr : s'.cpu.currPid = p) (hends : ¬ Ends s) : CpuMove s s' (p :: ps) (p :: ps)
  /-- its quantum ends before its burst -/
  | yields {p : Nat} {ps : List Nat} (hbusy : s.cpu.idle = false) (hidle' : s'.cpu.idle = true)
      (hends : ¬ Ends s) : CpuMove s s' (p :: ps) (ps ++ [p])
  /-- its burst ends with a quantum that began earlier -/
  | ends {p q : Nat} {ps : List Nat} (hbusy : s.cpu.idle = false) (hidle' : s'.cpu.idle = true)
      (hends : Ends s) : CpuMove s s' (p :: q :: ps) (ps ++ [q])

section Parts

variable {s s' : State} {ns ns' : List CpuQueueNode} {head : CpuQueueNode}
  {rest : List CpuQueueNode}

theorem queuePids_ring (hq : s.cpuQueue = .ring ns) : queuePids s = ns.map CpuQueueNode.pid := by
  rw [queuePids, hq]

/-- A process that leaves makes room for the next, if nothing is freed. -/
theorem leave_ring (hq : s.cpuQueue = .ring (head :: rest)) (hleft : head.timeLeft = 0)
    (h : leave s = .ok s') (hring : s'.cpuQueue ≠ .freed) :
    rest ≠ [] ∧ s'.cpuQueue = .ring rest ∧ s'.cpu = s.cpu ∧ s'.j = s.j ∧
      ∀ k, k ≠ s.cpu.currPid → s'.proc k = s.proc k := by
  cases rest with
  | nil =>
      rcases leave_last hq hleft with ⟨e, he⟩ | ⟨s₁, hs₁, hfreed⟩
      · cases he.symm.trans h
      · obtain rfl : s' = s₁ := Except.ok.inj (h.symm.trans hs₁)
        exact absurd hfreed hring
  | cons second rest =>
      cases hproc : s.proc s.cpu.currPid with
      | nil =>
          rw [leave, hq] at h
          replace h : (if head.timeLeft = 0 then _ else _) = Except.ok s' := h
          rw [if_pos hleft] at h
          simp only [hproc] at h
          cases h
      | cons node next =>
          obtain rfl : s' = _ := Except.ok.inj (h.symm.trans (leave_next hq hleft hproc))
          exact ⟨List.cons_ne_nil _ _, rfl, rfl, rfl, fun k hk => Function.update_of_ne hk _ _⟩

theorem findMin_one {v : Int} (h : findMin timeQuantum v - 1 = 0) : v = 1 := by
  rw [findMin, timeQuantum] at h
  split at h <;> omega

/-- What the CPU part leaves alone, of the processes with other pids. -/
structure Apart (s s' : State) (pids : List Nat) : Prop where
  j : s'.j = s.j
  proc : ∀ k ∉ pids, s'.proc k = s.proc k

theorem cpuPart_idle_move (hq : s.cpuQueue = .ring ns) (hidle : s.cpu.idle = true)
    (h : cpuPart s = .ok s') (hring : s'.cpuQueue ≠ .freed) :
    CpuMove s s' (ns.map CpuQueueNode.pid) (queuePids s') ∧
      Apart s s' (ns.map CpuQueueNode.pid) := by
  rw [cpuPart, hidle, if_pos rfl, hq] at h
  cases ns with
  | nil =>
      obtain rfl : s = s' := Except.ok.inj h
      rw [queuePids_ring hq]
      exact ⟨.rest hidle hidle, rfl, fun _ _ => rfl⟩
  | cons head rest =>
      replace h : (allot s head rest >>= fun s =>
          if s.cpu.timeLeft = 0 then leave (release s) else .ok s) = .ok s' := h
      obtain ⟨s₁, hallot, h⟩ := bind_ok.mp h
      obtain ⟨node, next, hproc⟩ : ∃ node next, s.proc head.pid = node :: next := by
        cases hproc : s.proc head.pid with
        | nil =>
            rw [allot] at hallot
            simp only [hproc] at hallot
            cases hallot
        | cons node next => exact ⟨node, next, rfl⟩
      obtain ⟨s₂, hallot', hqueue, hproc', hcpu, hj⟩ := allot_spec rest hproc
      obtain rfl : s₁ = s₂ := Except.ok.inj (hallot.symm.trans hallot')
      have hothers : ∀ k ∉ (head :: rest).map CpuQueueNode.pid, s₁.proc k = s.proc k := by
        intro k hk
        have hne : k ≠ head.pid := fun heq => hk (heq ▸ List.mem_cons_self)
        rw [hproc', Function.update_of_ne hne]
      split at h
      · next hzero =>
        have hone : head.timeLeft = 1 := findMin_one (by rw [hcpu] at hzero; exact hzero)
        have hleft : head.timeLeft - findMin timeQuantum head.timeLeft = 0 := by
          rw [hone]
          rfl
        obtain ⟨-, hqueue', hcpu', hj', hproc''⟩ :=
          leave_ring (s := release s₁) hqueue hleft h hring
        refine ⟨?_, hj'.trans hj, fun k hk => ?_⟩
        · rw [queuePids_ring hqueue']
          exact .spent hidle (by rw [hcpu']; rfl)
        · have hcurr : (release s₁).cpu.currPid = head.pid := by
            show s₁.cpu.currPid = head.pid
            rw [hcpu]
          refine (hproc'' k ?_).trans (hothers k hk)
          rw [hcurr]
          exact fun heq => hk (heq ▸ List.mem_cons_self)
      · obtain rfl : s₁ = s' := Except.ok.inj h
        refine ⟨?_, hj, hothers⟩
        rw [queuePids_ring hqueue]
        exact .taken hidle (by rw [hcpu]) (by rw [hcpu])

theorem cpuPart_busy_move (hq : s.cpuQueue = .ring (head :: rest)) (hbusy : s.cpu.idle = false)
    (hcurr : s.cpu.currPid = head.pid) (h : cpuPart s = .ok s') :
    CpuMove s s' ((head :: rest).map CpuQueueNode.pid) (queuePids s') ∧
      Apart s s' ((head :: rest).map CpuQueueNode.pid) := by
  rw [cpuPart, hbusy, if_neg Bool.false_ne_true] at h
  obtain ⟨s₁, hupdate, h⟩ := bind_ok.mp h
  have hsame := updateFrom_untouched _ hupdate
  obtain ⟨s₂, hs₂⟩ : ∃ s₂, s₂ = { s₁ with cpu := { s₁.cpu with timeLeft := s₁.cpu.timeLeft - 1 } } :=
    ⟨_, rfl⟩
  replace h : (if s₂.cpu.timeLeft = 0 then
      leave (release s₂) >>= fun s => s.cpuQueue.advance >>= fun q => .ok { s with cpuQueue := q }
    else .ok s₂) = Except.ok s' := by
    rw [hs₂]
    exact h
  have hqueue : s₂.cpuQueue = .ring (head :: rest) := by
    rw [hs₂]
    exact hsame.queue.trans hq
  have hcpu : s₂.cpu = { s.cpu with timeLeft := s.cpu.timeLeft - 1 } := by
    rw [hs₂, ← hsame.cpu]
  have hj : s₂.j = s.j := by
    rw [hs₂]
    exact hsame.j
  have hproc : s₂.proc = s.proc := by
    rw [hs₂]
    exact hsame.proc
  clear hs₂ hsame hupdate
  rw [hcpu] at h
  split at h
  · next hzero =>
    have hquantum : s.cpu.timeLeft - 1 = 0 := hzero
    obtain ⟨s₃, hleave, h⟩ := bind_ok.mp h
    obtain ⟨q, hadvance, h⟩ := bind_ok.mp h
    obtain rfl := Except.ok.inj h
    by_cases hleft : head.timeLeft = 0
    · have hring : s₃.cpuQueue ≠ .freed := by
        intro hfreed
        rw [hfreed] at hadvance
        cases hadvance
      obtain ⟨hne, hqueue', hcpu', hj', hproc'⟩ :=
        leave_ring (s := release s₂) hqueue hleft hleave hring
      obtain ⟨second, rest, rfl⟩ := List.exists_cons_of_ne_nil hne
      rw [hqueue'] at hadvance
      cases hadvance
      refine ⟨?_, hj'.trans hj, fun k hk => ?_⟩
      · rw [queuePids_ring rfl, List.map_append]
        refine .ends hbusy ?_ ⟨hbusy, by omega, head, _, hq, hleft⟩
        show s₃.cpu.idle = true
        rw [hcpu']
        rfl
      · have hne' : k ≠ (release s₂).cpu.currPid := by
          show k ≠ s₂.cpu.currPid
          rw [hcpu]
          show k ≠ s.cpu.currPid
          rw [hcurr]
          exact fun heq => hk (heq ▸ List.mem_cons_self)
        exact (hproc' k hne').trans (congrFun hproc k)
    · rw [leave_stays (s := release s₂) hqueue hleft] at hleave
      cases hleave
      have hadvance' : (release s₂).cpuQueue.advance = .ok (.ring (rest ++ [head])) := by
        show s₂.cpuQueue.advance = _
        rw [hqueue]
        rfl
      rw [hadvance'] at hadvance
      cases hadvance
      refine ⟨?_, hj, fun k _ => congrFun hproc k⟩
      rw [queuePids_ring rfl, List.map_append]
      refine .yields hbusy rfl (fun hends => ?_)
      obtain ⟨-, -, head', rest', hq', hleft'⟩ := hends
      rw [hq] at hq'
      cases hq'
      exact hleft hleft'
  · next hmore =>
    cases h
    refine ⟨?_, hj, fun k _ => congrFun hproc k⟩
    rw [queuePids_ring hqueue]
    refine .served hbusy ?_ ?_ (fun hends => hmore ?_)
    · rw [hcpu]
      exact hbusy
    · rw [hcpu]
      exact hcurr
    · rw [hends.2.1]
      rfl

theorem CpuMove.untouched {s₁ : State} {ps ps' : List Nat} (h : CpuMove s s' ps ps')
    (hcpu : s₁.cpu = s'.cpu) : CpuMove s s₁ ps ps' := by
  cases h with
  | rest hidle hidle' => exact .rest hidle (by rw [hcpu]; exact hidle')
  | spent hidle hidle' => exact .spent hidle (by rw [hcpu]; exact hidle')
  | taken hidle hbusy' hcurr =>
      exact .taken hidle (by rw [hcpu]; exact hbusy') (by rw [hcpu]; exact hcurr)
  | served hbusy hbusy' hcurr hends =>
      exact .served hbusy (by rw [hcpu]; exact hbusy') (by rw [hcpu]; exact hcurr) hends
  | yields hbusy hidle' hends => exact .yields hbusy (by rw [hcpu]; exact hidle') hends
  | ends hbusy hidle' hends => exact .ends hbusy (by rw [hcpu]; exact hidle') hends

/-- What begins before the loop that enters processes: nobody does while the
    CPU is busy. -/
theorem CpuMove.before {s₀ : State} {ps ps' : List Nat} (h : CpuMove s s' ps ps')
    (hcpu : s.cpu = s₀.cpu) (hqueue : s₀.cpu.idle = false → s.cpuQueue = s₀.cpuQueue) :
    CpuMove s₀ s' ps ps' := by
  have hends : s₀.cpu.idle = false → (Ends s ↔ Ends s₀) := by
    intro hbusy
    rw [Ends, Ends, hcpu, hqueue hbusy]
  cases h with
  | rest hidle hidle' => exact .rest (by rw [← hcpu]; exact hidle) hidle'
  | spent hidle hidle' => exact .spent (by rw [← hcpu]; exact hidle) hidle'
  | taken hidle hbusy' hcurr => exact .taken (by rw [← hcpu]; exact hidle) hbusy' hcurr
  | served hbusy hbusy' hcurr hnot =>
      have hbusy₀ : s₀.cpu.idle = false := by rw [← hcpu]; exact hbusy
      exact .served hbusy₀ hbusy' hcurr (fun he => hnot ((hends hbusy₀).mpr he))
  | yields hbusy hidle' hnot =>
      have hbusy₀ : s₀.cpu.idle = false := by rw [← hcpu]; exact hbusy
      exact .yields hbusy₀ hidle' (fun he => hnot ((hends hbusy₀).mpr he))
  | ends hbusy hidle' he =>
      have hbusy₀ : s₀.cpu.idle = false := by rw [← hcpu]; exact hbusy
      exact .ends hbusy₀ hidle' ((hends hbusy₀).mp he)

end Parts

/-! ## One turn -/

/-- Every process whose next burst is for the CPU has one of the pids. -/
def Settled (s : State) (pids : List Nat) : Prop :=
  ∀ k < s.j, ∀ v, headKind s k = some (.C, v) → k ∈ pids

/-- The queue is `ns`, and `more` enter in the turn from `s`. -/
structure Arrivals (s : State) (ns more : List CpuQueueNode) : Prop where
  present : present s = (ns ++ more).map CpuQueueNode.pid
  entering : entering s = more.map CpuQueueNode.pid
  dispatched : dispatched s =
    if s.cpu.idle then ((ns ++ more).map CpuQueueNode.pid).head? else none
  distinct : ((ns ++ more).map CpuQueueNode.pid).Nodup
  alone : s.cpu.idle = false → more = []
  settled : Settled s ((ns ++ more).map CpuQueueNode.pid)
  new : ∀ k ∈ more.map CpuQueueNode.pid, k < s.j ∧ ∃ v, headKind s k = some (.C, v)

/-- **A QUEUE IN THE ORDER OF THE LOG**: the head of a busy CPU comes last,
    and nobody is left to enter. -/
structure Sound (w : Watched) (ns : List CpuQueueNode) : Prop where
  queue : w.st.cpuQueue = .ring ns
  distinct : (ns.map CpuQueueNode.pid).Nodup
  cpu : (w.st.cpu.idle = true ∧ Ordered w.log (ns.map CpuQueueNode.pid)) ∨
    (w.st.cpu.idle = false ∧ Settled w.st (ns.map CpuQueueNode.pid) ∧
      ∃ head rest, ns = head :: rest ∧ w.st.cpu.currPid = head.pid ∧
        Ordered w.log (rest.map CpuQueueNode.pid ++ [head.pid]))

/-- A turn from `w` to `w'`. -/
structure TurnOf (w w' : Watched) (ns more ns' : List CpuQueueNode) : Prop
    extends Arrivals w.st ns more where
  queue : w'.st.cpuQueue = .ring ns'
  move : CpuMove w.st w'.st ((ns ++ more).map CpuQueueNode.pid) (ns'.map CpuQueueNode.pid)
  j : w'.st.j = w.st.j
  others : ∀ k ∉ (ns ++ more).map CpuQueueNode.pid, headKind w'.st k = headKind w.st k
  log : w'.log = w.log ++ more.map CpuQueueNode.pid ++ (RrFair.dispatched w.st).toList

section Turn

variable {w w' : Watched} {s : State} {ns more ns' : List CpuQueueNode}

theorem arrivals (hq : s.cpuQueue = .ring ns) (hnodup : (ns.map CpuQueueNode.pid).Nodup)
    (hbusy : s.cpu.idle = false → Settled s (ns.map CpuQueueNode.pid)) :
    ∃ s₁ more, enterAll s = .ok s₁ ∧ Enters s s₁ ns more (List.range s.j) ∧
      Arrivals s ns more := by
  obtain ⟨s₁, more, hall, henters⟩ := enters_all (List.range s.j) hq
  replace hall : enterAll s = .ok s₁ := hall
  have hpresent : present s = (ns ++ more).map CpuQueueNode.pid := by
    rw [present, hall]
    exact queuePids_ring henters.queue
  have hkinds : ∀ p, headKind s₁ p = headKind s p := fun p => congrArg List.head? (henters.kinds p)
  refine ⟨s₁, more, hall, henters, hpresent, ?_, ?_, henters.distinct hnodup, ?_, ?_, ?_⟩
  · rw [entering, hpresent, queuePids_ring hq, List.map_append, List.drop_left]
  · rw [dispatched, hall]
    show (if s₁.cpu.idle then (queuePids s₁).head? else none) = _
    rw [henters.cpu, queuePids_ring henters.queue]
  · exact fun hidle => henters.none (fun k hk v hv => hbusy hidle k (List.mem_range.mp hk) v hv)
  · exact fun k hk v hv => henters.all k (List.mem_range.mpr hk) v hv
  · intro k hk
    obtain ⟨n, hn, rfl⟩ := List.mem_map.mp hk
    obtain ⟨hrange, hkind⟩ := henters.new n hn
    exact ⟨List.mem_range.mp hrange, n.timeLeft, hkind⟩

theorem Sound.arrivals (h : Sound w ns) : ∃ s₁ more, enterAll w.st = .ok s₁ ∧
    Enters w.st s₁ ns more (List.range w.st.j) ∧ Arrivals w.st ns more := by
  refine RrFair.arrivals h.queue h.distinct (fun hbusy => ?_)
  rcases h.cpu with ⟨hidle, -⟩ | ⟨-, hsettled, -⟩
  · rw [hbusy] at hidle
    exact nomatch hidle
  · exact hsettled

/-- **EVERY TURN** is one of these. -/
theorem Sound.turn (h : Sound w ns) (hturn : watch w () w') : ∃ more ns', TurnOf w w' ns more ns' := by
  obtain ⟨ht, hlog⟩ := hturn
  obtain ⟨s₁, more, hall, henters, harrivals⟩ := h.arrivals
  rw [tick_eq, hall] at ht
  obtain ⟨s₂, hpart, hclosing⟩ := bind_ok.mp (show (cpuPart s₁ >>= closing) = .ok (.again w'.st) from ht)
  have hring : s₂.cpuQueue ≠ .freed := by
    intro hfreed
    obtain ⟨e, he⟩ := closing_freed hfreed
    exact nomatch he.symm.trans hclosing
  obtain ⟨ns', hns'⟩ : ∃ ns', s₂.cpuQueue = .ring ns' := by
    cases hq : s₂.cpuQueue with
    | ring ns' => exact ⟨ns', rfl⟩
    | freed => exact absurd hq hring
  have hsame : Untouched s₂ w'.st := by
    rcases closing_ring hns' with ⟨e, he⟩ | ⟨s₃, hs₃, hsame⟩
    · exact nomatch he.symm.trans hclosing
    · cases hs₃.symm.trans hclosing
      exact hsame
  have hmove : CpuMove s₁ s₂ ((ns ++ more).map CpuQueueNode.pid) (queuePids s₂) ∧
      Apart s₁ s₂ ((ns ++ more).map CpuQueueNode.pid) := by
    rcases h.cpu with ⟨hidle, -⟩ | ⟨hbusy, -, head, rest, rfl, hcurr, -⟩
    · exact cpuPart_idle_move henters.queue (by rw [henters.cpu]; exact hidle) hpart hring
    · exact cpuPart_busy_move henters.queue (by rw [henters.cpu]; exact hbusy)
        (by rw [henters.cpu]; exact hcurr) hpart
  obtain ⟨hmove, hj, hproc⟩ := hmove
  rw [queuePids_ring hns'] at hmove
  refine ⟨more, ns', harrivals, hsame.queue.trans hns', ?_, ?_, fun k hk => ?_, ?_⟩
  · refine (hmove.untouched hsame.cpu).before henters.cpu (fun hbusy => ?_)
    rw [henters.queue, harrivals.alone hbusy, List.append_nil, h.queue]
  · exact hsame.j.trans (hj.trans henters.j)
  · refine (headKind_congr ?_).trans (congrArg List.head? (henters.kinds k))
    rw [hsame.proc, hproc k hk]
  · rw [hlog, harrivals.entering]

/-- Entering keeps the order. -/
theorem Arrivals.ordered {log : List Nat} (h : Arrivals s ns more)
    (hlog : Ordered log (ns.map CpuQueueNode.pid)) :
    Ordered (log ++ more.map CpuQueueNode.pid) ((ns ++ more).map CpuQueueNode.pid) := by
  have hnodup := h.distinct
  rw [List.map_append] at hnodup ⊢
  exact hlog.enter hnodup

theorem Arrivals.idle_of_dispatched (h : Arrivals s ns more) {p : Nat}
    (hp : RrFair.dispatched s = some p) :
    s.cpu.idle = true ∧ ((ns ++ more).map CpuQueueNode.pid).head? = some p := by
  rw [h.dispatched] at hp
  split at hp
  · next hidle => exact ⟨hidle, hp⟩
  · cases hp

/-- **A QUEUE IN THE ORDER OF THE LOG** is served fairly. -/
theorem Sound.fair (h : Sound w ns) : Fair w := by
  obtain ⟨s₁, more, -, -, harrivals⟩ := h.arrivals
  intro p hp q hq hqp
  obtain ⟨hidle, hhead⟩ := harrivals.idle_of_dispatched hp
  have hordered : Ordered (w.log ++ more.map CpuQueueNode.pid)
      ((ns ++ more).map CpuQueueNode.pid) := by
    rcases h.cpu with ⟨-, hlog⟩ | ⟨hbusy, -⟩
    · exact harrivals.ordered hlog
    · exact nomatch hidle.symm.trans hbusy
  rw [harrivals.present] at hq
  rw [harrivals.entering]
  obtain ⟨ps, hps⟩ := List.head?_eq_some_iff.mp hhead
  rw [hps] at hordered hq
  exact List.rel_of_pairwise_cons hordered ((List.mem_cons.mp hq).resolve_left hqp)

theorem CpuMove.nodup {s' : State} {ps ps' : List Nat} (h : CpuMove s s' ps ps')
    (hnodup : ps.Nodup) : ps'.Nodup := by
  cases h with
  | rest => exact hnodup
  | spent => exact (List.nodup_cons.mp hnodup).2
  | taken => exact hnodup
  | served => exact hnodup
  | yields => exact (List.perm_append_singleton _ _).nodup_iff.mpr hnodup
  | ends =>
      exact (List.perm_append_singleton _ _).nodup_iff.mpr (List.nodup_cons.mp hnodup).2

/-- Who is not in the queue has no burst for the CPU. -/
theorem TurnOf.settled' (h : TurnOf w w' ns more ns') :
    Settled w'.st ((ns ++ more).map CpuQueueNode.pid) := by
  intro k hk v hv
  by_contra hnot
  rw [h.others k hnot] at hv
  exact hnot (h.settled k (h.j ▸ hk) v hv)

/-- **A TURN THAT SKIPS NOBODY** keeps the order. -/
theorem TurnOf.sound (ht : TurnOf w w' ns more ns') (h : Sound w ns) (hskip : ¬ Skips w.st) :
    Sound w' ns' := by
  refine ⟨ht.queue, ht.move.nodup ht.distinct, ?_⟩
  have hmove := ht.move
  have hsettled := ht.settled'
  have hlog := ht.log
  rw [ht.dispatched] at hlog
  rcases h.cpu with ⟨hidle, hordered⟩ | ⟨hbusy, -, head, rest, rfl, hcurr, hordered⟩
  · have hentered := ht.toArrivals.ordered hordered
    have hdistinct := ht.distinct
    rw [if_pos hidle] at hlog
    generalize (ns ++ more).map CpuQueueNode.pid = ps at hmove hsettled hlog hentered hdistinct
    generalize hps' : ns'.map CpuQueueNode.pid = ps' at hmove
    cases hmove with
    | rest _ hidle' => exact Or.inl ⟨hidle', List.Pairwise.nil⟩
    | @spent p _ _ hidle' =>
        refine Or.inl ⟨hidle', ?_⟩
        have hnot := (List.nodup_cons.mp hdistinct).1
        rw [hlog]
        exact (Ordered.touch (List.Pairwise.of_cons hentered) hnot).sublist
          (List.sublist_append_left ps' [p])
    | @taken p ps₀ _ hbusy' hcurr' =>
        obtain ⟨head, rest, rfl, hhead, hrest⟩ := List.map_eq_cons_iff.mp hps'
        refine Or.inr ⟨hbusy', hsettled, head, rest, rfl, by rw [hcurr', hhead], ?_⟩
        have hnot := (List.nodup_cons.mp hdistinct).1
        rw [hlog, hhead, hrest]
        exact Ordered.touch (List.Pairwise.of_cons hentered) hnot
    | served hbusy => exact nomatch hidle.symm.trans hbusy
    | yields hbusy => exact nomatch hidle.symm.trans hbusy
    | ends hbusy => exact nomatch hidle.symm.trans hbusy
  · have hnone := ht.alone hbusy
    subst hnone
    have hsame : w'.log = w.log := by
      rw [hlog, hbusy]
      show w.log ++ [] ++ [] = w.log
      rw [List.append_nil, List.append_nil]
    have hskip' : Ends w.st → rest.length < 2 := by
      intro hends
      by_contra hge
      refine hskip ⟨hends, ?_⟩
      rw [queuePids_ring h.queue, List.length_map, List.length_cons]
      omega
    rw [List.append_nil, List.map_cons] at hmove hsettled
    rw [hsame]
    generalize hps' : ns'.map CpuQueueNode.pid = ps' at hmove
    generalize hrest : rest.map CpuQueueNode.pid = ps at hmove hsettled hordered
    cases hmove with
    | spent hidle => exact nomatch hidle.symm.trans hbusy
    | taken hidle => exact nomatch hidle.symm.trans hbusy
    | served _ hbusy' hcurr' _ =>
        obtain ⟨head', rest', rfl, hhead, hrest'⟩ := List.map_eq_cons_iff.mp hps'
        refine Or.inr ⟨hbusy', hsettled, head', rest', rfl, by rw [hcurr', hhead], ?_⟩
        rw [hhead, hrest']
        exact hordered
    | yields _ hidle' _ => exact Or.inl ⟨hidle', hordered⟩
    | @ends p q ps₀ _ hidle' hends =>
        have hlen : (q :: ps₀).length < 2 := by
          rw [← hrest, List.length_map]
          exact hskip' hends
        obtain rfl : ps₀ = [] := List.length_eq_zero_iff.mp (by rw [List.length_cons] at hlen; omega)
        exact Or.inl ⟨hidle', hordered.sublist (List.sublist_append_left [q] [head.pid])⟩

/-- **A TURN THAT SKIPS A PROCESS** makes the next dispatch unfair. -/
theorem TurnOf.unfair (ht : TurnOf w w' ns more ns') (h : Sound w ns) (hskip : Skips w.st) :
    ¬ Fair w' := by
  obtain ⟨hends, hthree⟩ := hskip
  rcases h.cpu with ⟨hidle, -⟩ | ⟨hbusy, -, head, rest, rfl, -, hordered⟩
  · exact nomatch hidle.symm.trans hends.1
  have hnone := ht.alone hbusy
  subst hnone
  have hlog : w'.log = w.log := by
    rw [ht.log, ht.dispatched, hbusy]
    show w.log ++ [] ++ [] = w.log
    rw [List.append_nil, List.append_nil]
  have hmove := ht.move
  have hdistinct := ht.move.nodup ht.distinct
  rw [queuePids_ring h.queue, List.length_map, List.length_cons] at hthree
  rw [List.append_nil, List.map_cons] at hmove
  generalize hps' : ns'.map CpuQueueNode.pid = ps' at hmove hdistinct
  generalize hrest : rest.map CpuQueueNode.pid = ps at hmove hordered
  cases hmove with
  | spent hidle => exact nomatch hidle.symm.trans hbusy
  | taken hidle => exact nomatch hidle.symm.trans hbusy
  | served _ _ _ hnot => exact absurd hends hnot
  | yields _ _ hnot => exact absurd hends hnot
  | @ends _ q ps₀ _ hidle' _ =>
      have hlen : 2 ≤ (q :: ps₀).length := by
        rw [← hrest, List.length_map]
        omega
      obtain ⟨r, ps₁, rfl⟩ : ∃ r ps₁, ps₀ = r :: ps₁ := by
        cases ps₀ with
        | nil => exact absurd hlen (Nat.not_succ_le_self 1)
        | cons r ps₁ => exact ⟨r, ps₁, rfl⟩
      -- `q` has waited longer than `r`, which is the new head
      have hlonger : Longer w.log q r :=
        List.rel_of_pairwise_cons hordered (List.mem_append_left _ List.mem_cons_self)
      obtain ⟨s₁, more', -, -, harrivals⟩ := arrivals ht.queue (by rw [hps']; exact hdistinct)
        (fun hbusy' => nomatch hidle'.symm.trans hbusy')
      have hdispatched : RrFair.dispatched w'.st = some r := by
        rw [harrivals.dispatched, if_pos hidle', List.map_append, hps']
        rfl
      have hqr : q ≠ r := fun heq => (List.nodup_cons.mp hdistinct).1
        (heq ▸ List.mem_append_right _ (List.mem_singleton_self q))
      have hmem : q ∈ r :: ps₁ ++ [q] := List.mem_append_right _ (List.mem_singleton_self q)
      have hpresent : q ∈ RrFair.present w'.st := by
        rw [harrivals.present, List.map_append, hps']
        exact List.mem_append_left _ hmem
      have hnew : q ∉ more'.map CpuQueueNode.pid := by
        have hnodup := harrivals.distinct
        rw [List.map_append, hps'] at hnodup
        exact fun hq => (List.nodup_append.mp hnodup).2.2 q hmem q hq rfl
      intro hfair
      have hlonger' := hfair r hdispatched q hpresent hqr
      rw [harrivals.entering, hlog] at hlonger'
      exact (hlonger.append hnew).asymm hlonger'

end Turn

/-! ## Between two dispatches -/

theorem CpuMove.subset {s s' : State} {ps ps' : List Nat} (h : CpuMove s s' ps ps') : ps' ⊆ ps := by
  cases h with
  | rest => exact List.Subset.refl _
  | spent => exact List.subset_cons_self _ _
  | taken => exact List.Subset.refl _
  | served => exact List.Subset.refl _
  | yields => exact (List.perm_append_singleton _ _).subset
  | ends =>
      exact List.Subset.trans (List.perm_append_singleton _ _).subset (List.subset_cons_self _ _)

/-- A process that is not at the head stays, and is not served. -/
theorem CpuMove.stays {s s' : State} {ps ps' : List Nat} {p : Nat} (h : CpuMove s s' ps ps')
    (hp : p ∈ ps) (hhead : ps.head? ≠ some p) :
    p ∈ ps' ∧ (s'.cpu.idle = false → ps'.head? ≠ some p) := by
  have hidle : s'.cpu.idle = true → s'.cpu.idle = false → ps'.head? ≠ some p :=
    fun h h' => nomatch h.symm.trans h'
  have htail : ∀ {r : Nat} {rs : List Nat}, p ∈ r :: rs → (r :: rs).head? ≠ some p → p ∈ rs :=
    fun hmem hne => (List.mem_cons.mp hmem).resolve_left (fun heq => hne (congrArg some heq.symm))
  cases h with
  | rest => exact nomatch hp
  | spent _ hidle' => exact ⟨htail hp hhead, hidle hidle'⟩
  | taken => exact ⟨hp, fun _ => hhead⟩
  | served => exact ⟨hp, fun _ => hhead⟩
  | yields _ hidle' => exact ⟨List.mem_append_left _ (htail hp hhead), hidle hidle'⟩
  | ends _ hidle' =>
      exact ⟨(List.perm_append_singleton _ _).mem_iff.mpr (htail hp hhead), hidle hidle'⟩

/-- The states after a dispatch of `p`, with the dispatches of `q` since. -/
inductive Segment (p q : Nat) (w : Watched) : Nat → Prop
  /-- it is the turn of `q` first -/
  | before (h : Longer w.log q p) : Segment p q w 0
  /-- it is the turn of `p` first -/
  | after (h : Longer w.log p q) (hp : p ∈ queuePids w.st)
      (hhead : w.st.cpu.idle = false → (queuePids w.st).head? ≠ some p) : Segment p q w 1
  /-- `p` does not come back -/
  | gone {n : Nat} (hp : p ∉ queuePids w.st)
      (hout : p < w.st.j → ∀ v, headKind w.st p ≠ some (.C, v)) : Segment p q w n

section Between

variable {w w' a b : Watched} {ns more ns' : List CpuQueueNode} {p q n : Nat}

theorem TurnOf.gone (ht : TurnOf w w' ns more ns')
    (hp : p ∉ (ns ++ more).map CpuQueueNode.pid) : Segment p q w' n := by
  refine .gone (fun hmem => hp ?_) (fun hlt v hv => hp ?_)
  · rw [queuePids_ring ht.queue] at hmem
    exact ht.move.subset hmem
  · exact ht.settled' p hlt v hv

/-- **ONE TURN** in which `q` is in the queue and `p` is not dispatched. -/
theorem Segment.turn (h : Segment p q w n) (hs : Sound w ns) (ht : TurnOf w w' ns more ns')
    (hqp : q ≠ p) (hq : q ∈ queuePids w.st) (hp : dispatched w.st ≠ some p) :
    Segment p q w' (n + if dispatched w.st = some q then 1 else 0) := by
  have hdistinct := ht.distinct
  rw [queuePids_ring hs.queue] at hq
  rw [List.map_append, List.nodup_append] at hdistinct
  have hqmore : q ∉ more.map CpuQueueNode.pid := fun hmem => hdistinct.2.2 q hq q hmem rfl
  have hlog := ht.log
  have hqueue' := queuePids_ring ht.queue
  cases h with
  | before hlonger =>
      have hentered := hlonger.append hqmore
      cases hd : dispatched w.st with
      | none =>
          rw [hd, Option.toList_none, List.append_nil] at hlog
          rw [if_neg (Option.some_ne_none q).symm]
          exact .before (by rw [hlog]; exact hentered)
      | some r =>
          rw [hd, Option.toList_some] at hlog
          have hrp : r ≠ p := fun heq => hp (heq ▸ hd)
          by_cases hrq : r = q
          · subst hrq
            rw [if_pos rfl]
            by_cases hpresent : p ∈ (ns ++ more).map CpuQueueNode.pid
            · have hhead := (ht.idle_of_dispatched hd).2
              obtain ⟨hstays, hserved⟩ := ht.move.stays hpresent
                (by rw [hhead]; exact fun heq => hrp (Option.some.inj heq))
              rw [← hqueue'] at hstays hserved
              refine .after ?_ hstays hserved
              rw [hlog]
              exact longer_snoc.mpr ⟨hrp, Or.inl rfl⟩
            · exact ht.gone hpresent
          · rw [if_neg (fun heq => hrq (Option.some.inj heq))]
            refine .before ?_
            rw [hlog]
            exact longer_snoc.mpr ⟨hrq, Or.inr hentered⟩
  | after hlonger hmem hhead =>
      rw [queuePids_ring hs.queue] at hmem hhead
      have hpmore : p ∉ more.map CpuQueueNode.pid := fun hm => hdistinct.2.2 p hmem p hm rfl
      have hentered := hlonger.append hpmore
      have hpresent : p ∈ (ns ++ more).map CpuQueueNode.pid := by
        rw [List.map_append]
        exact List.mem_append_left _ hmem
      have hnot : ((ns ++ more).map CpuQueueNode.pid).head? ≠ some p := by
        cases hidle : w.st.cpu.idle with
        | true =>
            rw [ht.dispatched, if_pos hidle] at hp
            exact hp
        | false =>
            rw [ht.alone hidle, List.append_nil]
            exact hhead hidle
      obtain ⟨hstays, hserved⟩ := ht.move.stays hpresent hnot
      rw [← hqueue'] at hstays hserved
      cases hd : dispatched w.st with
      | none =>
          rw [hd, Option.toList_none, List.append_nil] at hlog
          rw [if_neg (Option.some_ne_none q).symm]
          exact .after (by rw [hlog]; exact hentered) hstays hserved
      | some r =>
          rw [hd, Option.toList_some] at hlog
          have hrp : r ≠ p := fun heq => hp (heq ▸ hd)
          -- `q` is not dispatched again, because `p` has waited longer
          have hrq : r ≠ q := by
            rintro rfl
            have hfair := hs.fair r hd p (by rw [ht.present]; exact hpresent) hqp.symm
            rw [ht.entering] at hfair
            exact hentered.asymm hfair
          rw [if_neg (fun heq => hrq (Option.some.inj heq))]
          refine .after ?_ hstays hserved
          rw [hlog]
          exact longer_snoc.mpr ⟨hrp, Or.inr hentered⟩
  | gone hnot hout =>
      refine ht.gone (fun hmem => ?_)
      rw [List.map_append, List.mem_append] at hmem
      rcases hmem with hmem | hmem
      · exact hnot (by rw [queuePids_ring hs.queue]; exact hmem)
      · obtain ⟨hlt, v, hv⟩ := ht.new p hmem
        exact hout hlt v hv

/-- After a dispatch of `p`, every other is before it. -/
theorem TurnOf.start (ht : TurnOf w w' ns more ns') (hd : dispatched w.st = some p) (hqp : q ≠ p) :
    Segment p q w' 0 := by
  refine .before ?_
  rw [ht.log, hd]
  exact longer_snoc.mpr ⟨hqp.symm, Or.inl rfl⟩

/-- At the next dispatch of `p`, `q` has been dispatched once. -/
theorem Segment.end_ (h : Segment p q b n) (hs : Sound b ns) (hqp : q ≠ p)
    (hq : q ∈ queuePids b.st) (hd : dispatched b.st = some p) : n = 1 := by
  obtain ⟨s₁, more, -, -, harrivals⟩ := hs.arrivals
  have hdistinct := harrivals.distinct
  rw [queuePids_ring hs.queue] at hq
  rw [List.map_append, List.nodup_append] at hdistinct
  cases h with
  | before hlonger =>
      have hqmore : q ∉ more.map CpuQueueNode.pid := fun hmem => hdistinct.2.2 q hq q hmem rfl
      have hpresent : q ∈ present b.st := by
        rw [harrivals.present, List.map_append]
        exact List.mem_append_left _ hq
      have hfair := hs.fair p hd q hpresent hqp
      rw [harrivals.entering] at hfair
      exact absurd hfair (hlonger.append hqmore).asymm
  | after => rfl
  | gone hnot hout =>
      have hmem := List.mem_of_mem_head? (harrivals.idle_of_dispatched hd).2
      rw [List.map_append, List.mem_append] at hmem
      rcases hmem with hmem | hmem
      · rw [queuePids_ring hs.queue] at hnot
        exact absurd hmem hnot
      · obtain ⟨hlt, v, hv⟩ := harrivals.new p hmem
        exact absurd hv (hout hlt v)

/-- **FROM ONE DISPATCH TO THE NEXT**, turn by turn. -/
theorem Segment.run (hqp : q ≠ p) (hd : dispatched b.st = some p) (between : List Watched) :
    ∀ {n : Nat}, (∀ y ∈ (between ++ [b]).head?, Segment p q y n) →
    List.IsChain (fun w w' => ∃ u, watch w u w') (between ++ [b]) →
    (∀ x ∈ between ++ [b], ∃ ns, Sound x ns) → (∀ x ∈ between, dispatched x.st ≠ some p) →
    (∀ x ∈ between ++ [b], q ∈ queuePids x.st) →
    n + between.countP (fun x => dispatched x.st = some q) = 1 := by
  induction between with
  | nil =>
      intro n hsegment _ hsound _ hq
      obtain ⟨ns, hs⟩ := hsound b (List.mem_singleton_self b)
      exact (hsegment b rfl).end_ hs hqp (hq b (List.mem_singleton_self b)) hd
  | cons x between ih =>
      intro n hsegment hchain hsound hp hq
      rw [List.cons_append] at hchain hsound hq
      obtain ⟨y, rest, hrest⟩ : ∃ y rest, between ++ [b] = y :: rest :=
        List.exists_cons_of_ne_nil (List.append_ne_nil_of_right_ne_nil _ (List.cons_ne_nil b []))
      rw [List.forall_mem_cons] at hsound hp hq
      rw [hrest, List.isChain_cons_cons, ← hrest] at hchain
      obtain ⟨⟨u, hwatch⟩, hchain⟩ := hchain
      obtain ⟨ns, hs⟩ := hsound.1
      obtain ⟨more, ns', ht⟩ := hs.turn hwatch
      have hnext := (hsegment x rfl).turn hs ht hqp hq.1 hp.1
      have hcount := ih (by rw [hrest]; intro z hz; rw [← Option.some.inj hz]; exact hnext)
        hchain hsound.2 hp.2 hq.2
      rw [List.countP_cons, Nat.add_comm (List.countP _ _), ← Nat.add_assoc]
      simpa only [decide_eq_true_eq] using hcount

end Between

/-! ## Runs -/

section Run

variable {s₀ : State} {w : Watched} {hist : List (Watched × Unit)}

theorem Starts.sound (h : Starts s₀) : ∃ ns, Sound (watched s₀) ns := by
  obtain ⟨hidle, ns, hq, hnodup⟩ := h
  refine ⟨ns, hq, hnodup, Or.inl ⟨hidle, ?_⟩⟩
  show Ordered (queuePids s₀) _
  rw [queuePids_ring hq]
  exact ordered_self hnodup

/-- **ALL DISPATCHES OF A RUN** are fair exactly if none of its turns skips a
    process. -/
theorem run_fair (hs : Starts s₀) (hrun : Steps watch (watched s₀) hist w) :
    (((∀ x ∈ hist, Fair x.1) ∧ Fair w) ↔ ∀ x ∈ hist, ¬ Skips x.1.st) ∧
      ((∀ x ∈ hist, ¬ Skips x.1.st) → ∃ ns, Sound w ns) := by
  obtain ⟨ns, hsound⟩ := hs.sound
  have hstep : ∀ {w w' : Watched} {q : Unit}, (Fair w → ∃ ns, Sound w ns) → Fair w →
      watch w q w' → True → (Fair w' → ∃ ns, Sound w' ns) ∧ (Fair w' ↔ ¬ Skips w.st) := by
    intro w w' _ hkept hfair hturn _
    obtain ⟨ns, hsound⟩ := hkept hfair
    obtain ⟨more, ns', ht⟩ := hsound.turn hturn
    by_cases hskip : Skips w.st
    · have hunfair := ht.unfair hsound hskip
      exact ⟨fun hfair' => absurd hfair' hunfair, iff_of_false hunfair (not_not.mpr hskip)⟩
    · have hsound' := ht.sound hsound hskip
      exact ⟨fun _ => ⟨ns', hsound'⟩, iff_of_true hsound'.fair hskip⟩
  obtain ⟨hiff, hkept⟩ := Steps.exact (I := fun w => Fair w → ∃ ns, Sound w ns) (P := Fair)
    hstep hrun (fun _ _ => trivial) (fun _ => ⟨ns, hsound⟩) hsound.fair
  exact ⟨hiff, fun hgood => hkept hgood (hiff.mpr hgood).2⟩

theorem run_sound (hs : Starts s₀) (hrun : Steps watch (watched s₀) hist w) :
    (∀ x ∈ hist, ¬ Skips x.1.st) → ∀ x ∈ hist.map Prod.fst ++ [w], ∃ ns, Sound x ns := by
  induction hrun with
  | start => exact fun _ => List.forall_mem_singleton.mpr hs.sound
  | @next hist w w' u _ hturn ih =>
      intro hgood
      rw [List.forall_mem_append, List.forall_mem_singleton] at hgood
      rw [List.map_append, List.map_singleton, List.forall_mem_append, List.forall_mem_singleton]
      have hbefore := ih hgood.1
      obtain ⟨ns, hsound⟩ := hbefore w (List.mem_append_right _ (List.mem_singleton_self w))
      obtain ⟨more, ns', ht⟩ := hsound.turn hturn
      exact ⟨hbefore, ns', ht.sound hsound hgood.2⟩

/-- **TAKING TURNS** over a chain of turns that skip nobody. -/
theorem takeTurns {states : List Watched}
    (hchain : List.IsChain (fun w w' => ∃ u, watch w u w') states)
    (hsound : ∀ x ∈ states, ∃ ns, Sound x ns) : TakeTurns states := by
  rintro before a between b after rfl p ha hb hp q hqp hq
  have hsuffix := (List.isChain_append.mp hchain).2.1
  have hsegment : List.IsChain (fun w w' => ∃ u, watch w u w') (a :: (between ++ [b])) := by
    refine hsuffix.prefix ⟨after, ?_⟩
    rw [List.cons_append, List.append_assoc, List.singleton_append]
  have hmem : ∀ x ∈ a :: (between ++ [b]), ∃ ns, Sound x ns := by
    intro x hx
    refine hsound x (List.mem_append_right _ ?_)
    rw [List.mem_cons, List.mem_append, List.mem_singleton] at hx
    rw [List.mem_cons, List.mem_append, List.mem_cons]
    exact hx.imp_right (fun h => h.imp_right Or.inl)
  rw [List.forall_mem_cons] at hmem
  obtain ⟨ns, hs⟩ := hmem.1
  obtain ⟨y, rest, hrest⟩ : ∃ y rest, between ++ [b] = y :: rest :=
    List.exists_cons_of_ne_nil (List.append_ne_nil_of_right_ne_nil _ (List.cons_ne_nil b []))
  rw [hrest, List.isChain_cons_cons, ← hrest] at hsegment
  obtain ⟨⟨u, hwatch⟩, hsegment⟩ := hsegment
  obtain ⟨more, ns', ht⟩ := hs.turn hwatch
  have hcount := Segment.run hqp hb between
    (by rw [hrest]; intro z hz; rw [← Option.some.inj hz]; exact ht.start ha hqp)
    hsegment hmem.2 hp hq
  rwa [Nat.zero_add] at hcount

/-- **ROUND ROBIN IS FAIR** in a run from an idle CPU exactly if no turn of
    the run skips a process. -/
theorem round_robin_exact (hs : Starts s₀) (hrun : Steps watch (watched s₀) hist w) :
    RoundRobin (hist.map Prod.fst ++ [w]) ↔ ∀ x ∈ hist, ¬ Skips x.1.st := by
  obtain ⟨hiff, -⟩ := run_fair hs hrun
  have hstates : (∀ x ∈ hist.map Prod.fst ++ [w], Fair x) ↔ (∀ x ∈ hist, Fair x.1) ∧ Fair w := by
    rw [List.forall_mem_append, List.forall_mem_singleton, List.forall_mem_map]
  constructor
  · exact fun h => hiff.mp (hstates.mp h.fair)
  · intro hgood
    exact ⟨hstates.mpr (hiff.mpr hgood), takeTurns hrun.chain (run_sound hs hrun hgood)⟩

end Run

/-! ## A run -/

/-- The turn from `w`, unless it fails. -/
def next (w : Watched) : Option Watched :=
  match tick w.st with
  | .ok (.again s) => some ⟨s, w.log ++ entering w.st ++ (dispatched w.st).toList⟩
  | _ => none

/-- The state after so many turns. -/
def afterTurns (w : Watched) : Nat → Option Watched
  | 0 => some w
  | n + 1 => (afterTurns w n).bind next

theorem watch_of_next {w w' : Watched} (h : next w = some w') : watch w () w' := by
  rw [next] at h
  split at h
  · next hturn =>
    cases h
    exact ⟨hturn, rfl⟩
  · exact nomatch h

theorem steps_of_afterTurns {w₀ w : Watched} {n : Nat} (h : afterTurns w₀ n = some w) :
    ∃ hist, Steps watch w₀ hist w := by
  induction n generalizing w with
  | zero =>
      cases h
      exact ⟨[], .start⟩
  | succ n ih =>
      obtain ⟨w₁, hw₁, hnext⟩ := Option.bind_eq_some_iff.mp h
      obtain ⟨hist, hrun⟩ := ih hw₁
      exact ⟨_, hrun.next (watch_of_next hnext)⟩

theorem loaded_starts (lines : List SjfModel.Line) : Starts (loaded lines) :=
  ⟨rfl, [], rfl, List.nodup_nil⟩

/-- Three processes with a burst of two quanta each. -/
def threeLines : List SjfModel.Line := [⟨0, [4]⟩, ⟨0, [4]⟩, ⟨0, [4]⟩]

/-- After eight turns process 0 has left, and process 2 is next. -/
theorem threeLines_run : (afterTurns (watched (loaded threeLines)) 8).map
    (fun w => (dispatched w.st, present w.st, w.log ++ entering w.st)) =
      some (some 2, [2, 1], [0, 1, 2, 0, 1, 2, 0]) := rfl

theorem round_robin_exact_run : ∃ hist w, Steps watch (watched (loaded threeLines)) hist w ∧
    (RoundRobin (hist.map Prod.fst ++ [w]) ↔ ∀ x ∈ hist, ¬ Skips x.1.st) := by
  obtain ⟨w, hw, -⟩ := Option.map_eq_some_iff.mp threeLines_run
  obtain ⟨hist, hrun⟩ := steps_of_afterTurns hw
  exact ⟨hist, w, hrun, round_robin_exact (loaded_starts threeLines) hrun⟩

/-- **PROCESS 1 IS PASSED OVER**: it was last dispatched before process 2. -/
theorem round_robin_skips : Starts (loaded threeLines) ∧
    ∃ hist w, Steps watch (watched (loaded threeLines)) hist w ∧
      ¬ RoundRobin (hist.map Prod.fst ++ [w]) := by
  refine ⟨loaded_starts threeLines, ?_⟩
  obtain ⟨w, hw, heq⟩ := Option.map_eq_some_iff.mp threeLines_run
  obtain ⟨hist, hrun⟩ := steps_of_afterTurns hw
  obtain ⟨hdispatched, hrest⟩ := Prod.mk.inj heq
  obtain ⟨hpresent, hlog⟩ := Prod.mk.inj hrest
  refine ⟨hist, w, hrun, fun h => ?_⟩
  have hfair := h.fair w (List.mem_append_right _ (List.mem_singleton_self w)) 2 hdispatched 1
    (by rw [hpresent]; decide) (by decide)
  rw [hlog] at hfair
  exact absurd hfair (by decide : ¬ 1 ∈ OsPaging.since [0, 1, 2, 0, 1, 2, 0] 2)

end RrFair
