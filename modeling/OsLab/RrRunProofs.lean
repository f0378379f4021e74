import OsLab.RrModelProofs
import OsLab.SjfServiceProofs

/-! # No run of the round-robin simulator obeys the law

    The first turn enters every process into the queue, arrived or not, and no
    I/O burst ever comes off its list, so no process enters it again
    (`enters_all`).  Every later turn uses up a unit of what is queued
    (`cpuPart_spec`).  When the last process leaves, the head of the queue
    points to a freed node and is followed in the same turn, so with any
    burst at all some turn fails, and without one the loop does not end
    (`rr_never`). -/

namespace RrRun

open OsLoop RrModel
open SjfModel (ProcessNode BurstType Line WellFormed)
open SjfService (burstList kind)

/-! ## The law -/

/-- The states in which the turns of a run start, up to one in `s`. -/
inductive Turns (lines : List Line) : List State → State → Prop
  | start : Turns lines [] (loaded lines)
  | turn {past : List State} {s s' : State} (h : Turns lines past s)
      (ht : tick s = .ok (.again s')) : Turns lines (past ++ [s]) s'

/-- The units that `p` was served, by the device. -/
def served (past : List State) (p : Nat) : List BurstType :=
  past.flatMap fun s =>
    (if onCpu s = some p then [.C] else []) ++ (if onIo s = some p then [.I] else [])

/-- The units of a line, in the order of its bursts. -/
def units (l : Line) : List BurstType :=
  (burstList l).flatMap fun b => List.replicate b.2.toNat b.1

/-- The round-robin execution law. -/
structure Law (lines : List Line) : Prop where
  /-- no null pointer and no freed node is followed -/
  safe : ∀ past s, Turns lines past s → ∃ turn, tick s = .ok turn
  /-- the CPU serves processes that have arrived -/
  arrived : ∀ past s p l, Turns lines past s → lines[p]? = some l → onCpu s = some p →
    l.arrival ≤ s.time
  /-- bursts are served in the order of the line, each for its length -/
  order : ∀ past s p l, Turns lines past s → lines[p]? = some l → served past p <+: units l
  /-- all of them when the loop ends -/
  complete : ∀ past s a p l, Turns lines past s → tick s = .ok (.done a) → lines[p]? = some l →
    served (past ++ [s]) p = units l
  /-- the loop ends once every list is consumed -/
  ends : ∀ past s, Turns lines past s → Consumed s → ∃ fuel a, loop .endless tick fuel s = .ok a

/-! ## Entering the queue -/

/-- The burst at the head of a list. -/
def headKind (s : State) (p : Nat) : Option (BurstType × Int) := ((s.proc p).map kind).head?

/-- What the loop does with the processes `ks`: `more` joins the queue. -/
structure Enters (s s' : State) (ns more : List CpuQueueNode) (ks : List Nat) : Prop where
  queue : s'.cpuQueue = .ring (ns ++ more)
  new : ∀ n ∈ more, n.pid ∈ ks ∧ headKind s n.pid = some (.C, n.timeLeft)
  distinct : (ns.map CpuQueueNode.pid).Nodup → ((ns ++ more).map CpuQueueNode.pid).Nodup
  all : ∀ k ∈ ks, ∀ v, headKind s k = some (.C, v) → k ∈ (ns ++ more).map CpuQueueNode.pid
  none : (∀ k ∈ ks, ∀ v, headKind s k = some (.C, v) → k ∈ ns.map CpuQueueNode.pid) → more = []
  kinds : ∀ p, (s'.proc p).map kind = (s.proc p).map kind
  cpu : s'.cpu = s.cpu
  j : s'.j = s.j

section Enter

variable {s s' : State} {ns : List CpuQueueNode} {k p : Nat}

theorem headKind_cons {node : ProcessNode} {next : List ProcessNode} (h : s.proc p = node :: next) :
    headKind s p = some (node.type, node.val) := by
  rw [headKind, h]
  rfl

theorem inCQueue_ring (hq : s.cpuQueue = .ring ns) :
    inCQueue s.cpuQueue k = .ok (ns.any (fun n => n.pid = k)) := by
  rw [hq]
  rfl

theorem mem_pids : (ns.any (fun n => n.pid = k)) = true ↔ k ∈ ns.map CpuQueueNode.pid := by
  rw [List.any_eq_true, List.mem_map]
  exact exists_congr (fun n => and_congr_right (fun _ => decide_eq_true_iff))

/-- Nobody joins. -/
theorem enters_same (hq : s.cpuQueue = .ring ns)
    (hk : ∀ v, headKind s k = some (.C, v) → k ∈ ns.map CpuQueueNode.pid)
    (hqueue : s'.cpuQueue = s.cpuQueue) (hkinds : ∀ p, (s'.proc p).map kind = (s.proc p).map kind)
    (hcpu : s'.cpu = s.cpu) (hj : s'.j = s.j) : Enters s s' ns [] [k] where
  queue := by rw [hqueue, hq, List.append_nil]
  new := fun _ hn => nomatch hn
  distinct := by
    rw [List.append_nil]
    exact id
  all := by
    intro k' hk' v hv
    rw [List.append_nil]
    obtain rfl : k' = k := List.mem_singleton.mp hk'
    exact hk v hv
  none := fun _ => rfl
  kinds := hkinds
  cpu := hcpu
  j := hj

/-- **ONE PROCESS** joins when its next burst is for the CPU and it is not in
    the queue. -/
theorem enter_spec (hq : s.cpuQueue = .ring ns) (k : Nat) :
    ∃ s' more, enter s k = .ok s' ∧ Enters s s' ns more [k] := by
  rw [enter]
  cases hproc : s.proc k with
  | nil =>
      refine ⟨s, [], rfl, enters_same hq (fun v hv => ?_) rfl (fun _ => rfl) rfl rfl⟩
      rw [headKind, hproc] at hv
      exact nomatch hv
  | cons node next =>
      have hhead := headKind_cons hproc
      simp only [inCQueue_ring hq]
      by_cases hin : (ns.any (fun n => n.pid = k)) = true
      · refine ⟨s, [], ?_, enters_same hq (fun _ _ => mem_pids.mp hin) rfl (fun _ => rfl) rfl rfl⟩
        rw [hin]
        rfl
      · have hnot : k ∉ ns.map CpuQueueNode.pid := fun h => hin (mem_pids.mpr h)
        rw [Bool.not_eq_true] at hin
        rw [hin]
        cases htype : node.type with
        | C =>
            refine ⟨{ s with cpuQueue := .ring (ns ++ [⟨k, node.val⟩]) }, [⟨k, node.val⟩], ?_, rfl,
              ?_, ?_, ?_, ?_, fun _ => rfl, rfl, rfl⟩
            · show (enqueue s.cpuQueue k node.val >>= fun q => _) = _
              rw [hq]
              rfl
            · intro n hn
              rw [List.mem_singleton.mp hn]
              exact ⟨List.mem_singleton_self k, by rw [hhead, htype]⟩
            · intro hnodup
              rw [List.map_append, List.nodup_append]
              refine ⟨hnodup, List.pairwise_singleton _ k, fun a ha b hb => ?_⟩
              obtain rfl : b = k := List.mem_singleton.mp hb
              exact fun hab => hnot (hab ▸ ha)
            · intro k' hk' v _
              rw [List.mem_singleton.mp hk', List.map_append]
              exact List.mem_append_right _ (List.mem_singleton_self k)
            · intro hall
              exact absurd (hall k (List.mem_singleton_self k) node.val (by rw [hhead, htype])) hnot
        | I =>
            refine ⟨_, [], rfl, enters_same hq (fun v hv => ?_) rfl (fun p => ?_) rfl rfl⟩
            · rw [hhead, htype] at hv
              exact nomatch hv
            · by_cases hp : p = k
              · subst hp
                show (Function.update s.proc p _ p).map kind = _
                rw [Function.update_self, hproc, List.map_cons, List.map_cons, kind, kind, htype]
              · show (Function.update s.proc k _ p).map kind = _
                rw [Function.update_of_ne hp]

/-- **THE LOOP** that enters them: no fault, as long as the head is not freed. -/
theorem enters_all (ks : List Nat) : ∀ {s : State} {ns : List CpuQueueNode},
    s.cpuQueue = .ring ns → ∃ s' more, runAll enter s ks = .ok s' ∧ Enters s s' ns more ks := by
  induction ks with
  | nil =>
      intro s ns hq
      refine ⟨s, [], rfl, by rw [hq, List.append_nil], fun _ hn => (nomatch hn), ?_,
        fun _ hk => (nomatch hk), fun _ => rfl, fun _ => rfl, rfl, rfl⟩
      rw [List.append_nil]
      exact id
  | cons k ks ih =>
      intro s ns hq
      obtain ⟨s₁, m₁, henter, h₁⟩ := enter_spec hq k
      obtain ⟨s₂, m₂, hrest, h₂⟩ := ih h₁.queue
      have hhead : ∀ p, headKind s₁ p = headKind s p := fun p => congrArg List.head? (h₁.kinds p)
      have happ : ns ++ m₁ ++ m₂ = ns ++ (m₁ ++ m₂) := List.append_assoc ..
      refine ⟨s₂, m₁ ++ m₂, runAll_cons.mpr ⟨s₁, henter, hrest⟩, ?_, ?_, ?_, ?_, ?_, ?_, ?_, ?_⟩
      · rw [h₂.queue, happ]
      · intro n hn
        rcases List.mem_append.mp hn with hn' | hn'
        · obtain ⟨hk, hkind⟩ := h₁.new n hn'
          exact ⟨List.mem_cons.mpr (Or.inl (List.mem_singleton.mp hk)), hkind⟩
        · obtain ⟨hk, hkind⟩ := h₂.new n hn'
          exact ⟨List.mem_cons_of_mem k hk, by rw [← hhead]; exact hkind⟩
      · intro hnodup
        rw [← happ]
        exact h₂.distinct (h₁.distinct hnodup)
      · intro k' hk' v hv
        rw [← happ]
        rcases List.mem_cons.mp hk' with rfl | hk''
        · have hmem := h₁.all k' (List.mem_singleton_self k') v hv
          rw [List.map_append]
          exact List.mem_append_left _ hmem
        · exact h₂.all k' hk'' v (by rw [hhead]; exact hv)
      · intro hall
        obtain rfl : m₁ = [] := h₁.none (fun k' hk' v hv =>
          hall k' (List.mem_cons.mpr (Or.inl (List.mem_singleton.mp hk'))) v hv)
        rw [List.append_nil] at h₂
        exact h₂.none (fun k' hk' v hv =>
          hall k' (List.mem_cons_of_mem k hk') v (by rw [← hhead]; exact hv))
      · exact fun p => (h₂.kinds p).trans (h₁.kinds p)
      · exact h₂.cpu.trans h₁.cpu
      · exact h₂.j.trans h₁.j

end Enter

/-! ## The turns that follow -/

/-- The processes whose next burst is for the CPU are those with the pids
    `ps`, and their bursts take turns. -/
structure Queued (s : State) (ps : List Nat) : Prop where
  distinct : ps.Nodup
  queued : ∀ k < s.j, ∀ v, headKind s k = some (.C, v) → k ∈ ps
  waiting : ∀ k ∈ ps, ∃ v, headKind s k = some (.C, v)
  alternate : ∀ k v x rest, (s.proc k).map kind = (.C, v) :: x :: rest → x.1 ≠ .C

/-- After that they are in the queue, with time left but for the one the
    CPU serves. -/
structure Ready (s : State) (ns : List CpuQueueNode) : Prop where
  queue : s.cpuQueue = .ring ns
  core : Queued s (ns.map CpuQueueNode.pid)
  cpu : (s.cpu.idle = true ∧ ns ≠ [] ∧ ∀ n ∈ ns, 1 ≤ n.timeLeft) ∨
    (s.cpu.idle = false ∧ s.cpu.timeLeft = 1 ∧ ∃ head rest, ns = head :: rest ∧
      s.cpu.currPid = head.pid ∧ 0 ≤ head.timeLeft ∧ ∀ n ∈ rest, 1 ≤ n.timeLeft)

/-- The units that the queue and the CPU have left. -/
def left (s : State) (ns : List CpuQueueNode) : Int :=
  (ns.map CpuQueueNode.timeLeft).sum + if s.cpu.idle then 0 else 1

/-- The I/O part and the waiting times do not touch these. -/
structure Untouched (s s' : State) : Prop where
  queue : s'.cpuQueue = s.cpuQueue
  proc : s'.proc = s.proc
  cpu : s'.cpu = s.cpu
  j : s'.j = s.j

section Parts

variable {s s' : State} {ns : List CpuQueueNode}

theorem Untouched.refl (s : State) : Untouched s s := ⟨rfl, rfl, rfl, rfl⟩

theorem updateFrom_untouched (rs : List Nat) : ∀ {s : State}, updateFrom rs s = .ok s' →
    Untouched s s' := by
  induction rs with
  | nil =>
      intro s h
      cases h
      exact Untouched.refl _
  | cons r rs ih =>
      intro s h
      rw [updateFrom] at h
      split at h
      · cases h
        exact Untouched.refl _
      · obtain ⟨present, -, hrest⟩ := bind_ok.mp h
        split at hrest
        · obtain ⟨hq, hp, hc, hj⟩ := ih hrest
          exact ⟨hq, hp, hc, hj⟩
        · exact ih hrest

theorem ioPart_untouched (h : ioPart s = .ok s') : Untouched s s' := by
  rw [ioPart] at h
  split at h
  · obtain ⟨next, -, hrest⟩ := bind_ok.mp h
    split at hrest
    · cases hrest
      exact Untouched.refl s
    · split at hrest
      · exact nomatch hrest
      · cases hrest
        exact ⟨rfl, rfl, rfl, rfl⟩
  · split at h
    · cases h
      exact ⟨rfl, rfl, rfl, rfl⟩
    · cases h
      exact ⟨rfl, rfl, rfl, rfl⟩

/-- What follows the CPU part in a turn. -/
def closing (s : State) : Except Fault (Turn State State) := do
  let s ← ioPart s
  let _ ← printstuff s
  .ok (.again { s with time := s.time + 1 })

theorem tick_eq (s : State) : tick s = (enterAll s >>= fun s => cpuPart s >>= closing) := rfl

/-- No turn sets `done`. -/
theorem tick_not_done (s a : State) : tick s ≠ .ok (.done a) := by
  rw [tick_eq]
  intro h
  obtain ⟨s₁, -, h₁⟩ := bind_ok.mp h
  obtain ⟨s₂, -, h₂⟩ := bind_ok.mp h₁
  obtain ⟨s₃, -, h₃⟩ := bind_ok.mp h₂
  obtain ⟨ps, -, h₄⟩ := bind_ok.mp h₃
  exact nomatch h₄

/-- A head that was freed is followed when the queue is printed. -/
theorem closing_freed (h : s.cpuQueue = .freed) : ∃ e, closing s = .error e := by
  cases hc : closing s with
  | error e => exact ⟨e, rfl⟩
  | ok turn =>
      obtain ⟨s', hio, hrest⟩ := bind_ok.mp hc
      obtain ⟨ps, hprint, -⟩ := bind_ok.mp hrest
      rw [printstuff, (ioPart_untouched hio).queue, h] at hprint
      exact nomatch hprint

theorem closing_ring (h : s.cpuQueue = .ring ns) : (∃ e, closing s = .error e) ∨
    ∃ s', closing s = .ok (.again s') ∧ Untouched s s' := by
  cases hio : ioPart s with
  | error e => exact Or.inl ⟨e, bind_error.mpr (Or.inl hio)⟩
  | ok s' =>
      have hsame := ioPart_untouched hio
      refine Or.inr ⟨{ s' with time := s'.time + 1 }, bind_ok.mpr ⟨s', hio, ?_⟩,
        ⟨hsame.queue, hsame.proc, hsame.cpu, hsame.j⟩⟩
      rw [printstuff, hsame.queue, h]
      rfl

theorem headKind_congr {k : Nat} (h : s'.proc k = s.proc k) : headKind s' k = headKind s k := by
  rw [headKind, headKind, h]

theorem Queued.congr {ps : List Nat} (h : Queued s ps) (hproc : s'.proc = s.proc)
    (hj : s'.j = s.j) : Queued s' ps := by
  have hhead : ∀ p, headKind s' p = headKind s p := fun p => headKind_congr (by rw [hproc])
  refine ⟨h.distinct, fun k hk v hv => ?_, fun k hk => ?_, by rw [hproc]; exact h.alternate⟩
  · rw [hj] at hk
    exact h.queued k hk v (by rw [← hhead]; exact hv)
  · rw [hhead]
    exact h.waiting k hk

/-- Being ready is about what the closing parts do not touch. -/
theorem Ready.untouched (h : Ready s ns) (hsame : Untouched s s') : Ready s' ns :=
  ⟨hsame.queue.trans h.queue, h.core.congr hsame.proc hsame.j, by rw [hsame.cpu]; exact h.cpu⟩

theorem left_idle (hidle : s.cpu.idle = true) :
    left s ns = (ns.map CpuQueueNode.timeLeft).sum := by
  rw [left, if_pos hidle, Int.add_zero]

theorem left_untouched (hsame : Untouched s s') (ns : List CpuQueueNode) :
    left s' ns = left s ns := by
  rw [left, left, hsame.cpu]

/-! ## The CPU part -/

/-- A quantum is one unit or two. -/
theorem findMin_quantum {v : Int} (hv : 1 ≤ v) :
    (v = 1 ∧ findMin timeQuantum v = 1) ∨ (2 ≤ v ∧ findMin timeQuantum v = 2) := by
  rw [findMin, timeQuantum]
  split <;> omega

variable {head : CpuQueueNode} {rest : List CpuQueueNode} {ps : List Nat} {p : Nat}
  {node : ProcessNode} {next : List ProcessNode}

/-- Serving a burst changes its length only. -/
theorem Queued.serve (h : Queued s ps) (hproc : s.proc p = node :: next) {v : Int}
    (hproc' : s'.proc = Function.update s.proc p ({ node with val := v } :: next))
    (hj : s'.j = s.j) : Queued s' ps := by
  have hself : s'.proc p = { node with val := v } :: next := by
    rw [hproc', Function.update_self]
  have hother : ∀ k, k ≠ p → s'.proc k = s.proc k := fun k hk => by
    rw [hproc', Function.update_of_ne hk]
  refine ⟨h.distinct, fun k hk w hw => ?_, fun k hk => ?_, fun k w x rest hkinds => ?_⟩
  · by_cases hkp : k = p
    · subst hkp
      rw [headKind_cons hself] at hw
      obtain ⟨htype, -⟩ := Prod.mk.inj (Option.some.inj hw)
      exact h.queued k (hj ▸ hk) node.val (by rw [headKind_cons hproc, htype])
    · rw [headKind_congr (hother k hkp)] at hw
      exact h.queued k (hj ▸ hk) w hw
  · obtain ⟨w, hw⟩ := h.waiting k hk
    by_cases hkp : k = p
    · subst hkp
      rw [headKind_cons hproc] at hw
      obtain ⟨htype, -⟩ := Prod.mk.inj (Option.some.inj hw)
      exact ⟨v, by rw [headKind_cons hself, htype]⟩
    · exact ⟨w, by rw [headKind_congr (hother k hkp), hw]⟩
  · by_cases hkp : k = p
    · subst hkp
      rw [hself, List.map_cons] at hkinds
      obtain ⟨hhead, hrest⟩ := List.cons.inj hkinds
      obtain ⟨htype, -⟩ := Prod.mk.inj hhead
      refine h.alternate k node.val x rest ?_
      rw [hproc, List.map_cons, hrest, kind, htype]
    · rw [hother k hkp] at hkinds
      exact h.alternate k w x rest hkinds

/-- A burst that comes off its list takes its process out of the queue. -/
theorem Queued.pop (h : Queued s (p :: ps)) (hproc : s.proc p = node :: next)
    (hproc' : s'.proc = Function.update s.proc p next) (hj : s'.j = s.j) : Queued s' ps := by
  have hself : s'.proc p = next := by rw [hproc', Function.update_self]
  have hother : ∀ k, k ≠ p → s'.proc k = s.proc k := fun k hk => by
    rw [hproc', Function.update_of_ne hk]
  obtain ⟨hnot, hnodup⟩ := List.pairwise_cons.mp h.distinct
  -- what follows a burst for the CPU is none
  have hnone : ∀ v rest, next.map kind ≠ (.C, v) :: rest := by
    intro v rest hnext
    obtain ⟨w, hw⟩ := h.waiting p List.mem_cons_self
    rw [headKind_cons hproc] at hw
    refine h.alternate p w (.C, v) rest ?_ rfl
    rw [hproc, List.map_cons, hnext]
    exact congrArg (· :: _) (Option.some.inj hw)
  have hhead : ∀ v, headKind s' p ≠ some (.C, v) := by
    intro v hv
    rw [headKind, hself] at hv
    obtain ⟨rest, hrest⟩ := List.head?_eq_some_iff.mp hv
    exact hnone v rest hrest
  refine ⟨hnodup, fun k hk v hv => ?_, fun k hk => ?_, fun k v x rest hkinds => ?_⟩
  · have hkp : k ≠ p := fun he => hhead v (he ▸ hv)
    rw [headKind_congr (hother k hkp)] at hv
    exact (List.mem_cons.mp (h.queued k (hj ▸ hk) v hv)).resolve_left hkp
  · have hkp : k ≠ p := fun he => hnot k hk he.symm
    rw [headKind_congr (hother k hkp)]
    exact h.waiting k (List.mem_cons_of_mem p hk)
  · by_cases hkp : k = p
    · subst hkp
      rw [hself] at hkinds
      exact absurd hkinds (hnone v (x :: rest))
    · rw [hother k hkp] at hkinds
      exact h.alternate k v x rest hkinds

/-- A process in the queue has a burst on its list. -/
theorem Queued.burst (h : Queued s ps) (hp : p ∈ ps) : ∃ node next, s.proc p = node :: next := by
  obtain ⟨v, hv⟩ := h.waiting p hp
  cases hproc : s.proc p with
  | nil =>
      rw [headKind, hproc] at hv
      exact nomatch hv
  | cons node next => exact ⟨node, next, rfl⟩

/-- The order in the queue does not matter. -/
theorem Queued.perm (h : Queued s ps) {qs : List Nat} (hperm : ps.Perm qs) : Queued s qs where
  distinct := hperm.nodup_iff.mp h.distinct
  queued := fun k hk v hv => hperm.mem_iff.mp (h.queued k hk v hv)
  waiting := fun k hk => h.waiting k (hperm.mem_iff.mpr hk)
  alternate := h.alternate

/-- A process with time left stays in the queue. -/
theorem leave_stays (hq : s.cpuQueue = .ring (head :: rest)) (hleft : head.timeLeft ≠ 0) :
    leave s = .ok s := by
  rw [leave, hq]
  show (if head.timeLeft = 0 then _ else _) = _
  rw [if_neg hleft]

/-- The only process leaves behind a freed head. -/
theorem leave_last (hq : s.cpuQueue = .ring [head]) (hleft : head.timeLeft = 0) :
    (∃ e, leave s = .error e) ∨ ∃ s', leave s = .ok s' ∧ s'.cpuQueue = .freed := by
  rw [leave, hq]
  show (∃ e, (if head.timeLeft = 0 then _ else _) = _) ∨
    ∃ s', (if head.timeLeft = 0 then _ else _) = _ ∧ _
  rw [if_pos hleft]
  cases hproc : s.proc s.cpu.currPid with
  | nil => exact Or.inl ⟨_, rfl⟩
  | cons node next => exact Or.inr ⟨_, rfl, rfl⟩

/-- Another process than the only one makes room for the next. -/
theorem leave_next {second : CpuQueueNode} (hq : s.cpuQueue = .ring (head :: second :: rest))
    (hleft : head.timeLeft = 0) (hproc : s.proc s.cpu.currPid = node :: next) : leave s = .ok { s with
      cpuQueue := .ring (second :: rest)
      proc := Function.update s.proc s.cpu.currPid next } := by
  rw [leave, hq]
  show (if head.timeLeft = 0 then _ else _) = _
  rw [if_pos hleft]
  simp only [hproc]
  rfl

theorem allot_spec (rest : List CpuQueueNode) (hproc : s.proc head.pid = node :: next) : ∃ s', allot s head rest = .ok s' ∧
    s'.cpuQueue = .ring ({ head with
      timeLeft := head.timeLeft - findMin timeQuantum head.timeLeft } :: rest) ∧
    s'.proc = Function.update s.proc head.pid ({ node with
      val := node.val - findMin timeQuantum head.timeLeft } :: next) ∧
    s'.cpu = { idle := false, currPid := head.pid,
               timeLeft := findMin timeQuantum head.timeLeft - 1 } ∧ s'.j = s.j := by
  rw [allot]
  simp only [hproc]
  exact ⟨_, rfl, rfl, rfl, rfl, rfl⟩

/-- What the CPU part leads to: a fault, a freed head, or a queue with one
    unit less than `total`. -/
def Goes (total : Int) (r : Except Fault State) : Prop :=
  (∃ e, r = .error e) ∨ (∃ s', r = .ok s' ∧ s'.cpuQueue = .freed) ∨
  ∃ s' ns', r = .ok s' ∧ Ready s' ns' ∧ left s' ns' + 1 = total

/-- A head that was served its last unit leaves the queue. -/
theorem leave_served (hq : s.cpuQueue = .ring (head :: rest)) (hzero : head.timeLeft = 0)
    (hcore : Queued s (head.pid :: rest.map CpuQueueNode.pid)) (hcurr : s.cpu.currPid = head.pid)
    (hidle : s.cpu.idle = true) (hrest : ∀ n ∈ rest, 1 ≤ n.timeLeft) :
    Goes (1 + (rest.map CpuQueueNode.timeLeft).sum) (leave s) := by
  cases rest with
  | nil =>
      rcases leave_last hq hzero with hbad | hfreed
      · exact Or.inl hbad
      · exact Or.inr (Or.inl hfreed)
  | cons second rest =>
      obtain ⟨node, next, hproc⟩ := hcore.burst List.mem_cons_self
      refine Or.inr (Or.inr ⟨_, second :: rest, leave_next hq hzero (by rw [hcurr]; exact hproc),
        ⟨rfl, ?_, Or.inl ⟨hidle, List.cons_ne_nil _ _, hrest⟩⟩, ?_⟩)
      · refine hcore.pop hproc ?_ rfl
        show Function.update s.proc s.cpu.currPid next = _
        rw [hcurr]
      · rw [left_idle]
        · omega
        · exact hidle

/-- The idle CPU takes the head of the queue. -/
theorem cpuPart_idle (h : Ready s (head :: rest)) (hidle : s.cpu.idle = true)
    (hleft : ∀ n ∈ head :: rest, 1 ≤ n.timeLeft) : Goes (left s (head :: rest)) (cpuPart s) := by
  obtain ⟨node, next, hproc⟩ := h.core.burst (p := head.pid) List.mem_cons_self
  obtain ⟨s₁, hallot, hqueue, hproc₁, hcpu, hj⟩ := allot_spec rest hproc
  have hcore : Queued s₁ (head.pid :: rest.map CpuQueueNode.pid) := h.core.serve hproc hproc₁ hj
  have hrest : ∀ n ∈ rest, 1 ≤ n.timeLeft := fun n hn => hleft n (List.mem_cons_of_mem head hn)
  have hpart : cpuPart s = if s₁.cpu.timeLeft = 0 then leave (release s₁) else .ok s₁ := by
    rw [cpuPart, hidle, if_pos rfl, h.queue]
    show (allot s head rest >>= fun s => if s.cpu.timeLeft = 0 then leave (release s) else .ok s) = _
    rw [hallot]
    rfl
  have hsum : left s (head :: rest) = head.timeLeft + (rest.map CpuQueueNode.timeLeft).sum := by
    rw [left_idle hidle, List.map_cons, List.sum_cons]
  rw [hpart]
  rcases findMin_quantum (hleft head List.mem_cons_self) with ⟨hone, hmin⟩ | ⟨htwo, hmin⟩
  · -- its last unit is served at once, and it leaves
    rw [hmin] at hcpu
    have hzero : s₁.cpu.timeLeft = 0 := by rw [hcpu]; rfl
    have hcurr : s₁.cpu.currPid = head.pid := by rw [hcpu]
    rw [if_pos hzero, hsum, hone]
    exact leave_served (s := release s₁) hqueue (by show head.timeLeft - _ = 0; omega)
      (hcore.congr rfl rfl) hcurr rfl hrest
  · -- the quantum goes on
    rw [hmin] at hqueue hcpu
    have hbusy : s₁.cpu.timeLeft = 1 := by rw [hcpu]; rfl
    rw [if_neg (by omega)]
    refine Or.inr (Or.inr ⟨s₁, { head with timeLeft := head.timeLeft - 2 } :: rest, rfl,
      ⟨hqueue, hcore, Or.inr ⟨by rw [hcpu], hbusy, _, _, rfl, by rw [hcpu], ?_, hrest⟩⟩, ?_⟩)
    · show 0 ≤ head.timeLeft - 2
      omega
    · rw [hsum, left, hcpu, List.map_cons, List.sum_cons]
      show head.timeLeft - 2 + _ + (if false = true then 0 else 1) + 1 = _
      rw [if_neg Bool.false_ne_true]
      omega

theorem sum_snoc (ns : List CpuQueueNode) (n : CpuQueueNode) :
    ((ns ++ [n]).map CpuQueueNode.timeLeft).sum =
      n.timeLeft + (ns.map CpuQueueNode.timeLeft).sum := by
  rw [List.map_append, List.sum_append, List.map_singleton, List.sum_singleton, Int.add_comm]

/-- The head goes behind the others, and the CPU is idle. -/
theorem ready_advanced {n : CpuQueueNode} (hq : s.cpuQueue = .ring (ns ++ [n]))
    (hcore : Queued s (n.pid :: ns.map CpuQueueNode.pid)) (hidle : s.cpu.idle = true)
    (hleft : ∀ n' ∈ n :: ns, 1 ≤ n'.timeLeft) : Ready s (ns ++ [n]) := by
  refine ⟨hq, ?_, Or.inl ⟨hidle, List.append_ne_nil_of_right_ne_nil ns (List.cons_ne_nil n []), ?_⟩⟩
  · rw [List.map_append]
    exact hcore.perm (List.perm_append_singleton _ _).symm
  · intro n' hn'
    rcases List.mem_append.mp hn' with hmem | hmem
    · exact hleft n' (List.mem_cons_of_mem n hmem)
    · rw [List.mem_singleton.mp hmem]
      exact hleft n List.mem_cons_self

/-- The process in service leaves if its burst is used up, and the head goes
    on to the next. -/
theorem goes_advance (hq : s.cpuQueue = .ring (head :: rest))
    (hcore : Queued s (head.pid :: rest.map CpuQueueNode.pid)) (hidle : s.cpu.idle = true)
    (hcurr : s.cpu.currPid = head.pid) (hhead : 0 ≤ head.timeLeft)
    (hrest : ∀ n ∈ rest, 1 ≤ n.timeLeft) :
    Goes (head.timeLeft + (rest.map CpuQueueNode.timeLeft).sum + 1)
      (leave s >>= fun s => s.cpuQueue.advance >>= fun q => .ok { s with cpuQueue := q }) := by
  by_cases hzero : head.timeLeft = 0
  · cases rest with
    | nil =>
        refine Or.inl ?_
        rcases leave_last hq hzero with ⟨e, he⟩ | ⟨s', hs', hfreed⟩
        · exact ⟨e, bind_error.mpr (Or.inl he)⟩
        · refine ⟨.freedNode, bind_error.mpr (Or.inr ⟨s', hs', bind_error.mpr (Or.inl ?_)⟩)⟩
          rw [hfreed]
          rfl
    | cons second rest =>
        obtain ⟨node, next, hproc⟩ := hcore.burst List.mem_cons_self
        rw [leave_next hq hzero (by rw [hcurr]; exact hproc)]
        refine Or.inr (Or.inr ⟨_, rest ++ [second], rfl, ?_, ?_⟩)
        · refine ready_advanced rfl ?_ hidle hrest
          refine hcore.pop hproc ?_ rfl
          show Function.update s.proc s.cpu.currPid next = _
          rw [hcurr]
        · rw [left_idle, sum_snoc, List.map_cons, List.sum_cons]
          · omega
          · exact hidle
  · rw [leave_stays hq hzero]
    refine Or.inr (Or.inr ⟨{ s with cpuQueue := .ring (rest ++ [head]) }, rest ++ [head], ?_, ?_, ?_⟩)
    · show (s.cpuQueue.advance >>= fun q => _) = _
      rw [hq]
      rfl
    · refine ready_advanced rfl (hcore.congr rfl rfl) hidle (fun n hn => ?_)
      rcases List.mem_cons.mp hn with rfl | hn'
      · omega
      · exact hrest n hn'
    · rw [left_idle, sum_snoc]
      exact hidle

/-- The busy CPU serves the last unit of the quantum. -/
theorem cpuPart_busy (h : Ready s (head :: rest)) (hbusy : s.cpu.idle = false)
    (hquantum : s.cpu.timeLeft = 1) (hcurr : s.cpu.currPid = head.pid)
    (hhead : 0 ≤ head.timeLeft) (hrest : ∀ n ∈ rest, 1 ≤ n.timeLeft) :
    Goes (left s (head :: rest)) (cpuPart s) := by
  have hsum : left s (head :: rest) = head.timeLeft + (rest.map CpuQueueNode.timeLeft).sum + 1 := by
    rw [left, hbusy, if_neg Bool.false_ne_true, List.map_cons, List.sum_cons]
  rw [cpuPart, hbusy, if_neg Bool.false_ne_true, hsum]
  cases hup : update s with
  | error e => exact Or.inl ⟨e, rfl⟩
  | ok s₁ =>
      have hsame := updateFrom_untouched _ hup
      show Goes _ (if s₁.cpu.timeLeft - 1 = 0 then _ else _)
      rw [if_pos (by rw [hsame.cpu, hquantum]; rfl)]
      refine goes_advance (s := release { s₁ with
        cpu := { s₁.cpu with timeLeft := s₁.cpu.timeLeft - 1 } })
        (hsame.queue.trans h.queue) (h.core.congr hsame.proc hsame.j) rfl ?_ hhead hrest
      show s₁.cpu.currPid = _
      rw [hsame.cpu, hcurr]

/-- **THE CPU PART** of a turn uses up a unit, or goes wrong. -/
theorem cpuPart_spec (h : Ready s ns) : Goes (left s ns) (cpuPart s) := by
  rcases h.cpu with ⟨hidle, hsome, hleft⟩ | ⟨hbusy, hquantum, head, rest, rfl, hcurr, hhead, hrest⟩
  · obtain ⟨head, rest, rfl⟩ := List.exists_cons_of_ne_nil hsome
    exact cpuPart_idle h hidle hleft
  · exact cpuPart_busy h hbusy hquantum hcurr hhead hrest

theorem left_nonneg (h : Ready s ns) : 0 ≤ left s ns := by
  have hall : ∀ v ∈ ns.map CpuQueueNode.timeLeft, 0 ≤ v := by
    intro v hv
    obtain ⟨n, hn, rfl⟩ := List.mem_map.mp hv
    rcases h.cpu with ⟨-, -, hleft⟩ | ⟨-, -, head, rest, rfl, -, hhead, hrest⟩
    · have := hleft n hn
      omega
    · rcases List.mem_cons.mp hn with rfl | hn'
      · exact hhead
      · have := hrest n hn'
        omega
  have hsum := List.sum_nonneg hall
  rw [left]
  split <;> omega

/-- **THE REST OF A TURN** fails, or leaves a queue with one unit less. -/
theorem rest_turn (h : Ready s ns) : (∃ e, (cpuPart s >>= closing) = .error e) ∨
    ∃ s' ns', (cpuPart s >>= closing) = .ok (.again s') ∧ Ready s' ns' ∧
      left s' ns' + 1 = left s ns := by
  rcases cpuPart_spec h with ⟨e, he⟩ | ⟨s₁, hs₁, hfreed⟩ | ⟨s₁, ns₁, hs₁, hready, hleft⟩
  · exact Or.inl ⟨e, bind_error.mpr (Or.inl he)⟩
  · obtain ⟨e, he⟩ := closing_freed hfreed
    exact Or.inl ⟨e, bind_error.mpr (Or.inr ⟨s₁, hs₁, he⟩)⟩
  · rcases closing_ring hready.queue with ⟨e, he⟩ | ⟨s₂, hs₂, hsame⟩
    · exact Or.inl ⟨e, bind_error.mpr (Or.inr ⟨s₁, hs₁, he⟩)⟩
    · refine Or.inr ⟨s₂, ns₁, bind_ok.mpr ⟨s₁, hs₁, hs₂⟩, hready.untouched hsame, ?_⟩
      rw [left_untouched hsame]
      exact hleft

end Parts

/-! ## Runs -/

section Run

variable {lines : List Line} {s : State} {ns : List CpuQueueNode}

/-- Nobody enters after the first turn. -/
theorem ready_again (h : Ready s ns) :
    ∃ s', enterAll s = .ok s' ∧ Ready s' ns ∧ left s' ns = left s ns := by
  obtain ⟨s', more, hall, henters⟩ := enters_all (List.range s.j) h.queue
  obtain rfl : more = [] := henters.none (fun k hk v hv =>
    h.core.queued k (List.mem_range.mp hk) v hv)
  have hhead : ∀ p, headKind s' p = headKind s p := fun p => congrArg List.head? (henters.kinds p)
  refine ⟨s', hall, ⟨?_, ⟨h.core.distinct, ?_, ?_, ?_⟩, ?_⟩, ?_⟩
  · rw [henters.queue, List.append_nil]
  · intro k hk v hv
    rw [henters.j] at hk
    exact h.core.queued k hk v (by rw [← hhead]; exact hv)
  · intro k hk
    rw [hhead]
    exact h.core.waiting k hk
  · intro k v x rest hkinds
    rw [henters.kinds] at hkinds
    exact h.core.alternate k v x rest hkinds
  · rw [henters.cpu]
    exact h.cpu
  · rw [left, left, henters.cpu]

/-- **EVERY LATER TURN** fails, or leaves a queue with one unit less. -/
theorem ready_turn (h : Ready s ns) : (∃ e, tick s = .error e) ∨
    ∃ s' ns', tick s = .ok (.again s') ∧ Ready s' ns' ∧ left s' ns' + 1 = left s ns := by
  obtain ⟨s₀, henter, hready, hleft⟩ := ready_again h
  have htick : tick s = (cpuPart s₀ >>= closing) := by
    rw [tick_eq, henter]
    rfl
  rw [htick, ← hleft]
  exact rest_turn hready

/-- What the queue has left, for a queue that is not freed. -/
def remaining (s : State) : Nat :=
  match s.cpuQueue with
  | .ring ns => (left s ns).toNat
  | .freed => 0

theorem Ready.remaining (h : Ready s ns) : remaining s = (left s ns).toNat := by
  rw [RrRun.remaining, h.queue]

theorem ready_fails (h : Ready s ns) : ∃ s' e, Visits tick s s' ∧ tick s' = .error e := by
  refine visits_fail (I := fun s => ∃ ns, Ready s ns) remaining ?_ ⟨ns, h⟩
    (Nat.lt_succ_self (remaining s))
  rintro s ⟨ns, h⟩
  refine (ready_turn h).imp id ?_
  rintro ⟨s', ns', ht, h', hleft⟩
  refine ⟨s', ht, ⟨ns', h'⟩, ?_⟩
  have hnonneg := left_nonneg h'
  rw [h.remaining, h'.remaining]
  omega

/-- The lists are those of the other simulator. -/
theorem loaded_kinds (lines : List Line) (k : Nat) : (((loaded lines).proc k).map kind = [] ∧ lines[k]? = none) ∨
    ∃ l, lines[k]? = some l ∧ ((loaded lines).proc k).map kind = burstList l := by
  cases hl : lines[k]? with
  | none =>
      refine Or.inl ⟨?_, rfl⟩
      show (SjfModel.readBursts 0 [] ((lines[k]?.map Line.bursts).getD [])).map kind = []
      rw [hl]
      rfl
  | some l => exact Or.inr ⟨l, rfl, SjfService.loaded_kind hl⟩

/-- A line begins with a burst for the CPU and goes on with one for the
    device. -/
theorem burstList_head (l : Line) : (burstList l = [] ∧ l.bursts = []) ∨
    (∃ v, burstList l = [(.C, v)]) ∨ ∃ v w rest, burstList l = (.C, v) :: (.I, w) :: rest := by
  rw [burstList]
  cases l.bursts with
  | nil => exact Or.inl ⟨rfl, rfl⟩
  | cons v vs =>
      cases vs with
      | nil => exact Or.inr (Or.inl ⟨v, rfl⟩)
      | cons w ws =>
          rw [List.mapIdx_cons, List.mapIdx_cons]
          exact Or.inr (Or.inr ⟨v, w, _, rfl⟩)

/-- **THE FIRST TURN** enters every process that has a burst, arrived or not. -/
theorem ready_first (hwf : WellFormed lines) (hsome : ∃ l ∈ lines, l.bursts ≠ []) :
    ∃ s ns, enterAll (loaded lines) = .ok s ∧ Ready s ns := by
  obtain ⟨s, ns, hall, henters⟩ :=
    enters_all (List.range (loaded lines).j)
      (show (loaded lines).cpuQueue = .ring [] from rfl)
  have hhead : ∀ p, headKind s p = headKind (loaded lines) p := fun p =>
    congrArg List.head? (henters.kinds p)
  refine ⟨s, ns, hall, henters.queue, ⟨henters.distinct List.Pairwise.nil, ?_, ?_, ?_⟩, ?_⟩
  · intro k hk v hv
    rw [henters.j] at hk
    exact henters.all k (List.mem_range.mpr hk) v (by rw [← hhead]; exact hv)
  · intro k hk
    obtain ⟨n, hn, rfl⟩ := List.mem_map.mp hk
    exact ⟨n.timeLeft, by rw [hhead]; exact (henters.new n hn).2⟩
  · intro k v x rest hkinds
    rw [henters.kinds] at hkinds
    rcases loaded_kinds lines k with ⟨hnil, -⟩ | ⟨l, -, hl⟩
    · rw [hnil] at hkinds
      exact nomatch hkinds
    · rw [hl] at hkinds
      rcases burstList_head l with ⟨hnil, -⟩ | ⟨w, hone⟩ | ⟨w, u, rest', htwo⟩
      · exact nomatch hnil.symm.trans hkinds
      · exact nomatch (List.cons.inj (hone.symm.trans hkinds)).2
      · obtain ⟨rfl, -⟩ := List.cons.inj (List.cons.inj (htwo.symm.trans hkinds)).2
        exact nofun
  · refine Or.inl ⟨by rw [henters.cpu]; rfl, fun hnil => ?_, fun n hn => ?_⟩
    · -- some process has a burst
      obtain ⟨l, hl, hbursts⟩ := hsome
      obtain ⟨k, hk, rfl⟩ := List.getElem_of_mem hl
      have hget : lines[k]? = some lines[k] := List.getElem?_eq_getElem hk
      have hkinds : headKind (loaded lines) k = (burstList lines[k]).head? :=
        congrArg List.head? (SjfService.loaded_kind hget)
      obtain ⟨v, hv⟩ : ∃ v, headKind (loaded lines) k = some (.C, v) := by
        rw [hkinds]
        rcases burstList_head lines[k] with ⟨-, hnone⟩ | ⟨v, hone⟩ | ⟨v, w, rest, htwo⟩
        · exact absurd hnone hbursts
        · exact ⟨v, by rw [hone]; rfl⟩
        · exact ⟨v, by rw [htwo]; rfl⟩
      have hmem := henters.all k (List.mem_range.mpr hk) v hv
      rw [hnil] at hmem
      exact nomatch hmem
    · have hkind := (henters.new n hn).2
      obtain ⟨rest, hrest⟩ := List.head?_eq_some_iff.mp hkind
      rcases loaded_kinds lines n.pid with ⟨hnil, -⟩ | ⟨l, hl, hlist⟩
      · exact nomatch hnil.symm.trans hrest
      · have hmem : ((.C : BurstType), n.timeLeft) ∈ burstList l := by
          rw [← hlist, hrest]
          exact List.mem_cons_self
        have := (SjfService.burstList_range hwf hl hmem).1
        omega

/-- **SOME TURN FAILS** when there is a burst at all. -/
theorem run_fails (hwf : WellFormed lines) (hsome : ∃ l ∈ lines, l.bursts ≠ []) :
    ∃ s e, Visits tick (loaded lines) s ∧ tick s = .error e := by
  obtain ⟨s₀, ns, henter, hready⟩ := ready_first hwf hsome
  have htick : tick (loaded lines) = (cpuPart s₀ >>= closing) := by
    rw [tick_eq, henter]
    rfl
  rcases rest_turn hready with ⟨e, he⟩ | ⟨s', ns', hs', hready', -⟩
  · exact ⟨_, e, .refl, htick.trans he⟩
  · obtain ⟨s, e, hv, he⟩ := ready_fails hready'
    exact ⟨s, e, .head (htick.trans hs') hv, he⟩

theorem turns_of_visits (h : Visits tick (loaded lines) s) : ∃ past, Turns lines past s := by
  induction h with
  | refl => exact ⟨[], .start⟩
  | tail _ ht ih =>
      obtain ⟨past, hpast⟩ := ih
      exact ⟨_, .turn hpast ht⟩

end Run

/-- **THE LAW IS NEVER OBEYED**: a burst leads to a fault, and without one the
    loop does not end. -/
theorem rr_never {lines : List Line} (hwf : WellFormed lines) :
    ((∃ l ∈ lines, l.bursts ≠ []) → ∃ s e, Visits tick (loaded lines) s ∧ tick s = .error e) ∧
      ¬ Law lines := by
  refine ⟨run_fails hwf, fun hlaw => ?_⟩
  by_cases hsome : ∃ l ∈ lines, l.bursts ≠ []
  · obtain ⟨s, e, hv, he⟩ := run_fails hwf hsome
    obtain ⟨past, hpast⟩ := turns_of_visits hv
    obtain ⟨turn, hturn⟩ := hlaw.safe past s hpast
    exact nomatch hturn.symm.trans he
  · -- every list is consumed from the start, and `done` is not set
    have hconsumed : Consumed (loaded lines) := by
      intro k _
      rcases loaded_kinds lines k with ⟨hnil, -⟩ | ⟨l, hl, hlist⟩
      · exact List.map_eq_nil_iff.mp hnil
      · have hnone : l.bursts = [] :=
          of_not_not (fun hne => hsome ⟨l, List.mem_of_getElem? hl, hne⟩)
        rw [burstList, hnone] at hlist
        exact List.map_eq_nil_iff.mp hlist
    obtain ⟨fuel, a, hloop⟩ := hlaw.ends [] _ .start hconsumed
    obtain ⟨s, -, hdone⟩ := loop_ok hloop
    exact tick_not_done s a hdone

/-- One process that arrives at time 5. -/
def oneLate : List Line := [⟨5, [1]⟩]

theorem rr_never_late : ((∃ l ∈ oneLate, l.bursts ≠ []) →
    ∃ s e, Visits tick (loaded oneLate) s ∧ tick s = .error e) ∧ ¬ Law oneLate :=
  rr_never (by decide)

/-- **TOO EARLY, AND THEN GONE**: the first turn gives the CPU to a process
    that arrives at time 5, and follows its freed node. -/
theorem rr_fails : WellFormed oneLate ∧ onCpu (loaded oneLate) = some 0 ∧
    tick (loaded oneLate) = .error .freedNode ∧ ¬ Law oneLate := by
  have hbad : tick (loaded oneLate) = .error .freedNode := rfl
  refine ⟨by decide, rfl, hbad, fun hlaw => ?_⟩
  obtain ⟨turn, hturn⟩ := hlaw.safe [] _ .start
  exact nomatch hturn.symm.trans hbad

end RrRun
