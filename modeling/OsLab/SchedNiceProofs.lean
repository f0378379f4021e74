import OsLab.SchedRangeProofs

/-! # Nice is a bound

    `maxPriority` is the highest priority that was set for a process, and a
    lower number is a higher priority.  Beside the table, a `World` has the
    priority at which the kernel runs each process: that of the last call of
    `sys_schedule` it granted.

    Only `do_noquantum` can move a process past its bound: it takes 1 from
    the priority without a look at `maxPriority` (`bounded_exact`). -/

namespace SchedNice

open OsLoop SchedModel SchedRange

/-- What changes a priority once a process is started. -/
inductive Change where
  | noquantum (mSource : Int32)
  | nice (m : NiceMessage)
  | balance
  deriving DecidableEq, Repr

def Change.event : Change → Event
  | .noquantum mSource => .noquantum mSource
  | .nice m => .nice m
  | .balance => .balance

/-- The scheduler, and the priorities at which the kernel runs the slots, as
    far as a run has set them. -/
structure World (procs : Nat) where
  st : State procs
  runs : Fin procs → Option UInt32

variable {procs : Nat} {E : Env procs} {i j : Fin procs} {w : World procs}

/-- A granted call sets the priority; one that asks for -1 leaves it. -/
def granted (i : Fin procs) (tried : Rv × State procs) (runs : Fin procs → Option UInt32) :
    Fin procs → Option UInt32 :=
  match tried.1, tried.2.calls.getLast? with
  | none, some c =>
      if c.newPrio = -1 then runs else Function.update runs i (some c.newPrio.toUInt32)
  | _, _ => runs

/-- One slot of `balance_queues`. -/
def balanceWorld (E : Env procs) (w : World procs) (i : Fin procs) : World procs where
  st := balanceSlot E w.st i
  runs :=
    if (w.st.schedproc i).InUse ∧ (w.st.schedproc i).maxPriority < (w.st.schedproc i).priority
    then granted i (scheduleProcessLocal E i w.st) w.runs
    else w.runs

def change (E : Env procs) (w : World procs) (c : Change) : World procs where
  st := serve E w.st c.event
  runs :=
    match c with
    | .noquantum mSource =>
        match E.schedIsokendpt w.st.schedproc mSource with
        | .error _ => w.runs
        | .ok i => granted i (doNoquantum E mSource w.st) w.runs
    | .nice m =>
        match E.schedIsokendpt w.st.schedproc m.endpoint with
        | .error _ => w.runs
        | .ok i => granted i (doNice E m w.st) w.runs
    | .balance => ((List.finRange procs).foldl (balanceWorld E) w).runs

/-- Slot `i` is at no higher priority than was set for it, and neither does
    the kernel run it at one. -/
structure Bounded (i : Fin procs) (w : World procs) : Prop where
  slot : (w.st.schedproc i).maxPriority ≤ (w.st.schedproc i).priority
  runs : ∀ p ∈ w.runs i, (w.st.schedproc i).maxPriority ≤ p

/-- Slot `i` runs out of quantum at its highest priority, and `do_noquantum`
    raises it. -/
def Exceeds (E : Env procs) (i : Fin procs) (w : World procs) : Change → Prop
  | .noquantum mSource => E.schedIsokendpt w.st.schedproc mSource = .ok i ∧
      (w.st.schedproc i).priority = (w.st.schedproc i).maxPriority ∧
      0 < (w.st.schedproc i).priority ∧ (w.st.schedproc i).priority < E.minUserQ
  | _ => False

/-! ## Scheduling -/

section Scheduling

variable {st : State procs} {runs : Fin procs → Option UInt32}

/-- The kernel grants the priority of the slot, or nothing. -/
theorem granted_local (E : Env procs) (i : Fin procs) (st : State procs)
    (runs : Fin procs → Option UInt32) : granted i (scheduleProcessLocal E i st) runs =
      if (scheduleProcessLocal E i st).1 = none ∧ (st.schedproc i).priority.toInt32 ≠ -1 then
        Function.update runs i (some (st.schedproc i).priority)
      else runs := by
  have hprio := (pickCpu_same E i st).priority i
  have hlast : (scheduleProcessLocal E i st).2.calls.getLast?.map ScheduleCall.newPrio =
      some (st.schedproc i).priority.toInt32 := by
    rw [← hprio]
    exact congrArg _ List.getLast?_concat
  obtain ⟨c, hc, hnew⟩ := Option.map_eq_some_iff.mp hlast
  rw [granted, hc]
  cases hrv : (scheduleProcessLocal E i st).1 with
  | some e => rfl
  | none =>
      dsimp only
      rw [hnew, UInt32.toUInt32_toInt32]
      by_cases hm : (st.schedproc i).priority.toInt32 = -1
      · rw [if_pos hm, if_neg (fun h => h.2 hm)]
      · rw [if_neg hm, if_pos ⟨rfl, hm⟩]

/-- A refused call changes nothing. -/
theorem granted_refused {tried : Rv × State procs} (h : tried.1 ≠ none) :
    granted i tried runs = runs := by
  obtain ⟨rv, st⟩ := tried
  cases rv with
  | none => exact absurd rfl h
  | some e => rfl

/-- Scheduling a slot at a priority within its bound keeps every bound. -/
theorem schedule_bounded (E : Env procs) (j : Fin procs) (h : Bounded i ⟨st, runs⟩) :
    Bounded i ⟨(scheduleProcessLocal E j st).2, granted j (scheduleProcessLocal E j st) runs⟩ := by
  have hsame := (scheduleProcessLocal_offers E j st).same
  refine ⟨?_, ?_⟩
  · dsimp only
    rw [hsame.priority i, hsame.maxPriority i]
    exact h.slot
  · dsimp only
    rw [hsame.maxPriority i, granted_local]
    split
    · by_cases hij : i = j
      · subst hij
        rw [Function.update_self]
        intro p hp
        rw [← Option.some.inj hp]
        exact h.slot
      · rw [Function.update_of_ne hij]
        exact h.runs
    · exact h.runs

/-- Filling another slot does not matter. -/
theorem setSlot_bounded {p : Schedproc} (hij : i ≠ j) :
    Bounded i ⟨st.setSlot j p, runs⟩ ↔ Bounded i ⟨st, runs⟩ := by
  have hslot := setSlot_of_ne st p hij
  constructor
  · rintro ⟨h1, h2⟩
    dsimp only at h1 h2
    rw [hslot] at h1 h2
    exact ⟨h1, h2⟩
  · rintro ⟨h1, h2⟩
    refine ⟨?_, ?_⟩
    · dsimp only
      rw [hslot]
      exact h1
    · dsimp only
      rw [hslot]
      exact h2

end Scheduling

/-! ## The steps -/

/-- The table when `do_noquantum` comes to schedule slot `j`. -/
def raised (E : Env procs) (j : Fin procs) (st : State procs) : State procs :=
  if (st.schedproc j).priority < E.minUserQ then
    st.setSlot j { st.schedproc j with priority := (st.schedproc j).priority - 1 }
  else st

theorem doNoquantum_ok {st : State procs} {mSource : Int32}
    (hok : E.schedIsokendpt st.schedproc mSource = .ok j) :
    doNoquantum E mSource st = scheduleProcessLocal E j (raised E j st) := by
  rw [doNoquantum, hok]
  rfl

/-- A step up from within the bound is one past it exactly at the bound, and
    from 0 it wraps. -/
theorem pred_bounded {m p : UInt32} (h : m ≤ p) : m ≤ p - 1 ↔ ¬ (p = m ∧ 0 < p) := by
  rw [UInt32.le_iff_toNat_le] at h
  rw [UInt32.le_iff_toNat_le, UInt32.lt_iff_toNat_lt, ← UInt32.toNat_inj, UInt32.toNat_sub]
  have hp : p.toNat < 2 ^ 32 := UInt32.toNat_lt p
  have h1 : (1 : UInt32).toNat = 1 := rfl
  have h0 : (0 : UInt32).toNat = 0 := rfl
  omega

theorem raised_maxPriority (E : Env procs) (j i : Fin procs) (st : State procs) :
    ((raised E j st).schedproc i).maxPriority = (st.schedproc i).maxPriority := by
  rw [raised]
  split
  · by_cases hij : i = j
    · rw [hij, setSlot_self]
    · rw [setSlot_of_ne st _ hij]
  · rfl

theorem raised_bounded (h : Bounded i w) : Bounded i ⟨raised E j w.st, w.runs⟩ ↔
    ¬ (j = i ∧ (w.st.schedproc i).priority = (w.st.schedproc i).maxPriority ∧
      0 < (w.st.schedproc i).priority ∧ (w.st.schedproc i).priority < E.minUserQ) := by
  rw [raised]
  split
  · next hmin =>
    by_cases hij : j = i
    · subst hij
      have hstep := pred_bounded h.slot
      constructor
      · rintro ⟨hslot, -⟩ ⟨-, heq, hpos, -⟩
        dsimp only at hslot
        rw [setSlot_self] at hslot
        exact hstep.mp hslot ⟨heq, hpos⟩
      · intro hgood
        have hle := hstep.mpr (fun ⟨heq, hpos⟩ => hgood ⟨rfl, heq, hpos, hmin⟩)
        refine ⟨?_, ?_⟩
        · dsimp only
          rw [setSlot_self]
          exact hle
        · dsimp only
          rw [setSlot_self]
          exact h.runs
    · exact iff_of_true ((setSlot_bounded (Ne.symm hij)).mpr h) (fun hex => hij hex.1)
  · next hmin => exact iff_of_true h (fun hex => hmin (hex.1 ▸ hex.2.2.2))

theorem noquantum_bounded (h : Bounded i w) (mSource : Int32) :
    Bounded i (change E w (.noquantum mSource)) ↔ ¬ Exceeds E i w (.noquantum mSource) := by
  cases hok : E.schedIsokendpt w.st.schedproc mSource with
  | error e =>
      have hsame : change E w (.noquantum mSource) = w := by
        rw [change, Change.event, serve, doNoquantum, hok]
      refine iff_of_true (hsame.symm ▸ h) ?_
      rintro ⟨hslot, -⟩
      rw [hok] at hslot
      cases hslot
  | ok j =>
      have hstep : change E w (.noquantum mSource) =
          ⟨(scheduleProcessLocal E j (raised E j w.st)).2,
            granted j (scheduleProcessLocal E j (raised E j w.st)) w.runs⟩ := by
        rw [change, Change.event, serve, hok, doNoquantum_ok hok]
      have hexceeds : Exceeds E i w (.noquantum mSource) ↔ j = i ∧
          (w.st.schedproc i).priority = (w.st.schedproc i).maxPriority ∧
          0 < (w.st.schedproc i).priority ∧ (w.st.schedproc i).priority < E.minUserQ := by
        rw [Exceeds, hok, Except.ok.injEq]
      rw [hstep, hexceeds, ← raised_bounded h]
      constructor
      · rintro ⟨hslot, -⟩
        have hsame := (scheduleProcessLocal_offers E j (raised E j w.st)).same
        dsimp only at hslot
        rw [hsame.priority i, hsame.maxPriority i] at hslot
        refine ⟨hslot, ?_⟩
        dsimp only
        rw [raised_maxPriority]
        exact h.runs
      · exact schedule_bounded E j

/-- The table when `do_nice` comes to schedule slot `j`. -/
def niced (j : Fin procs) (m : NiceMessage) (st : State procs) : State procs :=
  st.setSlot j { st.schedproc j with priority := m.maxprio, maxPriority := m.maxprio }

/-- The two priorities of slot `j` put back to those in `st`. -/
def restored (j : Fin procs) (st tried : State procs) : State procs :=
  tried.setSlot j
    { tried.schedproc j with
      priority := (st.schedproc j).priority
      maxPriority := (st.schedproc j).maxPriority }

/-- What `do_nice` can do: nothing, set the queue, or put it back. -/
theorem doNice_cases (E : Env procs) (m : NiceMessage) (st : State procs) :
    ((doNice E m st).1 ≠ none ∧ (doNice E m st).2 = st) ∨
      ∃ j, E.schedIsokendpt st.schedproc m.endpoint = .ok j ∧ m.maxprio < E.nrSchedQueues ∧
        ((scheduleProcessLocal E j (niced j m st)).1 = none ∧
            doNice E m st = scheduleProcessLocal E j (niced j m st) ∨
          (doNice E m st).1 ≠ none ∧
            (doNice E m st).2 = restored j st (scheduleProcessLocal E j (niced j m st)).2) := by
  rw [doNice]
  split
  · exact Or.inl ⟨Option.some_ne_none _, rfl⟩
  · split
    · exact Or.inl ⟨Option.some_ne_none _, rfl⟩
    · next j hok =>
      dsimp only
      split
      · exact Or.inl ⟨Option.some_ne_none _, rfl⟩
      · next hmax =>
        refine Or.inr ⟨j, hok, UInt32.not_le.mp hmax, ?_⟩
        split
        · next hrv => exact Or.inr ⟨hrv, rfl⟩
        · next hrv => exact Or.inl ⟨not_not.mp hrv, rfl⟩

section Nice

variable {m : NiceMessage}

/-- A granted request sets the bound and the priority at once. -/
theorem niced_bounded (hE : E.Documented) (h : Bounded i w) (hmax : m.maxprio < E.nrSchedQueues)
    (hrv : (scheduleProcessLocal E j (niced j m w.st)).1 = none) :
    Bounded i ⟨(scheduleProcessLocal E j (niced j m w.st)).2,
      granted j (scheduleProcessLocal E j (niced j m w.st)) w.runs⟩ := by
  by_cases hij : i = j
  · subst hij
    have hne : m.maxprio.toInt32 ≠ -1 := by
      intro hm
      have hnonneg := (toInt32_queue hE hmax).1
      rw [hm] at hnonneg
      exact absurd hnonneg (by decide)
    have hsame := (scheduleProcessLocal_offers E i (niced i m w.st)).same
    have hslot : (niced i m w.st).schedproc i =
        { w.st.schedproc i with priority := m.maxprio, maxPriority := m.maxprio } :=
      setSlot_self _ _ _
    refine ⟨?_, ?_⟩
    · dsimp only
      rw [hsame.priority i, hsame.maxPriority i, hslot]
      exact UInt32.le_refl _
    · dsimp only
      rw [hsame.maxPriority i, granted_local, hslot, if_pos ⟨hrv, hne⟩, Function.update_self]
      intro p hp
      rw [← Option.some.inj hp]
      exact UInt32.le_refl _
  · exact schedule_bounded E j ((setSlot_bounded hij).mpr h)

/-- What is put back was within its bound. -/
theorem restored_bounded (h : Bounded i w) :
    Bounded i ⟨restored j w.st (scheduleProcessLocal E j (niced j m w.st)).2, w.runs⟩ := by
  by_cases hij : i = j
  · subst hij
    refine ⟨?_, ?_⟩
    · dsimp only
      rw [restored, setSlot_self]
      exact h.slot
    · dsimp only
      rw [restored, setSlot_self]
      exact h.runs
  · have hsame := (scheduleProcessLocal_offers E j (niced j m w.st)).same
    rw [restored, setSlot_bounded hij]
    refine ⟨?_, ?_⟩
    · dsimp only
      rw [hsame.priority i, hsame.maxPriority i, niced, setSlot_of_ne _ _ hij]
      exact h.slot
    · dsimp only
      rw [hsame.maxPriority i, niced, setSlot_of_ne _ _ hij]
      exact h.runs

end Nice

theorem nice_bounded (hE : E.Documented) (h : Bounded i w) (m : NiceMessage) :
    Bounded i (change E w (.nice m)) := by
  -- a request that is refused changes no priority of the kernel's
  have hkept : (doNice E m w.st).1 ≠ none →
      change E w (.nice m) = ⟨(doNice E m w.st).2, w.runs⟩ := by
    intro hrv
    rw [change, Change.event, serve]
    split
    · rfl
    · rw [granted_refused hrv]
  rcases doNice_cases E m w.st with ⟨hrv, hst⟩ | ⟨j, hok, hmax, ⟨hrv, hdo⟩ | ⟨hrv, hst⟩⟩
  · rw [hkept hrv, hst]
    exact h
  · rw [change, Change.event, serve, hok, hdo]
    exact niced_bounded hE h hmax hrv
  · rw [hkept hrv, hst]
    exact restored_bounded h

theorem balanceWorld_bounded (E : Env procs) (j : Fin procs) (h : Bounded i w) :
    Bounded i (balanceWorld E w j) := by
  rw [balanceWorld, balanceSlot]
  split
  · exact schedule_bounded E j h
  · exact h

/-- The priorities of `balance_queues` go with its table. -/
theorem balance_fold (E : Env procs) (slots : List (Fin procs)) (w : World procs) :
    (slots.foldl (balanceWorld E) w).st = slots.foldl (balanceSlot E) w.st := by
  induction slots generalizing w with
  | nil => rfl
  | cons j rest ih => exact ih (balanceWorld E w j)

theorem balance_bounded (E : Env procs) (h : Bounded i w) : Bounded i (change E w .balance) := by
  have hfold : ∀ slots : List (Fin procs), ∀ w, Bounded i w →
      Bounded i (slots.foldl (balanceWorld E) w) := by
    intro slots
    induction slots with
    | nil => exact fun _ hw => hw
    | cons j rest ih => exact fun w hw => ih _ (balanceWorld_bounded E j hw)
  have hstep : change E w .balance = (List.finRange procs).foldl (balanceWorld E) w := by
    rw [change, Change.event, serve, balanceQueues, ← balance_fold]
  rw [hstep]
  exact hfold _ w h

/-- Every step keeps the bound, but for a quantum that ends at it. -/
theorem change_bounded (hE : E.Documented) (c : Change) (h : Bounded i w) :
    Bounded i (change E w c) ↔ ¬ Exceeds E i w c := by
  cases c with
  | noquantum mSource => exact noquantum_bounded h mSource
  | nice m => exact iff_of_true (nice_bounded hE h m) id
  | balance => exact iff_of_true (balance_bounded E h) id

/-- **NICE IS A BOUND** throughout a run if and only if the process does not
    run out of quantum at its highest priority, other than 0 and the lowest. -/
theorem nice_bound_exact (hE : E.Documented) (h : Bounded i w) (changes : List Change) :
    Throughout (change E) (Bounded i) w changes ↔ NeverTakes (change E) (Exceeds E i) w changes :=
  throughout_iff (fun _ c hw => change_bounded hE c hw) h

/-! ## Two runs -/

/-- Slot 5 of the table at boot, once RS has started it at queue 7. -/
def started : World 8 where
  st := (doStartScheduling smallEnv ⟨2, .schedulingStart, 5, 2, 7, 200⟩ (boot 8 [])).2
  runs := fun _ => none

theorem started_bounded : Bounded 5 started := ⟨by decide, nofun⟩

/-- PM asks for queue 9, and the process runs out of quantum. -/
def niceAndExpire : List Change := [.nice ⟨0, 5, 9⟩, .balance, .noquantum 5]

theorem nice_bound_exact_run :
    Throughout (change smallEnv) (Bounded 5) started [.nice ⟨0, 5, 9⟩, .balance] ↔
      NeverTakes (change smallEnv) (Exceeds smallEnv 5) started [.nice ⟨0, 5, 9⟩, .balance] :=
  nice_bound_exact smallEnv_documented started_bounded _

/-- **A PROCESS OF QUEUE 9** that runs out of quantum runs in queue 8. -/
theorem nice_exceeded : (niceAndExpire.foldl (change smallEnv) started).runs 5 = some 8 ∧
    ¬ Throughout (change smallEnv) (Bounded 5) started niceAndExpire := by
  refine ⟨by decide, fun h => ?_⟩
  have hlast : Bounded 5 (niceAndExpire.foldl (change smallEnv) started) := h.2.2.2
  exact absurd hlast.slot (by decide)

end SchedNice
