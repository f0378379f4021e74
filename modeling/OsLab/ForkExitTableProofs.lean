import OsLab.ForkExitModelProofs
import OsLab.OutcomeProofs

/-! # The process table between two events

    `Sound` is the invariant of PM's table: the flags of a slot agree with
    one another (`Wf`), the count of processes is right, pids differ, every
    process has a parent that is alive or is just being replaced (`Base`), and
    nobody waits for news that is already there (`Tended`).

    An exit may run inside another one.  `D` is the set of the processes whose
    children are being handed to INIT; it is empty between two events.

    `Life` is what the table is for: the life of a process as its parent may
    know it.  `Evolves` is what a handler never undoes, and says that it only
    takes a process forward in its life. -/

namespace OsForkExit

open OsLoop OsOutcome

variable {n : Nat} {E : Env n} {D : Slot n → Prop} {s s' s₁ s₂ s₃ : Pm n} {c d : Slot n}

/-! ## Reading an updated table -/

@[simp] theorem Pm.mproc_set (s : Pm n) (c d : Slot n) (p : Mproc n) :
    (s.set c p).mproc d = if d = c then p else s.mproc d := by
  simp [Pm.set, Function.update_apply]

@[simp] theorem Pm.mproc_modify (s : Pm n) (c d : Slot n) (f : Mproc n → Mproc n) :
    (s.modify c f).mproc d = if d = c then f (s.mproc c) else s.mproc d := by
  simp [Pm.modify]

@[simp] theorem Pm.mproc_setFlags (s : Pm n) (c d : Slot n) (f : Flags → Flags) :
    (s.setFlags c f).mproc d =
      if d = c then { s.mproc c with flags := f (s.mproc c).flags } else s.mproc d := by
  simp [Pm.setFlags]

@[simp] theorem Pm.mproc_emit (s : Pm n) (e : Event n) : (s.emit e).mproc = s.mproc := rfl

@[simp] theorem mproc_reply (c : Slot n) (a : Answer) (s : Pm n) : (reply c a s).mproc = s.mproc :=
  rfl

/-! ## A life -/

/-- The life of a process as its parent may know it: its pid and its parent,
    and once it has ended its status and signal, whether they were reported,
    and whether VFS has let go of it. -/
inductive Life (n : Nat) where
  | free
  | live (pid : Int) (parent : Slot n)
  | dying (pid : Int) (parent : Slot n) (status sig : BitVec 8) (told settled : Bool)

/-- The status word tells the signal and the core flag.  It tells the status
    byte too unless the core flag is set, whose sign fills that byte. -/
def Tells (w : BitVec 32) (status sig : BitVec 8) : Prop :=
  (sig.msb = false → wExitstatus w = status.setWidth 32) ∧
    wTermsig w = (sig &&& 0x7f).setWidth 32 ∧ wCoredump w = (sig &&& 0x80).setWidth 32

instance (w : BitVec 32) (status sig : BitVec 8) : Decidable (Tells w status sig) :=
  inferInstanceAs (Decidable (_ ∧ _))

/-- The turns a life may take, `before` being the event before the turn.  A
    report is the reply PM has just sent: to the parent, with the pid and the
    status word.  A core file is noted before the report.  The slot is free
    again after both the report and VFS's answer. -/
def Life.next (E : Env n) : Life n → Option (Event n) → Mark n → Option (Life n)
  | .free, _, .born pid parent => some (.live pid parent)
  | .free, _, .adopted => some .free
  | .live pid _, _, .adopted => some (.live pid E.initProcNr)
  | .live pid parent, _, .died status sig =>
      some (.dying pid parent (status.setWidth 8) sig false false)
  | .dying pid _ st sig t v, _, .adopted => some (.dying pid E.initProcNr st sig t v)
  | .dying pid parent st sig false v, some (.reply dest (.value pid') w), .reported =>
      if dest = parent ∧ pid' = pid ∧ Tells w st sig then some (.dying pid parent st sig true v)
      else none
  | .dying pid parent st sig t false, _, .settled core =>
      if core && t then none
      else some (.dying pid parent st (if core then sig ||| 0x80 else sig) t true)
  | .dying _ _ _ _ true true, _, .freed => some .free
  | _, _, _ => none

/-- The life a record shows. -/
def Mproc.life (p : Mproc n) : Life n :=
  if !p.flags.inUse then .free
  else if p.flags.exiting then
    .dying p.pid p.parent p.exitStatus p.sigStatus p.flags.toldParent (!p.flags.vfsCall)
  else .live p.pid p.parent

/-- The turn an event is for `c`. -/
def Event.mark (c : Slot n) : Event n → Option (Mark n)
  | .life d m => if d = c then some m else none
  | _ => none

/-- An event is read: the event before it is kept in mind. -/
def Life.read (E : Env n) (c : Slot n) (x : Option (Event n) × Life n) (e : Event n) :
    Option (Option (Event n) × Life n) :=
  match e.mark c with
  | none => some (some e, x.2)
  | some m => (x.2.next E x.1 m).map fun l => (some e, l)

/-- From `s` to `s'` the events of every slot take its process from the life
    it shows in `s` to the one it shows in `s'`. -/
def Follows (E : Env n) (s s' : Pm n) : Prop :=
  ∃ new, s'.log = s.log ++ new ∧ ∀ c before, ∃ last,
    new.foldlM (Life.read E c) (before, (s.mproc c).life) = some (last, (s'.mproc c).life)

theorem Follows.refl (s : Pm n) : Follows E s s :=
  ⟨[], (List.append_nil _).symm, fun _ before => ⟨before, rfl⟩⟩

theorem Follows.trans (h₁ : Follows E s₁ s₂) (h₂ : Follows E s₂ s₃) : Follows E s₁ s₃ := by
  obtain ⟨l₁, hl₁, hf₁⟩ := h₁
  obtain ⟨l₂, hl₂, hf₂⟩ := h₂
  refine ⟨l₁ ++ l₂, by rw [hl₂, hl₁, List.append_assoc], fun c before => ?_⟩
  obtain ⟨mid, hm⟩ := hf₁ c before
  obtain ⟨last, hl⟩ := hf₂ c mid
  refine ⟨last, ?_⟩
  rw [List.foldlM_append, hm]
  exact hl

/-- A change no life shows. -/
theorem Follows.still (hlog : s'.log = s.log)
    (hlife : ∀ c, (s'.mproc c).life = (s.mproc c).life) : Follows E s s' := by
  refine ⟨[], by rw [hlog, List.append_nil], fun c before => ⟨before, ?_⟩⟩
  rw [hlife c]
  rfl

/-- An event that is no turn of a life. -/
theorem Follows.emit (e : Event n) (he : ∀ c, e.mark c = none) : Follows E s (s.emit e) := by
  refine ⟨[e], rfl, fun c before => ⟨some e, ?_⟩⟩
  simp [Life.read, he c, Pm.emit]

/-- One turn of one life. -/
theorem Follows.mark {m : Mark n} (hlog : s'.log = s.log ++ [.life c m])
    (hturn : ∀ before, (s.mproc c).life.next E before m = some (s'.mproc c).life)
    (hlife : ∀ d, d ≠ c → (s'.mproc d).life = (s.mproc d).life) : Follows E s s' := by
  refine ⟨_, hlog, fun d before => ⟨some (.life c m), ?_⟩⟩
  by_cases hd : c = d
  · subst hd
    simp [Life.read, Event.mark, hturn before]
  · simp [Life.read, Event.mark, hd, hlife d (Ne.symm hd)]

/-- A reply and the turn of the life it tells of. -/
theorem Follows.report {e : Slot n} {a : Answer} {w : BitVec 32}
    (hlog : s'.log = s.log ++ [.reply e a w, .life c .reported])
    (hturn : (s.mproc c).life.next E (some (.reply e a w)) .reported = some (s'.mproc c).life)
    (hlife : ∀ d, d ≠ c → (s'.mproc d).life = (s.mproc d).life) : Follows E s s' := by
  refine ⟨_, hlog, fun d before => ⟨some (.life c .reported), ?_⟩⟩
  by_cases hd : c = d
  · subst hd
    simp [Life.read, Event.mark, hturn]
  · simp [Life.read, Event.mark, hd, hlife d (Ne.symm hd)]

/-! ## The invariant -/

/-- `c` may be a parent or a tracer: it is in use, and if it is on its way out
    it is busy with its children. -/
def Held (D : Slot n → Prop) (t : Slot n → Mproc n) (c : Slot n) : Prop :=
  (t c).flags.inUse = true ∧ ((t c).flags.exiting = true → D c)

/-- How a slot's record agrees with those of its parent and its tracer. -/
structure Linked (E : Env n) (D : Slot n → Prop) (t : Slot n → Mproc n) (c : Slot n) : Prop where
  parent : Held D t (t c).parent
  parentSelf : (t c).parent = c → c = E.initProcNr
  tracer : (t c).tracer ≠ 0 → Held D t (t c).tracer
  tracerSelf : (t c).tracer ≠ 0 → (t c).tracer ≠ c

/-- How many slots are in use. -/
def used (t : Slot n → Mproc n) : Nat := (Finset.univ.filter fun c => (t c).flags.inUse = true).card

/-- **THE TABLE**: the part of the invariant that holds inside the handlers
    too. -/
structure Base (E : Env n) (D : Slot n → Prop) (s : Pm n) : Prop where
  wf : ∀ c, (s.mproc c).flags.inUse = true → Wf (s.mproc c)
  linked : ∀ c, (s.mproc c).flags.inUse = true → Linked E D s.mproc c
  pids : ∀ c d, (s.mproc c).flags.inUse = true → (s.mproc d).flags.inUse = true →
    (s.mproc c).pid = (s.mproc d).pid → c = d
  count : s.procsInUse = used s.mproc
  init : (s.mproc E.initProcNr).live = true ∧
    (s.mproc E.initProcNr).endpoint = E.initProcNr.val
  pm : (s.mproc 0).live = true ∧ (s.mproc 0).tracer = 0
  busy : ∀ d, D d → (s.mproc d).flags.inUse = true ∧ (s.mproc d).flags.exiting = true ∧
    (s.mproc d).flags.vfsCall = true
  unused : ∀ c, (s.mproc c).flags.inUse = false → (s.mproc c).flags = {}

/-- Nothing is left to be done for `c`: a report already made waits for VFS
    only, and news of its death is out or waits for someone to ask. -/
structure Tended (t : Slot n → Mproc n) (c : Slot n) : Prop where
  told : (t c).flags.toldParent = true → (t c).flags.vfsCall = true
  known : (t c).flags.exiting = true → (t c).flags.zombie = true ∨
    (t c).flags.toldParent = true ∨ (t c).flags.traceZombie = true ∨ (t c).ending = some true
  alive : (t c).flags.exiting = false → (t c).ending = none
  parent : (t c).flags.zombie = true → waitTest (t (t c).parent) (t c) = false
  tracer : (t c).flags.traceZombie = true → waitTest (t (t c).tracer) (t c) = false

/-- **THE INVARIANT** -/
structure Sound (E : Env n) (D : Slot n → Prop) (s : Pm n) : Prop where
  base : Base E D s
  tended : ∀ c, (s.mproc c).flags.inUse = true → Tended s.mproc c

theorem Mproc.live_iff {p : Mproc n} :
    p.live = true ↔ p.flags.inUse = true ∧ p.flags.exiting = false := by
  simp [Mproc.live]

theorem Mproc.life_free {p : Mproc n} (h : p.flags.inUse = false) : p.life = .free := by
  simp [Mproc.life, h]

theorem Mproc.life_live {p : Mproc n} (h : p.live = true) : p.life = .live p.pid p.parent := by
  rw [Mproc.live_iff] at h
  simp [Mproc.life, h.1, h.2]

theorem Held.of_live {t : Slot n → Mproc n} (h : (t c).live = true) : Held D t c := by
  rw [Mproc.live_iff] at h
  refine ⟨h.1, fun hx => ?_⟩
  rw [h.2] at hx
  cases hx

/-- A slot whose flags are in use is in use. -/
theorem Base.inUse (h : Base E D s) (hc : (s.mproc c).flags ≠ {}) :
    (s.mproc c).flags.inUse = true := by
  by_contra hu
  exact hc (h.unused c (by simpa using hu))

/-- A live process has nothing to be told of. -/
theorem Tended.of_live (hw : Wf (s.mproc c)) (hx : (s.mproc c).flags.exiting = false)
    (hend : (s.mproc c).ending = none) : Tended s.mproc c where
  told ht := by
    rw [(hw.told ht).1] at hx
    cases hx
  known hx' := by
    rw [hx] at hx'
    cases hx'
  alive _ := hend
  parent hz := by
    rw [(hw.zombie hz).1] at hx
    cases hx
  tracer hz := by
    rw [(hw.traced hz).1] at hx
    cases hx

/-! ## What handlers never undo -/

structure Moved (E : Env n) (p q : Mproc n) : Prop where
  inUse : q.flags.inUse = true → p.flags.inUse = true
  exiting : q.flags.inUse = true → p.flags.exiting = true → q.flags.exiting = true
  vfsCall : p.flags.vfsCall = true → q.flags.vfsCall = true ∧ q.flags.inUse = p.flags.inUse
  settled : q.flags.inUse = true → p.flags.exiting = true → q.flags.vfsCall = true →
    p.flags.vfsCall = true
  parent : q.parent = p.parent ∨ q.parent = E.initProcNr
  tracer : q.tracer = p.tracer ∨ q.tracer = 0
  pid : q.flags.inUse = true → q.pid = p.pid

theorem Moved.refl (p : Mproc n) : Moved E p p where
  inUse h := h
  exiting _ h := h
  vfsCall h := ⟨h, rfl⟩
  settled _ _ h := h
  parent := .inl rfl
  tracer := .inl rfl
  pid _ := rfl

theorem Moved.trans {p q r : Mproc n} (h₁ : Moved E p q) (h₂ : Moved E q r) : Moved E p r where
  inUse h := h₁.inUse (h₂.inUse h)
  exiting h hp := h₂.exiting h (h₁.exiting (h₂.inUse h) hp)
  vfsCall h := by
    obtain ⟨hv₁, hu₁⟩ := h₁.vfsCall h
    obtain ⟨hv₂, hu₂⟩ := h₂.vfsCall hv₁
    exact ⟨hv₂, hu₂.trans hu₁⟩
  settled h hp hr := by
    have hq := h₂.inUse h
    exact h₁.settled hq hp (h₂.settled h (h₁.exiting hq hp) hr)
  parent := by
    rcases h₂.parent with h | h
    · rw [h]; exact h₁.parent
    · exact .inr h
  tracer := by
    rcases h₂.tracer with h | h
    · rw [h]; exact h₁.tracer
    · exact .inr h
  pid h := (h₂.pid h).trans (h₁.pid (h₂.inUse h))

/-- What a handler does to the table and the log. -/
structure Evolves (E : Env n) (s s' : Pm n) : Prop where
  moved : ∀ c, Moved E (s.mproc c) (s'.mproc c)
  follows : Follows E s s'

theorem Evolves.refl (s : Pm n) : Evolves E s s := ⟨fun _ => .refl _, .refl s⟩

theorem Evolves.trans (h₁ : Evolves E s₁ s₂) (h₂ : Evolves E s₂ s₃) : Evolves E s₁ s₃ :=
  ⟨fun c => (h₁.moved c).trans (h₂.moved c), h₁.follows.trans h₂.follows⟩

theorem Evolves.emit (e : Event n) (he : ∀ c, e.mark c = none) : Evolves E s (s.emit e) :=
  ⟨fun _ => .refl _, .emit e he⟩

/-! ## One slot changes

    What the change of one slot leaves of the others: `Linked.alter` for the
    links, `Base.alter` for a slot that stays in use and `Base.replace` for
    one that nobody holds. -/

/-- The changes of one record that keep the table in order. -/
structure Alter (E : Env n) (p q : Mproc n) : Prop where
  wf : Wf q
  inUse : q.flags.inUse = p.flags.inUse
  exiting : p.flags.exiting = true → q.flags.exiting = true
  endpoint : q.endpoint = p.endpoint
  pid : q.pid = p.pid
  parent : q.parent = p.parent ∨ q.parent = E.initProcNr

/-- The changes a handler makes. -/
structure Change (E : Env n) (p q : Mproc n) : Prop extends Alter E p q where
  vfsCall : p.flags.vfsCall = true → q.flags.vfsCall = true
  settled : p.flags.exiting = true → q.flags.vfsCall = true → p.flags.vfsCall = true
  waiting : q.flags.waiting = true → p.flags.waiting = true
  wpid : q.wpid = p.wpid
  tracer : q.tracer = p.tracer ∨ q.tracer = 0

theorem Change.moved {p q : Mproc n} (h : Change E p q) : Moved E p q where
  inUse hq := h.inUse.symm.trans hq
  exiting _ hp := h.exiting hp
  vfsCall hp := ⟨h.vfsCall hp, h.inUse⟩
  settled _ := h.settled
  parent := h.parent
  tracer := h.tracer
  pid _ := h.pid

/-- A change of the flags that the state of the process's life is kept in. -/
theorem Change.flags {p : Mproc n} {f : Flags} (wf : Wf { p with flags := f })
    (inUse : f.inUse = p.flags.inUse) (exiting : f.exiting = p.flags.exiting)
    (vfsCall : f.vfsCall = p.flags.vfsCall) (waiting : f.waiting = p.flags.waiting) :
    Change E p { p with flags := f } where
  wf := wf
  inUse := inUse
  exiting h := exiting.trans h
  endpoint := rfl
  pid := rfl
  parent := .inl rfl
  vfsCall h := vfsCall.trans h
  settled _ h := vfsCall.symm.trans h
  waiting h := waiting.symm.trans h
  wpid := rfl
  tracer := .inl rfl

theorem used_congr {t t' : Slot n → Mproc n} (h : ∀ c, (t' c).flags.inUse = (t c).flags.inUse) :
    used t' = used t := by
  simp [used, h]

/-- One more slot in use. -/
theorem used_fill {t t' : Slot n → Mproc n} (hc : (t c).flags.inUse = false)
    (hc' : (t' c).flags.inUse = true) (hne : ∀ d, d ≠ c → t' d = t d) : used t' = used t + 1 := by
  have hset : (Finset.univ.filter fun d => (t' d).flags.inUse = true) =
      insert c (Finset.univ.filter fun d => (t d).flags.inUse = true) := by
    ext d
    by_cases hd : d = c
    · simp [hd, hc']
    · simp [hd, hne d hd]
  rw [used, hset, Finset.card_insert_of_notMem (by simp [hc]), used]

/-- The links of a slot stay as long as what may be held does. -/
theorem Linked.alter {D' : Slot n → Prop} {t t' : Slot n → Mproc n} (h : Linked E D t d)
    (hheld : ∀ e, Held D t e → Held D' t' e) (hinit : Held D' t' E.initProcNr)
    (hparent : (t' d).parent = (t d).parent ∨ (t' d).parent = E.initProcNr)
    (htracer : (t' d).tracer = (t d).tracer ∨ (t' d).tracer = 0 ∨
      (t' d).tracer ≠ d ∧ Held D' t' (t' d).tracer) : Linked E D' t' d where
  parent := by
    rcases hparent with hp | hp
    · rw [hp]; exact hheld _ h.parent
    · rw [hp]; exact hinit
  parentSelf hself := by
    rcases hparent with hp | hp
    · rw [hp] at hself; exact h.parentSelf hself
    · rw [hp] at hself; exact hself.symm
  tracer h0 := by
    rcases htracer with ht | ht | ht
    · rw [ht] at h0 ⊢; exact hheld _ (h.tracer h0)
    · exact absurd ht h0
    · exact ht.2
  tracerSelf h0 := by
    rcases htracer with ht | ht | ht
    · rw [ht] at h0 ⊢; exact h.tracerSelf h0
    · exact absurd ht h0
    · exact ht.1

/-- **ONE CHANGE** keeps the table in order.  A process that starts to exit is
    busy with its children from then on. -/
theorem Base.alter {D' : Slot n → Prop} (h : Base E D s) (hc : (s.mproc c).flags.inUse = true)
    (hq : Alter E (s.mproc c) (s'.mproc c)) (hne : ∀ d, d ≠ c → s'.mproc d = s.mproc d)
    (hcount : s'.procsInUse = s.procsInUse)
    (hbusy : D c → (s'.mproc c).flags.vfsCall = true)
    (htracer : (s'.mproc c).tracer = (s.mproc c).tracer ∨ (s'.mproc c).tracer = 0 ∨
      c ≠ 0 ∧ (s'.mproc c).tracer ≠ c ∧ (s.mproc (s'.mproc c).tracer).live = true)
    (hsub : ∀ d, D d → D' d)
    (hback : ∀ d, D' d → D d ∨
      d = c ∧ (s'.mproc c).flags.exiting = true ∧ (s'.mproc c).flags.vfsCall = true)
    (hdies : (s'.mproc c).flags.exiting = true → (s.mproc c).flags.exiting = true ∨
      D' c ∧ c ≠ 0 ∧ c ≠ E.initProcNr) : Base E D' s' := by
  have huse : ∀ d, (s'.mproc d).flags.inUse = (s.mproc d).flags.inUse := by
    intro d
    by_cases hd : d = c
    · rw [hd, hq.inUse]
    · rw [hne d hd]
  have hpid : ∀ d, (s'.mproc d).pid = (s.mproc d).pid := by
    intro d
    by_cases hd : d = c
    · rw [hd, hq.pid]
    · rw [hne d hd]
  have hexit : ∀ d, (s'.mproc d).flags.exiting = true → (s.mproc d).flags.exiting = true ∨
      D' d ∧ d ≠ 0 ∧ d ≠ E.initProcNr := by
    intro d hd
    by_cases hdc : d = c
    · rw [hdc] at hd ⊢
      exact hdies hd
    · rw [hne d hdc] at hd
      exact .inl hd
  have hlive : ∀ d, (s.mproc d).live = true → (d = 0 ∨ d = E.initProcNr) →
      (s'.mproc d).live = true := by
    intro d hd hfix
    rw [Mproc.live_iff] at hd ⊢
    refine ⟨(huse d).trans hd.1, ?_⟩
    by_contra hx
    rcases hexit d (by simpa using hx) with hx | ⟨-, h0, hi⟩
    · rw [hd.2] at hx; cases hx
    · exact hfix.elim h0 hi
  have hheld : ∀ e, Held D s.mproc e → Held D' s'.mproc e := by
    rintro e ⟨hu, hx⟩
    refine ⟨(huse e).trans hu, fun hx' => ?_⟩
    rcases hexit e hx' with hx' | hx'
    · exact hsub e (hx hx')
    · exact hx'.1
  have hinit := hlive _ h.init.1 (.inr rfl)
  refine { wf := ?_, linked := ?_, pids := ?_, count := ?_, init := ⟨hinit, ?_⟩,
           pm := ⟨hlive _ h.pm.1 (.inl rfl), ?_⟩, busy := ?_, unused := ?_ }
  · intro d hd
    by_cases hdc : d = c
    · rw [hdc]; exact hq.wf
    · rw [hne d hdc]
      exact h.wf d (by rw [← huse d]; exact hd)
  · intro d hd
    refine (h.linked d (by rw [← huse d]; exact hd)).alter hheld (.of_live hinit) ?_ ?_
    · by_cases hdc : d = c
      · rw [hdc]; exact hq.parent
      · rw [hne d hdc]; exact .inl rfl
    · by_cases hdc : d = c
      · rw [hdc]
        exact htracer.imp_right (.imp_right fun ht => ⟨ht.2.1, hheld _ (.of_live ht.2.2)⟩)
      · rw [hne d hdc]; exact .inl rfl
  · intro d e hd he
    rw [hpid d, hpid e]
    exact h.pids d e ((huse d).symm.trans hd) ((huse e).symm.trans he)
  · rw [hcount, h.count, used_congr huse]
  · by_cases hi : E.initProcNr = c
    · rw [hi, hq.endpoint, ← hi]; exact h.init.2
    · rw [hne _ hi]; exact h.init.2
  · by_cases h0 : (0 : Slot n) = c
    · rw [← h0] at htracer
      rcases htracer with ht | ht | ht
      · exact ht.trans h.pm.2
      · exact ht
      · exact absurd rfl ht.1
    · rw [hne _ h0]; exact h.pm.2
  · intro d hd
    rcases hback d hd with hd | ⟨rfl, he, hv⟩
    · obtain ⟨hu, he, hv⟩ := h.busy d hd
      by_cases hdc : d = c
      · subst hdc
        exact ⟨(huse _).trans hu, hq.exiting he, hbusy hd⟩
      · rw [hne d hdc]; exact ⟨hu, he, hv⟩
    · exact ⟨(huse _).trans hc, he, hv⟩
  · intro d hd
    have hdu := (huse d).symm.trans hd
    by_cases hdc : d = c
    · subst hdc
      rw [hc] at hdu
      cases hdu
    · rw [hne d hdc]
      exact h.unused d hdu

/-- **A HANDLER'S CHANGE** keeps the table in order. -/
theorem Base.change {D' : Slot n → Prop} (h : Base E D s) (hc : (s.mproc c).flags.inUse = true)
    (hq : Change E (s.mproc c) (s'.mproc c)) (hne : ∀ d, d ≠ c → s'.mproc d = s.mproc d)
    (hcount : s'.procsInUse = s.procsInUse) (hsub : ∀ d, D d → D' d)
    (hback : ∀ d, D' d → D d ∨
      d = c ∧ (s'.mproc c).flags.exiting = true ∧ (s'.mproc c).flags.vfsCall = true)
    (hdies : (s'.mproc c).flags.exiting = true → (s.mproc c).flags.exiting = true ∨
      D' c ∧ c ≠ 0 ∧ c ≠ E.initProcNr) : Base E D' s' :=
  h.alter hc hq.toAlter hne hcount (fun hd => hq.vfsCall (h.busy c hd).2.2)
    (hq.tracer.imp_right .inl) hsub hback hdies

/-- **A SLOT NOBODY HOLDS** may be filled or released. -/
theorem Base.replace (h : Base E D s) (hc : ¬Held D s.mproc c)
    (hne : ∀ d, d ≠ c → s'.mproc d = s.mproc d) (hcount : s'.procsInUse = used s'.mproc)
    (hnew : (s'.mproc c).flags.inUse = true → Wf (s'.mproc c) ∧ Linked E D s'.mproc c ∧
      ∀ d, d ≠ c → (s.mproc d).flags.inUse = true → (s.mproc d).pid ≠ (s'.mproc c).pid)
    (hold : (s'.mproc c).flags.inUse = false → (s'.mproc c).flags = {}) : Base E D s' := by
  have hsame : ∀ e, Held D s.mproc e → s'.mproc e = s.mproc e := by
    intro e he
    refine hne e ?_
    rintro rfl
    exact hc he
  have hheld : ∀ e, Held D s.mproc e → Held D s'.mproc e := by
    intro e he
    unfold Held
    rw [hsame e he]
    exact he
  have hinit := hsame _ (.of_live h.init.1)
  refine { wf := ?_, linked := ?_, pids := ?_, count := hcount, init := by rw [hinit]; exact h.init,
           pm := by rw [hsame _ (.of_live h.pm.1)]; exact h.pm, busy := ?_, unused := ?_ }
  · intro d hd
    by_cases hdc : d = c
    · rw [hdc] at hd ⊢; exact (hnew hd).1
    · rw [hne d hdc] at hd ⊢; exact h.wf d hd
  · intro d hd
    by_cases hdc : d = c
    · rw [hdc] at hd ⊢; exact (hnew hd).2.1
    · rw [hne d hdc] at hd
      exact (h.linked d hd).alter hheld (hheld _ (.of_live h.init.1)) (.inl (by rw [hne d hdc]))
        (.inl (by rw [hne d hdc]))
  · intro d e hd he hpid
    by_cases hdc : d = c
    · by_cases hec : e = c
      · rw [hdc, hec]
      · rw [hne e hec] at he hpid
        rw [hdc] at hd hpid
        exact absurd hpid.symm ((hnew hd).2.2 e hec he)
    · rw [hne d hdc] at hd hpid
      by_cases hec : e = c
      · rw [hec] at he hpid
        exact absurd hpid ((hnew he).2.2 d hdc hd)
      · rw [hne e hec] at he hpid
        exact h.pids d e hd he hpid
  · intro d hd
    obtain ⟨hu, hx, hv⟩ := h.busy d hd
    rw [hsame d ⟨hu, fun _ => hd⟩]
    exact ⟨hu, hx, hv⟩
  · intro d hd
    by_cases hdc : d = c
    · rw [hdc] at hd ⊢; exact hold hd
    · rw [hne d hdc] at hd ⊢; exact h.unused d hd

/-- What is tended stays so when a slot nobody holds changes. -/
theorem Tended.replace (h : Tended s.mproc d) (hl : Linked E D s.mproc d) (hw : Wf (s.mproc d))
    (hc : ¬Held D s.mproc c) (hd : d ≠ c) (hne : ∀ d, d ≠ c → s'.mproc d = s.mproc d) :
    Tended s'.mproc d := by
  have hsame : ∀ e, Held D s.mproc e → s'.mproc e = s.mproc e := by
    intro e he
    refine hne e ?_
    rintro rfl
    exact hc he
  refine { told := ?_, known := ?_, alive := ?_, parent := ?_, tracer := ?_ }
  · rw [hne d hd]; exact h.told
  · rw [hne d hd]; exact h.known
  · rw [hne d hd]; exact h.alive
  · rw [hne d hd, hsame _ hl.parent]; exact h.parent
  · rw [hne d hd]
    intro hz
    rw [hsame _ (hl.tracer (hw.traced hz).2)]
    exact h.tracer hz

/-- A wait that is over or was never begun asks for nothing. -/
theorem waitTest_mono {p q r : Mproc n} (hw : q.flags.waiting = true → p.flags.waiting = true)
    (hwpid : q.wpid = p.wpid) (h : waitTest p r = false) : waitTest q r = false := by
  cases hq : q.flags.waiting with
  | false => simp [waitTest, hq]
  | true => simpa [waitTest, hwpid, hq, hw hq] using h

theorem waitTest_idle {p q : Mproc n} (h : p.flags.waiting = false) : waitTest p q = false := by
  simp [waitTest, h]

/-- A change at `c` that begins no wait leaves nothing to be done for the
    others. -/
theorem Tended.change (h : Tended s.mproc d) (hd : d ≠ c)
    (hw : (s'.mproc c).flags.waiting = true → (s.mproc c).flags.waiting = true)
    (hwpid : (s'.mproc c).wpid = (s.mproc c).wpid) (hne : ∀ d, d ≠ c → s'.mproc d = s.mproc d) :
    Tended s'.mproc d := by
  have hwait : ∀ e, waitTest (s.mproc e) (s.mproc d) = false →
      waitTest (s'.mproc e) (s.mproc d) = false := by
    intro e he
    by_cases hec : e = c
    · subst hec
      exact waitTest_mono hw hwpid he
    · rw [hne e hec]; exact he
  refine { told := ?_, known := ?_, alive := ?_, parent := ?_, tracer := ?_ }
  · rw [hne d hd]; exact h.told
  · rw [hne d hd]; exact h.known
  · rw [hne d hd]; exact h.alive
  · rw [hne d hd]
    intro hz
    exact hwait _ (h.parent hz)
  · rw [hne d hd]
    intro hz
    exact hwait _ (h.tracer hz)

/-- A handler's change of one record. -/
theorem Evolves.change (hq : Change E (s.mproc c) (s'.mproc c))
    (hne : ∀ d, d ≠ c → s'.mproc d = s.mproc d) (hf : Follows E s s') : Evolves E s s' := by
  refine ⟨fun d => ?_, hf⟩
  by_cases hd : d = c
  · subst hd; exact hq.moved
  · rw [hne d hd]; exact .refl _

/-! ## Touches -/

/-- A change to a record that keeps its life, its place among the others, and
    its wait. -/
structure Touch (p q : Mproc n) : Prop where
  wf : Wf p → Wf q
  inUse : q.flags.inUse = p.flags.inUse
  exiting : q.flags.exiting = p.flags.exiting
  zombie : q.flags.zombie = p.flags.zombie
  told : q.flags.toldParent = p.flags.toldParent
  traced : q.flags.traceZombie = p.flags.traceZombie
  vfsCall : q.flags.vfsCall = p.flags.vfsCall ∨
    p.flags.exiting = false ∧ p.flags.vfsCall = false
  waiting : q.flags.waiting = true → p.flags.waiting = true
  endpoint : q.endpoint = p.endpoint
  pid : q.pid = p.pid
  procgrp : q.procgrp = p.procgrp ∨ p.flags.exiting = false
  wpid : q.wpid = p.wpid
  parent : q.parent = p.parent
  tracer : q.tracer = p.tracer ∨ p.flags.traceZombie = false ∧ q.tracer = 0
  exitStatus : q.exitStatus = p.exitStatus
  sigStatus : q.sigStatus = p.sigStatus ∨ p.flags.exiting = false
  ending : q.ending = p.ending ∨ p.flags.exiting = false ∧ q.ending = none

/-- A record without the fields that no life, link or wait depends on. -/
def Mproc.core (p : Mproc n) : Mproc n :=
  { p with
    flags := { p.flags with procStopped := false, alarmOn := false }
    sigtrace := [], childUtime := 0, childStime := 0, replyStatus := 0, replyData := 0 }

/-- A change of those fields is a touch. -/
theorem Touch.of_core {p q : Mproc n} (h : q.core = p.core) : Touch p q where
  wf hp := by
    have hcore : Wf p.core := { hp with }
    rw [← h] at hcore
    exact { hcore with }
  inUse := congrArg (fun p => p.flags.inUse) h
  exiting := congrArg (fun p => p.flags.exiting) h
  zombie := congrArg (fun p => p.flags.zombie) h
  told := congrArg (fun p => p.flags.toldParent) h
  traced := congrArg (fun p => p.flags.traceZombie) h
  vfsCall := .inl (congrArg (fun p => p.flags.vfsCall) h)
  waiting hw := (congrArg (fun p => p.flags.waiting) h).symm.trans hw
  endpoint := congrArg (fun p => p.endpoint) h
  pid := congrArg (fun p => p.pid) h
  procgrp := .inl (congrArg (fun p => p.procgrp) h)
  wpid := congrArg (fun p => p.wpid) h
  parent := congrArg (fun p => p.parent) h
  tracer := .inl (congrArg (fun p => p.tracer) h)
  exitStatus := congrArg (fun p => p.exitStatus) h
  sigStatus := .inl (congrArg (fun p => p.sigStatus) h)
  ending := .inl (congrArg (fun p => p.ending) h)

theorem Touch.change {p q : Mproc n} (ht : Touch p q) (hp : Wf p) : Change E p q where
  wf := ht.wf hp
  inUse := ht.inUse
  exiting h := ht.exiting.trans h
  vfsCall h := by
    rcases ht.vfsCall with hv | ⟨-, hv⟩
    · exact hv.trans h
    · rw [hv] at h; cases h
  settled h hq := by
    rcases ht.vfsCall with hv | ⟨hx, -⟩
    · exact hv.symm.trans hq
    · rw [hx] at h; cases h
  waiting := ht.waiting
  endpoint := ht.endpoint
  pid := ht.pid
  wpid := ht.wpid
  parent := .inl ht.parent
  tracer := ht.tracer.imp_right And.right

theorem Touch.life {p q : Mproc n} (ht : Touch p q) : q.life = p.life := by
  unfold Mproc.life
  rw [ht.inUse, ht.exiting, ht.pid, ht.parent, ht.exitStatus, ht.told]
  cases he : p.flags.exiting with
  | false => rfl
  | true =>
      have hv : q.flags.vfsCall = p.flags.vfsCall := by simpa [he] using ht.vfsCall
      have hs : q.sigStatus = p.sigStatus := by simpa [he] using ht.sigStatus
      rw [hv, hs]

/-- A touch leaves nothing to be done where nothing was. -/
theorem Touch.tended (ht : Touch (s.mproc c) (s'.mproc c)) (hp : Wf (s.mproc c))
    (hne : ∀ d, d ≠ c → s'.mproc d = s.mproc d) (h : Tended s.mproc d) : Tended s'.mproc d := by
  by_cases hd : d = c
  · subst hd
    have hwait : ∀ e, waitTest (s.mproc e) (s.mproc d) = false →
        (s.mproc d).flags.exiting = true → waitTest (s'.mproc e) (s'.mproc d) = false := by
      intro e he hx
      have hg : (s'.mproc d).procgrp = (s.mproc d).procgrp := by simpa [hx] using ht.procgrp
      have hrec : waitTest (s.mproc e) (s'.mproc d) = false := by
        simpa [waitTest, ht.pid, hg] using he
      by_cases hed : e = d
      · subst hed
        exact waitTest_mono ht.waiting ht.wpid hrec
      · rw [hne e hed]; exact hrec
    refine { told := ?_, known := ?_, alive := ?_, parent := ?_, tracer := ?_ }
    · intro hto
      rw [ht.told] at hto
      have hx := (hp.told hto).1
      have hv : (s'.mproc d).flags.vfsCall = (s.mproc d).flags.vfsCall := by
        simpa [hx] using ht.vfsCall
      rw [hv]; exact h.told hto
    · intro hx
      rw [ht.exiting] at hx
      have he : (s'.mproc d).ending = (s.mproc d).ending := by simpa [hx] using ht.ending
      rw [ht.zombie, ht.told, ht.traced, he]
      exact h.known hx
    · intro hx
      rw [ht.exiting] at hx
      rcases ht.ending with he | ⟨-, he⟩
      · rw [he]; exact h.alive hx
      · exact he
    · intro hz
      rw [ht.zombie] at hz
      rw [ht.parent]
      exact hwait _ (h.parent hz) (hp.zombie hz).1
    · intro hz
      rw [ht.traced] at hz
      have htr : (s'.mproc d).tracer = (s.mproc d).tracer := by simpa [hz] using ht.tracer
      rw [htr]
      exact hwait _ (h.tracer hz) (hp.traced hz).1
  · exact h.change hd ht.waiting ht.wpid hne

/-- **TOUCHES** keep the table in order. -/
theorem Base.touch (h : Base E D s) (hc : (s.mproc c).flags.inUse = true)
    (ht : Touch (s.mproc c) (s'.mproc c)) (hne : ∀ d, d ≠ c → s'.mproc d = s.mproc d)
    (hcount : s'.procsInUse = s.procsInUse) : Base E D s' :=
  h.change hc (ht.change (h.wf c hc)) hne hcount (fun _ hd => hd) (fun _ hd => .inl hd)
    fun hx => .inl (ht.exiting.symm.trans hx)

theorem Evolves.touch (h : Base E D s) (hc : (s.mproc c).flags.inUse = true)
    (ht : Touch (s.mproc c) (s'.mproc c)) (hne : ∀ d, d ≠ c → s'.mproc d = s.mproc d)
    (hlog : s'.log = s.log) : Evolves E s s' := by
  refine .change (ht.change (h.wf c hc)) hne (.still hlog fun d => ?_)
  by_cases hd : d = c
  · rw [hd]; exact ht.life
  · rw [hne d hd]

/-! ## All but one slot -/

/-- All is tended but what is going on at `c`. -/
structure Near (E : Env n) (D : Slot n → Prop) (c : Slot n) (s : Pm n) : Prop where
  base : Base E D s
  tended : ∀ d, d ≠ c → (s.mproc d).flags.inUse = true → Tended s.mproc d

theorem Sound.near (h : Sound E D s) (c : Slot n) : Near E D c s :=
  ⟨h.base, fun d _ => h.tended d⟩

theorem Near.sound (h : Near E D c s)
    (hc : (s.mproc c).flags.inUse = true → Tended s.mproc c) : Sound E D s := by
  refine ⟨h.base, fun d hd => ?_⟩
  by_cases hdc : d = c
  · subst hdc; exact hc hd
  · exact h.tended d hdc hd

/-- The log is no part of the table. -/
theorem Base.same (h : Base E D s) (hm : s'.mproc = s.mproc)
    (hcount : s'.procsInUse = s.procsInUse) : Base E D s' where
  wf := by rw [hm]; exact h.wf
  linked := by rw [hm]; exact h.linked
  pids := by rw [hm]; exact h.pids
  count := by rw [hcount, hm]; exact h.count
  init := by rw [hm]; exact h.init
  pm := by rw [hm]; exact h.pm
  busy := by rw [hm]; exact h.busy
  unused := by rw [hm]; exact h.unused

theorem Near.same (h : Near E D c s) (hm : s'.mproc = s.mproc)
    (hcount : s'.procsInUse = s.procsInUse) : Near E D c s' := by
  refine ⟨h.base.same hm hcount, ?_⟩
  rw [hm]; exact h.tended

theorem Sound.same (h : Sound E D s) (hm : s'.mproc = s.mproc)
    (hcount : s'.procsInUse = s.procsInUse) : Sound E D s' := by
  refine ⟨h.base.same hm hcount, ?_⟩
  rw [hm]; exact h.tended

theorem Near.emit (h : Near E D c s) (e : Event n) : Near E D c (s.emit e) := h.same rfl rfl

theorem Sound.emit (h : Sound E D s) (e : Event n) : Sound E D (s.emit e) := h.same rfl rfl

/-- A change of the record of `c` and of its life. -/
theorem Near.change (h : Near E D c s) (hc : (s.mproc c).flags.inUse = true)
    (hx : (s'.mproc c).flags.exiting = true → (s.mproc c).flags.exiting = true)
    (hq : Change E (s.mproc c) (s'.mproc c)) (hne : ∀ d, d ≠ c → s'.mproc d = s.mproc d)
    (hcount : s'.procsInUse = s.procsInUse) (hf : Follows E s s') :
    Near E D c s' ∧ Evolves E s s' := by
  refine ⟨⟨h.base.change hc hq hne hcount (fun _ hd => hd) (fun _ hd => .inl hd)
    fun hx' => .inl (hx hx'), fun d hd hu => ?_⟩, .change hq hne hf⟩
  rw [hne d hd] at hu
  exact (h.tended d hd hu).change hd hq.waiting hq.wpid hne

/-- A change of the record of `c` that its life does not show. -/
theorem Near.become {p : Mproc n} (s' : Pm n) (h : Near E D c s)
    (hc : (s.mproc c).flags.inUse = true)
    (hx : p.flags.exiting = true → (s.mproc c).flags.exiting = true)
    (hq : Change E (s.mproc c) p) (hset : s'.mproc = (s.set c p).mproc)
    (hcount : s'.procsInUse = s.procsInUse) (hlog : s'.log = s.log)
    (hlife : p.life = (s.mproc c).life) :
    Near E D c s' ∧ Evolves E s s' := by
  have hnew : s'.mproc c = p := by simp [hset]
  have hne : ∀ d, d ≠ c → s'.mproc d = s.mproc d := by
    intro d hd
    simp [hset, hd]
  rw [← hnew] at hx hq hlife
  refine h.change hc hx hq hne hcount (.still hlog fun d => ?_)
  by_cases hd : d = c
  · rw [hd, hlife]
  · rw [hne d hd]

/-- A slot nobody holds is filled or released. -/
theorem Near.replace (h : Near E D c s) (hc : ¬Held D s.mproc c)
    (hne : ∀ d, d ≠ c → s'.mproc d = s.mproc d) (hcount : s'.procsInUse = used s'.mproc)
    (hnew : (s'.mproc c).flags.inUse = true → Wf (s'.mproc c) ∧ Linked E D s'.mproc c ∧
      ∀ d, d ≠ c → (s.mproc d).flags.inUse = true → (s.mproc d).pid ≠ (s'.mproc c).pid)
    (hold : (s'.mproc c).flags.inUse = false → (s'.mproc c).flags = {}) : Near E D c s' := by
  refine ⟨h.base.replace hc hne hcount hnew hold, fun d hd hu => ?_⟩
  rw [hne d hd] at hu
  exact (h.tended d hd hu).replace (h.base.linked d hu) (h.base.wf d hu) hc hd hne

theorem Near.touch {e : Slot n} (h : Near E D c s) (he : (s.mproc e).flags.inUse = true)
    (ht : Touch (s.mproc e) (s'.mproc e)) (hne : ∀ d, d ≠ e → s'.mproc d = s.mproc d)
    (hcount : s'.procsInUse = s.procsInUse) : Near E D c s' := by
  refine ⟨h.base.touch he ht hne hcount, fun d hd hu => ?_⟩
  refine ht.tended (h.base.wf e he) hne (h.tended d hd ?_)
  by_cases hde : d = e
  · subst hde; exact ht.inUse.symm.trans hu
  · rw [← hne d hde]; exact hu

theorem Sound.touch (h : Sound E D s) (hc : (s.mproc c).flags.inUse = true)
    (ht : Touch (s.mproc c) (s'.mproc c)) (hne : ∀ d, d ≠ c → s'.mproc d = s.mproc d)
    (hcount : s'.procsInUse = s.procsInUse) : Sound E D s' :=
  ((h.near c).touch hc ht hne hcount).sound fun _ =>
    ht.tended (h.base.wf c hc) hne (h.tended c hc)

/-- A touch of one record of the table. -/
theorem Sound.modify (h : Sound E D s) (f : Mproc n → Mproc n)
    (hc : (s.mproc c).flags.inUse = true) (ht : Touch (s.mproc c) (f (s.mproc c))) :
    Sound E D (s.modify c f) ∧ Evolves E s (s.modify c f) := by
  have ht' : Touch (s.mproc c) ((s.modify c f).mproc c) := by simpa using ht
  have hne : ∀ d, d ≠ c → (s.modify c f).mproc d = s.mproc d := by
    intro d hd
    simp [hd]
  exact ⟨h.touch hc ht' hne rfl, .touch h.base hc ht' hne rfl⟩

end OsForkExit
