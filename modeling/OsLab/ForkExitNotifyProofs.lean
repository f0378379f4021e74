import OsLab.ForkExitTableProofs

/-! # Telling of a death

    A death is told to the tracer and to the parent, who may be waiting or
    gets a signal.  The handlers are taken with any `sig` that keeps the table
    in order for the live processes of a table with at most `k` of them
    (`SigOk`). -/

namespace OsForkExit

open OsLoop OsOutcome

variable {n : Nat} {E : Env n} {D : Slot n → Prop} {s s' s₁ : Pm n} {c d : Slot n}

/-! ## The status word -/

/-- Without a sign to fill it the upper byte is the status. -/
theorem wExitstatus_wExitcode (e g : BitVec 8) (hm : g.msb = false) :
    wExitstatus (wExitcode (e.signExtend 32) (g.signExtend 32)) = e.setWidth 32 := by
  apply BitVec.eq_of_getLsbD_eq
  intro i hi
  simp only [wExitstatus, wExitcode, BitVec.signExtend_eq_setWidth_of_msb_false hm]
  rcases Nat.lt_or_ge i 8 with h8 | h8
  · have hshift : i + 8 < 32 := by omega
    have hmask : ∀ i < 8, (255 : BitVec 32).getLsbD i = true := by decide
    rw [BitVec.getLsbD_and, hmask i h8, Bool.and_true]
    simp
    grind
  · have hmask : ∀ i < 32, 8 ≤ i → (255 : BitVec 32).getLsbD i = false := by decide
    rw [BitVec.getLsbD_and, hmask i hi h8, Bool.and_false]
    simp [h8]

/-- The lower byte is the signal and the core flag. -/
theorem wExitcode_and (e g mask : BitVec 8) :
    wExitcode (e.signExtend 32) (g.signExtend 32) &&& mask.setWidth 32 =
      (g &&& mask).setWidth 32 := by
  apply BitVec.eq_of_getLsbD_eq
  intro i hi
  rcases Nat.lt_or_ge i 8 with h8 | h8
  · simp [wExitcode, BitVec.getElem_signExtend, hi, h8]
  · have hmask : mask.getLsbD i = false := BitVec.getLsbD_of_ge mask i h8
    simp [hmask]

/-- The status word of an ended process. -/
def Mproc.status (p : Mproc n) : BitVec 32 :=
  wExitcode (p.exitStatus.signExtend 32) (p.sigStatus.signExtend 32)

theorem status_tells (p : Mproc n) : Tells p.status p.exitStatus p.sigStatus :=
  ⟨wExitstatus_wExitcode p.exitStatus p.sigStatus,
    wExitcode_and p.exitStatus p.sigStatus 0x7f, wExitcode_and p.exitStatus p.sigStatus 0x80⟩

/-! ## Reporting a death -/

/-- Waking a process touches nothing. -/
theorem touch_wake (p : Mproc n) (w : BitVec 32) :
    Touch p { p with replyStatus := w, flags := { p.flags with waiting := false } } where
  wf hp := { hp with waiting := fun _ => rfl }
  inUse := rfl
  exiting := rfl
  zombie := rfl
  told := rfl
  traced := rfl
  vfsCall := .inl rfl
  waiting hw := by cases hw
  endpoint := rfl
  pid := rfl
  procgrp := .inl rfl
  wpid := rfl
  parent := rfl
  tracer := .inl rfl
  exitStatus := rfl
  sigStatus := .inl rfl
  ending := .inl rfl

/-- A process is woken to be told of another one. -/
def Pm.wake (s : Pm n) (c : Slot n) (pid : Int) (w : BitVec 32) : Pm n :=
  (reply c (.value pid) (s.modify c fun p => { p with replyStatus := w })).setFlags c
    fun f => { f with waiting := false }

theorem wake_mproc (c d : Slot n) (pid : Int) (w : BitVec 32) : (s.wake c pid w).mproc d =
    if d = c then { s.mproc c with
      replyStatus := w, flags := { (s.mproc c).flags with waiting := false } }
    else s.mproc d := by
  by_cases h : d = c
  · simp [Pm.wake, h]
  · simp [Pm.wake, h]

theorem wake_log (c : Slot n) (pid : Int) (w : BitVec 32) :
    (s.wake c pid w).log = s.log ++ [.reply c (.value pid) w] := by
  simp [Pm.wake, reply, Pm.emit, Pm.modify, Pm.setFlags, Pm.set]

theorem wake_near {e : Slot n} (pid : Int) (w : BitVec 32) (h : Near E D c s)
    (he : (s.mproc e).flags.inUse = true) :
    Near E D c (s.wake e pid w) ∧ Evolves E s (s.wake e pid w) := by
  have hrec : (s.wake e pid w).mproc e = { s.mproc e with
      replyStatus := w, flags := { (s.mproc e).flags with waiting := false } } := by
    rw [wake_mproc, if_pos rfl]
  have ht : Touch (s.mproc e) ((s.wake e pid w).mproc e) := by
    rw [hrec]; exact touch_wake _ w
  have hne : ∀ d, d ≠ e → (s.wake e pid w).mproc d = s.mproc d := by
    intro d hd
    rw [wake_mproc, if_neg hd]
  have hf : Follows E s ((s.emit (.reply e (.value pid) w))) := .emit _ fun _ => rfl
  refine ⟨h.touch he ht hne rfl, .change (ht.change (h.base.wf e he)) hne
    (hf.trans (.still (wake_log e pid w) fun d => ?_))⟩
  by_cases hd : d = e
  · rw [hd]; exact ht.life
  · rw [hne d hd, Pm.mproc_emit]

/-- An exiting process is not its own parent. -/
theorem Base.parent_ne (h : Base E D s) (hc : (s.mproc c).flags.inUse = true)
    (hx : (s.mproc c).flags.exiting = true) : (s.mproc c).parent ≠ c := by
  intro hp
  have hi := (h.linked c hc).parentSelf hp
  have hl := h.init.1
  rw [← hi, Mproc.live_iff, hx] at hl
  cases hl.2

/-- The record of a process reported to its parent. -/
def Mproc.reported (p : Mproc n) : Mproc n :=
  { p with flags := { p.flags with zombie := false, toldParent := true } }

/-- Reporting a process changes its record only. -/
theorem change_reported {p : Mproc n} (h : Wf p) (hz : p.flags.zombie = true) :
    Change E p p.reported := by
  have hw : Wf p.reported :=
    { h with
      zombie := fun hf => by cases hf
      told := fun _ => ⟨(h.zombie hz).1, (h.zombie hz).2.2⟩
      dumping := fun hx hm => by
        have hd := (h.dumping hx hm).1
        rw [hz] at hd
        cases hd }
  exact .flags hw rfl rfl rfl rfl

/-- The table and the log after a report. -/
def Pm.report (s : Pm n) (c : Slot n) : Pm n :=
  ((s.wake (s.mproc c).parent (s.mproc c).pid (s.mproc c).status).setFlags c
    fun f => { f with zombie := false, toldParent := true }).emit (.life c .reported)

theorem report_mproc (hpar : (s.mproc c).parent ≠ c) :
    (s.report c).mproc c = (s.mproc c).reported := by
  have hrec : (s.wake (s.mproc c).parent (s.mproc c).pid (s.mproc c).status).mproc c =
      s.mproc c := by
    rw [wake_mproc, if_neg hpar.symm]
  simp [Pm.report, Mproc.reported, hrec]

theorem report_log : (s.report c).log = s.log ++
    [.reply (s.mproc c).parent (.value (s.mproc c).pid) (s.mproc c).status,
      .life c .reported] := by
  simp [Pm.report, Pm.wake, reply, Pm.emit, Pm.setFlags, Pm.modify, Pm.set]

theorem tellParent_ok (hw : Wf (s.mproc c)) (hz : (s.mproc c).flags.zombie = true) :
    tellParent c s = .ok (s.report c) := by
  simp only [tellParent, if_neg hw.parent, hz, (hw.zombie hz).2.1]
  rfl

/-- **A REPORT** reaches the parent once: the process is a zombie before and
    told afterwards, and the reply just before is to its parent. -/
theorem tellParent_yields (h : Near E D c s) (hc : (s.mproc c).flags.inUse = true)
    (hz : (s.mproc c).flags.zombie = true) :
    Yields Panic.Outside (tellParent c s) fun s' =>
      Near E D c s' ∧ Evolves E s s' ∧ s'.mproc c = (s.mproc c).reported := by
  have hw := h.base.wf c hc
  obtain ⟨hx, ht, -⟩ := hw.zombie hz
  have hpar := h.base.parent_ne hc hx
  let s₁ := s.wake (s.mproc c).parent (s.mproc c).pid (s.mproc c).status
  obtain ⟨hn₁, he₁⟩ := wake_near (s.mproc c).pid (s.mproc c).status h
    (h.base.linked c hc).parent.1
  have hrec : s₁.mproc c = s.mproc c := by
    rw [wake_mproc, if_neg hpar.symm]
  have hnew := report_mproc hpar
  have hne : ∀ d, d ≠ c → (s.report c).mproc d = s₁.mproc d := by
    intro d hd
    simp [s₁, Pm.report, hd]
  have hq : Change E (s₁.mproc c) ((s.report c).mproc c) := by
    rw [hrec, hnew]; exact change_reported hw hz
  have hf : Follows E s (s.report c) := by
    refine .report report_log ?_ ?_
    · rw [hnew]
      simp [Mproc.life, Mproc.reported, hc, hx, ht, Life.next, status_tells]
    · intro d hd
      rw [hne d hd]
      by_cases hdp : d = (s.mproc c).parent
      · rw [hdp, wake_mproc, if_pos rfl]; rfl
      · rw [wake_mproc, if_neg hdp]
  rw [tellParent_ok hw hz, yields_ok]
  refine ⟨⟨?_, ?_⟩, ⟨fun d => (he₁.moved d).trans ?_, hf⟩, hnew⟩
  · refine hn₁.base.change (by rw [hrec]; exact hc) hq hne rfl (fun _ hd => hd)
      (fun _ hd => .inl hd) fun _ => .inl ?_
    rw [hrec]; exact hx
  · intro d hd hu
    rw [hne d hd] at hu
    exact (hn₁.tended d hd hu).change hd hq.waiting hq.wpid hne
  · by_cases hd : d = c
    · rw [hd]; exact hq.moved
    · rw [hne d hd]; exact .refl _

/-- The record of a process reported to its tracer, or without one: an
    ordinary zombie. -/
def Mproc.passed (p : Mproc n) : Mproc n :=
  { p with flags := { p.flags with traceZombie := false, zombie := true } }

theorem passed_wf {p : Mproc n} (h : Wf p) (hz : p.flags.traceZombie = true) : Wf p.passed := by
  have htold : p.flags.toldParent = false := by
    cases ht : p.flags.toldParent with
    | false => rfl
    | true => rw [(h.told ht).2] at hz; cases hz
  exact
    { h with
      zombie := fun _ => ⟨(h.traced hz).1, htold, rfl⟩
      told := fun ht => ⟨(h.told ht).1, rfl⟩
      traced := fun hf => by cases hf
      dumping := fun hx hm => by
        have hd := (h.dumping hx hm).2.2
        rw [hz] at hd
        cases hd }

/-- A report to the tracer leaves an ordinary zombie. -/
theorem tellTracer_yields (h : Near E D c s) (hc : (s.mproc c).flags.inUse = true)
    (hz : (s.mproc c).flags.traceZombie = true) :
    Yields Panic.Outside (tellTracer c s) fun s' =>
      Near E D c s' ∧ Evolves E s s' ∧ s'.mproc c = (s.mproc c).passed := by
  have hw := h.base.wf c hc
  have hl := h.base.linked c hc
  obtain ⟨hx, ht0⟩ := hw.traced hz
  let w := wExitcode ((s.mproc c).exitStatus.signExtend 32)
    ((s.mproc c).sigStatus.signExtend 32 &&& 0xff)
  let s₁ := s.wake (s.mproc c).tracer (s.mproc c).pid w
  obtain ⟨hn₁, he₁⟩ := wake_near (s.mproc c).pid w h (hl.tracer ht0).1
  have hrec : s₁.mproc c = s.mproc c := by
    rw [wake_mproc, if_neg (hl.tracerSelf ht0).symm]
  have hok : tellTracer c s =
      .ok (s₁.setFlags c fun f => { f with traceZombie := false, zombie := true }) := by
    simp only [tellTracer, if_neg ht0, hz]
    rfl
  have hq : Change E (s₁.mproc c) (s₁.mproc c).passed := by
    rw [hrec]
    exact .flags (passed_wf hw hz) rfl rfl rfl rfl
  obtain ⟨hn₂, he₂⟩ := hn₁.become (p := (s₁.mproc c).passed)
    (s₁.setFlags c fun f => { f with traceZombie := false, zombie := true })
    (by rw [hrec]; exact hc) id hq rfl rfl rfl rfl
  rw [hok, yields_ok]
  exact ⟨hn₂, he₁.trans he₂, by simp [Mproc.passed, hrec]⟩

/-! ## Leaving the table -/

theorem cleanup_mproc (c d : Slot n) : (cleanup c s).mproc d =
    if d = c then { s.mproc c with pid := 0, flags := {}, childUtime := 0, childStime := 0 }
    else s.mproc d := by
  simp [cleanup]

/-- **A SLOT IS RELEASED** only by a process that was reported and that VFS is
    done with; nobody has it as parent or tracer then. -/
theorem cleanup_near (h : Near E D c s) (hc : (s.mproc c).flags.inUse = true)
    (ht : (s.mproc c).flags.toldParent = true) (hv : (s.mproc c).flags.vfsCall = false) :
    Near E D c (cleanup c s) ∧ Evolves E s (cleanup c s) ∧
      ((cleanup c s).mproc c).flags.inUse = false := by
  obtain ⟨hx, -⟩ := (h.base.wf c hc).told ht
  have hfree : ¬Held D s.mproc c := by
    rintro ⟨-, hD⟩
    rw [(h.base.busy c (hD hx)).2.2] at hv
    cases hv
  have hne : ∀ d, d ≠ c → (cleanup c s).mproc d = s.mproc d := by
    intro d hd
    rw [cleanup_mproc, if_neg hd]
  have hgone : ((cleanup c s).mproc c).flags = {} := by rw [cleanup_mproc, if_pos rfl]
  have hcount : (cleanup c s).procsInUse = used (cleanup c s).mproc := by
    have hfill : used s.mproc = used (cleanup c s).mproc + 1 :=
      used_fill (by rw [hgone]) hc fun d hd => (hne d hd).symm
    change s.procsInUse - 1 = _
    rw [h.base.count, hfill]
    omega
  have hmoved : ∀ d, Moved E (s.mproc d) ((cleanup c s).mproc d) := by
    intro d
    by_cases hd : d = c
    · rw [hd, cleanup_mproc, if_pos rfl]
      exact
        { inUse := fun hu => by cases hu
          exiting := fun hu => by cases hu
          vfsCall := fun hv' => by rw [hv] at hv'; cases hv'
          settled := fun hu => by cases hu
          parent := .inl rfl
          tracer := .inl rfl
          pid := fun hu => by cases hu }
    · rw [hne d hd]; exact .refl _
  refine ⟨h.replace hfree hne hcount (fun hu => ?_) fun _ => hgone,
    ⟨hmoved, .mark rfl (fun _ => ?_) fun d hd => by rw [hne d hd]⟩,
    by rw [hgone]⟩
  · rw [hgone] at hu
    cases hu
  · simp [Mproc.life, hgone, hc, hx, ht, hv, Life.next]

/-! ## Notifying parents -/

/-- How many processes are live. -/
def liveCount (t : Slot n → Mproc n) : Nat := (Finset.univ.filter fun c => (t c).live = true).card

theorem live_of_moved {p q : Mproc n} (h : Moved E p q) (hq : q.live = true) : p.live = true := by
  rw [Mproc.live_iff] at hq ⊢
  refine ⟨h.inUse hq.1, ?_⟩
  cases hp : p.flags.exiting with
  | false => rfl
  | true => rw [h.exiting hq.1 hp] at hq; cases hq.2

theorem Evolves.liveCount (h : Evolves E s s') : liveCount s'.mproc ≤ liveCount s.mproc := by
  refine Finset.card_le_card fun c hc => ?_
  simp only [Finset.mem_filter, Finset.mem_univ, true_and] at hc ⊢
  exact live_of_moved (h.moved c) hc

/-- What a handler relies on when it sends a signal to a live process of a
    table with at most `k` of them. -/
structure SigOk (E : Env n) (k : Nat) (sig : Slot n → Signal → Act n) : Prop where
  yields : ∀ D s c g, Sound E D s → liveCount s.mproc ≤ k → c ≠ 0 → (s.mproc c).live = true →
    Yields Panic.Outside (sig c g s) fun s' => Sound E D s' ∧ Evolves E s s'

variable {k : Nat} {sig : Slot n → Signal → Act n}

/-- A death the parent knows of leaves only VFS to wait for. -/
theorem tended_told (hw : Wf (s.mproc c)) (ht : (s.mproc c).flags.toldParent = true)
    (hv : (s.mproc c).flags.vfsCall = true) : Tended s.mproc c where
  told _ := hv
  known _ := .inr (.inl ht)
  alive hx := by
    rw [(hw.told ht).1] at hx
    cases hx
  parent hz := by
    rw [(hw.zombie hz).2.1] at ht
    cases ht
  tracer hz := by
    rw [(hw.told ht).2] at hz
    cases hz

/-- A zombie nobody waits for is left alone. -/
theorem tended_zombie (hw : Wf (s.mproc c)) (hz : (s.mproc c).flags.zombie = true)
    (hwait : waitTest (s.mproc (s.mproc c).parent) (s.mproc c) = false) : Tended s.mproc c where
  told ht := by
    rw [(hw.zombie hz).2.1] at ht
    cases ht
  known _ := .inl hz
  alive hx := by
    rw [(hw.zombie hz).1] at hx
    cases hx
  parent _ := hwait
  tracer ht := by
    rw [(hw.zombie hz).2.2] at ht
    cases ht

/-- So is one kept for a tracer that does not wait. -/
theorem tended_traced (hw : Wf (s.mproc c)) (hz : (s.mproc c).flags.traceZombie = true)
    (hwait : waitTest (s.mproc (s.mproc c).tracer) (s.mproc c) = false) : Tended s.mproc c where
  told ht := by
    rw [(hw.told ht).2] at hz
    cases hz
  known _ := .inr (.inr (.inl hz))
  alive hx := by
    rw [(hw.traced hz).1] at hx
    cases hx
  parent hp := by
    rw [(hw.zombie hp).2.2] at hz
    cases hz
  tracer _ := hwait

/-- **`check_parent`** tells the parent of a zombie if it waits.  What is left
    to do is at most the release of the slot, where the caller said it would
    see to that. -/
theorem checkParent_yields (hsig : SigOk E k sig) {again : Bool} (h : Near E D c s)
    (hk : liveCount s.mproc ≤ k) (hc : (s.mproc c).flags.inUse = true)
    (hz : (s.mproc c).flags.zombie = true) :
    Yields Panic.Outside (checkParent sig c again s) fun s' =>
      Near E D c s' ∧ Evolves E s s' ∧ ((s'.mproc c).flags.inUse = true →
        Tended s'.mproc c ∨ again = false ∧ (s'.mproc c).flags.toldParent = true ∧
          (s'.mproc c).flags.vfsCall = false) := by
  have hw := h.base.wf c hc
  have hl := h.base.linked c hc
  simp only [checkParent]
  split
  · rename_i hx
    rw [yields_ok]
    exact ⟨h, .refl s, fun _ =>
      .inl (tended_zombie hw hz (waitTest_idle ((h.base.wf _ hl.parent.1).waiting hx)))⟩
  · rename_i hx
    split
    · refine yields_bind.mpr (yields_mono (tellParent_yields h hc hz) ?_)
      rintro s₁ ⟨hn, he, hrec⟩
      have hu : (s₁.mproc c).flags.inUse = true := by rw [hrec]; exact hc
      have ht : (s₁.mproc c).flags.toldParent = true := by rw [hrec]; rfl
      cases hv : (s₁.mproc c).flags.vfsCall with
      | true =>
          simp only [Bool.not_true, Bool.and_false, Bool.false_eq_true, if_false, yields_ok]
          exact ⟨hn, he, fun _ => .inl (tended_told (hn.base.wf c hu) ht hv)⟩
      | false =>
          cases again with
          | false =>
              simp only [Bool.false_and, Bool.false_eq_true, if_false, yields_ok]
              exact ⟨hn, he, fun _ => .inr ⟨trivial, ht, hv⟩⟩
          | true =>
              simp only [Bool.not_false, Bool.and_self, if_true, yields_ok]
              obtain ⟨hn', he', hgone⟩ := cleanup_near hn hu ht hv
              refine ⟨hn', he.trans he', fun hu' => ?_⟩
              rw [hgone] at hu'; cases hu'
    · rename_i hwait
      have hs : Sound E D s := h.sound fun _ => tended_zombie hw hz (by simpa using hwait)
      have hlive : (s.mproc (s.mproc c).parent).live = true :=
        Mproc.live_iff.mpr ⟨hl.parent.1, by simpa using hx⟩
      refine yields_mono (hsig.yields D s _ .sigchld hs hk hw.parent hlive) ?_
      rintro s' ⟨hs', he⟩
      exact ⟨hs'.near c, he, fun hu => .inl (hs'.tended c hu)⟩

/-- What can be left over at `c` for the caller to see to: the release of its
    slot. -/
def Left (s : Pm n) (c : Slot n) : Prop :=
  (s.mproc c).flags.inUse = true → Tended s.mproc c ∨
    (s.mproc c).flags.toldParent = true ∧ (s.mproc c).flags.vfsCall = false

/-- **`zombify`** lets the tracer know first, then the parent. -/
theorem zombify_yields (hsig : SigOk E k sig) (h : Near E D c s)
    (hk : liveCount s.mproc ≤ k) (hc : (s.mproc c).flags.inUse = true)
    (hx : (s.mproc c).flags.exiting = true) (hz : (s.mproc c).flags.zombie = false)
    (ht : (s.mproc c).flags.toldParent = false) (hzt : (s.mproc c).flags.traceZombie = false)
    (hm : (s.mproc c).ending ≠ some true) :
    Yields Panic.Outside (zombify sig c s) fun s' =>
      Near E D c s' ∧ Evolves E s s' ∧ Left s' c := by
  have hw := h.base.wf c hc
  simp only [zombify, hz, hzt, Bool.or_self, Bool.false_eq_true, if_false]
  split
  · rename_i htr
    let p : Mproc n := { s.mproc c with flags := { (s.mproc c).flags with traceZombie := true } }
    let s₁ := s.setFlags c fun f => { f with traceZombie := true }
    have hwp : Wf p :=
      { hw with
        zombie := fun hf => by rw [show p.flags.zombie = false from hz] at hf; cases hf
        told := fun hf => by rw [show p.flags.toldParent = false from ht] at hf; cases hf
        traced := fun _ => ⟨hx, htr.1⟩
        dumping := fun _ hf => absurd hf hm }
    obtain ⟨hn₁, he₁⟩ := h.become (p := p) s₁ hc (fun _ => hx) (.flags hwp rfl rfl rfl rfl)
      rfl rfl rfl rfl
    have hrec : s₁.mproc c = p := by simp [s₁, p]
    have hk₁ : liveCount s₁.mproc ≤ k := Nat.le_trans he₁.liveCount hk
    split
    · rename_i hidle
      have hwait : waitTest (s₁.mproc (s₁.mproc c).tracer) (s₁.mproc c) = false := by
        rw [show (s₁.mproc c).tracer = (s.mproc c).tracer by rw [hrec]]
        simpa [s₁] using hidle
      rw [yields_ok]
      exact ⟨hn₁, he₁, fun hu => .inl (tended_traced (hn₁.base.wf c hu) (by rw [hrec]) hwait)⟩
    · refine yields_bind.mpr (yields_mono
        (tellTracer_yields hn₁ (by rw [hrec]; exact hc) (by rw [hrec])) ?_)
      rintro s₂ ⟨hn₂, he₂, hrec₂⟩
      refine yields_mono (checkParent_yields hsig hn₂ (Nat.le_trans he₂.liveCount hk₁)
        (by rw [hrec₂, hrec]; exact hc) (by rw [hrec₂]; rfl)) ?_
      rintro s' ⟨hn', he', hleft⟩
      exact ⟨hn', he₁.trans (he₂.trans he'), fun hu => (hleft hu).imp_right And.right⟩
  · let p : Mproc n := { s.mproc c with flags := { (s.mproc c).flags with zombie := true } }
    let s₁ := s.setFlags c fun f => { f with zombie := true }
    have hwp : Wf p :=
      { hw with
        zombie := fun _ => ⟨hx, ht, hzt⟩
        told := fun hf => by rw [show p.flags.toldParent = false from ht] at hf; cases hf
        traced := fun hf => by rw [show p.flags.traceZombie = false from hzt] at hf; cases hf
        dumping := fun _ hf => absurd hf hm }
    obtain ⟨hn₁, he₁⟩ := h.become (p := p) s₁ hc (fun _ => hx) (.flags hwp rfl rfl rfl rfl)
      rfl rfl rfl rfl
    have hrec : s₁.mproc c = p := by simp [s₁, p]
    refine yields_mono (checkParent_yields hsig hn₁ (Nat.le_trans he₁.liveCount hk)
      (by rw [hrec]; exact hc) (by rw [hrec])) ?_
    rintro s' ⟨hn', he', hleft⟩
    exact ⟨hn', he₁.trans he', fun hu => (hleft hu).imp_right And.right⟩

/-- A wait for a zombie that may be cleaned up at once leaves nothing. -/
theorem checkParent_sound (hsig : SigOk E k sig) (h : Near E D c s)
    (hk : liveCount s.mproc ≤ k) (hc : (s.mproc c).flags.inUse = true)
    (hz : (s.mproc c).flags.zombie = true) :
    Yields Panic.Outside (checkParent sig c true s) fun s' => Sound E D s' ∧ Evolves E s s' := by
  refine yields_mono (checkParent_yields hsig h hk hc hz) ?_
  rintro s' ⟨hn, he, hleft⟩
  exact ⟨hn.sound fun hu => (hleft hu).resolve_right (by simp), he⟩

/-! ## Losing a tracer -/

/-- Losing a tracer that waits for no news is a touch. -/
theorem touch_untraced {p : Mproc n} (hz : p.flags.traceZombie = false) : Touch p p.untraced where
  wf hp :=
    { hp with
      traced := fun hf => by rw [show p.untraced.flags.traceZombie = false from hz] at hf; cases hf
      traceExit := fun hf => by cases hf }
  inUse := rfl
  exiting := rfl
  zombie := rfl
  told := rfl
  traced := rfl
  vfsCall := .inl rfl
  waiting hw := hw
  endpoint := rfl
  pid := rfl
  procgrp := .inl rfl
  wpid := rfl
  parent := rfl
  tracer := .inr ⟨hz, rfl⟩
  exitStatus := rfl
  sigStatus := .inl rfl
  ending := .inl rfl

theorem tracerDied_eq : tracerDied sig c s =
    if (s.mproc c).flags.exiting = false then sig c .sigkill (s.modify c Mproc.untraced)
    else if (s.mproc c).flags.traceZombie = true then
      checkParent sig c true ((s.modify c Mproc.untraced).setFlags c fun f =>
        { f with traceZombie := false, zombie := true })
    else .ok (s.modify c Mproc.untraced) := by
  have hrec : (s.modify c Mproc.untraced).mproc c = (s.mproc c).untraced := by simp
  have hx : ((s.modify c Mproc.untraced).mproc c).flags.exiting = (s.mproc c).flags.exiting := by
    rw [hrec]; rfl
  have hz : ((s.modify c Mproc.untraced).mproc c).flags.traceZombie =
      (s.mproc c).flags.traceZombie := by
    rw [hrec]; rfl
  rw [← hx, ← hz]
  simp only [tracerDied, Bool.not_eq_true']

/-- A zombie its dead tracer had not asked for becomes an ordinary one. -/
theorem handBack_near (h : Sound E D s) (hc : (s.mproc c).flags.inUse = true)
    (hz : (s.mproc c).flags.traceZombie = true) :
    Near E D c ((s.modify c Mproc.untraced).setFlags c fun f =>
        { f with traceZombie := false, zombie := true }) ∧
      Evolves E s ((s.modify c Mproc.untraced).setFlags c fun f =>
        { f with traceZombie := false, zombie := true }) := by
  have hw := h.base.wf c hc
  have hwp : Wf (s.mproc c).untraced.passed :=
    { passed_wf hw hz with
      traced := fun hf => by cases hf
      traceExit := fun hf => by cases hf }
  have hq : Change E (s.mproc c) (s.mproc c).untraced.passed :=
    { wf := hwp, inUse := rfl, exiting := fun hx => hx, endpoint := rfl, pid := rfl
      parent := .inl rfl, vfsCall := fun hv => hv, settled := fun _ hv => hv
      waiting := fun hf => hf, wpid := rfl, tracer := .inr rfl }
  refine (h.near c).become (p := (s.mproc c).untraced.passed) _ hc (fun hx => hx) hq ?_ rfl rfl rfl
  funext d
  by_cases hd : d = c
  · simp [hd, Mproc.passed]
  · simp [hd]

/-- **`tracer_died`** kills a live process and makes an ordinary zombie of one
    its tracer had not asked for. -/
theorem tracerDied_yields (hsig : SigOk E k sig) (h : Sound E D s)
    (hk : liveCount s.mproc ≤ k) (hc : (s.mproc c).flags.inUse = true) (h0 : c ≠ 0) :
    Yields Panic.Outside (tracerDied sig c s) fun s' =>
      Sound E D s' ∧ Evolves E s s' ∧ (s'.mproc c).tracer = 0 := by
  have hw := h.base.wf c hc
  have hrec : (s.modify c Mproc.untraced).mproc c = (s.mproc c).untraced := by simp
  have hstays : ∀ {s₁ s' : Pm n}, Evolves E s₁ s' → (s₁.mproc c).tracer = 0 →
      (s'.mproc c).tracer = 0 := by
    intro s₁ s' he ht
    rcases (he.moved c).tracer with htr | htr
    · exact htr.trans ht
    · exact htr
  rw [tracerDied_eq]
  split
  · rename_i hx
    have hz : (s.mproc c).flags.traceZombie = false := by
      by_contra hz
      rw [(hw.traced (by simpa using hz)).1] at hx
      cases hx
    obtain ⟨hs₁, he₁⟩ := h.modify Mproc.untraced hc (touch_untraced hz)
    refine yields_mono (hsig.yields D _ c .sigkill hs₁ (Nat.le_trans he₁.liveCount hk) h0
      (Mproc.live_iff.mpr (by rw [hrec]; exact ⟨hc, hx⟩))) ?_
    rintro s' ⟨hs', he'⟩
    exact ⟨hs', he₁.trans he', hstays he' (by rw [hrec]; rfl)⟩
  · split
    · rename_i hz
      obtain ⟨hn₂, he₂⟩ := handBack_near h hc hz
      refine yields_mono (checkParent_sound hsig hn₂ (Nat.le_trans he₂.liveCount hk)
        (by simpa [Mproc.untraced] using hc) (by simp)) ?_
      rintro s' ⟨hs', he'⟩
      exact ⟨hs', he₂.trans he', hstays he' (by simp [Mproc.untraced])⟩
    · rename_i hz
      obtain ⟨hs₁, he₁⟩ := h.modify Mproc.untraced hc (touch_untraced (by simpa using hz))
      rw [yields_ok]
      exact ⟨hs₁, he₁, by rw [hrec]; rfl⟩

end OsForkExit
