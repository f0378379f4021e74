import OsLab.ForkExitProofs

/-! # The calls keep the table

    The second half of an exit, which VFS's answer sets going, and the calls
    `fork`, `srv_fork`, `exit` and `waitpid` keep `Sound`, and with them every
    turn of PM's main loop (`step_yields`). -/

namespace OsForkExit

open OsLoop OsOutcome

variable {n : Nat} {E : Env n} {D : Slot n → Prop} {s s' s₁ : Pm n} {c d : Slot n}
variable {k : Nat} {sig : Slot n → Signal → Act n}

/-- Between two events no process is busy with its children. -/
def Nobody (_ : Slot n) : Prop := False

theorem liveCount_le (t : Slot n → Mproc n) : liveCount t ≤ n + 1 := by
  have hle := Finset.card_le_univ (Finset.univ.filter fun c => (t c).live = true)
  simpa [liveCount] using hle

/-! ## The second half of an exit -/

theorem touch_scheduler (p : Mproc n) : Touch p { p with scheduler := none } where
  wf hp := { hp with scheduler := fun _ => rfl }
  inUse := rfl
  exiting := rfl
  zombie := rfl
  told := rfl
  traced := rfl
  vfsCall := .inl rfl
  waiting hw := hw
  endpoint := rfl
  pid := rfl
  procgrp := .inl rfl
  wpid := rfl
  parent := rfl
  tracer := .inl rfl
  exitStatus := rfl
  sigStatus := .inl rfl
  ending := .inl rfl

theorem settled_alter {core : Bool} {p : Mproc n} (h : Wf p) : Alter E p (p.settled core) where
  wf :=
    { h with
      mail := rfl
      lastMail := fun _ hf => by cases hf
      dumping := fun _ hf => by cases hf }
  inUse := rfl
  exiting hx := hx
  endpoint := rfl
  pid := rfl
  parent := .inl rfl

/-- VFS lets go of an exiting process. -/
theorem settle_near (core : Bool) (h : Sound E Nobody s) (hc : (s.mproc c).flags.inUse = true)
    (hx : (s.mproc c).flags.exiting = true) (hv : (s.mproc c).flags.vfsCall = true)
    (hto : core = true → (s.mproc c).flags.toldParent = false) :
    Near E Nobody c ((s.modify c (Mproc.settled core)).emit (.life c (.settled core))) ∧
      Follows E s ((s.modify c (Mproc.settled core)).emit (.life c (.settled core))) := by
  have hw := h.base.wf c hc
  have hrec : ((s.modify c (Mproc.settled core)).emit (.life c (.settled core))).mproc c =
      (s.mproc c).settled core := by simp
  have hne : ∀ d, d ≠ c →
      ((s.modify c (Mproc.settled core)).emit (.life c (.settled core))).mproc d =
        s.mproc d := by
    intro d hd
    simp [hd]
  refine ⟨⟨?_, fun d hd hu => ?_⟩, .mark rfl (fun _ => ?_) fun d hd => by rw [hne d hd]⟩
  · refine h.base.alter hc ?_ hne rfl False.elim (.inl (by rw [hrec]; rfl)) (fun _ hd => hd)
      (fun _ hd => .inl hd) fun _ => .inl hx
    rw [hrec]
    exact settled_alter hw
  · rw [hne d hd] at hu
    refine (h.tended d hu).change hd ?_ ?_ hne
    · rw [hrec]; exact fun hf => hf
    · rw [hrec]; rfl
  · have hcore : (core && (s.mproc c).flags.toldParent) = false := by
      cases core with
      | false => rfl
      | true => rw [hto rfl]; rfl
    rw [hrec]
    simp [Mproc.life, Mproc.settled, hc, hx, hv, Life.next, hcore]

/-- Between two events what may be a parent or a tracer is live. -/
theorem Held.live {t : Slot n → Mproc n} (h : Held Nobody t c) : (t c).live = true :=
  Mproc.live_iff.mpr ⟨h.1, by simpa [Nobody] using h.2⟩

/-- The end of `exit_restart`: the slot is released if the parent knows. -/
theorem restart_end (h : Near E Nobody c s) (hleft : Left s c)
    (hv : (s.mproc c).flags.inUse = true → (s.mproc c).flags.vfsCall = false) :
    Sound E Nobody (if (s.mproc c).flags.toldParent then cleanup c s else s) ∧
      Evolves E s (if (s.mproc c).flags.toldParent then cleanup c s else s) := by
  cases ht : (s.mproc c).flags.toldParent with
  | false =>
      simp only [Bool.false_eq_true, if_false]
      refine ⟨h.sound fun hu => (hleft hu).resolve_right ?_, .refl s⟩
      rintro ⟨ht', -⟩
      rw [ht] at ht'; cases ht'
  | true =>
      have hc : (s.mproc c).flags.inUse = true :=
        h.base.inUse fun hf => by rw [hf] at ht; cases ht
      obtain ⟨hn, he, hgone⟩ := cleanup_near h hc ht (hv hc)
      simp only [if_true]
      exact ⟨hn.sound fun hu => absurd hu (by rw [hgone]; simp), he⟩

/-- The mail of a process VFS is not busy with. -/
theorem Wf.mail_none {p : Mproc n} (h : Wf p) (hv : p.flags.vfsCall = false) : p.mail = none := by
  have hm := h.mail
  rw [hv] at hm
  simpa using hm.symm

/-- The tracer that asked for an exit is woken. -/
theorem traceExit_near (h : Near E Nobody c s) (htx : (s.mproc c).flags.traceExit = true)
    (hleft : Left s c) :
    Near E Nobody c (reply (s.mproc c).tracer (.value 0)
        (s.modify (s.mproc c).tracer fun p => { p with replyData := 0 })) ∧
      Evolves E s (reply (s.mproc c).tracer (.value 0)
        (s.modify (s.mproc c).tracer fun p => { p with replyData := 0 })) ∧
      Left (reply (s.mproc c).tracer (.value 0)
        (s.modify (s.mproc c).tracer fun p => { p with replyData := 0 })) c ∧
      (reply (s.mproc c).tracer (.value 0)
        (s.modify (s.mproc c).tracer fun p => { p with replyData := 0 })).mproc c =
          s.mproc c := by
  have hu : (s.mproc c).flags.inUse = true :=
    h.base.inUse fun hf => by rw [hf] at htx; cases htx
  have h0 := (h.base.wf c hu).traceExit htx
  have hl := h.base.linked c hu
  let s₁ := s.modify (s.mproc c).tracer fun p => { p with replyData := 0 }
  have hne : ∀ d, d ≠ (s.mproc c).tracer → s₁.mproc d = s.mproc d := by
    intro d hd
    simp [s₁, hd]
  have ht : Touch (s.mproc (s.mproc c).tracer) (s₁.mproc (s.mproc c).tracer) :=
    .of_core (by simp [s₁, Mproc.core])
  have hc : s₁.mproc c = s.mproc c := hne c (hl.tracerSelf h0).symm
  have hn₁ : Near E Nobody c s₁ := h.touch (hl.tracer h0).1 ht hne rfl
  have he₁ : Evolves E s s₁ := .touch h.base (hl.tracer h0).1 ht hne rfl
  refine ⟨hn₁.emit _, he₁.trans (.emit _ fun _ => rfl), fun hu' => ?_, hc⟩
  refine (hleft hu).imp (ht.tended (h.base.wf _ (hl.tracer h0).1) hne) fun hto => ?_
  rw [mproc_reply, hc]
  exact hto

/-- **`exit_restart`** -/
theorem exitRestart_yields (hsig : SigOk E k sig) {b : Bool} (h : Near E Nobody c s)
    (hk : liveCount s.mproc ≤ k) (hc : (s.mproc c).flags.inUse = true)
    (hx : (s.mproc c).flags.exiting = true) (hv : (s.mproc c).flags.vfsCall = false)
    (hleft : b = false → Left s c)
    (hdump : b = true → (s.mproc c).flags.zombie = false ∧
      (s.mproc c).flags.toldParent = false ∧ (s.mproc c).flags.traceZombie = false) :
    Yields Panic.Outside (exitRestart E sig c b s) fun s' =>
      Sound E Nobody s' ∧ Evolves E s s' := by
  unfold exitRestart
  extract_lets s₁
  have hw := h.base.wf c hc
  have hrec : s₁.mproc c = { s.mproc c with scheduler := none } := by simp [s₁]
  have hne : ∀ d, d ≠ c → s₁.mproc d = s.mproc d := by
    intro d hd
    simp [s₁, hd]
  have ht : Touch (s.mproc c) (s₁.mproc c) := by rw [hrec]; exact touch_scheduler _
  have hn₁ : Near E Nobody c s₁ := h.touch hc ht hne rfl
  have he₁ : Evolves E s s₁ := .touch h.base hc ht hne rfl
  have hm : (s.mproc c).mail = none := hw.mail_none hv
  have hfirst : Yields Panic.Outside (if b then zombify sig c s₁ else .ok s₁) fun s' =>
      Near E Nobody c s' ∧ Evolves E s₁ s' ∧ Left s' c := by
    cases b with
    | true =>
        obtain ⟨hz, hto, hzt⟩ := hdump rfl
        exact zombify_yields hsig hn₁ (Nat.le_trans he₁.liveCount hk) (by rw [hrec]; exact hc)
          (by rw [hrec]; exact hx) (by rw [hrec]; exact hz) (by rw [hrec]; exact hto)
          (by rw [hrec]; exact hzt) (by rw [hrec]; simp [Mproc.ending, hm])
    | false =>
        simp only [Bool.false_eq_true, if_false, yields_ok]
        refine ⟨hn₁, .refl s₁, fun _ => (hleft rfl hc).imp (ht.tended hw hne) fun hto => ?_⟩
        rw [hrec]; exact hto
  refine yields_bind.mpr (yields_mono hfirst ?_)
  rintro s₂ ⟨hn₂, he₂, hleft₂⟩
  refine yields_bind.mpr (yields_mono (require_yields trivial (Q := fun s => s₂ = s) rfl) ?_)
  rintro _ rfl
  refine yields_bind.mpr (yields_mono (require_yields trivial (Q := fun s => s₂ = s) rfl) ?_)
  rintro _ rfl
  have he : Evolves E s s₂ := he₁.trans he₂
  have hv₂ : (s₂.mproc c).flags.inUse = true → (s₂.mproc c).flags.vfsCall = false := by
    intro hu
    cases hv' : (s₂.mproc c).flags.vfsCall with
    | false => rfl
    | true => rw [(he.moved c).settled hu hx hv'] at hv; cases hv
  extract_lets s₃
  rw [yields_ok]
  by_cases htx : (s₂.mproc c).flags.traceExit = true
  · obtain ⟨hn₃, he₃, hleft₃, hc₃⟩ := traceExit_near hn₂ htx hleft₂
    have hs₃ : s₃ = reply (s₂.mproc c).tracer (.value 0)
        (s₂.modify (s₂.mproc c).tracer fun p => { p with replyData := 0 }) := if_pos htx
    rw [← hs₃] at hn₃ he₃ hleft₃ hc₃
    obtain ⟨hs', he'⟩ := restart_end hn₃ hleft₃ (by rw [hc₃]; exact hv₂)
    exact ⟨hs', he.trans (he₃.trans he')⟩
  · have hs₃ : s₃ = s₂ := if_neg htx
    rw [hs₃]
    obtain ⟨hs', he'⟩ := restart_end hn₂ hleft₂ hv₂
    exact ⟨hs', he.trans he'⟩

/-! ## VFS answers -/

/-- A change of a live process leaves nothing to be done. -/
theorem live_sound (s' : Pm n) (h : Sound E Nobody s) (hlive : (s.mproc c).live = true)
    (hq : Alter E (s.mproc c) (s'.mproc c)) (hx : (s'.mproc c).flags.exiting = false)
    (hparent : (s'.mproc c).parent = (s.mproc c).parent)
    (htracer : (s'.mproc c).tracer = (s.mproc c).tracer ∨ (s'.mproc c).tracer = 0 ∨
      c ≠ 0 ∧ (s'.mproc c).tracer ≠ c ∧ (s.mproc (s'.mproc c).tracer).live = true)
    (hend : (s'.mproc c).ending = none)
    (hw : (s'.mproc c).flags.waiting = true → (s.mproc c).flags.waiting = true)
    (hwpid : (s'.mproc c).wpid = (s.mproc c).wpid) (hne : ∀ d, d ≠ c → s'.mproc d = s.mproc d)
    (hcount : s'.procsInUse = s.procsInUse) (hlog : s'.log = s.log) :
    Sound E Nobody s' ∧ Follows E s s' := by
  rw [Mproc.live_iff] at hlive
  refine ⟨⟨h.base.alter hlive.1 hq hne hcount False.elim htracer (fun _ hd => hd)
    (fun _ hd => .inl hd) fun hx' => ?_, fun d hu => ?_⟩, .still hlog fun d => ?_⟩
  · rw [hx] at hx'; cases hx'
  · by_cases hd : d = c
    · rw [hd]; exact .of_live hq.wf hx hend
    · rw [hne d hd] at hu
      exact (h.tended d hu).change hd hw hwpid hne
  · by_cases hd : d = c
    · rw [hd, Mproc.life_live (Mproc.live_iff.mpr ⟨hq.inUse.trans hlive.1, hx⟩),
        Mproc.life_live (Mproc.live_iff.mpr hlive), hq.pid, hparent]
    · rw [hne d hd]

/-- VFS lets go of a live process. -/
theorem settle_live (h : Sound E Nobody s) (hlive : (s.mproc c).live = true) :
    Sound E Nobody (s.modify c (Mproc.settled false)) ∧
      Follows E s (s.modify c (Mproc.settled false)) ∧
      Ready (s.modify c (Mproc.settled false)) c := by
  obtain ⟨hu, hx⟩ := Mproc.live_iff.mp hlive
  have hrec : (s.modify c (Mproc.settled false)).mproc c = (s.mproc c).settled false := by simp
  have hq : Alter E (s.mproc c) ((s.modify c (Mproc.settled false)).mproc c) := by
    rw [hrec]; exact settled_alter (h.base.wf c hu)
  obtain ⟨hs, hf⟩ := live_sound (s.modify c (Mproc.settled false)) h hlive hq
    (by rw [hrec]; exact hx) (by rw [hrec]; rfl) (.inl (by rw [hrec]; rfl)) (by rw [hrec]; rfl)
    (by rw [hrec]; exact fun hf => hf) (by rw [hrec]; rfl) (fun d hd => by simp [hd]) rfl rfl
  refine ⟨hs, hf, ?_, ?_⟩
  · rw [hrec]; exact hlive
  · rw [hrec]; rfl

/-- A process VFS has let go of is left to its parent, or to be released. -/
theorem settled_left (h : Sound E Nobody s) (hc : (s.mproc c).flags.inUse = true)
    (hx : (s.mproc c).flags.exiting = true) (hb : (s.mproc c).ending = some false) :
    Left ((s.modify c (Mproc.settled false)).emit (.life c (.settled false))) c := by
  have hw := h.base.wf c hc
  have hl := h.base.linked c hc
  have ht := h.tended c hc
  let s₁ := (s.modify c (Mproc.settled false)).emit (.life c (.settled false))
  have hrec : s₁.mproc c = (s.mproc c).settled false := by simp [s₁]
  have hne : ∀ d, d ≠ c → s₁.mproc d = s.mproc d := by
    intro d hd
    simp [s₁, hd]
  have hw₁ : Wf (s₁.mproc c) := by
    rw [hrec]; exact (settled_alter (E := E) hw).wf
  intro _
  rcases ht.known hx with hz | hto | hz | hd
  · refine .inl (tended_zombie hw₁ (by rw [hrec]; exact hz) ?_)
    rw [hrec, show ((s.mproc c).settled false).parent = (s.mproc c).parent from rfl,
      hne _ (h.base.parent_ne hc hx)]
    exact ht.parent hz
  · exact .inr ⟨by rw [hrec]; exact hto, by rw [hrec]; rfl⟩
  · refine .inl (tended_traced hw₁ (by rw [hrec]; exact hz) ?_)
    rw [hrec, show ((s.mproc c).settled false).tracer = (s.mproc c).tracer from rfl,
      hne _ (hl.tracerSelf (hw.traced hz).2)]
    exact ht.tracer hz
  · rw [hb] at hd
    cases hd

/-- Waking processes changes no record. -/
theorem wakes_sound (wakes : List (Slot n × Answer)) : ∀ {s : Pm n}, Sound E Nobody s →
    Sound E Nobody (wakes.foldl (fun s x => reply x.1 x.2 s) s) ∧
      Follows E s (wakes.foldl (fun s x => reply x.1 x.2 s) s) := by
  induction wakes with
  | nil => intro s h; exact ⟨h, .refl s⟩
  | cons x wakes ih =>
      intro s h
      obtain ⟨hs, hf⟩ := ih (s := reply x.1 x.2 s) (h.emit _)
      have hsent : Follows E s (reply x.1 x.2 s) := .emit _ fun _ => rfl
      exact ⟨hs, hsent.trans hf⟩

/-- How PM goes on after an answer about a live process. -/
theorem goOn_yields (hsig : SigOk E (n + 1) sig) {r : Resume n} (h : Sound E Nobody s)
    (hr : Ready s c) (hpm : c = 0 → r.ends = none) :
    Yields Panic.Outside (goOn E sig c r s) fun s' => Sound E Nobody s' ∧ Follows E s s' := by
  have hwake : ∀ s₁, Sound E Nobody s₁ ∧ Follows E s s₁ →
      Yields Panic.Outside (.ok (r.wakes.foldl (fun s x => reply x.1 x.2 s) s₁)) fun s' =>
        Sound E Nobody s' ∧ Follows E s s' := by
    rintro s₁ ⟨hs₁, hf₁⟩
    obtain ⟨hs₂, hf₂⟩ := wakes_sound r.wakes hs₁
    rw [yields_ok]
    exact ⟨hs₂, hf₁.trans hf₂⟩
  unfold goOn
  refine yields_bind.mpr ?_
  cases hends : r.ends with
  | none =>
      rw [yields_ok]
      exact hwake s ⟨h, .refl s⟩
  | some status =>
      have h0 : c ≠ 0 := by
        intro hc
        rw [hpm hc] at hends
        cases hends
      refine yields_mono
        (exitProc_yields hsig h (Nat.le_succ_of_le (liveCount_le _)) h0 hr) ?_
      rintro s₁ ⟨hs₁, he₁⟩
      exact hwake s₁ ⟨hs₁, he₁.follows⟩

/-- **VFS'S ANSWER** ends a request, and an exit's goes on with it. -/
theorem vfsReply_yields (hsig : SigOk E (n + 1) sig) {core : Bool} (h : Sound E Nobody s)
    (hv : (s.mproc c).flags.vfsCall = true) :
    Yields Panic.Outside (vfsReply E sig c core s) fun s' =>
      Sound E Nobody s' ∧ Follows E s s' := by
  have hc : (s.mproc c).flags.inUse = true :=
    h.base.inUse fun hf => by rw [hf] at hv; cases hv
  have hw := h.base.wf c hc
  have ht := h.tended c hc
  have hrestart : ∀ {b core : Bool}, (s.mproc c).flags.exiting = true →
      (s.mproc c).ending = some b → (core = true → b = true) →
      Yields Panic.Outside (exitRestart E sig c b
        ((s.modify c (Mproc.settled core)).emit (.life c (.settled core)))) fun s' =>
          Sound E Nobody s' ∧ Follows E s s' := by
    intro b core hx hb hcore
    have hdump : b = true → (s.mproc c).flags.zombie = false ∧
        (s.mproc c).flags.toldParent = false ∧ (s.mproc c).flags.traceZombie = false := by
      rintro rfl
      exact hw.dumping hx hb
    obtain ⟨hn, hf⟩ := settle_near core h hc hx hv fun hcr => (hdump (hcore hcr)).2.1
    have hrec : ((s.modify c (Mproc.settled core)).emit (.life c (.settled core))).mproc c =
        (s.mproc c).settled core := by simp
    refine yields_mono (exitRestart_yields hsig hn (liveCount_le _) (by rw [hrec]; exact hc)
      (by rw [hrec]; exact hx) (by rw [hrec]; rfl) ?_ (by rw [hrec]; exact hdump)) ?_
    · rintro rfl
      have hno : core = false := by
        by_contra hcr
        cases hcore (by simpa using hcr)
      rw [hno]
      exact settled_left h hc hx hb
    · rintro s' ⟨hs', he⟩
      exact ⟨hs', hf.trans he.follows⟩
  -- VFS owes an exiting process the answer to its exit, a live one another one.
  have hlive : (s.mproc c).ending = none → (s.mproc c).live = true := by
    intro hend
    refine Mproc.live_iff.mpr ⟨hc, ?_⟩
    by_contra hx
    exact hw.lastMail (by simpa using hx) hv hend
  have hexit : ∀ {b}, (s.mproc c).ending = some b → (s.mproc c).flags.exiting = true := by
    intro b hb
    by_contra hx
    rw [ht.alive (by simpa using hx)] at hb
    cases hb
  have hresume : ∀ {m}, (s.mproc c).ending = none →
      Yields Panic.Outside
        (goOn E sig c (E.resume s c m) (s.modify c (Mproc.settled false))) fun s' =>
          Sound E Nobody s' ∧ Follows E s s' := by
    intro m hend
    obtain ⟨hs₁, hf₁, hr₁⟩ := settle_live h (hlive hend)
    refine yields_mono (goOn_yields hsig hs₁ hr₁ fun h0 => by rw [h0]; exact E.resume_pm s m) ?_
    rintro s' ⟨hs', hf'⟩
    exact ⟨hs', hf₁.trans hf'⟩
  have hend : (s.mproc c).ending = (s.mproc c).mail.bind VfsMsg.ending := rfl
  simp only [vfsReply]
  cases hm : (s.mproc c).mail with
  | none =>
      rw [hm] at hend
      obtain ⟨hs₁, hf₁, -⟩ := settle_live h (hlive hend)
      simp only [yields_ok]
      exact ⟨hs₁, hf₁⟩
  | some m =>
      rw [hm] at hend
      cases m with
      | pmExit endpt => exact hrestart (hexit hend) hend fun hf => hf
      | pmDumpcore endpt sig path => exact hrestart (hexit hend) hend fun _ => rfl
      | pmFork => exact hresume hend
      | pmSrvFork => exact hresume hend
      | other => exact hresume hend

/-! ## `waitpid` -/

/-- `c` has news for a wait of `who`. -/
def News (who : Slot n) (pidarg : Int) (p : Mproc n) : Prop :=
  qualifies who pidarg p = true ∧
    (p.tracer = who ∧ p.flags.traceZombie = true ∨ p.parent = who ∧ p.flags.zombie = true)

/-- A wait of `who` that a death would end finds it among the children. -/
theorem qualifies_of_wait {who : Slot n} {pidarg : Int} {p : Mproc n} (hw : Wf p)
    (hu : p.flags.inUse = true) (ht : p.flags.toldParent = false)
    (hwho : p.parent = who ∨ p.tracer = who ∧ p.flags.zombie = false)
    (hwait : (pidarg == -1 || pidarg == p.pid || -pidarg == p.procgrp) = true) :
    qualifies who pidarg p = true := by
  have hpid := hw.pid
  have hgrp := hw.procgrp
  simp only [Bool.or_eq_true, beq_iff_eq] at hwait
  have h₁ : (decide (pidarg > 0) && pidarg != p.pid) = false := by
    simp only [Bool.and_eq_false_iff, decide_eq_false_iff_not, bne_eq_false_iff_eq]
    omega
  have h₂ : (decide (pidarg < -1) && -pidarg != p.procgrp) = false := by
    simp only [Bool.and_eq_false_iff, decide_eq_false_iff_not, bne_eq_false_iff_eq]
    omega
  rcases hwho with hp | ⟨htr, hz⟩
  · simp [qualifies, hu, ht, hp, h₁, h₂]
  · simp [qualifies, hu, ht, htr, hz, h₁, h₂]

theorem qualifies_inUse {who : Slot n} {pidarg : Int} {p : Mproc n}
    (h : qualifies who pidarg p = true) : p.flags.inUse = true := by
  simp only [qualifies, Bool.and_eq_true] at h
  exact h.1.1.1.1.1

/-- A signal of a stopped child goes to its tracer's reply. -/
theorem takeStop_sound {who : Slot n} (i : Nat) (h : Sound E D s)
    (hu : (s.mproc c).flags.inUse = true) (hwho : (s.mproc who).flags.inUse = true) :
    Sound E D ((s.modify c fun p => { p with sigtrace := p.sigtrace.filter (· != i) }).modify who
      fun p => { p with replyStatus := wStopcode (BitVec.ofNat 32 i) }) ∧
    Evolves E s ((s.modify c fun p => { p with sigtrace := p.sigtrace.filter (· != i) }).modify who
      fun p => { p with replyStatus := wStopcode (BitVec.ofNat 32 i) }) := by
  obtain ⟨hs₁, he₁⟩ := h.modify (fun p => { p with sigtrace := p.sigtrace.filter (· != i) }) hu
    (.of_core rfl)
  have hwho₁ : ((s.modify c fun p =>
      { p with sigtrace := p.sigtrace.filter (· != i) }).mproc who).flags.inUse = true := by
    by_cases hw : who = c
    · subst hw
      simpa using hu
    · simpa [hw] using hwho
  obtain ⟨hs₂, he₂⟩ := hs₁.modify (fun p =>
    { p with replyStatus := wStopcode (BitVec.ofNat 32 i) }) hwho₁ (.of_core rfl)
  exact ⟨hs₂, he₁.trans he₂⟩

/-- **THE SCAN** ends with the first child that has news, or finds none and
    changes nothing. -/
theorem waitScan_yields (hsig : SigOk E k sig) {who : Slot n} (pidarg : Int)
    (h : Sound E Nobody s) (hk : liveCount s.mproc ≤ k)
    (hwho : (s.mproc who).flags.inUse = true) :
    ∀ (slots : List (Slot n)) (children : Nat),
      Yields Panic.Outside (waitScan E sig who pidarg slots children s) fun r =>
        (∀ a, r.1 = .ok a → Sound E Nobody r.2 ∧ Evolves E s r.2) ∧
        ∀ m, r.1 = .error m → r.2 = s ∧ ∀ c ∈ slots, ¬News who pidarg (s.mproc c) := by
  intro slots
  induction slots with
  | nil =>
      intro children
      simp [waitScan]
  | cons c rest ih =>
      intro children
      have hrec : ∀ children, ¬News who pidarg (s.mproc c) →
          Yields Panic.Outside (waitScan E sig who pidarg rest children s) fun r =>
          (∀ a, r.1 = .ok a → Sound E Nobody r.2 ∧ Evolves E s r.2) ∧
          ∀ m, r.1 = .error m → r.2 = s ∧ ∀ d ∈ c :: rest, ¬News who pidarg (s.mproc d) := by
        intro children hnews
        refine yields_mono (ih children) ?_
        rintro r ⟨hok, herr⟩
        refine ⟨hok, fun m hm => ⟨(herr m hm).1, fun d hd => ?_⟩⟩
        rcases List.mem_cons.mp hd with hd | hd
        · rw [hd]; exact hnews
        · exact (herr m hm).2 d hd
      rw [waitScan]
      cases hq : qualifies who pidarg (s.mproc c) with
      | false =>
          simp only [Bool.not_false, if_true]
          refine hrec children ?_
          rintro ⟨hq', -⟩
          rw [hq] at hq'; cases hq'
      | true =>
          have hu := qualifies_inUse hq
          simp only [Bool.not_true, Bool.false_eq_true, if_false]
          split
          · rename_i htz
            refine yields_bind.mpr (yields_mono (tellTracer_yields (h.near c) hu htz.2) ?_)
            rintro s₁ ⟨hn₁, he₁, hrec₁⟩
            refine yields_bind.mpr (yields_mono (checkParent_sound hsig hn₁
              (Nat.le_trans he₁.liveCount hk) (by rw [hrec₁]; exact hu) (by rw [hrec₁]; rfl)) ?_)
            rintro s₂ ⟨hs₂, he₂⟩
            rw [yields_ok]
            exact ⟨fun _ _ => ⟨hs₂, he₁.trans he₂⟩, fun m hm => by cases hm⟩
          · rename_i htz
            split
            · rename_i i hi
              rw [yields_ok]
              refine ⟨fun _ _ => ?_, fun m hm => by cases hm⟩
              exact takeStop_sound i h hu hwho
            · split
              · rename_i hz
                refine yields_bind.mpr (yields_mono (tellParent_yields (h.near c) hu hz.2) ?_)
                rintro s₁ ⟨hn₁, he₁, hrec₁⟩
                have hu₁ : (s₁.mproc c).flags.inUse = true := by rw [hrec₁]; exact hu
                have ht₁ : (s₁.mproc c).flags.toldParent = true := by rw [hrec₁]; rfl
                rw [yields_ok]
                refine ⟨fun _ _ => ?_, fun m hm => by cases hm⟩
                cases hv : (s₁.mproc c).flags.vfsCall with
                | true =>
                    simp only [Bool.not_true, Bool.false_eq_true, if_false]
                    exact ⟨hn₁.sound fun _ => tended_told (hn₁.base.wf c hu₁) ht₁ hv, he₁⟩
                | false =>
                    obtain ⟨hn₂, he₂, hgone⟩ := cleanup_near hn₁ hu₁ ht₁ hv
                    simp only [Bool.not_false, if_true]
                    exact ⟨hn₂.sound fun hu₂ => absurd hu₂ (by rw [hgone]; simp), he₁.trans he₂⟩
              · rename_i hz
                refine hrec (children + 1) ?_
                rintro ⟨-, hn | hn⟩
                · exact htz hn
                · exact hz hn

/-- News that a wait which begins would end is there already. -/
theorem waitTest_awaits {who : Slot n} {pidarg : Int} {p q : Mproc n} (hw : Wf q)
    (hu : q.flags.inUse = true) (ht : q.flags.toldParent = false)
    (hwho : q.parent = who ∨ q.tracer = who ∧ q.flags.zombie = false)
    (hno : qualifies who pidarg q ≠ true) : waitTest (p.awaits pidarg) q = false := by
  by_contra hwait
  refine hno (qualifies_of_wait hw hu ht hwho ?_)
  have hwait' : waitTest (p.awaits pidarg) q = true := by simpa using hwait
  rw [waitTest, Bool.and_eq_true] at hwait'
  exact hwait'.2

/-- **A WAIT BEGINS** only where there is no news for it. -/
theorem wait_sound {who : Slot n} {pidarg : Int} (h : Sound E Nobody s)
    (hwho : (s.mproc who).live = true)
    (hno : ∀ c, (s.mproc c).flags.inUse = true → ¬News who pidarg (s.mproc c)) :
    Sound E Nobody (s.modify who (Mproc.awaits pidarg)) ∧
      Follows E s (s.modify who (Mproc.awaits pidarg)) := by
  obtain ⟨hu, hx⟩ := Mproc.live_iff.mp hwho
  have hw := h.base.wf who hu
  let s' := s.modify who (Mproc.awaits pidarg)
  have hrec : s'.mproc who = (s.mproc who).awaits pidarg := by simp [s']
  have hne : ∀ d, d ≠ who → s'.mproc d = s.mproc d := by
    intro d hd
    simp [s', hd]
  have hq : Alter E (s.mproc who) ((s.mproc who).awaits pidarg) :=
    { wf :=
        { hw with
          waiting := fun hf => by
            rw [show ((s.mproc who).awaits pidarg).flags.exiting = false from hx] at hf
            cases hf }
      inUse := rfl, exiting := fun hf => hf, endpoint := rfl, pid := rfl, parent := .inl rfl }
  rw [← hrec] at hq
  refine ⟨⟨h.base.alter hu hq hne rfl False.elim (.inl (by rw [hrec]; rfl)) (fun _ hd => hd)
    (fun _ hd => .inl hd) fun hx' => ?_, fun d hd => ?_⟩, .still rfl fun d => ?_⟩
  · rw [hrec] at hx'
    exact .inl hx'
  · by_cases hdw : d = who
    · rw [hdw]
      exact .of_live hq.wf (by rw [hrec]; exact hx) (by rw [hrec]; exact (h.tended who hu).alive hx)
    · rw [hne d hdw] at hd
      have ht := h.tended d hd
      have hwd := h.base.wf d hd
      refine { told := ?_, known := ?_, alive := ?_, parent := ?_, tracer := ?_ }
      · rw [hne d hdw]; exact ht.told
      · rw [hne d hdw]; exact ht.known
      · rw [hne d hdw]; exact ht.alive
      · rw [hne d hdw]
        intro hz
        by_cases hp : (s.mproc d).parent = who
        · rw [hp, hrec]
          exact waitTest_awaits hwd hd (hwd.zombie hz).2.1 (.inl hp)
            fun hq => hno d hd ⟨hq, .inr ⟨hp, hz⟩⟩
        · rw [hne _ hp]; exact ht.parent hz
      · rw [hne d hdw]
        intro hz
        by_cases htr : (s.mproc d).tracer = who
        · rw [htr, hrec]
          have hzz : (s.mproc d).flags.zombie = false := by
            by_contra hz'
            rw [(hwd.zombie (by simpa using hz')).2.2] at hz
            cases hz
          have hto : (s.mproc d).flags.toldParent = false := by
            by_contra ht'
            rw [(hwd.told (by simpa using ht')).2] at hz
            cases hz
          exact waitTest_awaits hwd hd hto (.inr ⟨htr, hzz⟩)
            fun hq => hno d hd ⟨hq, .inl ⟨htr, hz⟩⟩
        · rw [hne _ htr]; exact ht.tracer hz
  · by_cases hd : d = who
    · rw [hd, hrec]; rfl
    · rw [hne d hd]

/-- **`waitpid`** -/
theorem doWaitpid_yields (hsig : SigOk E k sig) {pid : Int} {wnohang : Bool}
    (h : Sound E Nobody s) (hk : liveCount s.mproc ≤ k) (hmp : (s.mproc s.mp).live = true) :
    Yields Panic.Outside (doWaitpid E sig pid wnohang s) fun r =>
      Sound E Nobody r.2 ∧ Follows E s r.2 := by
  unfold doWaitpid
  extract_lets pidarg
  have hu : (s.mproc s.mp).flags.inUse = true := (Mproc.live_iff.mp hmp).1
  refine yields_bind.mpr (yields_mono
    (waitScan_yields hsig pidarg h hk hu (List.finRange (n + 1)) 0) ?_)
  rintro ⟨found, s₁⟩ ⟨hok, herr⟩
  cases found with
  | ok a =>
      obtain ⟨hs, he⟩ := hok a rfl
      rw [yields_ok]
      exact ⟨hs, he.follows⟩
  | error m =>
      obtain ⟨hsame, hno⟩ := herr m rfl
      simp only at hsame hno
      subst hsame
      simp only
      split
      · rw [yields_ok]; exact ⟨h, .refl _⟩
      · split
        · rw [yields_ok]; exact ⟨h, .refl _⟩
        · rw [yields_ok]
          exact wait_sound h hmp fun c _ => hno c (by simp)

/-! ## `fork` -/

/-- The slot `j` places after `start`, round the table. -/
def slotAfter (start : Slot n) (j : Nat) : Slot n :=
  ⟨(start.val + j) % (n + 1), Nat.mod_lt _ (Nat.succ_pos n)⟩

theorem slotAfter_zero (start : Slot n) : slotAfter start 0 = start := by
  apply Fin.ext
  simp only [slotAfter, Nat.add_zero, Nat.mod_eq_of_lt start.isLt]

theorem slotAfter_succ (start : Slot n) (j : Nat) :
    slotAfter start j + 1 = slotAfter start (j + 1) := by
  apply Fin.ext
  simp [slotAfter, Fin.val_add, ← Nat.add_assoc]

/-- Every slot is met on the way round. -/
theorem slotAfter_meets (start c : Slot n) : ∃ j ≤ n, slotAfter start (j + 1) = c := by
  have hs := start.isLt
  have hc := c.isLt
  by_cases hlt : start.val < c.val
  · refine ⟨c.val - start.val - 1, by omega, Fin.ext ?_⟩
    have hsum : start.val + (c.val - start.val - 1 + 1) = c.val := by omega
    simp only [slotAfter, hsum, Nat.mod_eq_of_lt hc]
  · refine ⟨n - (start.val - c.val), by omega, Fin.ext ?_⟩
    have hsum : start.val + (n - (start.val - c.val) + 1) = c.val + (n + 1) := by omega
    simp [slotAfter, hsum, Nat.mod_eq_of_lt hc]

/-- The search stops at the first free slot after `start`. -/
theorem probe_loop {start : Slot n} {j : Nat} (hj : j ≤ n)
    (hfree : (s.mproc (slotAfter start (j + 1))).flags.inUse = false)
    (hused : ∀ i < j, (s.mproc (slotAfter start (i + 1))).flags.inUse = true) :
    ∀ m t fuel : Nat, t + m = j → m < fuel →
      loop .fuel (probe s) fuel (slotAfter start t, t) =
        .ok (slotAfter start (j + 1), j + 1) := by
  intro m
  induction m with
  | zero =>
      intro t fuel ht hm
      obtain ⟨fuel, rfl⟩ := Nat.exists_eq_succ_of_ne_zero (Nat.ne_of_gt hm)
      have htj : t = j := by omega
      subst htj
      refine loop_done ?_ fuel
      simp only [probe, slotAfter_succ]
      rw [if_neg (by rw [hfree]; simp)]
  | succ m ih =>
      intro t fuel ht hm
      have hpos : 0 < fuel := Nat.lt_of_le_of_lt (Nat.zero_le _) hm
      obtain ⟨fuel, rfl⟩ := Nat.exists_eq_succ_of_ne_zero (Nat.ne_of_gt hpos)
      have hturn : probe s (slotAfter start t, t) =
          .ok (.again (slotAfter start (t + 1), t + 1)) := by
        simp only [probe, slotAfter_succ]
        rw [if_pos ⟨hused t (by omega), by omega⟩]
      rw [loop_again hturn fuel]
      exact ih (t + 1) fuel (by omega) (by omega)

/-- **A SLOT IS FOUND** when there is one: the first free slot after the one
    the last search ended at. -/
theorem childSlot_first (start : Slot n) (h : ∃ c, (s.mproc c).flags.inUse = false) :
    ∃ j ≤ n, childSlot start s = .ok (slotAfter start (j + 1)) ∧
      (s.mproc (slotAfter start (j + 1))).flags.inUse = false ∧
      ∀ i < j, (s.mproc (slotAfter start (i + 1))).flags.inUse = true := by
  obtain ⟨c, hc⟩ := h
  obtain ⟨j₀, hj₀, hc₀⟩ := slotAfter_meets start c
  have hex : ∃ j, (s.mproc (slotAfter start (j + 1))).flags.inUse = false :=
    ⟨j₀, by rw [hc₀]; exact hc⟩
  have hj : Nat.find hex ≤ n :=
    Nat.le_trans (Nat.find_min' hex (by rw [hc₀]; exact hc)) hj₀
  have hused : ∀ i < Nat.find hex, (s.mproc (slotAfter start (i + 1))).flags.inUse = true := by
    intro i hi
    simpa using Nat.find_min hex hi
  refine ⟨Nat.find hex, hj, ?_, Nat.find_spec hex, hused⟩
  have hloop := probe_loop hj (Nat.find_spec hex) hused (Nat.find hex) 0 (n + 2) (by omega)
    (by omega)
  rw [slotAfter_zero] at hloop
  have hle : ¬Nat.find hex + 1 > n + 1 := by omega
  simp only [childSlot, hloop, bind, Except.bind, if_neg hle, Nat.find_spec hex,
    Bool.false_eq_true, if_false]

/-- There is a free slot unless the count says otherwise. -/
theorem exists_free (h : Base E D s) (hroom : s.procsInUse ≠ n + 1) :
    ∃ c, (s.mproc c).flags.inUse = false := by
  by_contra hno
  push Not at hno
  have hall : (Finset.univ.filter fun c => (s.mproc c).flags.inUse = true) = Finset.univ := by
    ext c
    simpa using hno c
  refine hroom ?_
  rw [h.count, used, hall]
  simp

/-- A child's record as it enters the table. -/
structure Newborn (s : Pm n) (p : Mproc n) : Prop where
  wf : Wf p
  live : p.live = true
  ending : p.ending = none
  parent : (s.mproc p.parent).live = true
  tracer : p.tracer ≠ 0 → (s.mproc p.tracer).live = true

/-- **A BIRTH** keeps the table in order. -/
theorem install_sound {child : Slot n} (rmc : Mproc n) (h : Sound E Nobody s)
    (hfree : (s.mproc child).flags.inUse = false)
    (hnew : ∀ pid, 0 ≤ pid → Newborn s { rmc with pid := pid }) :
    Sound E Nobody (install E child rmc s) ∧ Follows E s (install E child rmc s) ∧
      (install E child rmc s).mproc child =
        { rmc with pid := E.freePid (s.set child rmc).mproc } := by
  have hb := hnew _ (E.freePid_nonneg (s.set child rmc).mproc)
  have hrec : (install E child rmc s).mproc child =
      { rmc with pid := E.freePid (s.set child rmc).mproc } := by
    simp [install, Pm.set]
  have hne : ∀ d, d ≠ child → (install E child rmc s).mproc d = s.mproc d := by
    intro d hd
    simp [install, hd]
  have hfree' : ¬Held Nobody s.mproc child := by
    rintro ⟨hu, -⟩
    rw [hfree] at hu
    cases hu
  have hheld : ∀ e, (s.mproc e).live = true →
      e ≠ child ∧ Held Nobody (install E child rmc s).mproc e := by
    intro e he
    have hec : e ≠ child := by
      rintro rfl
      exact hfree' (.of_live he)
    exact ⟨hec, .of_live (by rw [hne e hec]; exact he)⟩
  obtain ⟨hu, hx⟩ := Mproc.live_iff.mp hb.live
  have hw : Wf ((install E child rmc s).mproc child) := by
    rw [hrec]; exact hb.wf
  have hlinked : Linked E Nobody (install E child rmc s).mproc child :=
    { parent := by rw [hrec]; exact (hheld _ hb.parent).2
      parentSelf := fun hself => by
        rw [hrec] at hself
        exact absurd hself (hheld _ hb.parent).1
      tracer := fun h0 => by
        rw [hrec] at h0 ⊢
        exact (hheld _ (hb.tracer h0)).2
      tracerSelf := fun h0 => by
        rw [hrec] at h0 ⊢
        exact (hheld _ (hb.tracer h0)).1 }
  have hpids : ∀ d, d ≠ child → (s.mproc d).flags.inUse = true →
      (s.mproc d).pid ≠ ((install E child rmc s).mproc child).pid := by
    intro d hd hud
    have hfresh := E.freePid_fresh (s.set child rmc).mproc d
    simp only [Pm.mproc_set, if_neg hd] at hfresh
    rw [hrec]
    exact hfresh hud
  have hcount : (install E child rmc s).procsInUse = used (install E child rmc s).mproc := by
    have hfill : used (install E child rmc s).mproc = used s.mproc + 1 :=
      used_fill hfree (by rw [hrec]; exact hu) hne
    change s.procsInUse + 1 = _
    rw [h.base.count, hfill]
    rfl
  have hnear : Near E Nobody child (install E child rmc s) := by
    refine (h.near child).replace hfree' hne hcount (fun _ => ⟨hw, hlinked, hpids⟩) fun hf => ?_
    rw [hrec] at hf
    rw [hf] at hu
    cases hu
  refine ⟨hnear.sound fun _ => .of_live hw (by rw [hrec]; exact hx) (by rw [hrec]; exact hb.ending),
    .mark rfl (fun _ => ?_) fun d hd => by rw [hne d hd], hrec⟩
  rw [hrec, Mproc.life_free hfree, Mproc.life_live hb.live]
  rfl

/-- A child of the caller with few flags and the caller's tracer or none. -/
theorem newborn_of {p : Mproc n} {u v w : Bool} (h : Sound E Nobody s)
    (hlive : (s.mproc s.mp).live = true) (h0 : s.mp ≠ 0)
    (hflags : p.flags = { inUse := true, privProc := u, delayCall := v, tainted := w })
    (hparent : p.parent = s.mp) (htracer : p.tracer = (s.mproc s.mp).tracer ∨ p.tracer = 0)
    (hmail : p.mail = none) (hgrp : p.procgrp = (s.mproc s.mp).procgrp)
    (hsched : u = true → p.scheduler = none) (hpid : 0 ≤ p.pid) : Newborn s p := by
  have hu := (Mproc.live_iff.mp hlive).1
  have hend : p.ending = none := by rw [Mproc.ending, hmail]; rfl
  have hw : Wf p :=
    { zombie := fun hf => by rw [hflags] at hf; cases hf
      told := fun hf => by rw [hflags] at hf; cases hf
      traced := fun hf => by rw [hflags] at hf; cases hf
      waiting := fun hf => by rw [hflags] at hf; cases hf
      stopped := fun hf => by rw [hflags] at hf; cases hf
      mail := by rw [hflags, hmail]; rfl
      lastMail := fun hf => by rw [hflags] at hf; cases hf
      dumping := fun hf => by rw [hflags] at hf; cases hf
      traceExit := fun hf => by rw [hflags] at hf; cases hf
      pid := hpid
      procgrp := by rw [hgrp]; exact (h.base.wf s.mp hu).procgrp
      scheduler := fun hf => hsched (by rw [hflags] at hf; exact hf)
      parent := by rw [hparent]; exact h0 }
  refine { wf := hw, live := by rw [Mproc.live, hflags]; rfl, ending := hend,
           parent := by rw [hparent]; exact hlive, tracer := fun ht => ?_ }
  rcases htracer with htr | htr
  · rw [htr] at ht ⊢
    exact ((h.base.linked s.mp hu).tracer ht).live
  · exact absurd htr ht

/-- What a copy keeps. -/
theorem copyProc_keeps (c : Slot n) (p : Mproc n) :
    (copyProc c p).flags = p.flags ∧ (copyProc c p).parent = c ∧
      ((copyProc c p).tracer = p.tracer ∨ (copyProc c p).tracer = 0) ∧
      (copyProc c p).procgrp = p.procgrp ∧ (copyProc c p).scheduler = p.scheduler := by
  simp only [copyProc]
  split
  · exact ⟨rfl, rfl, .inl rfl, rfl, rfl⟩
  · exact ⟨rfl, rfl, .inr rfl, rfl, rfl⟩

/-- What the record `do_fork` makes keeps. -/
theorem forkProc_keeps (c : Slot n) (endpoint : Int) (p : Mproc n) :
    (forkProc E c endpoint p).flags =
        { inUse := p.flags.inUse, delayCall := p.flags.delayCall, tainted := p.flags.tainted } ∧
      (forkProc E c endpoint p).parent = c ∧
      (forkProc E c endpoint p).tracer = (copyProc c p).tracer ∧
      (forkProc E c endpoint p).procgrp = p.procgrp ∧ (forkProc E c endpoint p).mail = none := by
  obtain ⟨hf, hp, -, hg, -⟩ := copyProc_keeps c p
  simp only [forkProc, resetProc]
  split
  · exact ⟨by rw [hf], hp, rfl, hg, trivial⟩
  · exact ⟨by rw [hf], hp, rfl, hg, trivial⟩

theorem forkProc_newborn {endpoint pid : Int} (h : Sound E Nobody s)
    (hlive : (s.mproc s.mp).live = true) (h0 : s.mp ≠ 0) (hpid : 0 ≤ pid) :
    Newborn s { forkProc E s.mp endpoint (s.mproc s.mp) with pid := pid } := by
  obtain ⟨hf, hp, ht, hg, hm⟩ := forkProc_keeps (E := E) s.mp endpoint (s.mproc s.mp)
  refine newborn_of (u := false) (v := (s.mproc s.mp).flags.delayCall)
    (w := (s.mproc s.mp).flags.tainted) h hlive h0 ?_ hp ?_ hm hg (fun hu => by cases hu) hpid
  · exact hf.trans (by rw [(Mproc.live_iff.mp hlive).1])
  · rw [show ({ forkProc E s.mp endpoint (s.mproc s.mp) with pid := pid } : Mproc n).tracer =
      (copyProc s.mp (s.mproc s.mp)).tracer from ht]
    exact (copyProc_keeps s.mp (s.mproc s.mp)).2.2.1

theorem srvForkProc_newborn {endpoint uid gid pid : Int} (h : Sound E Nobody s)
    (hlive : (s.mproc s.mp).live = true) (h0 : s.mp ≠ 0) (hpid : 0 ≤ pid) :
    Newborn s { srvForkProc s.mp endpoint uid gid (s.mproc s.mp) with pid := pid } := by
  obtain ⟨hf, hp, ht, hg, hs⟩ := copyProc_keeps s.mp (s.mproc s.mp)
  have hu := (Mproc.live_iff.mp hlive).1
  refine newborn_of (u := (s.mproc s.mp).flags.privProc)
    (v := (s.mproc s.mp).flags.delayCall) (w := false) h hlive h0 ?_ hp ht rfl hg ?_ hpid
  · simp [srvForkProc, resetProc, hf, hu]
  · intro hpriv
    exact hs.trans ((h.base.wf s.mp hu).scheduler hpriv)

/-- VFS is told of a birth. -/
theorem tellBirth_yields {child : Slot n} {m : VfsMsg} (h : Sound E Nobody s)
    (hr : Ready s child) (hm : m.ending = none) :
    Yields Panic.Outside (E.tellVfs child m s) fun s' =>
      Sound E Nobody s' ∧ Evolves E s s' ∧ (s'.mproc child).live = true := by
  refine yields_mono (tellVfs_yields h hr) ?_
  rintro s₁ ⟨hn₁, he₁, hrec₁⟩
  refine ⟨hn₁.sound fun hu => .of_live (hn₁.base.wf child hu) ?_ ?_, he₁, ?_⟩
  · rw [hrec₁]; exact hr.exiting
  · rw [hrec₁]; exact hm
  · rw [hrec₁]; exact hr.1

/-- A traced child stops. -/
theorem stopChild_yields (hsig : SigOk E (n + 1) sig) {child : Slot n} (h : Sound E Nobody s)
    (hlive : (s.mproc child).live = true) (h0 : child ≠ 0) :
    Yields Panic.Outside
      (if (s.mproc child).tracer ≠ 0 then sig child .sigstop s else .ok s)
      fun s' => Sound E Nobody s' ∧ Evolves E s s' := by
  split
  · exact hsig.yields Nobody s child .sigstop h (liveCount_le _) h0 hlive
  · rw [yields_ok]; exact ⟨h, .refl _⟩

/-- The child of a caller starts its life ready for VFS. -/
theorem born_ready {child : Slot n} (rmc : Mproc n) (h : Sound E Nobody s)
    (hfree : (s.mproc child).flags.inUse = false)
    (hnew : ∀ pid, 0 ≤ pid → Newborn s { rmc with pid := pid })
    (hv : rmc.flags.vfsCall = false) : Sound E Nobody (install E child rmc s) ∧
      Follows E s (install E child rmc s) ∧ Ready (install E child rmc s) child := by
  obtain ⟨hs, hf, hrec⟩ := install_sound rmc h hfree hnew
  refine ⟨hs, hf, ?_⟩
  unfold Ready
  rw [hrec]
  exact ⟨(hnew _ (E.freePid_nonneg _)).live, hv⟩

/-- The free slot found is not PM's. -/
theorem Base.free_ne (h : Base E D s) (hfree : (s.mproc c).flags.inUse = false) : c ≠ 0 := by
  rintro rfl
  rw [(Mproc.live_iff.mp h.pm.1).1] at hfree
  cases hfree

/-- **`fork`** -/
theorem doFork_yields (hsig : SigOk E (n + 1) sig) (h : Sound E Nobody s)
    (hlive : (s.mproc s.mp).live = true) (h0 : s.mp ≠ 0) :
    Yields Panic.Outside (doFork E sig s) fun r => Sound E Nobody r.2 ∧ Follows E s r.2 := by
  simp only [doFork]
  split
  · rw [yields_ok]; exact ⟨h, .refl s⟩
  · rename_i hroom
    obtain ⟨j, -, hslot, hfree, -⟩ := childSlot_first s.nextChild
      (exists_free h.base fun hfull => hroom (.inl hfull))
    rw [hslot]
    refine yields_bind.mpr ?_
    rw [yields_ok]
    generalize slotAfter s.nextChild (j + 1) = child at hfree ⊢
    have hs : Sound E Nobody { s with nextChild := child } := h.same rfl rfl
    have hf : Follows E s { s with nextChild := child } := .still rfl fun _ => rfl
    cases E.vmFork { s with nextChild := child } child with
    | error e => simp only [yields_ok]; exact ⟨hs, hf⟩
    | ok endpoint =>
        simp only
        split
        · rename_i hbad
          have hu := (Mproc.live_iff.mp hlive).1
          exact absurd ((h.base.wf s.mp hu).scheduler hbad.1) hbad.2
        · have hv : (forkProc E s.mp endpoint (s.mproc s.mp)).flags.vfsCall = false := by
            rw [(forkProc_keeps s.mp endpoint (s.mproc s.mp)).1]
          obtain ⟨hs₁, hf₁, hr₁⟩ := born_ready
            (forkProc E s.mp endpoint (s.mproc s.mp)) hs hfree
            (fun pid hpid => forkProc_newborn hs hlive h0 hpid) hv
          have hf₂ : Follows E _ ((install E child (forkProc E s.mp endpoint (s.mproc s.mp))
            { s with nextChild := child }).emit _) := .emit (.printCreated
              ((install E child (forkProc E s.mp endpoint (s.mproc s.mp))
                { s with nextChild := child }).mproc child).pid) fun _ => rfl
          refine yields_bind.mpr (yields_mono (tellBirth_yields (hs₁.emit _) hr₁ rfl) ?_)
          rintro s₂ ⟨hs₂, he₂, hlive₂⟩
          refine yields_bind.mpr (yields_mono
            (stopChild_yields hsig hs₂ hlive₂ (h.base.free_ne hfree)) ?_)
          rintro s₃ ⟨hs₃, he₃⟩
          rw [yields_ok]
          exact ⟨hs₃, hf.trans (hf₁.trans (hf₂.trans (he₂.follows.trans he₃.follows)))⟩

/-- **`srv_fork`** -/
theorem doSrvFork_yields (hsig : SigOk E (n + 1) sig) {uid gid : Int} (h : Sound E Nobody s)
    (hlive : (s.mproc s.mp).live = true) (h0 : s.mp ≠ 0) :
    Yields Panic.Outside (doSrvFork E sig uid gid s) fun r =>
      Sound E Nobody r.2 ∧ Follows E s r.2 := by
  simp only [doSrvFork]
  split
  · rw [yields_ok]; exact ⟨h, .refl s⟩
  · split
    · rw [yields_ok]; exact ⟨h, .refl s⟩
    · rename_i hroom
      obtain ⟨j, -, hslot, hfree, -⟩ := childSlot_first s.nextSrvChild
        (exists_free h.base fun hfull => hroom (.inl hfull))
      rw [hslot]
      refine yields_bind.mpr ?_
      rw [yields_ok]
      generalize slotAfter s.nextSrvChild (j + 1) = child at hfree ⊢
      have hs : Sound E Nobody { s with nextSrvChild := child } := h.same rfl rfl
      have hf : Follows E s { s with nextSrvChild := child } := .still rfl fun _ => rfl
      cases E.vmFork { s with nextSrvChild := child } child with
      | error e => simp only [yields_ok]; exact ⟨hs, hf⟩
      | ok endpoint =>
          simp only
          obtain ⟨hs₁, hf₁, hr₁⟩ := born_ready
            (srvForkProc s.mp endpoint uid gid (s.mproc s.mp)) hs hfree
            (fun pid hpid => srvForkProc_newborn hs hlive h0 hpid) rfl
          refine yields_bind.mpr (yields_mono (tellBirth_yields hs₁ hr₁ rfl) ?_)
          rintro s₂ ⟨hs₂, he₂, hlive₂⟩
          refine yields_bind.mpr (yields_mono
            (stopChild_yields hsig hs₂ hlive₂ (h.base.free_ne hfree)) ?_)
          rintro s₃ ⟨hs₃, he₃⟩
          have hf₄ : Follows E s₃ (reply child (.value 0) s₃) := .emit _ fun _ => rfl
          rw [yields_ok]
          exact ⟨hs₃.emit _, hf.trans (hf₁.trans (he₂.follows.trans (he₃.follows.trans hf₄)))⟩

/-! ## The main loop -/

/-- **`exit`** is for user processes; VFS is not busy with one that calls. -/
theorem doExit_yields (hsig : SigOk E (n + 1) sig) {status : BitVec 32} (h : Sound E Nobody s)
    (hlive : (s.mproc s.mp).live = true) (h0 : s.mp ≠ 0)
    (hidle : (s.mproc s.mp).flags.vfsCall = false ∨ (s.mproc s.mp).flags.privProc = true) :
    Yields Panic.Outside (doExit E sig status s) fun r =>
      Sound E Nobody r.2 ∧ Follows E s r.2 := by
  unfold doExit
  split
  · rw [yields_ok]
    exact ⟨h.emit _, .emit _ fun _ => rfl⟩
  · rename_i hpriv
    refine yields_bind.mpr (yields_mono (exitProc_yields hsig h
      (Nat.le_succ_of_le (liveCount_le _)) h0 ⟨hlive, hidle.resolve_right hpriv⟩) ?_)
    rintro s₁ ⟨hs₁, he₁⟩
    rw [yields_ok]
    exact ⟨hs₁.emit _, he₁.follows.trans (.emit _ fun _ => rfl)⟩

theorem serve_yields (hsig : SigOk E (n + 1) sig) (r : Request) (h : Sound E Nobody s)
    (hlive : (s.mproc s.mp).live = true) (h0 : s.mp ≠ 0)
    (hidle : (s.mproc s.mp).flags.vfsCall = false ∨ (s.mproc s.mp).flags.privProc = true) :
    Yields Panic.Outside (serve E sig r s) fun r => Sound E Nobody r.2 ∧ Follows E s r.2 := by
  cases r with
  | fork => exact doFork_yields hsig h hlive h0
  | srvFork uid gid => exact doSrvFork_yields hsig h hlive h0
  | exit status => exact doExit_yields hsig h hlive h0 hidle
  | waitpid pid wnohang => exact doWaitpid_yields hsig h (liveCount_le _) hlive

/-- A live process gets a tracer. -/
theorem attach_sound {tracer : Slot n} (h : Sound E Nobody s) (hc : c ≠ 0) (h0 : tracer ≠ 0)
    (hne : c ≠ tracer) (hlive : (s.mproc c).live = true) (htr : (s.mproc tracer).live = true) :
    Sound E Nobody (s.modify c fun p => { p with tracer := tracer }) ∧
      Follows E s (s.modify c fun p => { p with tracer := tracer }) := by
  obtain ⟨hu, hx⟩ := Mproc.live_iff.mp hlive
  have hw := h.base.wf c hu
  have hrec : (s.modify c fun p => { p with tracer := tracer }).mproc c =
      { s.mproc c with tracer := tracer } := by simp
  have hq : Alter E (s.mproc c) { s.mproc c with tracer := tracer } :=
    { wf := { hw with traced := fun hf => ⟨(hw.traced hf).1, h0⟩, traceExit := fun _ => h0 }
      inUse := rfl, exiting := fun hf => hf, endpoint := rfl, pid := rfl, parent := .inl rfl }
  rw [← hrec] at hq
  refine live_sound _ h hlive hq ?_ ?_ ?_ ?_ ?_ ?_ ?_ rfl rfl
  · rw [hrec]; exact hx
  · rw [hrec]
  · rw [hrec]; exact .inr (.inr ⟨hc, hne.symm, htr⟩)
  · rw [hrec]; exact (h.tended c hu).alive hx
  · rw [hrec]; exact fun hf => hf
  · rw [hrec]
  · intro d hd
    simp [hd]

/-- **ONE TURN** of the main loop keeps the invariant, takes every slot along
    its life, and panics only for reasons outside PM. -/
theorem step_yields (x : Step n) (h : Sound E Nobody s) :
    Yields Panic.Outside (step E s x) fun s' => Sound E Nobody s' ∧ Follows E s s' := by
  have hsig := sigProc_ok E (n + 1)
  have hserving : ∀ mp, Sound E Nobody { s with mp := mp } ∧ Follows E s { s with mp := mp } :=
    fun mp => ⟨h.same rfl rfl, .still rfl fun _ => rfl⟩
  cases x with
  | call who r =>
      obtain ⟨hs, hf⟩ := hserving who
      simp only [step]
      split
      · rename_i hacc
        obtain ⟨h0, hlive⟩ := E.accepts_live s who hacc
        refine yields_bind.mpr (yields_mono
          (serve_yields hsig r hs hlive h0 (E.accepts_idle s who hacc)) ?_)
        rintro ⟨a, s₁⟩ ⟨hs₁, hf₁⟩
        have hall : ∀ a, Sound E Nobody (reply who a s₁) ∧ Follows E s (reply who a s₁) := fun a =>
          ⟨hs₁.emit _, hf.trans (hf₁.trans (.emit _ fun _ => rfl))⟩
        cases a with
        | suspend => simp only [yields_ok]; exact ⟨hs₁, hf.trans hf₁⟩
        | fails e => simp only [yields_ok]; exact hall _
        | value v => simp only [yields_ok]; exact hall _
      · rw [yields_ok]; exact ⟨h, .refl s⟩
  | signal mp c g =>
      obtain ⟨hs, hf⟩ := hserving mp
      simp only [step]
      split
      · rename_i hc
        refine yields_mono (hsig.yields Nobody _ c g hs (liveCount_le _) hc.1 hc.2) ?_
        rintro s₁ ⟨hs₁, he₁⟩
        exact ⟨hs₁, hf.trans he₁.follows⟩
      · rw [yields_ok]; exact ⟨h, .refl s⟩
  | vfsReply mp c core =>
      obtain ⟨hs, hf⟩ := hserving mp
      simp only [step]
      split
      · rename_i hv
        refine yields_mono (vfsReply_yields hsig hs hv) ?_
        rintro s₁ ⟨hs₁, hf₁⟩
        exact ⟨hs₁, hf.trans hf₁⟩
      · rw [yields_ok]; exact ⟨h, .refl s⟩
  | adjust c a =>
      obtain ⟨hs, he⟩ := adjustSlot_sound (x := (c, a)) h
      simp only [step, yields_ok]
      exact ⟨hs, he.follows⟩
  | attach c tracer =>
      simp only [step]
      split
      · rename_i hc
        rw [yields_ok]
        exact attach_sound h hc.1 hc.2.1 hc.2.2.1 hc.2.2.2.1 hc.2.2.2.2
      · rw [yields_ok]; exact ⟨h, .refl s⟩

end OsForkExit
