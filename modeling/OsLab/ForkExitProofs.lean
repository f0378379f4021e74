import OsLab.ForkExitNotifyProofs

/-! # Exit keeps the table

    One lemma per handler of an exit: it panics only where the kernel, VM or
    VFS let PM down, it keeps `Sound`, and what it does is part of `Evolves`.
    `sigProc_ok` ties the knot by induction on the number of live processes,
    as an exit leaves fewer of them for the exits inside it. -/

namespace OsForkExit

open OsLoop OsOutcome

variable {n : Nat} {E : Env n} {D : Slot n → Prop} {s s' : Pm n} {c d : Slot n}
variable {k : Nat} {sig : Slot n → Signal → Act n}

/-! ## Handing over the children -/

/-- What happens to a free slot concerns nobody. -/
theorem Sound.idle (h : Sound E D s) (hc : (s.mproc c).flags.inUse = false)
    (hu : (s'.mproc c).flags = {}) (hne : ∀ d, d ≠ c → s'.mproc d = s.mproc d)
    (hcount : s'.procsInUse = s.procsInUse) : Sound E D s' := by
  have hfree : ¬Held D s.mproc c := by
    rintro ⟨hu', -⟩
    rw [hc] at hu'
    cases hu'
  have huse : ∀ d, (s'.mproc d).flags.inUse = (s.mproc d).flags.inUse := by
    intro d
    by_cases hd : d = c
    · rw [hd, hc, hu]
    · rw [hne d hd]
  refine ((h.near c).replace hfree hne (by rw [hcount, h.base.count, used_congr huse])
    (fun hf => ?_) fun _ => hu).sound fun hf => ?_
  · rw [hu] at hf
    cases hf
  · rw [hu] at hf
    cases hf

/-- `c` is no child of `P` and not traced by it. -/
def Apart (P : Slot n) (s : Pm n) (c : Slot n) : Prop :=
  (s.mproc c).parent ≠ P ∧ (s.mproc c).tracer ≠ P

theorem Apart.evolves {P : Slot n} (h : Apart P s c) (he : Evolves E s s') (h0 : P ≠ 0)
    (hi : P ≠ E.initProcNr) : Apart P s' c := by
  have hm := he.moved c
  refine ⟨?_, ?_⟩
  · rcases hm.parent with hp | hp
    · rw [hp]; exact h.1
    · rw [hp]; exact hi.symm
  · rcases hm.tracer with ht | ht
    · rw [ht]; exact h.2
    · rw [ht]; exact h0.symm

/-- Handing a process to INIT is a turn of its life. -/
theorem adopted_evolves (s : Pm n) (c : Slot n) :
    Evolves E s ((s.modify c (Mproc.adopted E)).emit (.life c .adopted)) := by
  have hrec : ((s.modify c (Mproc.adopted E)).emit (.life c .adopted)).mproc c =
      (s.mproc c).adopted E := by simp
  have hne : ∀ d, d ≠ c →
      ((s.modify c (Mproc.adopted E)).emit (.life c .adopted)).mproc d = s.mproc d := by
    intro d hd
    simp [hd]
  refine ⟨fun d => ?_, .mark rfl (fun _ => ?_) fun d hd => by rw [hne d hd]⟩
  · by_cases hd : d = c
    · rw [hd, hrec]
      exact
        { inUse := fun hu => hu
          exiting := fun _ hx => hx
          vfsCall := fun hv => ⟨hv, rfl⟩
          settled := fun _ _ hv => hv
          parent := .inr rfl
          tracer := .inl rfl
          pid := fun _ => rfl }
    · rw [hne d hd]; exact .refl _
  · rw [hrec]
    cases hu : (s.mproc c).flags.inUse with
    | false => simp [Mproc.life, Mproc.adopted, hu, Life.next]
    | true =>
        cases hx : (s.mproc c).flags.exiting with
        | false => simp [Mproc.life, Mproc.adopted, hu, hx, Life.next]
        | true => simp [Mproc.life, Mproc.adopted, hu, hx, Life.next]

/-- A process in use that was handed to INIT. -/
theorem adopted_near (h : Sound E D s) (hc : (s.mproc c).flags.inUse = true) :
    Near E D c ((s.modify c (Mproc.adopted E)).emit (.life c .adopted)) ∧
      Evolves E s ((s.modify c (Mproc.adopted E)).emit (.life c .adopted)) := by
  have hw : Wf ((s.mproc c).adopted E) :=
    { h.base.wf c hc with parent := E.init_ne_pm }
  have hq : Change E (s.mproc c) ((s.mproc c).adopted E) :=
    { wf := hw, inUse := rfl, exiting := fun hx => hx, endpoint := rfl, pid := rfl
      parent := .inr rfl, vfsCall := fun hv => hv, settled := fun _ hv => hv
      waiting := fun hf => hf, wpid := rfl, tracer := .inl rfl }
  have hrec : ((s.modify c (Mproc.adopted E)).emit (.life c .adopted)).mproc c =
      (s.mproc c).adopted E := by simp
  refine (h.near c).change hc ?_ ?_ ?_ rfl (adopted_evolves s c).follows
  · rw [hrec]; exact fun hx => hx
  · rw [hrec]; exact hq
  · intro d hd
    simp [hd]

/-- Handing one child to INIT. -/
theorem adopt_yields (hsig : SigOk E k sig) (h : Sound E D s) (hk : liveCount s.mproc ≤ k) :
    Yields Panic.Outside (adopt E sig c s) fun s' =>
      Sound E D s' ∧ Evolves E s s' ∧ (s'.mproc c).parent = E.initProcNr := by
  let s₁ := (s.modify c (Mproc.adopted E)).emit (.life c .adopted)
  change Yields _ (if (s₁.mproc c).flags.zombie then checkParent sig c true s₁ else .ok s₁) _
  have hrec : s₁.mproc c = (s.mproc c).adopted E := by simp [s₁]
  have hne : ∀ d, d ≠ c → s₁.mproc d = s.mproc d := by
    intro d hd
    simp [s₁, hd]
  have he₁ : Evolves E s s₁ := adopted_evolves s c
  cases hc : (s.mproc c).flags.inUse with
  | false =>
      have hflags : (s₁.mproc c).flags = {} := by
        rw [hrec]
        simp [Mproc.adopted, h.base.unused c hc]
      rw [if_neg (by rw [hflags]; simp), yields_ok]
      exact ⟨h.idle hc hflags hne rfl, he₁, by rw [hrec]; rfl⟩
  | true =>
      have hw := h.base.wf c hc
      have ht := h.tended c hc
      have hn₁ : Near E D c s₁ := (adopted_near h hc).1
      split
      · rename_i hz
        refine yields_mono (checkParent_sound hsig hn₁ (Nat.le_trans he₁.liveCount hk)
          (by rw [hrec]; exact hc) hz) ?_
        rintro s' ⟨hs', he'⟩
        refine ⟨hs', he₁.trans he', ?_⟩
        rcases (he'.moved c).parent with hp | hp
        · rw [hp, hrec]; rfl
        · exact hp
      · rename_i hz
        rw [yields_ok]
        refine ⟨hn₁.sound fun _ => ?_, he₁, by rw [hrec]; rfl⟩
        refine { told := ?_, known := ?_, alive := ?_, parent := ?_, tracer := ?_ }
        · rw [hrec]; exact ht.told
        · rw [hrec]; exact ht.known
        · rw [hrec]; exact ht.alive
        · exact fun hf => absurd hf hz
        · intro hf
          rw [hrec] at hf ⊢
          rw [show ((s.mproc c).adopted E).tracer = (s.mproc c).tracer from rfl,
            hne _ ((h.base.linked c hc).tracerSelf (hw.traced hf).2)]
          exact ht.tracer hf

/-- **ONE SLOT** of the loop over the children of `P`. -/
theorem disinherit_yields {P : Slot n} (hsig : SigOk E k sig) (h : Sound E D s)
    (hk : liveCount s.mproc ≤ k) (h0 : P ≠ 0) (hi : P ≠ E.initProcNr) :
    Yields Panic.Outside (disinherit E sig P s c) fun s' =>
      Sound E D s' ∧ Evolves E s s' ∧ ((s'.mproc c).flags.inUse = true → Apart P s' c) := by
  cases hc : (s.mproc c).flags.inUse with
  | false =>
      simp only [disinherit, hc, Bool.not_false, if_true, yields_ok]
      exact ⟨h, .refl s, fun hu => absurd hu (by simp)⟩
  | true =>
      simp only [disinherit, hc, Bool.not_true, Bool.false_eq_true, if_false]
      have hfirst : Yields Panic.Outside
          (if (s.mproc c).tracer = P then tracerDied sig c s else .ok s) fun s₁ =>
          Sound E D s₁ ∧ Evolves E s s₁ ∧ (s₁.mproc c).tracer ≠ P := by
        split
        · rename_i ht
          have hc0 : c ≠ 0 := by
            rintro rfl
            exact h0 (ht.symm.trans h.base.pm.2)
          refine yields_mono (tracerDied_yields hsig h hk hc hc0) ?_
          rintro s₁ ⟨hs₁, he₁, ht₁⟩
          exact ⟨hs₁, he₁, by rw [ht₁]; exact h0.symm⟩
        · rename_i ht
          rw [yields_ok]
          exact ⟨h, .refl s, ht⟩
      refine yields_bind.mpr (yields_mono hfirst ?_)
      rintro s₁ ⟨hs₁, he₁, ht₁⟩
      have hk₁ := Nat.le_trans he₁.liveCount hk
      split
      · refine yields_mono (adopt_yields hsig hs₁ hk₁) ?_
        rintro s' ⟨hs', he', hp'⟩
        refine ⟨hs', he₁.trans he', fun _ => ⟨by rw [hp']; exact hi.symm, ?_⟩⟩
        rcases (he'.moved c).tracer with ht | ht
        · rw [ht]; exact ht₁
        · rw [ht]; exact h0.symm
      · rename_i hp
        rw [yields_ok]
        exact ⟨hs₁, he₁, fun _ => ⟨hp, ht₁⟩⟩

/-- **THE LOOP** leaves `P` without children and without processes it traces. -/
theorem disinherit_all {P : Slot n} (hsig : SigOk E k sig) (h : Sound E D s)
    (hk : liveCount s.mproc ≤ k) (h0 : P ≠ 0) (hi : P ≠ E.initProcNr) :
    Yields Panic.Outside (runAll (disinherit E sig P) s (List.finRange (n + 1))) fun s' =>
      Sound E D s' ∧ Evolves E s s' ∧
        ∀ c, (s'.mproc c).flags.inUse = true → Apart P s' c := by
  have hloop : Yields Panic.Outside (runAll (disinherit E sig P) s (List.finRange (n + 1)))
      fun s' => Sound E D s' ∧ Evolves E s s' ∧
        ∀ c ∈ [] ++ List.finRange (n + 1), (s'.mproc c).flags.inUse = true → Apart P s' c := by
    refine yields_runAll (I := fun before s' => Sound E D s' ∧ Evolves E s s' ∧
      ∀ c ∈ before, (s'.mproc c).flags.inUse = true → Apart P s' c) ?_ [] ⟨h, .refl s, by simp⟩
    rintro before c s₁ ⟨hs₁, he₁, hdone⟩
    refine yields_mono (disinherit_yields hsig hs₁ (Nat.le_trans he₁.liveCount hk) h0 hi) ?_
    rintro s₂ ⟨hs₂, he₂, hc⟩
    refine ⟨hs₂, he₁.trans he₂, fun d hd hu => ?_⟩
    rcases List.mem_append.mp hd with hd | hd
    · exact (hdone d hd ((he₂.moved d).inUse hu)).evolves he₂ h0 hi
    · rw [List.mem_singleton] at hd
      subst hd
      exact hc hu
  refine yields_mono hloop ?_
  rintro s' ⟨hs', he', hall⟩
  exact ⟨hs', he', fun c hu => hall c (by simp) hu⟩

/-- A process without children and tracees is done with them. -/
theorem Base.release {P : Slot n} (h : Base E (fun d => D d ∨ d = P) s)
    (hall : ∀ c, (s.mproc c).flags.inUse = true → Apart P s c) : Base E D s := by
  refine { h with linked := fun c hc => ?_, busy := fun d hd => h.busy d (.inl hd) }
  have hl := h.linked c hc
  obtain ⟨hp, ht⟩ := hall c hc
  exact
    { hl with
      parent := ⟨hl.parent.1, fun hx => (hl.parent.2 hx).resolve_right hp⟩
      tracer := fun h0 => ⟨(hl.tracer h0).1, fun hx => ((hl.tracer h0).2 hx).resolve_right ht⟩ }

/-- A hangup of a process group. -/
theorem checkSig_yields {g : Int} (hsig : SigOk E k sig) (h : Sound E D s)
    (hk : liveCount s.mproc ≤ k) :
    Yields Panic.Outside (checkSig E sig g s) fun s' => Sound E D s' ∧ Evolves E s s' := by
  unfold checkSig
  refine yields_runAll (I := fun _ s' => Sound E D s' ∧ Evolves E s s') ?_ [] ⟨h, .refl s⟩
  rintro before c s₁ ⟨hs₁, he₁⟩
  split
  · rename_i hc
    refine yields_mono (hsig.yields D s₁ c .sighup hs₁ (Nat.le_trans he₁.liveCount hk) hc.1 hc.2) ?_
    rintro s₂ ⟨hs₂, he₂⟩
    exact ⟨hs₂, he₁.trans he₂⟩
  · rw [yields_ok]
    exact ⟨hs₁, he₁⟩

/-! ## Exit -/

/-- A live process PM may end: VFS is not busy with it. -/
def Ready (s : Pm n) (c : Slot n) : Prop :=
  (s.mproc c).live = true ∧ (s.mproc c).flags.vfsCall = false

theorem Ready.inUse (h : Ready s c) : (s.mproc c).flags.inUse = true :=
  (Mproc.live_iff.mp h.1).1

theorem Ready.exiting (h : Ready s c) : (s.mproc c).flags.exiting = false :=
  (Mproc.live_iff.mp h.1).2

/-- A touch without a VFS call in it keeps a process ready. -/
theorem ready_touch {e : Slot n} (s' : Pm n) (h : Sound E D s) (hr : Ready s c)
    (he : (s.mproc e).flags.inUse = true) (ht : Touch (s.mproc e) (s'.mproc e))
    (hv : (s'.mproc e).flags.vfsCall = (s.mproc e).flags.vfsCall)
    (hne : ∀ d, d ≠ e → s'.mproc d = s.mproc d) (hcount : s'.procsInUse = s.procsInUse)
    (hlog : s'.log = s.log) : Sound E D s' ∧ Evolves E s s' ∧ Ready s' c := by
  refine ⟨h.touch he ht hne hcount, .touch h.base he ht hne hlog, ?_⟩
  by_cases hce : c = e
  · subst hce
    exact ⟨by rw [Mproc.live, ht.inUse, ht.exiting]; exact hr.1, hv.trans hr.2⟩
  · unfold Ready
    rw [hne c hce]; exact hr

theorem accountTimes_yields (h : Sound E D s) (hr : Ready s c) :
    Yields Panic.Outside (accountTimes E c s) fun s' =>
      Sound E D s' ∧ Evolves E s s' ∧ Ready s' c := by
  simp only [accountTimes]
  cases E.sysTimes s (s.mproc c).endpoint with
  | none => rw [yields_error]; exact trivial
  | some t =>
      rw [yields_ok]
      refine ready_touch _ h hr (h.base.linked c hr.inUse).parent.1 (.of_core ?_) ?_ ?_ rfl rfl
      · simp [Mproc.core]
      · simp
      · intro d hd
        simp [hd]

theorem stop_yields (h : Sound E D s) (hr : Ready s c) :
    Yields Panic.Outside (stop E c s) fun s' => Sound E D s' ∧ Evolves E s s' ∧ Ready s' c := by
  simp only [stop]
  split
  · rw [yields_ok]
    exact ⟨h, .refl s, hr⟩
  · cases hk : E.sysStop s (s.mproc c).endpoint with
    | false => simp [require, bind, Except.bind, Panic.Outside]
    | true =>
        simp only [require, if_true, bind, Except.bind, yields_ok]
        refine ready_touch _ h hr hr.inUse (.of_core ?_) ?_ ?_ rfl rfl
        · simp [Mproc.core]
        · simp
        · intro d hd
          simp [hd]

theorem require_yields {e : Panic} {ok : Bool} {Q : Pm n → Prop} (he : e.Outside) (h : Q s) :
    Yields Panic.Outside (require e ok s) Q := by
  cases ok with
  | false => simpa [require] using he
  | true => simpa [require] using h

/-- A request to VFS about a process it is not busy with. -/
theorem tellVfs_yields {m : VfsMsg} (h : Sound E D s) (hr : Ready s c) :
    Yields Panic.Outside (E.tellVfs c m s) fun s' => Near E D c s' ∧ Evolves E s s' ∧
      s'.mproc c = { s.mproc c with
        flags := { (s.mproc c).flags with vfsCall := true }, mail := some m } := by
  have hx := hr.exiting
  have hw := h.base.wf c hr.inUse
  let p : Mproc n := { s.mproc c with
    flags := { (s.mproc c).flags with vfsCall := true }, mail := some m }
  have hwp : Wf p :=
    { hw with
      mail := rfl
      lastMail := fun hf => by rw [show p.flags.exiting = false from hx] at hf; cases hf
      dumping := fun hf => by rw [show p.flags.exiting = false from hx] at hf; cases hf }
  have hq : Change E (s.mproc c) p :=
    { wf := hwp, inUse := rfl, exiting := fun hf => hf, endpoint := rfl, pid := rfl
      parent := .inl rfl, vfsCall := fun _ => rfl
      settled := fun hf => by rw [hx] at hf; cases hf
      waiting := fun hf => hf, wpid := rfl, tracer := .inl rfl }
  have hlife : p.life = (s.mproc c).life := by simp [p, Mproc.life, hx]
  obtain ⟨hn₁, he₁⟩ := (h.near c).become (p := p)
    (s.modify c fun p => { p with flags := { p.flags with vfsCall := true }, mail := some m })
    hr.inUse id hq rfl rfl rfl hlife
  rw [E.tellVfs_idle s c m hr.2, yields_ok]
  exact ⟨hn₁.emit _, he₁.trans (.emit _ fun _ => rfl), by simp [Pm.told]⟩

theorem liveCount_lt (he : Evolves E s s') (hc : (s.mproc c).live = true)
    (hc' : (s'.mproc c).live = false) : liveCount s'.mproc < liveCount s.mproc := by
  refine Finset.card_lt_card (Finset.ssubset_iff_subset_ne.mpr ⟨fun d hd => ?_, fun heq => ?_⟩)
  · simp only [Finset.mem_filter, Finset.mem_univ, true_and] at hd ⊢
    exact live_of_moved (he.moved d) hd
  · have hmem : c ∈ Finset.univ.filter fun c => (s.mproc c).live = true := by simp [hc]
    rw [← heq] at hmem
    simp [hc'] at hmem

/-- **THE PROCESS DIES**: from here on it is busy with its children. -/
theorem markExiting_near (status : BitVec 32) {b : Bool} (h : Near E D c s)
    (hlive : (s.mproc c).live = true) (hv : (s.mproc c).flags.vfsCall = true)
    (hm : (s.mproc c).ending = some b) (h0 : c ≠ 0) (hi : c ≠ E.initProcNr) :
    Near E (fun d => D d ∨ d = c) c (markExiting c status s) ∧
      Evolves E s (markExiting c status s) ∧
      (markExiting c status s).mproc c = { s.mproc c with
        flags := (s.mproc c).flags.leave, exitStatus := status.setWidth 8 } := by
  rw [Mproc.live_iff] at hlive
  let p : Mproc n := { s.mproc c with
    flags := (s.mproc c).flags.leave, exitStatus := status.setWidth 8 }
  have hrec : (markExiting c status s).mproc c = p := by simp [markExiting, p]
  have hne : ∀ d, d ≠ c → (markExiting c status s).mproc d = s.mproc d := by
    intro d hd
    simp [markExiting, hd]
  have hwp : Wf p :=
    { h.base.wf c hlive.1 with
      zombie := fun hf => by cases hf
      told := fun hf => by cases hf
      traced := fun hf => by cases hf
      waiting := fun _ => rfl
      stopped := fun _ => rfl
      lastMail := fun _ _ hf => by
        rw [show p.ending = some b from hm] at hf
        cases hf
      dumping := fun _ _ => ⟨rfl, rfl, rfl⟩ }
  have hq : Change E (s.mproc c) p :=
    { wf := hwp, inUse := rfl, exiting := fun _ => rfl, endpoint := rfl, pid := rfl
      parent := .inl rfl, vfsCall := fun hf => hf, settled := fun _ _ => hv
      waiting := fun hf => by cases hf
      wpid := rfl, tracer := .inl rfl }
  rw [← hrec] at hq
  refine ⟨⟨h.base.change hlive.1 hq hne rfl (fun _ hd => .inl hd) ?_
    fun _ => .inr ⟨.inr rfl, h0, hi⟩, fun d hd hu => ?_⟩, .change hq hne
      (.mark rfl (fun _ => ?_) fun d hd => by rw [hne d hd]), hrec⟩
  · rintro d (hd | hd)
    · exact .inl hd
    · refine .inr ⟨hd, ?_⟩
      rw [hrec]
      exact ⟨rfl, hv⟩
  · rw [hne d hd] at hu
    exact (h.tended d hd hu).change hd hq.waiting hq.wpid hne
  · rw [hrec]
    simp [p, Mproc.life, hlive.1, hlive.2, Flags.leave, hv, Life.next]

/-- The parent of a process that has just died hears of it at once, unless a
    core dump comes first. -/
theorem announce_yields (hsig : SigOk E k sig) {b : Bool} {f : Flags} (h : Near E D c s)
    (hk : liveCount s.mproc ≤ k) (hf : (s.mproc c).flags = f.leave) (hu : f.inUse = true)
    (hv : f.vfsCall = true) (hm : (s.mproc c).ending = some b) :
    Yields Panic.Outside (if b then .ok s else zombify sig c s) fun s' =>
      Sound E D s' ∧ Evolves E s s' := by
  cases b with
  | true =>
      simp only [if_true, yields_ok]
      refine ⟨h.sound fun _ => ?_, .refl s⟩
      exact
        { told := fun _ => by rw [hf]; exact hv
          known := fun _ => .inr (.inr (.inr hm))
          alive := fun hx => by rw [hf] at hx; cases hx
          parent := fun hz => by rw [hf] at hz; cases hz
          tracer := fun hz => by rw [hf] at hz; cases hz }
  | false =>
      have hz := zombify_yields hsig h hk (by rw [hf]; exact hu) (by rw [hf]; rfl)
        (by rw [hf]; rfl) (by rw [hf]; rfl) (by rw [hf]; rfl) (by rw [hm]; simp)
      simp only [Bool.false_eq_true, if_false]
      refine yields_mono hz ?_
      rintro s' ⟨hn, he, hleft⟩
      refine ⟨hn.sound fun hu' => (hleft hu').resolve_right ?_, he⟩
      rintro ⟨-, hv'⟩
      have hbusy := ((he.moved c).vfsCall (by rw [hf]; exact hv)).1
      rw [hv'] at hbusy
      cases hbusy

/-- **`exit_proc`** -/
theorem exitProc_yields (hsig : SigOk E k sig) {status : BitVec 32} {core : Bool}
    (h : Sound E D s) (hk : liveCount s.mproc ≤ k + 1) (h0 : c ≠ 0) (hr : Ready s c) :
    Yields Panic.Outside (exitProc E sig c status core s) fun s' =>
      Sound E D s' ∧ Evolves E s s' := by
  unfold exitProc
  extract_lets p dump procgrp s₁
  have halarm : Sound E D s₁ ∧ Evolves E s s₁ ∧ Ready s₁ c := by
    by_cases ha : p.flags.alarmOn = true
    · simp only [s₁, ha, if_true]
      refine ready_touch _ h hr hr.inUse (.of_core ?_) ?_ ?_ rfl rfl
      · simp [Mproc.core]
      · simp
      · intro d hd
        simp [hd]
    · simp only [s₁, ha, Bool.false_eq_true, if_false]
      exact ⟨h, .refl s, hr⟩
  obtain ⟨hs₁, he₁, hr₁⟩ := halarm
  refine yields_bind.mpr (yields_mono (accountTimes_yields hs₁ hr₁) ?_)
  rintro s₂ ⟨hs₂, he₂, hr₂⟩
  refine yields_bind.mpr (yields_mono (stop_yields hs₂ hr₂) ?_)
  rintro s₃ ⟨hs₃, he₃, hr₃⟩
  refine yields_bind.mpr (yields_mono (require_yields trivial (Q := fun s => s₃ = s) rfl) ?_)
  rintro _ rfl
  have he : Evolves E s s₃ := he₁.trans (he₂.trans he₃)
  split
  · rw [yields_ok]
    exact ⟨hs₃, he⟩
  · rename_i hinit
    have hi : c ≠ E.initProcNr := by
      rintro rfl
      exact hinit h.base.init.2
    split
    · rw [yields_error]; exact trivial
    · refine yields_bind.mpr (yields_mono (tellVfs_yields hs₃ hr₃) ?_)
      rintro s₄ ⟨hn₄, he₄, hrec₄⟩
      refine yields_bind.mpr (yields_mono (require_yields trivial (Q := fun s => s₄ = s) rfl) ?_)
      rintro _ rfl
      have hlive : (s₄.mproc c).live = true := by rw [hrec₄]; exact hr₃.1
      have hm : (s₄.mproc c).ending = some dump := by
        rw [hrec₄]
        cases dump with
        | false => rfl
        | true => rfl
      obtain ⟨hn₅, he₅, hrec₅⟩ := markExiting_near status hn₄ hlive
        (by rw [hrec₄]) hm h0 hi
      have he' : Evolves E s (markExiting c status s₄) := he.trans (he₄.trans he₅)
      have hk₅ : liveCount (markExiting c status s₄).mproc ≤ k := by
        have hlt := liveCount_lt (he.trans (he₄.trans he₅)) hr.1 (by
          rw [hrec₅]; simp [Mproc.live, Flags.leave])
        omega
      have hm₅ : ((markExiting c status s₄).mproc c).ending = some dump := by
        rw [hrec₅]; exact hm
      have hu₄ : (s₄.mproc c).flags.inUse = true := (Mproc.live_iff.mp hlive).1
      refine yields_bind.mpr (yields_mono (announce_yields hsig hn₅ hk₅ (by rw [hrec₅]) hu₄
        (by rw [hrec₄]) hm₅) ?_)
      rintro s₆ ⟨hs₆, he₆⟩
      have hk₆ := Nat.le_trans he₆.liveCount hk₅
      refine yields_bind.mpr (yields_mono (disinherit_all hsig hs₆ hk₆ h0 hi) ?_)
      rintro s₇ ⟨hs₇, he₇, hall⟩
      have hs₇' : Sound E D s₇ := ⟨hs₇.base.release hall, hs₇.tended⟩
      have hto := he'.trans (he₆.trans he₇)
      split
      · refine yields_mono (checkSig_yields hsig hs₇' (Nat.le_trans he₇.liveCount hk₆)) ?_
        rintro s' ⟨hs', he₈⟩
        exact ⟨hs', hto.trans he₈⟩
      · rw [yields_ok]
        exact ⟨hs₇', hto⟩

/-! ## Signals -/

/-- What the rest of PM does to a live process is a touch. -/
theorem Adjusted.touch {p q : Mproc n} (h : Adjusted p q) (hp : Wf p)
    (hx : p.flags.exiting = false) : Touch p q where
  wf _ :=
    { zombie := fun hf => by
        rw [h.zombie] at hf
        rw [(hp.zombie hf).1] at hx; cases hx
      told := fun hf => by
        rw [h.toldParent] at hf
        rw [(hp.told hf).1] at hx; cases hx
      traced := fun hf => by
        rw [h.traceZombie] at hf
        rw [(hp.traced hf).1] at hx; cases hx
      waiting := fun hf => by rw [h.exiting, hx] at hf; cases hf
      stopped := fun hf => by rw [h.exiting, hx] at hf; cases hf
      mail := by
        rcases h.vfs with ⟨hv, hm⟩ | ⟨-, hv, hm⟩
        · rw [hv, hm]; exact hp.mail
        · rw [hv, hm]; rfl
      lastMail := fun hf => by rw [h.exiting, hx] at hf; cases hf
      dumping := fun hf => by rw [h.exiting, hx] at hf; cases hf
      traceExit := h.traceExit
      pid := by rw [h.pid]; exact hp.pid
      procgrp := h.procgrp
      scheduler := h.scheduler
      parent := by rw [h.parent]; exact hp.parent }
  inUse := h.inUse
  exiting := h.exiting
  zombie := h.zombie
  told := h.toldParent
  traced := h.traceZombie
  vfsCall := h.vfs.imp And.left fun hv => ⟨hx, hv.1⟩
  waiting := h.waiting
  endpoint := h.endpoint
  pid := h.pid
  procgrp := .inr hx
  wpid := h.wpid
  parent := h.parent
  tracer := by
    refine h.tracer.imp_right fun ht => ⟨?_, ht⟩
    by_contra hz
    rw [(hp.traced (by simpa using hz)).1] at hx
    cases hx
  exitStatus := h.exitStatus
  sigStatus := .inr hx
  ending := h.vfs.imp (fun hv => by rw [Mproc.ending, hv.2, Mproc.ending]) fun hv =>
    ⟨hx, by rw [Mproc.ending, hv.2.2]; rfl⟩

theorem adjustSlot_sound {x : Slot n × Adjust n} (h : Sound E D s) :
    Sound E D (adjustSlot s x) ∧ Evolves E s (adjustSlot s x) := by
  unfold adjustSlot
  split
  · rename_i hlive
    obtain ⟨hu, hx⟩ := Mproc.live_iff.mp hlive
    have hw := h.base.wf x.1 hu
    exact h.modify x.2.run hu ((x.2.adjusted (s.mproc x.1) hw hlive).touch hw hx)
  · exact ⟨h, .refl s⟩

theorem adjust_sound (l : List (Slot n × Adjust n)) : ∀ {s : Pm n}, Sound E D s →
    Sound E D (l.foldl adjustSlot s) ∧ Evolves E s (l.foldl adjustSlot s) := by
  induction l with
  | nil => intro s h; exact ⟨h, .refl s⟩
  | cons x l ih =>
      intro s h
      obtain ⟨h₁, he₁⟩ := adjustSlot_sound (x := x) h
      obtain ⟨h₂, he₂⟩ := ih h₁
      exact ⟨h₂, he₁.trans he₂⟩

/-- The signal that ends a live process is noted in its record. -/
theorem touch_sigStatus {p : Mproc n} (g : BitVec 8) (hx : p.flags.exiting = false) :
    Touch p { p with sigStatus := g } where
  wf hp := { hp with }
  inUse := rfl
  exiting := rfl
  zombie := rfl
  told := rfl
  traced := rfl
  vfsCall := .inl rfl
  waiting hw := hw
  endpoint := rfl
  pid := rfl
  procgrp := .inl rfl
  wpid := rfl
  parent := rfl
  tracer := .inl rfl
  exitStatus := rfl
  sigStatus := .inr hx
  ending := .inl rfl

/-- **SIGNALS** do no harm, however exits nest inside one another. -/
theorem sigProc_ok (E : Env n) : ∀ k, SigOk E k (sigProc E k) := by
  intro k
  induction k with
  | zero =>
      refine ⟨?_⟩
      intro D s c g _ hk _ hlive
      have hmem : c ∈ Finset.univ.filter fun c => (s.mproc c).live = true := by simp [hlive]
      have hpos := Finset.card_pos.mpr ⟨c, hmem⟩
      unfold liveCount at hk
      omega
  | succ k ih =>
      refine ⟨?_⟩
      intro D s c g hs hk h0 hlive
      simp only [sigProc, hlive, Bool.not_true, Bool.false_eq_true, if_false]
      cases E.react s c g with
      | adjust changes =>
          rw [yields_ok]
          exact adjust_sound changes hs
      | terminate signo core =>
          cases hv : (s.mproc c).flags.vfsCall with
          | true =>
              simp only [if_true, yields_ok]
              exact ⟨hs, .refl s⟩
          | false =>
              simp only [Bool.false_eq_true, if_false]
              have hr : Ready s c := ⟨hlive, hv⟩
              obtain ⟨hs₁, he₁, hr₁⟩ := ready_touch
                (s.modify c fun p => { p with sigStatus := BitVec.ofNat 8 signo.val }) hs hr
                hr.inUse (by simpa using touch_sigStatus _ hr.exiting) (by simp)
                (fun d hd => by simp [hd]) rfl rfl
              refine yields_mono (exitProc_yields ih hs₁ (Nat.le_trans he₁.liveCount hk) h0 hr₁) ?_
              rintro s' ⟨hs', he'⟩
              exact ⟨hs', he₁.trans he'⟩

end OsForkExit
