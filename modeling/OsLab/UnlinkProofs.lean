import OsLab.UnlinkModelProofs

/-! # When `do_unlink` gives back what it took

    A look-up that answers with a vnode of its own is undone by the block
    that made it (`stickyCheck_plain`, `message_plain`).  Three things are
    not undone.  The directory itself, which `advance` does not lock a second
    time, is unlocked by the block and once more at the end
    (`leave_unlocked`); the mount point that the look-up for the message
    leaves locked stays locked (`message_count`); and with no vnode the
    message follows the null pointer.  In all other cases the two versions
    of the call answer the same and hold nothing (`unlink_exact`). -/

namespace Unlink

open OsLoop OsLedger UnlinkModel

/-! ## What is asked of the call -/

/-- The call returns what the original returns, and holds nothing. -/
def Safe (env : Env) : Prop :=
  ∃ r, doUnlink env [] = .ok (r, []) ∧ ∃ held, originalDoUnlink env [] = .ok (r, held)

/-- The look-up leaves no mount point locked, and does not end in the
    directory itself. -/
def Plain (a : Advanced) (dirp : Vnode) : Prop :=
  a.vmp2 = none ∧ ∀ vp, a.vp = some vp → vp.slot ≠ dirp.slot

def Sticky (dirp : Vnode) : Prop := dirp.vMode &&& sIsvtx = sIsvtx

instance (dirp : Vnode) : Decidable (Sticky dirp) := inferInstanceAs (Decidable (_ = _))

/-- The call gets to the look-ups with this directory and mount point. -/
def Reaches (env : Env) (dirp : Vnode) (vmp : Vmnt) : Prop :=
  env.copyPath = ok ∧ env.lastDir = some (dirp, vmp) ∧ sIsDir dirp.vMode = true ∧
    env.forbidden dirp = ok

/-- Every look-up that the call gets to is plain, and that for the message
    finds a vnode on `/home`. -/
def Clean (env : Env) : Prop :=
  ∀ dirp vmp, Reaches env dirp vmp → (Sticky dirp → Plain env.stickyLookup dirp) ∧
    ((Sticky dirp → ownerCheck env = ok) →
      Plain env.fileLookup dirp ∧ (vmp.mMountPath = "/home" → env.fileLookup.vp ≠ none))

section Blocks

variable {env : Env} {dirp : Vnode} {vmp : Vmnt} {a : Advanced} {held held' : Held} {r : Int}

/-! ## The end of a path -/

theorem leave_ok (dirp : Vnode) (vmp : Vmnt) (r : Int) (held : Held) :
    leave dirp vmp r (lastDirHeld dirp vmp held) = .ok (r, held) := by
  refine bind_ok.mpr ⟨_, release_top .., bind_ok.mpr ⟨.vnodeRef dirp.slot :: held, ?_,
    bind_ok.mpr ⟨held, release_top .., rfl⟩⟩⟩
  exact release_under (fun h => nomatch h) (release_top ..)

/-- The directory is not unlocked twice. -/
theorem leave_unlocked (h : .vnodeLock dirp.slot ∉ held) :
    leave dirp vmp r held = .error .notHeld :=
  bind_error.mpr (Or.inl (release_fails h))

/-- A lock on a mount point. -/
def isVmnt : Res → Bool
  | .vmntLock _ => true
  | _ => false

/-- The end of a path unlocks one mount point. -/
theorem leave_count {ret : Int × Held} (h : leave dirp vmp r held = .ok ret) :
    ret.2.countP isVmnt + 1 = held.countP isVmnt := by
  obtain ⟨h₁, hunlock, hrest⟩ := bind_ok.mp h
  obtain ⟨h₂, hvmnt, hrest⟩ := bind_ok.mp hrest
  obtain ⟨h₃, hput, hend⟩ := bind_ok.mp hrest
  cases hend
  have c₁ := release_count hunlock isVmnt
  have c₂ := release_count hvmnt isVmnt
  have c₃ := release_count hput isVmnt
  simp only [isVmnt, if_true, Bool.false_eq_true, if_false] at c₁ c₂ c₃
  show h₃.countP isVmnt + 1 = _
  omega

/-! ## The look-ups -/

/-- Only the directory is locked so far. -/
theorem not_locked {vp : Vnode} (hne : vp.slot ≠ dirp.slot) :
    .vnodeLock vp.slot ∉ lastDirHeld dirp vmp [] := by
  simp [lastDirHeld, hne]

/-- A vnode that was locked by the look-up is given back. -/
theorem give_back {vp : Vnode} (hvp : a.vp = some vp) (hvmp : a.vmp2 = none)
    (hnot : .vnodeLock vp.slot ∉ held) :
    (unlockVnode vp (advance a held) >>= fun held => putVnode vp held) = .ok held := by
  have hadvance : advance a held = .vnodeRef vp.slot :: .vnodeLock vp.slot :: held := by
    simp only [advance, hvp, hvmp, if_neg hnot]
  rw [hadvance]
  exact bind_ok.mpr ⟨.vnodeRef vp.slot :: held,
    release_under (fun h => nomatch h) (release_top ..), release_top ..⟩

/-- A lock on the directory. -/
def isLock (dirp : Vnode) : Res → Bool := (· == .vnodeLock dirp.slot)

theorem unlocked_iff : .vnodeLock dirp.slot ∉ held ↔ held.countP (isLock dirp) = 0 := by
  rw [List.countP_eq_zero]
  constructor
  · intro hnot res hres hlock
    exact hnot (eq_of_beq hlock ▸ hres)
  · intro hnone hmem
    exact hnone _ hmem (beq_self_eq_true _)

/-- What is held once the mount point it met is locked. -/
def entered (vmp2 : Option Vmnt) (held : Held) : Held :=
  match vmp2 with
  | none => held
  | some vmp2 => .vmntLock vmp2.slot :: held

theorem advance_none (vmp2 : Option Vmnt) (errCode : Int) (held : Held) :
    advance ⟨vmp2, none, errCode⟩ held = entered vmp2 held := rfl

theorem advance_some (vmp2 : Option Vmnt) (vp : Vnode) (errCode : Int) (held : Held) :
    advance ⟨vmp2, some vp, errCode⟩ held = .vnodeRef vp.slot ::
      if .vnodeLock vp.slot ∈ held then entered vmp2 held
      else .vnodeLock vp.slot :: entered vmp2 held := rfl

theorem entered_vmnt (vmp2 : Option Vmnt) (held : Held) :
    (entered vmp2 held).countP isVmnt = held.countP isVmnt + if vmp2.isSome then 1 else 0 := by
  cases vmp2 with
  | none => rfl
  | some vmp2 => exact List.countP_cons_of_pos rfl

theorem entered_lock (vmp2 : Option Vmnt) (held : Held) :
    (entered vmp2 held).countP (isLock dirp) = held.countP (isLock dirp) := by
  cases vmp2 with
  | none => rfl
  | some vmp2 => exact List.countP_cons_of_neg Bool.false_ne_true

theorem advance_vmnt (a : Advanced) (held : Held) :
    (advance a held).countP isVmnt = held.countP isVmnt + if a.vmp2.isSome then 1 else 0 := by
  rcases a with ⟨vmp2, vp, errCode⟩
  cases vp with
  | none => rw [advance_none, entered_vmnt]
  | some vp =>
      rw [advance_some, List.countP_cons_of_neg Bool.false_ne_true]
      split
      · rw [entered_vmnt]
      · rw [List.countP_cons_of_neg Bool.false_ne_true, entered_vmnt]

theorem advance_lock {vp : Vnode} (hvp : a.vp = some vp) :
    (advance a held).countP (isLock dirp) = held.countP (isLock dirp) +
      if vp.slot = dirp.slot ∧ .vnodeLock vp.slot ∉ held then 1 else 0 := by
  rcases a with ⟨vmp2, vp', errCode⟩
  obtain rfl : vp' = some vp := hvp
  rw [advance_some, List.countP_cons_of_neg Bool.false_ne_true]
  by_cases hmem : .vnodeLock vp.slot ∈ held
  · rw [if_pos hmem, if_neg (fun h => h.2 hmem), entered_lock]
    rfl
  rw [if_neg hmem, List.countP_cons, entered_lock]
  by_cases hslot : vp.slot = dirp.slot
  · have hself : isLock dirp (.vnodeLock vp.slot) = true := by simp [isLock, hslot]
    rw [if_pos hself, if_pos ⟨hslot, hmem⟩]
  · have hother : ¬ isLock dirp (.vnodeLock vp.slot) = true := by simp [isLock, hslot]
    rw [if_neg hother, if_neg (fun h => hslot h.1)]

/-- What the return of the looked-up vnode leaves of mount points. -/
theorem give_back_vmnt {vp : Vnode}
    (h : (unlockVnode vp (advance a held) >>= fun held => putVnode vp held) = .ok held') :
    held'.countP isVmnt = held.countP isVmnt + if a.vmp2.isSome then 1 else 0 := by
  obtain ⟨h₁, hunlock, hput⟩ := bind_ok.mp h
  have c₁ := release_count hunlock isVmnt
  have c₂ := release_count hput isVmnt
  simp only [isVmnt, Bool.false_eq_true, if_false] at c₁ c₂
  rw [← advance_vmnt, ← c₁, ← c₂]
  rfl

/-- And of the directory: it is not locked when it was not before, or when it
    is the vnode itself. -/
theorem give_back_unlocked {vp : Vnode} (hvp : a.vp = some vp)
    (hone : held.countP (isLock dirp) ≤ 1)
    (hdir : .vnodeLock dirp.slot ∉ held ∨ vp.slot = dirp.slot)
    (h : (unlockVnode vp (advance a held) >>= fun held => putVnode vp held) = .ok held') :
    .vnodeLock dirp.slot ∉ held' := by
  obtain ⟨h₁, hunlock, hput⟩ := bind_ok.mp h
  have l₁ := release_count hunlock (isLock dirp)
  have l₂ := release_count hput (isLock dirp)
  have hadd : (advance a held).countP (isLock dirp) = held.countP (isLock dirp) +
      if vp.slot = dirp.slot ∧ .vnodeLock vp.slot ∉ held then 1 else 0 := advance_lock hvp
  rw [unlocked_iff] at hdir ⊢
  by_cases hslot : vp.slot = dirp.slot
  · rw [hslot] at hadd
    have hlocked : .vnodeLock dirp.slot ∉ held ↔ held.countP (isLock dirp) = 0 := unlocked_iff
    have hself : isLock dirp (.vnodeLock vp.slot) = true := by simp [isLock, hslot]
    rw [if_pos hself] at l₁
    simp only [hlocked, true_and] at hadd
    split at hadd <;> omega
  · rw [if_neg (fun hboth => hslot hboth.1)] at hadd
    obtain hnone | hsame := hdir
    · omega
    · exact absurd hsame hslot

/-! ## The two blocks -/

theorem stickyCheck_plain (hplain : Plain env.stickyLookup dirp) :
    stickyCheck env (lastDirHeld dirp vmp []) =
      .ok (ownerCheck env, lastDirHeld dirp vmp []) := by
  obtain ⟨hvmp, hnot⟩ := hplain
  simp only [stickyCheck, hvmp, Option.isSome_none, Bool.false_eq_true, if_false]
  cases hvp : env.stickyLookup.vp with
  | none => simp only [advance, hvmp, hvp]
  | some vp =>
      obtain ⟨held, hunlock, hput⟩ := bind_ok.mp (give_back hvp hvmp (not_locked (hnot vp hvp)))
      exact bind_ok.mpr ⟨held, hunlock, bind_ok.mpr ⟨_, hput, rfl⟩⟩

theorem message_plain (hplain : Plain env.fileLookup dirp)
    (hhome : vmp.mMountPath = "/home" → env.fileLookup.vp ≠ none) :
    deletionMessage env vmp (lastDirHeld dirp vmp []) = .ok (lastDirHeld dirp vmp []) := by
  obtain ⟨hvmp, hnot⟩ := hplain
  cases hvp : env.fileLookup.vp with
  | none =>
      have hother : vmp.mMountPath ≠ "/home" := fun h => hhome h hvp
      simp only [deletionMessage, hvp, hother, false_and, if_false, advance, hvmp]
  | some vp =>
      simp only [deletionMessage, hvp, Option.isNone_some, Bool.false_eq_true, and_false, if_false]
      exact give_back hvp hvmp (not_locked (hnot vp hvp))

/-- A sticky check that returns met no mount point, and where it looked up the
    directory itself this is unlocked. -/
theorem stickyCheck_held (h : stickyCheck env (lastDirHeld dirp vmp []) = .ok (r, held)) :
    Plain env.stickyLookup dirp ∨ .vnodeLock dirp.slot ∉ held := by
  simp only [stickyCheck] at h
  split at h
  · exact nomatch h
  next hvmp =>
  have hnone : env.stickyLookup.vmp2 = none := by simpa using hvmp
  split at h
  · next hvp => exact Or.inl ⟨hnone, fun vp hsome => nomatch hvp.symm.trans hsome⟩
  next vp hvp =>
  obtain ⟨h₁, hunlock, h⟩ := bind_ok.mp h
  obtain ⟨h₂, hput, h⟩ := bind_ok.mp h
  cases h
  by_cases hslot : vp.slot = dirp.slot
  · refine Or.inr (give_back_unlocked hvp ?_ (Or.inr hslot) (bind_ok.mpr ⟨h₁, hunlock, hput⟩))
    simp [lastDirHeld, isLock]
  · exact Or.inl ⟨hnone, fun vp' hsome => Option.some.inj (hvp.symm.trans hsome) ▸ hslot⟩

/-- What the block for the message does with the mount points it is left, and
    what it needs of the vnode. -/
theorem message_held (h : deletionMessage env vmp held = .ok held') :
    (held'.countP isVmnt = held.countP isVmnt + if env.fileLookup.vmp2.isSome then 1 else 0) ∧
      (vmp.mMountPath = "/home" → env.fileLookup.vp ≠ none) := by
  simp only [deletionMessage] at h
  split at h
  · exact nomatch h
  next hhome =>
  refine ⟨?_, fun hpath hnone => hhome ⟨hpath, by rw [hnone]; rfl⟩⟩
  split at h
  · cases h
    exact advance_vmnt ..
  · exact give_back_vmnt h

/-- And with the directory. -/
theorem message_unlocked (hone : held.countP (isLock dirp) ≤ 1)
    (hdir : .vnodeLock dirp.slot ∉ held ∨
      ∃ vp, env.fileLookup.vp = some vp ∧ vp.slot = dirp.slot)
    (h : deletionMessage env vmp held = .ok held') : .vnodeLock dirp.slot ∉ held' := by
  simp only [deletionMessage] at h
  split at h
  · exact nomatch h
  split at h
  · next hvp =>
      cases h
      obtain hnot | ⟨vp, hsome, -⟩ := hdir
      · simp only [advance, hvp]
        split <;> simp [hnot]
      · exact nomatch hvp.symm.trans hsome
  · next vp hvp =>
      refine give_back_unlocked hvp hone (hdir.imp id ?_) h
      rintro ⟨vp', hsome, hslot⟩
      exact Option.some.inj (hvp.symm.trans hsome) ▸ hslot

/-! ## The call -/

/-- Behind the checks, an unlocked directory is unlocked once more. -/
theorem after_unlocked {ret : Int × Held} (hnot : .vnodeLock dirp.slot ∉ held) :
    afterChecks (deletionMessage env) env dirp vmp r held ≠ .ok ret := by
  intro h
  rw [afterChecks] at h
  split at h
  · exact nomatch (leave_unlocked hnot).symm.trans h
  · obtain ⟨held', hblock, hleave⟩ := bind_ok.mp h
    have hzero : held.countP (isLock dirp) = 0 := unlocked_iff.mp hnot
    have hnot' := message_unlocked (hzero ▸ Nat.zero_le 1) (Or.inl hnot) hblock
    exact nomatch (leave_unlocked hnot').symm.trans hleave

/-- With the directory locked and no complaint of the sticky check, a call that
    gives everything back had a plain look-up. -/
theorem after_plain
    (h : afterChecks (deletionMessage env) env dirp vmp ok (lastDirHeld dirp vmp []) =
      .ok (r, [])) :
    Plain env.fileLookup dirp ∧ (vmp.mMountPath = "/home" → env.fileLookup.vp ≠ none) := by
  rw [afterChecks, if_neg (not_not.mpr rfl)] at h
  obtain ⟨held, hblock, hleave⟩ := bind_ok.mp h
  have hvmnt := leave_count hleave
  have ⟨hcount, hhome⟩ := message_held hblock
  have hbefore : (lastDirHeld dirp vmp []).countP isVmnt = 1 := rfl
  refine ⟨⟨?_, ?_⟩, hhome⟩
  · cases hsome : env.fileLookup.vmp2 with
    | none => rfl
    | some vmp2 =>
        -- one mount point more than the end of the call unlocks
        rw [hbefore, hsome, Option.isSome_some, if_pos rfl] at hcount
        rw [hcount] at hvmnt
        exact nomatch hvmnt
  · intro vp hvp hslot
    have hone : (lastDirHeld dirp vmp []).countP (isLock dirp) ≤ 1 := by
      simp [lastDirHeld, isLock]
    have hnot := message_unlocked hone (Or.inr ⟨vp, hvp, hslot⟩) hblock
    exact nomatch (leave_unlocked hnot).symm.trans hleave

end Blocks

section Call

variable {env : Env} {dirp : Vnode} {vmp : Vmnt}

/-- A call that gets to the look-ups, with the sticky bit and without. -/
theorem unlink_sticky (block : Vmnt → Held → Except Fault Held)
    (hreach : Reaches env dirp vmp) (hsticky : Sticky dirp) : unlinkWith block env [] =
      stickyCheck env (lastDirHeld dirp vmp []) >>=
        fun checked => afterChecks block env dirp vmp checked.1 checked.2 := by
  obtain ⟨hcopy, hdir, hisdir, hforbidden⟩ := hreach
  have hbit : dirp.vMode &&& sIsvtx = sIsvtx := hsticky
  simp only [unlinkWith, hcopy, hdir, hisdir, hforbidden, hbit, ne_eq, not_true, if_false, if_true]

theorem unlink_other (block : Vmnt → Held → Except Fault Held)
    (hreach : Reaches env dirp vmp) (hsticky : ¬ Sticky dirp) : unlinkWith block env [] =
      afterChecks block env dirp vmp ok (lastDirHeld dirp vmp []) := by
  obtain ⟨hcopy, hdir, hisdir, hforbidden⟩ := hreach
  have hbit : ¬ dirp.vMode &&& sIsvtx = sIsvtx := hsticky
  simp only [unlinkWith, hcopy, hdir, hisdir, hforbidden, hbit, ne_eq, not_true, if_false]
  rfl

/-- A call that does not get there. -/
theorem unlink_early (hreach : ∀ dirp vmp, ¬ Reaches env dirp vmp) :
    ∃ r, ∀ block, unlinkWith block env [] = .ok (r, []) := by
  by_cases hcopy : env.copyPath = ok
  case neg => exact ⟨env.copyPathErr, fun block => if_pos hcopy⟩
  cases hdir : env.lastDir with
  | none => exact ⟨env.lastDirErr, fun block => by simp [unlinkWith, hcopy, hdir]⟩
  | some found =>
      obtain ⟨dirp, vmp⟩ := found
      by_cases hisdir : sIsDir dirp.vMode = true
      · have hforbidden : env.forbidden dirp ≠ ok := fun h =>
          hreach dirp vmp ⟨hcopy, hdir, hisdir, h⟩
        exact ⟨env.forbidden dirp, fun block => by
          simp [unlinkWith, hcopy, hdir, hisdir, hforbidden, leave_ok]⟩
      · exact ⟨enotdir, fun block => by simp [unlinkWith, hcopy, hdir, hisdir, leave_ok]⟩

/-- Behind the checks, with a plain look-up: next to the original. -/
theorem after_safe {r : Int}
    (hfile : r = ok → Plain env.fileLookup dirp ∧
      (vmp.mMountPath = "/home" → env.fileLookup.vp ≠ none)) :
    ∃ r', afterChecks (deletionMessage env) env dirp vmp r (lastDirHeld dirp vmp []) =
        .ok (r', []) ∧
      afterChecks (fun _ held => .ok held) env dirp vmp r (lastDirHeld dirp vmp []) =
        .ok (r', []) := by
  by_cases hr : r = ok
  · obtain ⟨hplain, hhome⟩ := hfile hr
    simp only [afterChecks, hr, ne_eq, not_true, if_false]
    exact ⟨_, bind_ok.mpr ⟨_, message_plain hplain hhome, leave_ok ..⟩,
      bind_ok.mpr ⟨_, rfl, leave_ok ..⟩⟩
  · simp only [afterChecks, ne_eq, hr, not_false_iff, if_true]
    exact ⟨r, leave_ok .., leave_ok ..⟩

/-- The call with plain look-ups. -/
theorem unlink_plain (hreach : Reaches env dirp vmp)
    (hplain : Sticky dirp → Plain env.stickyLookup dirp)
    (hfile : (Sticky dirp → ownerCheck env = ok) →
      Plain env.fileLookup dirp ∧ (vmp.mMountPath = "/home" → env.fileLookup.vp ≠ none)) :
    Safe env := by
  by_cases hsticky : Sticky dirp
  · have hcheck : stickyCheck env (lastDirHeld dirp vmp []) =
        .ok (ownerCheck env, lastDirHeld dirp vmp []) := stickyCheck_plain (hplain hsticky)
    obtain ⟨r, hcall, horiginal⟩ := after_safe (r := ownerCheck env) fun h => hfile fun _ => h
    refine ⟨r, ?_, [], ?_⟩
    · exact (unlink_sticky _ hreach hsticky).trans (bind_ok.mpr ⟨_, hcheck, hcall⟩)
    · exact (unlink_sticky _ hreach hsticky).trans (bind_ok.mpr ⟨_, hcheck, horiginal⟩)
  · obtain ⟨r, hcall, horiginal⟩ := after_safe (r := ok) fun _ => hfile fun h => absurd h hsticky
    refine ⟨r, ?_, [], ?_⟩
    · exact (unlink_other _ hreach hsticky).trans hcall
    · exact (unlink_other _ hreach hsticky).trans horiginal

/-- A safe call had plain look-ups. -/
theorem plain_of_safe (hreach : Reaches env dirp vmp) (hsafe : Safe env) :
    (Sticky dirp → Plain env.stickyLookup dirp) ∧
      ((Sticky dirp → ownerCheck env = ok) →
        Plain env.fileLookup dirp ∧ (vmp.mMountPath = "/home" → env.fileLookup.vp ≠ none)) := by
  obtain ⟨r, hcall, -⟩ := hsafe
  rw [doUnlink] at hcall
  by_cases hsticky : Sticky dirp
  · rw [unlink_sticky _ hreach hsticky] at hcall
    obtain ⟨⟨r', held⟩, hchecked, hafter⟩ := bind_ok.mp hcall
    obtain hplain | hnot := stickyCheck_held hchecked
    · refine ⟨fun _ => hplain, fun howner => ?_⟩
      obtain ⟨rfl, rfl⟩ := Prod.mk.inj (Except.ok.inj (hchecked.symm.trans
        (stickyCheck_plain hplain)))
      rw [howner hsticky] at hafter
      exact after_plain hafter
    · exact absurd hafter (after_unlocked hnot)
  · rw [unlink_other _ hreach hsticky] at hcall
    exact ⟨fun h => absurd h hsticky, fun _ => after_plain hcall⟩

end Call

/-- **`do_unlink`**: it answers as the original and gives back all it took
    exactly when its look-ups are plain, and that for the message finds the
    file on `/home`. -/
theorem unlink_exact (env : Env) : Safe env ↔ Clean env := by
  constructor
  · exact fun hsafe dirp vmp hreach => plain_of_safe hreach hsafe
  · intro hclean
    by_cases hreach : ∃ dirp vmp, Reaches env dirp vmp
    · obtain ⟨dirp, vmp, hreach⟩ := hreach
      have ⟨hsticky, hfile⟩ := hclean dirp vmp hreach
      exact unlink_plain hreach hsticky hfile
    · obtain ⟨r, hcall⟩ := unlink_early fun dirp vmp h => hreach ⟨dirp, vmp, h⟩
      exact ⟨r, hcall _, [], hcall _⟩

/-- A missing file on `/home`. -/
def missing : Env where
  copyPath := ok
  copyPathErr := 0
  lastDir := some (⟨0, 0o040777, 0, 1, 1⟩, ⟨0, "/home"⟩)
  lastDirErr := 0
  forbidden _ := ok
  stickyLookup := ⟨none, none, -2⟩
  effuid := 0
  fileLookup := ⟨none, none, -2⟩
  unlinkCall := true
  reqUnlink _ _ := -2
  reqRmdir _ _ := -2

/-- The original answers that there is no such file; the message follows the
    null pointer. -/
theorem missing_unsafe : doUnlink missing [] = .error .nullVnode ∧
    originalDoUnlink missing [] = .ok (-2, []) ∧ ¬ Safe missing := by
  refine ⟨rfl, rfl, ?_⟩
  rintro ⟨r, hcall, -⟩
  exact nomatch hcall

end Unlink
