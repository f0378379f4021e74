import OsLab.LinkCallsModelProofs
import OsLab.UnlinkProofs

/-! # What the calls of `link.c` hold when they return

    A call with one name gives back what its look-up took (`withName_ok`).
    With two names the second look-up may meet what the first one has locked.
    `do_rename` unlocks only what was locked (`leaveRename_ok`), for the
    directory as for the mount point; `do_link` asks this of the mount point
    only, and unlocks a vnode twice when the file to link to is the directory
    of the new name (`leaveLink_same`).  The block for the sticky bit has the
    defect that it has in `do_unlink`: where the name is the directory itself,
    the directory is left unlocked (`renameOnto_unlocked`).

    So a thread that serves any calls ends with nothing held, and gets through
    them exactly when none is of these two kinds (`calls_balanced`). -/

namespace LinkCalls

open OsLoop OsLedger LinkCallsModel Unlink
open UnlinkModel hiding Env

/-- When a call gives back what it took. -/
def Tidy : Call → Prop
  | .link env => ∀ f g, env.name1 = .ok f → env.name2 = .ok g → f.vp.slot ≠ g.vp.slot
  | .unlink env => ∀ dirp vmp, Reaches env dirp vmp → Sticky dirp → Plain env.stickyLookup dirp
  | .rename env => ∀ f, env.name1 = .ok f → Sticky f.vp → Plain env.checks.stickyLookup f.vp
  | .truncate _ _ => True
  | .slink _ _ => True
  | .rdlink _ _ => True
  | .rdlinkDirect _ => True

section Lookups

variable {f g : Found} {held : Held}

/-- The lock on the directory of the first name. -/
theorem lockedVnode_same (h : g.vp.slot = f.vp.slot) :
    lockedVnode g (lastDirHeld f.vp f.vmp []) = none :=
  if_pos (by simp [lastDirHeld, h])

theorem lockedVnode_other (h : g.vp.slot ≠ f.vp.slot) :
    lockedVnode g (lastDirHeld f.vp f.vmp []) = some g.vp :=
  if_neg (by simp [lastDirHeld, h])

/-- A look-up locks no vnode but its own. -/
theorem not_mem_lookUp {slot : Nat} (hne : slot ≠ g.vp.slot) (hnot : .vnodeLock slot ∉ held) :
    .vnodeLock slot ∉ lookUp g held := by
  rw [lookUp, lockedVnode, lockedVmnt]
  split <;> split <;> simp [enterVnode, enterVmnt, hne, hnot]

end Lookups

/-! ## Calls with one name -/

theorem withName_ok (name : Lookup) (act : Vnode → Int) (held : Held) :
    ∃ r, withName name act held = .ok (r, held) := by
  cases name with
  | error e => exact ⟨e.code, rfl⟩
  | ok f => exact ⟨act f.vp, leave_ok ..⟩

/-! ## `do_link` -/

section Link

variable {env : Env} {f g : Found}

/-- What the end of `do_link` releases, in its order. -/
def linkReleases (f g : Found) (vmp2 : Option Vmnt) : Held :=
  .vnodeLock f.vp.slot :: .vnodeLock g.vp.slot ::
    enterVmnt vmp2 [.vmntLock f.vmp.slot, .vnodeRef f.vp.slot, .vnodeRef g.vp.slot]

theorem leaveLink_eq (vmp2 : Option Vmnt) (held : Held) :
    leaveLink env f g vmp2 held = releaseAll .notHeld (linkReleases f g vmp2) held >>=
      fun held => .ok (linkAnswer env f.vp g.vp, held) := by
  cases vmp2 with
  | none =>
      simp only [leaveLink, linkReleases, enterVmnt, releaseAll, unlockVmntIf, bind_assoc]
      rfl
  | some vmp =>
      simp only [leaveLink, linkReleases, enterVmnt, releaseAll, unlockVmntIf, bind_assoc]
      rfl

theorem leaveLink_ok (hne : f.vp.slot ≠ g.vp.slot) :
    leaveLink env f g (lockedVmnt g (lastDirHeld f.vp f.vmp []))
      (lookUp g (lastDirHeld f.vp f.vmp [])) = .ok (linkAnswer env f.vp g.vp, []) := by
  rw [lookUp, lockedVnode_other hne.symm, leaveLink_eq]
  generalize lockedVmnt g (lastDirHeld f.vp f.vmp []) = vmp2
  refine bind_ok.mpr ⟨[], releaseAll_perm _ (List.perm_iff_count.mpr fun r => ?_), rfl⟩
  cases vmp2 <;> simp only [linkReleases, lastDirHeld, enterVnode, enterVmnt, List.count_cons] <;>
    omega

/-- **THE SAME VNODE TWICE** is unlocked twice. -/
theorem leaveLink_same (hsame : f.vp.slot = g.vp.slot) :
    leaveLink env f g (lockedVmnt g (lastDirHeld f.vp f.vmp []))
      (lookUp g (lastDirHeld f.vp f.vmp [])) = .error .notHeld := by
  rw [lookUp, lockedVnode_same hsame.symm]
  generalize lockedVmnt g (lastDirHeld f.vp f.vmp []) = vmp2
  have hlocked : (.vnodeRef g.vp.slot :: enterVnode none (enterVmnt vmp2
      (lastDirHeld f.vp f.vmp []))).countP (isLock f.vp) = 1 := by
    cases vmp2 <;> simp [lastDirHeld, enterVnode, enterVmnt, isLock]
  have hself : isLock f.vp (.vnodeLock f.vp.slot) = true := beq_self_eq_true _
  -- the only lock goes with the first release
  have hmem : .vnodeLock f.vp.slot ∈ .vnodeRef g.vp.slot :: enterVnode none (enterVmnt vmp2
      (lastDirHeld f.vp f.vmp [])) := by
    by_contra hnot
    rw [unlocked_iff, hlocked] at hnot
    cases hnot
  have hfirst : unlockVnode f.vp _ = .ok _ := if_pos hmem
  have hcount := release_count hfirst (isLock f.vp)
  rw [hlocked, if_pos hself] at hcount
  refine bind_error.mpr (Or.inr ⟨_, hfirst, bind_error.mpr (Or.inl ?_)⟩)
  rw [unlockVnode, ← hsame]
  exact release_fails (unlocked_iff.mpr (Nat.succ.inj hcount))

/-- A link that gets to the end of the call. -/
theorem doLink_found (hf : env.name1 = .ok f) (hg : env.name2 = .ok g) :
    doLink env [] = leaveLink env f g (lockedVmnt g (lastDirHeld f.vp f.vmp []))
      (lookUp g (lastDirHeld f.vp f.vmp [])) := by
  simp only [doLink, hf, hg]

theorem doLink_tidy (h : Tidy (.link env)) : ∃ r, doLink env [] = .ok (r, []) := by
  cases hf : env.name1 with
  | error e => exact ⟨e.code, by simp only [doLink, hf]⟩
  | ok f =>
      cases hg : env.name2 with
      | error e => exact ⟨e.code, by simp only [doLink, hf, hg, leave_ok]⟩
      | ok g => exact ⟨_, (doLink_found hf hg).trans (leaveLink_ok (h f g hf hg))⟩

theorem doLink_untidy (h : ¬ Tidy (.link env)) : ∃ e, doLink env [] = .error e := by
  simp only [Tidy, not_forall, not_not] at h
  obtain ⟨f, g, hf, hg, hsame⟩ := h
  exact ⟨_, (doLink_found hf hg).trans (leaveLink_same hsame)⟩

end Link

/-! ## `do_rename` -/

section Rename

variable {env : Env} {f g : Found} {r : Int} {held : Held}

/-- What the end of `do_rename` releases, in its order. -/
def renameReleases (f g : Found) (newDirpL : Option Vnode) (newvmp : Option Vmnt) : Held :=
  .vnodeLock f.vp.slot :: .vmntLock f.vmp.slot ::
    enterVnode newDirpL (enterVmnt newvmp [.vnodeRef f.vp.slot, .vnodeRef g.vp.slot])

theorem leaveRename_eq (newDirpL : Option Vnode) (newvmp : Option Vmnt) (held : Held) :
    leaveRename env f g newDirpL newvmp held =
      releaseAll .notHeld (renameReleases f g newDirpL newvmp) held >>=
        fun held => .ok (renameAnswer env f.vp g.vp, held) := by
  cases newDirpL <;> cases newvmp <;>
    simp only [leaveRename, renameReleases, enterVnode, enterVmnt, releaseAll, unlockVnodeIf,
      unlockVmntIf, bind_assoc] <;> rfl

/-- Only what the second look-up locked is unlocked behind it. -/
theorem leaveRename_ok (f g : Found) :
    leaveRename env f g (lockedVnode g (lastDirHeld f.vp f.vmp []))
      (lockedVmnt g (lastDirHeld f.vp f.vmp [])) (lookUp g (lastDirHeld f.vp f.vmp [])) =
        .ok (renameAnswer env f.vp g.vp, []) := by
  rw [lookUp, leaveRename_eq]
  generalize lockedVnode g (lastDirHeld f.vp f.vmp []) = newDirpL
  generalize lockedVmnt g (lastDirHeld f.vp f.vmp []) = newvmp
  refine bind_ok.mpr ⟨[], releaseAll_perm _ (List.perm_iff_count.mpr fun r => ?_), rfl⟩
  cases newDirpL <;> cases newvmp <;> simp only [renameReleases, lastDirHeld, enterVnode,
    enterVmnt, List.count_cons] <;> omega

theorem renameOnto_ok (env : Env) (f : Found) (r : Int) :
    ∃ r', renameOnto env f r (lastDirHeld f.vp f.vmp []) = .ok (r', []) := by
  rw [renameOnto]
  by_cases hr : r ≠ ok
  · exact ⟨r, (if_pos hr).trans (leave_ok ..)⟩
  rw [if_neg hr]
  by_cases hlong : env.longName = true
  · exact ⟨enametoolong, (if_pos hlong).trans (leave_ok ..)⟩
  rw [if_neg hlong]
  cases env.name2 with
  | error e => exact ⟨e.code, leave_ok ..⟩
  | ok g =>
      have hassert : ¬ (g.vp.slot = f.vp.slot ∧
          (lockedVnode g (lastDirHeld f.vp f.vmp [])).isSome = true) := by
        rintro ⟨hsame, hsome⟩
        rw [lockedVnode_same hsame] at hsome
        cases hsome
      exact ⟨_, (if_neg hassert).trans (leaveRename_ok f g)⟩

/-- **THE DIRECTORY LEFT UNLOCKED**: no way on from there returns. -/
theorem renameOnto_unlocked (hnot : .vnodeLock f.vp.slot ∉ held) :
    ∃ e, renameOnto env f r held = .error e := by
  have hleave : ∀ r, leave f.vp f.vmp r held = .error .notHeld := fun r => leave_unlocked hnot
  rw [renameOnto]
  split
  · exact ⟨_, hleave r⟩
  split
  · exact ⟨_, hleave _⟩
  split
  · exact ⟨_, hleave _⟩
  next g _ =>
  split
  · exact ⟨_, rfl⟩
  next hassert =>
  have hother : f.vp.slot ≠ g.vp.slot := by
    intro hsame
    refine hassert ⟨hsame.symm, ?_⟩
    rw [lockedVnode, if_neg (by rw [← hsame]; exact hnot)]
    rfl
  exact ⟨.notHeld, bind_error.mpr (Or.inl (release_fails (not_mem_lookUp hother hnot)))⟩

theorem doRename_sticky (hf : env.name1 = .ok f) (hsticky : Sticky f.vp) :
    doRename env [] = stickyCheck env.checks (lastDirHeld f.vp f.vmp []) >>=
      fun checked => renameOnto env f checked.1 checked.2 := by
  have hbit : f.vp.vMode &&& sIsvtx = sIsvtx := hsticky
  simp only [doRename, hf, hbit, if_true]

theorem doRename_other (hf : env.name1 = .ok f) (hsticky : ¬ Sticky f.vp) :
    doRename env [] = renameOnto env f ok (lastDirHeld f.vp f.vmp []) := by
  have hbit : ¬ f.vp.vMode &&& sIsvtx = sIsvtx := hsticky
  simp only [doRename, hf, hbit, if_false]
  rfl

theorem doRename_tidy (h : Tidy (.rename env)) : ∃ r, doRename env [] = .ok (r, []) := by
  cases hf : env.name1 with
  | error e => exact ⟨e.code, by simp only [doRename, hf]⟩
  | ok f =>
      by_cases hsticky : Sticky f.vp
      · have hcheck : stickyCheck env.checks (lastDirHeld f.vp f.vmp []) =
            .ok (ownerCheck env.checks, lastDirHeld f.vp f.vmp []) :=
          stickyCheck_plain (h f hf hsticky)
        obtain ⟨r, hrun⟩ := renameOnto_ok env f (ownerCheck env.checks)
        exact ⟨r, (doRename_sticky hf hsticky).trans (bind_ok.mpr ⟨_, hcheck, hrun⟩)⟩
      · obtain ⟨r, hrun⟩ := renameOnto_ok env f ok
        exact ⟨r, (doRename_other hf hsticky).trans hrun⟩

theorem doRename_untidy (h : ¬ Tidy (.rename env)) : ∃ e, doRename env [] = .error e := by
  simp only [Tidy, not_forall] at h
  obtain ⟨f, hf, hsticky, hplain⟩ := h
  rw [doRename_sticky hf hsticky]
  cases hcheck : stickyCheck env.checks (lastDirHeld f.vp f.vmp []) with
  | error e => exact ⟨e, rfl⟩
  | ok checked => exact renameOnto_unlocked ((stickyCheck_held hcheck).resolve_left hplain)

end Rename

/-! ## `do_unlink`, without the message -/

section Original

variable {env : UnlinkModel.Env}

/-- The original goes on without a block. -/
theorem after_leaves (env : UnlinkModel.Env) (dirp : Vnode) (vmp : Vmnt) (r : Int) (held : Held) :
    ∃ r', afterChecks (fun _ held => .ok held) env dirp vmp r held = leave dirp vmp r' held := by
  rw [afterChecks]
  split
  · exact ⟨r, rfl⟩
  · exact ⟨request env dirp, rfl⟩

theorem original_tidy (h : Tidy (.unlink env)) : ∃ r, originalDoUnlink env [] = .ok (r, []) := by
  by_cases hreach : ∃ dirp vmp, Reaches env dirp vmp
  · obtain ⟨dirp, vmp, hreach⟩ := hreach
    by_cases hsticky : Sticky dirp
    · have hcheck : stickyCheck env (lastDirHeld dirp vmp []) =
          .ok (ownerCheck env, lastDirHeld dirp vmp []) :=
        stickyCheck_plain (h dirp vmp hreach hsticky)
      obtain ⟨r, hafter⟩ := after_leaves env dirp vmp (ownerCheck env)
        (lastDirHeld dirp vmp [])
      exact ⟨r, (unlink_sticky _ hreach hsticky).trans
        (bind_ok.mpr ⟨_, hcheck, hafter.trans (leave_ok ..)⟩)⟩
    · obtain ⟨r, hafter⟩ := after_leaves env dirp vmp ok (lastDirHeld dirp vmp [])
      exact ⟨r, (unlink_other _ hreach hsticky).trans (hafter.trans (leave_ok ..))⟩
  · obtain ⟨r, hcall⟩ := unlink_early fun dirp vmp h => hreach ⟨dirp, vmp, h⟩
    exact ⟨r, hcall _⟩

theorem original_untidy (h : ¬ Tidy (.unlink env)) : ∃ e, originalDoUnlink env [] = .error e := by
  simp only [Tidy, not_forall] at h
  obtain ⟨dirp, vmp, hreach, hsticky, hplain⟩ := h
  rw [originalDoUnlink, unlink_sticky _ hreach hsticky]
  cases hcheck : stickyCheck env (lastDirHeld dirp vmp []) with
  | error e => exact ⟨e, rfl⟩
  | ok checked =>
      have hnot := (stickyCheck_held hcheck).resolve_left hplain
      obtain ⟨r, hafter⟩ := after_leaves env dirp vmp checked.1 checked.2
      exact ⟨.notHeld, hafter.trans (leave_unlocked hnot)⟩

end Original

/-! ## A thread that serves calls -/

section Thread

/-- A call that gives back what it took. -/
theorem serve_tidy (call : Call) (h : Tidy call) : ∃ r, serve call [] = .ok (r, []) := by
  cases call with
  | link env => exact doLink_tidy h
  | unlink env => exact original_tidy h
  | rename env => exact doRename_tidy h
  | truncate env length =>
      rw [serve, doTruncate]
      split
      · exact ⟨_, rfl⟩
      · exact withName_ok ..
  | slink env vname1Length =>
      rw [serve, doSlink]
      split
      · exact ⟨_, rfl⟩
      split
      · exact ⟨_, rfl⟩
      · exact withName_ok ..
  | rdlink env bufSize =>
      rw [serve, doRdlink]
      split
      · exact ⟨_, rfl⟩
      · exact withName_ok ..
  | rdlinkDirect env => exact withName_ok ..

/-- A call that does not, does not return. -/
theorem serve_untidy (call : Call) (h : ¬ Tidy call) : ∃ e, serve call [] = .error e := by
  cases call with
  | link env => exact doLink_untidy h
  | unlink env => exact original_untidy h
  | rename env => exact doRename_untidy h
  | truncate env length => exact absurd trivial h
  | slink env vname1Length => exact absurd trivial h
  | rdlink env bufSize => exact absurd trivial h
  | rdlinkDirect env => exact absurd trivial h

variable {calls : List Call} {rs rs' : List Int} {held : Held}

theorem run_tidy (rs : List Int) (h : ∀ call ∈ calls, Tidy call) :
    ∃ rs', runAll serveNext (rs, []) calls = .ok (rs', []) ∧
      rs'.length = rs.length + calls.length := by
  induction calls generalizing rs with
  | nil => exact ⟨rs, rfl, rfl⟩
  | cons call calls ih =>
      obtain ⟨r, hserve⟩ := serve_tidy call (h call List.mem_cons_self)
      obtain ⟨rs', hrun, hlen⟩ := ih (rs ++ [r]) fun c hc => h c (List.mem_cons_of_mem _ hc)
      refine ⟨rs', runAll_cons.mpr ⟨_, bind_ok.mpr ⟨_, hserve, rfl⟩, hrun⟩, ?_⟩
      rw [hlen, List.length_append, List.length_singleton, List.length_cons]
      omega

theorem tidy_of_run (h : runAll serveNext (rs, []) calls = .ok (rs', held)) :
    ∀ call ∈ calls, Tidy call := by
  induction calls generalizing rs with
  | nil =>
      intro call hcall
      cases hcall
  | cons call calls ih =>
      obtain ⟨s, hnext, hrun⟩ := runAll_cons.mp h
      obtain ⟨answer, hserve, hnext⟩ := bind_ok.mp hnext
      have htidy : Tidy call := by
        by_contra hnot
        obtain ⟨e, herror⟩ := serve_untidy call hnot
        rw [hserve] at herror
        cases herror
      obtain ⟨r, hok⟩ := serve_tidy call htidy
      rw [hserve] at hok
      cases hok
      cases hnext
      intro c hc
      rcases List.mem_cons.mp hc with rfl | hc
      · exact htidy
      · exact ih hrun c hc

end Thread

/-- **CALLS OF `link.c`** on one thread: when they all return, every lock and
    reference is given back and each call has its answer; and they all return
    exactly when no `link` names a file that is the directory of its new name,
    and no sticky check comes upon a mount point or the directory itself. -/
theorem calls_balanced (calls : List Call) :
    (∀ rs held, runAll serveNext ([], []) calls = .ok (rs, held) →
      held = [] ∧ rs.length = calls.length) ∧
    ((∃ out, runAll serveNext ([], []) calls = .ok out) ↔ ∀ call ∈ calls, Tidy call) := by
  refine ⟨fun rs held hrun => ?_, fun hout => ?_, fun h => ?_⟩
  · obtain ⟨rs', hrun', hlen⟩ := run_tidy [] (tidy_of_run hrun)
    rw [hrun] at hrun'
    cases hrun'
    exact ⟨rfl, by simpa using hlen⟩
  · obtain ⟨⟨rs, held⟩, hrun⟩ := hout
    exact tidy_of_run hrun
  · obtain ⟨rs, hrun, -⟩ := run_tidy [] h
    exact ⟨_, hrun⟩

end LinkCalls
