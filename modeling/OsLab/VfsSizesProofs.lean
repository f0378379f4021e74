import OsLab.MfsOverrunProofs
import OsLab.MfsSizeProofs
import OsLab.VfsModelProofs

/-! # The size VFS remembers

    VFS takes over the end of a write only for a vnode it holds to be a regular
    file or a directory.  A new file's vnode is immediate, and it stays so when
    MFS converts the inode, because nobody tells VFS.  So the size of the vnode
    stays zero for good (`io_vnode`), and agrees with the inode's exactly as
    long as nothing is written behind offset 0, and nothing so far before it
    that the inode is missed (`sizes_agree_exact`): the first byte written is
    the first disagreement. -/

namespace VfsSizes

open OsBytes OsLoop MfsModel MfsImmediate MfsOverrun MfsConvert MfsSize VfsModel

/-! ## One call -/

/-- The file has the type it was created with in VFS, and that or the one it
    was converted to in MFS. -/
structure Typed (s : Vfs) : Prop where
  vnode : s.vnode.mode &&& iType = iImmediate
  inode : inodeType s.fs.inode = iRegular ∨ inodeType s.fs.inode = iImmediate

theorem createMode_type (omode umask : Nat) : createMode omode umask &&& iType = iImmediate := by
  have hbits : omode &&& allModes &&& umask &&& iType =
      omode &&& umask &&& (allModes &&& iType) := by
    ac_rfl
  rw [createMode, Nat.and_or_distrib_right, hbits, show allModes &&& iType = 0 from rfl,
    Nat.and_zero, Nat.or_zero]
  rfl

theorem commonOpen_typed (s : Vfs) (fd : Nat) (append writable : Bool) (omode umask : Nat) :
    Typed (commonOpen s fd append writable omode umask) :=
  ⟨createMode_type omode umask, Or.inr (createMode_type omode umask)⟩

section Step

variable {sb : Super} {env : Env sb} {ftrunc : Ftrunc} {s s' : Vfs}

theorem Typed.notReg (h : Typed s) : isReg s.vnode.mode = false := by
  rw [isReg, h.vnode]
  decide

theorem Typed.notDir (h : Typed s) : isDir s.vnode.mode = false := by
  rw [isDir, h.vnode]
  decide

theorem Typed.notFifo (h : Typed s) : isFifo s.vnode.mode = false := by
  rw [isFifo, h.vnode]
  decide

/-- **A TRANSFER NEVER CHANGES THE VNODE** of a file that was created
    immediate.  It is refused for its length, or MFS answers it. -/
theorem io_vnode {flag : RwFlag} {fd size : Nat} {buf : Mem} {res : Except Int Nat}
    (hty : Typed s) (hrun : readWrite env s flag fd buf size = .ok (res, s')) :
    s'.vnode = s.vnode ∧ ((res = .error einval ∧ s' = s) ∨ ∃ reply,
      fsReadwrite env { s.fs with grant := ⟨size, buf⟩ } ⟨flag, startPos s flag fd, size⟩ =
        .ok (reply, s'.fs) ∧
      (∀ n, res = .ok n → reply.r = ok ∧ (flag = .writing → reply.nbytes = n))) := by
  simp only [readWrite] at hrun
  split at hrun
  · cases hrun
    exact ⟨rfl, Or.inl ⟨rfl, rfl⟩⟩
  split at hrun
  · exact nomatch hrun
  obtain ⟨x, hx, hrun⟩ := bind_ok.mp hrun
  have hfs : fsReadwrite env { s.fs with grant := ⟨size, buf⟩ }
      ⟨flag, startPos s flag fd, size⟩ = .ok x := by
    simp only [reqReadwrite] at hx
    split at hx
    · exact nomatch hx
    · rename_i y hy
      rw [hy]
      exact congrArg Except.ok (Except.ok.inj hx)
  have hres := congrArg Prod.fst (Except.ok.inj hrun)
  have hst := congrArg Prod.snd (Except.ok.inj hrun)
  dsimp only at hres hst
  refine ⟨?_, Or.inr ⟨x.1, ?_, fun n hn => ?_⟩⟩
  · -- the cached type is none whose size is kept up to date
    rw [← hst]
    simp only [Vfs.setPos, hty.notReg, hty.notDir, Bool.false_eq_true, or_self, false_and,
      and_false, if_false]
  · rw [hfs, ← hst]
    rfl
  · rw [hn] at hres
    by_cases hr : x.1.r = ok
    · refine ⟨hr, fun hw => ?_⟩
      have hmoved : flag ≠ .peeking ∧ x.1.r ≥ 0 := by
        rw [hw, hr]
        decide
      rw [if_pos hr, if_pos hmoved] at hres
      exact Except.ok.inj hres
    · rw [if_neg hr] at hres
      exact nomatch hres

/-- The transfer is one that MFS gets, and copies past the end of `i_zone`. -/
def Overruns (env : Env sb) (s : Vfs) : Call → Prop
  | .io flag fd buf size => size ≤ ssizeMax ∧
      LeavesZone env { s.fs with grant := ⟨size, buf⟩ } ⟨flag, startPos s flag fd, size⟩
  | _ => False

/-- **WHAT GOES OUTSIDE** of a file that fits is what copies past `i_zone`. -/
theorem serveCall_overrun (hty : Typed s)
    (hsize : inodeType s.fs.inode = iImmediate → s.fs.inode.size ≤ zoneBytes) {c : Call} :
    serveCall env ftrunc s c = .error (.mfs .overrun) ↔ Overruns env s c := by
  cases c with
  | io flag fd buf size =>
      have hother : ¬ (isFifo s.vnode.mode ∨ isChr s.vnode.mode ∨ isBlk s.vnode.mode) := by
        rw [isFifo, isChr, isBlk, hty.vnode]
        decide
      have hfs : fsReadwrite env { s.fs with grant := ⟨size, buf⟩ }
            ⟨flag, startPos s flag fd, size⟩ = .error .overrun ↔
          LeavesZone env { s.fs with grant := ⟨size, buf⟩ } ⟨flag, startPos s flag fd, size⟩ :=
        overrun_iff hsize
      rw [Overruns, ← hfs]
      show readWrite env s flag fd buf size = .error (.mfs .overrun) ↔ _
      rw [readWrite]
      by_cases hbig : size > ssizeMax
      · rw [if_pos hbig]
        refine iff_of_false (fun h => ?_) fun h => absurd h.1 (Nat.not_le.mpr hbig)
        cases h
      · rw [if_neg hbig, if_neg hother, bind_error, and_iff_right (Nat.not_lt.mp hbig)]
        simp only [reqReadwrite]
        constructor
        · rintro (h | ⟨x, -, h⟩)
          · split at h
            · next hf => cases h; exact hf
            · cases h
          · cases h
        · intro h
          rw [h]
          exact Or.inl rfl
  | lseek fd whence offset inhibread =>
      refine iff_of_false (fun h => ?_) id
      cases h
  | ftruncate fd length =>
      refine iff_of_false (fun h => ?_) id
      cases h
  | truncate permit length =>
      refine iff_of_false (fun h => ?_) id
      cases h

/-- A call that is served overruns nothing. -/
theorem not_overruns (hty : Typed s)
    (hsize : inodeType s.fs.inode = iImmediate → s.fs.inode.size ≤ zoneBytes) {c : Call}
    {x : Except Int Nat × Vfs} (hserve : serveCall env ftrunc s c = .ok x) :
    ¬ Overruns env s c := by
  intro h
  have herror : serveCall env ftrunc s c = .error (.mfs .overrun) :=
    (serveCall_overrun hty hsize).mpr h
  rw [herror] at hserve
  cases hserve

/-- Seeking moves the descriptor only. -/
theorem lseek_same (fd : Nat) (whence : Whence) (offset inhibread : Int) :
    (actualLseek s fd whence offset inhibread).2.2.vnode = s.vnode ∧
    (actualLseek s fd whence offset inhibread).2.2.fs = s.fs := by
  unfold actualLseek
  split
  · exact ⟨rfl, rfl⟩
  dsimp only
  split
  · exact ⟨rfl, rfl⟩
  split
  · exact ⟨rfl, rfl⟩
  split
  · exact ⟨rfl, rfl⟩
  · exact ⟨rfl, rfl⟩

end Step

/-! ## Runs -/

/-- Calls that transfer or seek; a write moves all its bytes. -/
def Successful : Call → Except Int Nat → Prop
  | .io .writing _ _ size, r => r = .ok size
  | .io _ _ _ _, _ => True
  | .lseek .., _ => True
  | .ftruncate .., _ => False
  | .truncate .., _ => False

/-- VFS has the size of the file: in the vnode, as the start of an appending
    write, and as the end that a seek goes to. -/
structure Agrees (s : Vfs) : Prop where
  size : s.vnode.size = s.fs.inode.size
  append : ∀ fd, (s.filps fd).append = true → startPos s .writing fd = s.fs.inode.size
  seekEnd : ∀ fd inhibread, (actualLseek s fd .fromEnd 0 inhibread).2.1 = some s.fs.inode.size

/-- The call writes nothing behind offset 0. -/
def EndsAtStart (s : Vfs) : Call → Prop
  | .io .writing fd _ size => startPos s .writing fd + size ≤ 0
  | _ => True

section Run

variable {sb : Super} {env : Env sb} {ftrunc : Ftrunc} {s s' : Vfs}

/-- As long as the vnode's size is zero, agreement means an empty file. -/
theorem agrees_iff (hty : Typed s) (hv : s.vnode.size = 0) :
    Agrees s ↔ s.fs.inode.size = 0 := by
  constructor
  · intro h
    rw [← h.size, hv]
  · intro h
    refine ⟨by rw [hv, h], fun fd ha => ?_, fun fd inhibread => ?_⟩
    · rw [startPos, if_pos ⟨rfl, ha⟩, hv, h]
    · simp only [actualLseek]
      rw [hty.notFifo, h]
      simp only [seekBase, hv, Bool.false_eq_true, if_false, show ¬ ((0 : Int) > 0) by decide,
        false_and]
      split
      · rfl
      · rfl

/-- **ONE CALL** on an empty file leaves it empty exactly when it writes nothing
    behind offset 0. -/
theorem call_size {c : Call} {res : Except Int Nat} (hty : Typed s) (h0 : s.fs.inode.size = 0)
    (hserve : serveCall env ftrunc s c = .ok (res, s')) (hallow : Successful c res) :
    Typed s' ∧ s'.vnode = s.vnode ∧ (s'.fs.inode.size = 0 ↔ EndsAtStart s c) := by
  cases c with
  | io flag fd buf size =>
      obtain ⟨hvnode, hout⟩ := io_vnode hty hserve
      have hmode : s'.vnode.mode &&& iType = iImmediate := by rw [hvnode]; exact hty.vnode
      rcases hout with ⟨hres, rfl⟩ | ⟨reply, hfs, hreply⟩
      · cases flag with
        | writing =>
            have hres' : res = .ok size := hallow
            rw [hres] at hres'
            exact nomatch hres'
        | reading => exact ⟨hty, rfl, iff_of_true h0 trivial⟩
        | peeking => exact ⟨hty, rfl, iff_of_true h0 trivial⟩
      · have hother : flag ≠ .writing → EndsAtStart s (.io flag fd buf size) →
            Typed s' ∧ s'.vnode = s.vnode ∧
              (s'.fs.inode.size = 0 ↔ EndsAtStart s (.io flag fd buf size)) := by
          intro hflag hend
          have hreq : (⟨flag, startPos s flag fd, size⟩ : Request).flag ≠ .writing := hflag
          have hsteady := other_effect hreq hfs
          refine ⟨⟨hmode, ?_⟩, hvnode, iff_of_true (hsteady.size.trans h0) hend⟩
          rw [inodeType, hsteady.mode]
          exact hty.inode
        cases flag with
        | reading => exact hother (by decide) trivial
        | peeking => exact hother (by decide) trivial
        | writing =>
            obtain ⟨hok, hcount⟩ := hreply size hallow
            have hinode : inodeType ({ s.fs with grant := ⟨size, buf⟩ } : Mfs).inode = iRegular ∨
                inodeType ({ s.fs with grant := ⟨size, buf⟩ } : Mfs).inode = iImmediate := hty.inode
            have h0' : ({ s.fs with grant := ⟨size, buf⟩ } : Mfs).inode.size = 0 := h0
            rcases write_effect hinode (fun _ => by rw [h0']; decide) hfs with
              ⟨hr, -⟩ | hserved
            · exact absurd hok hr
            · have hpos : reply.seekPos = startPos s .writing fd + size := by
                rw [hserved.position, hcount rfl]
              have hsize := hserved.size
              rw [hpos, h0', ite_self] at hsize
              refine ⟨⟨hmode, ?_⟩, hvnode, ?_⟩
              · rw [hserved.type]
                split
                · exact Or.inl rfl
                · exact hty.inode
              · rw [hsize]
                show _ ↔ startPos s .writing fd + size ≤ 0
                by_cases hgt : startPos s .writing fd + (size : Int) > 0
                · rw [if_pos hgt]
                  omega
                · rw [if_neg hgt]
                  omega
  | lseek fd whence offset inhibread =>
      obtain ⟨hvnode, hfs⟩ := lseek_same (s := s) fd whence offset inhibread
      have hst := congrArg Prod.snd (Except.ok.inj hserve)
      have hst : s' = (actualLseek s fd whence offset inhibread).2.2 := hst.symm
      rw [hst]
      refine ⟨⟨by rw [hvnode]; exact hty.vnode, by rw [hfs]; exact hty.inode⟩, hvnode, ?_⟩
      rw [hfs]
      exact iff_of_true h0 trivial
  | ftruncate fd length => exact hallow.elim
  | truncate permit length => exact hallow.elim

/-- **VFS AND MFS AGREE** in every state of a run of successful writes to a new
    file, and the run stays inside the inode, exactly when no write of the run
    ends behind offset 0 or is copied past the end of `i_zone`. -/
theorem sizes_agree_exact {s₀ : Vfs} {fd : Nat} {append writable : Bool} {omode umask : Nat}
    {hist : List (Vfs × Call)} {o : Option Vfs} (hrun : Attempt env ftrunc Successful
      (commonOpen s₀ fd append writable omode umask) hist o) :
    ((∀ x ∈ hist, Agrees x.1) ∧ ∃ s, o = some s ∧ Agrees s) ↔
      ∀ x ∈ hist, EndsAtStart x.1 x.2 ∧ ¬ Overruns env x.1 x.2 := by
  have hty := commonOpen_typed s₀ fd append writable omode umask
  have hfits : ∀ {s : Vfs}, Typed s → s.vnode.size = 0 → Agrees s →
      inodeType s.fs.inode = iImmediate → s.fs.inode.size ≤ zoneBytes := by
    intro s hty hv hagrees _
    rw [(agrees_iff hty hv).mp hagrees]
    decide
  refine hrun.exact (I := fun s => Typed s ∧ s.vnode.size = 0)
    (Q := fun s c => EndsAtStart s c ∧ ¬ Overruns env s c) ?_ ?_ ⟨hty, rfl⟩
    ((agrees_iff hty rfl).mpr rfl)
  · rintro s s' c res ⟨hty, hv⟩ hagrees hserve hallow
    obtain ⟨hty', hvnode, hsize⟩ := call_size hty ((agrees_iff hty hv).mp hagrees) hserve hallow
    have hv' : s'.vnode.size = 0 := by rw [hvnode]; exact hv
    have hserved := not_overruns hty (hfits hty hv hagrees) hserve
    exact ⟨⟨hty', hv'⟩, (agrees_iff hty' hv').trans (hsize.trans (and_iff_left hserved).symm)⟩
  · rintro s c ⟨hty, hv⟩ hagrees hserve ⟨-, hnot⟩
    exact hnot ((serveCall_overrun hty (hfits hty hv hagrees)).mp hserve)

end Run

/-- Nothing open yet, on a small disk. -/
def idle : Vfs := ⟨⟨0, 0⟩, fun _ => ⟨0, false, false⟩, newFile⟩

/-- A new file, opened for appending. -/
def appendFile : Vfs := commonOpen idle 0 true true 0o644 0o755

/-- One byte is appended to the new file, then another: the second append
    starts at 0, where the first one did, and takes its place. -/
theorem append_overwrites : ∃ s₁ s₂,
    readWrite (calm smallDisk) appendFile .writing 0 (fun _ => 97) 1 = .ok (.ok 1, s₁) ∧
    readWrite (calm smallDisk) s₁ .writing 0 (fun _ => 98) 1 = .ok (.ok 1, s₂) ∧
    s₁.vnode.size = 0 ∧ s₁.fs.inode.size = 1 ∧ ¬ Agrees s₁ ∧
    startPos s₁ .writing 0 = 0 ∧ s₂.fs.inode.size = 1 ∧ s₂.fs.inode.zone 0 = 98 := by
  have h1 : (readWrite (calm smallDisk) appendFile .writing 0 (fun _ => 97) 1).toOption.map
      (fun x => (x.1.toOption, x.2.vnode.size, x.2.fs.inode.size, startPos x.2 .writing 0)) =
      some (some 1, 0, 1, 0) := by decide
  have h2 : (do
      let x ← readWrite (calm smallDisk) appendFile .writing 0 (fun _ => 97) 1
      readWrite (calm smallDisk) x.2 .writing 0 (fun _ => 98) 1).toOption.map
      (fun y : Except Int Nat × Vfs => (y.1.toOption, y.2.fs.inode.size, y.2.fs.inode.zone 0)) =
      some (some 1, 1, 98) := by decide
  obtain ⟨⟨r₁, s₁⟩, hs₁, heq₁⟩ := Option.map_eq_some_iff.mp h1
  obtain ⟨⟨r₂, s₂⟩, hs₂, heq₂⟩ := Option.map_eq_some_iff.mp h2
  simp only [Prod.mk.injEq] at heq₁ heq₂
  obtain ⟨hr₁, hv, hsize, hpos⟩ := heq₁
  obtain ⟨hr₂, hsize₂, hbyte⟩ := heq₂
  obtain rfl : r₁ = .ok 1 := mem_toOption.mp hr₁
  obtain rfl : r₂ = .ok 1 := mem_toOption.mp hr₂
  have hs₁ := mem_toOption.mp hs₁
  obtain ⟨x, hx, hs₂⟩ := bind_ok.mp (mem_toOption.mp hs₂)
  obtain rfl : (.ok 1, s₁) = x := Except.ok.inj (hs₁.symm.trans hx)
  refine ⟨s₁, s₂, hs₁, hs₂, hv, hsize, fun h => ?_, hpos, hsize₂, hbyte⟩
  have hagree := h.size
  rw [hv, hsize] at hagree
  exact absurd hagree (by decide)

theorem sizes_agree_exact_append : ∃ s, Attempt (calm smallDisk) setSize Successful appendFile
      [(appendFile, .io .writing 0 (fun _ => 97) 1)] (some s) ∧
    (((∀ x ∈ [(appendFile, Call.io .writing 0 (fun _ => 97) 1)], Agrees x.1) ∧
        ∃ s', some s = some s' ∧ Agrees s') ↔
      ∀ x ∈ [(appendFile, Call.io .writing 0 (fun _ => 97) 1)],
        EndsAtStart x.1 x.2 ∧ ¬ Overruns (calm smallDisk) x.1 x.2) := by
  have h1 : (readWrite (calm smallDisk) appendFile .writing 0 (fun _ => 97) 1).toOption.map
      (fun x => x.1.toOption) = some (some 1) := by decide
  obtain ⟨⟨r, s⟩, hs, hr⟩ := Option.map_eq_some_iff.mp h1
  obtain rfl : r = .ok 1 := mem_toOption.mp hr
  have hrun : Attempt (calm smallDisk) setSize Successful appendFile
      [(appendFile, .io .writing 0 (fun _ => 97) 1)] (some s) :=
    .reached (.call .start (mem_toOption.mp hs) rfl)
  exact ⟨s, hrun, sizes_agree_exact hrun⟩

end VfsSizes
