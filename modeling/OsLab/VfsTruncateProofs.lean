import OsLab.VfsSizesProofs

/-! # Truncating an immediate file

    `truncate_vnode` was widened to accept immediate files, and hands any length
    on to MFS.  Writes keep an immediate file within its 32 bytes
    (`io_contained`), truncations only when they ask for no more
    (`truncate_contained`).  So in a run of calls every state has the bytes of
    an immediate file inside the inode, with the loops that copy them, exactly
    when no truncation to more than 32 bytes was carried out on a file that was
    immediate, and no transfer was copied past the inode (`contained_exact`). -/

namespace VfsTruncate

open OsBytes OsLoop MfsModel MfsImmediate MfsConvert MfsSize VfsModel VfsSizes

/-- The bytes of an immediate file are inside the inode: there are at most 32,
    the loop that copies them to the buffer stays inside both, and a read hands
    the kernel no memory behind the zone numbers. -/
structure Contained (st : Mfs) : Prop where
  bound : inodeType st.inode = iImmediate → st.inode.size ≤ 32
  buffer : inodeType st.inode = iImmediate →
    ∃ x, copyOut st.inode.zone st.inode.size.toNat = .ok x
  read : inodeType st.inode = iImmediate → u32 st.inode.size ≤ zoneBytes

theorem contained_iff {st : Mfs} (hpos : 0 ≤ st.inode.size) :
    Contained st ↔ (inodeType st.inode = iImmediate → st.inode.size ≤ 32) := by
  refine ⟨fun h => h.bound, fun h => ⟨h, fun himm => ?_, fun himm => ?_⟩⟩
  · have hle := h himm
    obtain ⟨t, buffer, hcopy, -⟩ := copyOut_spec st.inode.zone (n := st.inode.size.toNat)
      (by simp only [zoneBytes]; omega)
    exact ⟨_, hcopy⟩
  · have hle := h himm
    unfold u32 zoneBytes
    omega

/-- A new file has no byte outside. -/
theorem commonOpen_contained (s : Vfs) (fd : Nat) (append writable : Bool) (omode umask : Nat) :
    Contained (commonOpen s fd append writable omode umask).fs := by
  refine (contained_iff (le_refl 0)).mpr (fun _ => ?_)
  show (0 : Int) ≤ 32
  decide

/-- **A READ OF A LONGER FILE** never answers: the loop that copies its bytes
    leaves the buffer. -/
theorem read_overrun {sb : Super} {env : Env sb} {st : Mfs} {n p k : Nat}
    (himm : inodeType st.inode = iImmediate) (hsize : st.inode.size = n) (hpn : p < n)
    (hbig : zoneBytes < n) : fsReadwrite env st ⟨.reading, p, k⟩ = .error .overrun := by
  have hne : inodeType st.inode ≠ iBlockSpecial := by rw [himm]; decide
  have hcopy : copyOut st.inode.zone (n : Int).toNat = .error .overrun :=
    copyOut_overrun st.inode.zone hbig
  have hentry : entry env st ⟨.reading, p, k⟩ = .error .overrun := by
    rw [entry_reading env p k himm hsize, if_neg (by omega)]
    exact bind_error.mpr (Or.inl (bind_error.mpr (Or.inl hcopy)))
  rw [fsReadwrite, if_neg hne]
  exact bind_error.mpr (Or.inr ⟨none, writeCheck_reading (by simp),
    bind_error.mpr (Or.inl hentry)⟩)

/-- Any call with any result. -/
def AnyCall : Call → Except Int Nat → Prop := fun _ _ => True

/-- The call does not have MFS carry out a truncation of an immediate file to
    more than 32 bytes. -/
def Fits (ftrunc : Ftrunc) (s : Vfs) : Call → Prop
  | .io .. => True
  | .lseek .. => True
  | .ftruncate fd length => (s.filps fd).writable = true → inodeType s.fs.inode = iImmediate →
      (ftrunc.run s.fs length).1 = ok → length ≤ 32
  | .truncate permit length => permit = ok → inodeType s.fs.inode = iImmediate →
      (ftrunc.run s.fs length).1 = ok → length ≤ 32

/-- A file of which the size is not negative, and fits when it is immediate. -/
structure Bounded (st : Mfs) : Prop where
  type : inodeType st.inode = iRegular ∨ inodeType st.inode = iImmediate
  size : 0 ≤ st.inode.size
  bound : inodeType st.inode = iImmediate → st.inode.size ≤ 32

section Transfer

variable {sb : Super} {env : Env sb} {st st' : Mfs} {reply : Reply}

theorem Bounded.of_regular (hreg : inodeType st.inode = iRegular) (hpos : 0 ≤ st.inode.size) :
    Bounded st :=
  ⟨Or.inl hreg, hpos, fun himm => absurd himm (not_immediate hreg)⟩

theorem Bounded.steady (h : Bounded st) (hst : Steady st st') : Bounded st' := by
  have htype : inodeType st'.inode = inodeType st.inode := congrArg (fun m => m &&& iType) hst.mode
  exact ⟨by rw [htype]; exact h.type, by rw [hst.size]; exact h.size,
    by rw [htype, hst.size]; exact h.bound⟩

/-- A write through the chunk loop leaves a file regular, or ends by byte 32. -/
theorem Bounded.served {p : Int} {k : Nat} (h : Bounded st) (hserved : Served st st' p k reply) :
    Bounded st' := by
  have hend := hserved.position
  have hcount := hserved.count
  have hsize := hserved.size
  have htype := hserved.type
  have hpos := h.size
  by_cases hconv : Converts st p k
  · -- the file is regular from now on
    rw [if_pos hconv] at hsize htype
    refine .of_regular htype ?_
    rw [hsize]
    split
    · omega
    · exact le_refl 0
  · rw [if_neg hconv] at hsize htype
    refine ⟨by rw [htype]; exact h.type, ?_, fun himm => ?_⟩
    · rw [hsize]
      split
      · omega
      · exact hpos
    · rw [htype] at himm
      -- an immediate file that is not converted is written by byte 32 only
      have hfit : ¬ 32 < p + (k : Int) := fun h => hconv ⟨himm, h⟩
      have hle := h.bound himm
      rw [hsize]
      split
      · omega
      · exact hle

/-- **A TRANSFER** keeps the size in its bounds. -/
theorem Bounded.transfer {req : Request} (h : Bounded st)
    (hrun : fsReadwrite env st req = .ok (reply, st')) : Bounded st' := by
  by_cases hflag : req.flag = .writing
  · obtain ⟨flag, p, k⟩ := req
    obtain rfl : flag = .writing := hflag
    rcases write_effect h.type (fun himm => ⟨h.size, h.bound himm⟩) hrun with
      ⟨-, -, hsteady | ⟨-, hzero, hreg⟩⟩ | hserved
    · exact h.steady hsteady
    · exact .of_regular hreg (by rw [hzero])
    · exact h.served hserved
  · exact h.steady (other_effect hflag hrun)

end Transfer

section Step

variable {sb : Super} {env : Env sb} {ftrunc : Ftrunc} {s s' : Vfs}

/-- **A TRANSFER KEEPS THE FILE CONTAINED.** -/
theorem io_contained {flag : RwFlag} {fd size : Nat} {buf : Mem} {res : Except Int Nat}
    (hty : Typed s) (hpos : 0 ≤ s.fs.inode.size) (hc : Contained s.fs)
    (hrun : readWrite env s flag fd buf size = .ok (res, s')) :
    Typed s' ∧ 0 ≤ s'.fs.inode.size ∧ Contained s'.fs := by
  obtain ⟨hvnode, hout⟩ := io_vnode hty hrun
  rcases hout with ⟨-, rfl⟩ | ⟨reply, hfs, -⟩
  · exact ⟨hty, hpos, hc⟩
  have hbefore : Bounded { s.fs with grant := ⟨size, buf⟩ } := ⟨hty.inode, hpos, hc.bound⟩
  have hafter := hbefore.transfer hfs
  exact ⟨⟨by rw [hvnode]; exact hty.vnode, hafter.type⟩, hafter.size,
    (contained_iff hafter.size).mpr hafter.bound⟩

/-- **A TRUNCATION KEEPS THE FILE CONTAINED** exactly when MFS refuses it, the
    file is regular, or the length fits. -/
theorem truncate_contained (ftrunc : Ftrunc) {length : Int} (hty : Typed s)
    (hpos : 0 ≤ s.fs.inode.size) (hc : Contained s.fs) (hlen : 0 ≤ length) :
    Typed (truncateVnode ftrunc s length).2 ∧
    0 ≤ (truncateVnode ftrunc s length).2.fs.inode.size ∧
    (Contained (truncateVnode ftrunc s length).2.fs ↔ (inodeType s.fs.inode = iImmediate →
      (ftrunc.run s.fs length).1 = ok → length ≤ 32)) := by
  have hmode := ftrunc.mode s.fs length
  have htype : inodeType (ftrunc.run s.fs length).2.inode = inodeType s.fs.inode :=
    congrArg (fun m => m &&& iType) hmode
  have hinode : inodeType (ftrunc.run s.fs length).2.inode = iRegular ∨
      inodeType (ftrunc.run s.fs length).2.inode = iImmediate := by
    rw [htype]
    exact hty.inode
  have haccept : ¬ (¬ isFifo s.vnode.mode ∧
      ¬ (isReg s.vnode.mode ∨ s.vnode.mode &&& iType = iImmediate)) :=
    fun h => h.2 (Or.inr hty.vnode)
  rw [truncateVnode, if_neg haccept]
  by_cases hok : (ftrunc.run s.fs length).1 = ok
  · have hset := ftrunc.sets s.fs length hok
    have hpos' : 0 ≤ (ftrunc.run s.fs length).2.inode.size := by rw [hset]; exact hlen
    simp only [if_pos hok]
    refine ⟨⟨hty.vnode, hinode⟩, hpos', ?_⟩
    rw [contained_iff hpos', htype, hset]
    exact ⟨fun h himm _ => h himm, fun h himm => h himm hok⟩
  · have hkeep := ftrunc.keeps s.fs length hok
    have hpos' : 0 ≤ (ftrunc.run s.fs length).2.inode.size := by rw [hkeep]; exact hpos
    simp only [if_neg hok]
    refine ⟨⟨hty.vnode, hinode⟩, hpos', ?_⟩
    rw [contained_iff hpos', htype, hkeep]
    exact iff_of_true hc.bound (fun _ h => absurd h hok)

/-- What `do_ftruncate` and `do_truncate` have in common on a file that is not
    regular: past its checks the call goes to MFS, else nothing happens. -/
theorem guarded_truncate {length e : Int} {P : Prop} [Decidable P] (hty : Typed s) :
    (if length < 0 then (einval, s) else if ¬ P then (e, s)
      else if isReg s.vnode.mode ∧ s.vnode.size = length then (ok, s)
      else truncateVnode ftrunc s length).2 =
    if 0 ≤ length ∧ P then (truncateVnode ftrunc s length).2 else s := by
  have hreg : ¬ (isReg s.vnode.mode = true ∧ s.vnode.size = length) := by
    rw [hty.notReg]
    simp
  by_cases hlen : length < 0
  · rw [if_pos hlen, if_neg (by omega)]
  · rw [if_neg hlen]
    by_cases hP : P
    · rw [if_neg (not_not.mpr hP), if_neg hreg, if_pos ⟨by omega, hP⟩]
    · rw [if_pos hP, if_neg (fun h => hP h.2)]

/-- A truncation past the check `P` keeps the file contained exactly when it
    fits. -/
theorem guarded_contained {length : Int} {P : Prop} [Decidable P] (hty : Typed s)
    (hpos : 0 ≤ s.fs.inode.size) (hc : Contained s.fs)
    (hst : s' = if 0 ≤ length ∧ P then (truncateVnode ftrunc s length).2 else s) :
    Typed s' ∧ 0 ≤ s'.fs.inode.size ∧ (Contained s'.fs ↔ (P →
      inodeType s.fs.inode = iImmediate → (ftrunc.run s.fs length).1 = ok → length ≤ 32)) := by
  by_cases h : 0 ≤ length ∧ P
  · rw [hst, if_pos h]
    obtain ⟨h1, h2, h3⟩ := truncate_contained ftrunc hty hpos hc h.1
    exact ⟨h1, h2, h3.trans ⟨fun hf _ => hf, fun hf => hf h.2⟩⟩
  · rw [hst, if_neg h]
    refine ⟨hty, hpos, iff_of_true hc (fun hP _ _ => ?_)⟩
    -- the length is negative then, and small enough
    have hneg : ¬ 0 ≤ length := fun hl => h ⟨hl, hP⟩
    omega

/-- **ONE CALL** in a contained state leads to a contained state exactly when it
    fits. -/
theorem call_contained {c : Call} {res : Except Int Nat} (hty : Typed s)
    (hpos : 0 ≤ s.fs.inode.size) (hc : Contained s.fs)
    (hserve : serveCall env ftrunc s c = .ok (res, s')) :
    Typed s' ∧ 0 ≤ s'.fs.inode.size ∧ (Contained s'.fs ↔ Fits ftrunc s c) := by
  cases c with
  | io flag fd buf size =>
      obtain ⟨h1, h2, h3⟩ := io_contained hty hpos hc hserve
      exact ⟨h1, h2, iff_of_true h3 trivial⟩
  | lseek fd whence offset inhibread =>
      obtain ⟨hvnode, hfs⟩ := lseek_same (s := s) fd whence offset inhibread
      have hst : s' = (actualLseek s fd whence offset inhibread).2.2 :=
        (congrArg Prod.snd (Except.ok.inj hserve)).symm
      rw [hst]
      refine ⟨⟨by rw [hvnode]; exact hty.vnode, by rw [hfs]; exact hty.inode⟩, ?_, ?_⟩
      · rw [hfs]
        exact hpos
      · rw [hfs]
        exact iff_of_true hc trivial
  | ftruncate fd length =>
      have hst : s' = (doFtruncate ftrunc s fd length).2 :=
        (congrArg Prod.snd (Except.ok.inj hserve)).symm
      exact guarded_contained hty hpos hc (hst.trans (guarded_truncate hty))
  | truncate permit length =>
      have hst : s' = (doTruncate ftrunc s permit length).2 :=
        (congrArg Prod.snd (Except.ok.inj hserve)).symm
      exact guarded_contained hty hpos hc (hst.trans (guarded_truncate hty))

end Step

/-! ## Runs -/

section Run

variable {sb : Super} {env : Env sb} {ftrunc : Ftrunc} {s : Vfs}

/-- **IMMEDIATE FILES STAY INSIDE THE INODE** in every state of a run of calls
    on a new file, exactly when the run never has an immediate file truncated to
    more than 32 bytes or bytes copied past the end of `i_zone`. -/
theorem contained_exact {s₀ : Vfs} {fd : Nat} {append writable : Bool} {omode umask : Nat}
    {hist : List (Vfs × Call)} {o : Option Vfs} (hrun : Attempt env ftrunc AnyCall
      (commonOpen s₀ fd append writable omode umask) hist o) :
    ((∀ x ∈ hist, Contained x.1.fs) ∧ ∃ s, o = some s ∧ Contained s.fs) ↔
      ∀ x ∈ hist, Fits ftrunc x.1 x.2 ∧ ¬ Overruns env x.1 x.2 := by
  have hty := commonOpen_typed s₀ fd append writable omode umask
  have hempty := commonOpen_contained s₀ fd append writable omode umask
  refine hrun.exact (I := fun s => Typed s ∧ 0 ≤ s.fs.inode.size)
    (P := fun s => Contained s.fs) (Q := fun s c => Fits ftrunc s c ∧ ¬ Overruns env s c)
    ?_ ?_ ⟨hty, le_refl 0⟩ hempty
  · rintro s s' c res ⟨hty, hpos⟩ hc hserve -
    obtain ⟨hty', hpos', hiff⟩ := call_contained hty hpos hc hserve
    have hserved := not_overruns hty (fun himm => (hc.bound himm).trans (by decide)) hserve
    exact ⟨⟨hty', hpos'⟩, hiff.trans (and_iff_left hserved).symm⟩
  · rintro s c ⟨hty, -⟩ hc hserve ⟨-, hnot⟩
    exact hnot ((serveCall_overrun hty fun himm => (hc.bound himm).trans (by decide)).mp hserve)

end Run

/-- A new file is truncated to a hundred bytes. -/
theorem contained_exact_truncated : Attempt (calm smallDisk) setSize AnyCall appendFile
      [(appendFile, .ftruncate 0 100)] (some (doFtruncate setSize appendFile 0 100).2) ∧
    (((∀ x ∈ [(appendFile, Call.ftruncate 0 100)], Contained x.1.fs) ∧
        ∃ s, some (doFtruncate setSize appendFile 0 100).2 = some s ∧ Contained s.fs) ↔
      ∀ x ∈ [(appendFile, Call.ftruncate 0 100)],
        Fits setSize x.1 x.2 ∧ ¬ Overruns (calm smallDisk) x.1 x.2) := by
  have hrun : Attempt (calm smallDisk) setSize AnyCall appendFile
      [(appendFile, .ftruncate 0 100)] (some (doFtruncate setSize appendFile 0 100).2) :=
    .reached (.call .start rfl trivial)
  exact ⟨hrun, contained_exact hrun⟩

/-- The file is still immediate then, with a size of a hundred bytes, and
    reading it runs out of the buffer and of the zone numbers. -/
theorem truncated_overrun : ∃ s, serveCall (calm smallDisk) setSize appendFile (.ftruncate 0 100) =
      .ok (.ok 0, s) ∧ inodeType s.fs.inode = iImmediate ∧ s.fs.inode.size = 100 ∧
    ¬ Contained s.fs ∧
    fsReadwrite (calm smallDisk) { s.fs with grant := ⟨100, fun _ => 0⟩ } ⟨.reading, 0, 100⟩ =
      .error .overrun := by
  refine ⟨(doFtruncate setSize appendFile 0 100).2, rfl, by decide, rfl, fun h => ?_, ?_⟩
  · have hle := h.bound (by decide)
    exact absurd hle (by decide)
  · exact read_overrun (n := 100) rfl rfl (by decide) (by decide)

end VfsTruncate
