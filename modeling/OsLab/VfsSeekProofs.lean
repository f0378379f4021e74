import OsLab.VfsTruncateProofs

/-! # Writing where a seek has gone

    `actual_lseek` tests for overflow only, so that a seek may end before the
    first byte.  There both comparisons of `fs_readwrite` let a write pass,
    because the position is signed and stays so next to the length.  A write
    that takes the branch for immediate files from a negative position leaves
    `i_zone` (`inside_iff`).

    Transfers never go back (`io_ahead`).  So in a run of seeks and transfers
    every write stays inside the inode's data area exactly when no seek goes
    before the first byte (`writes_inside_exact`). -/

namespace VfsSeek

open OsBytes OsLoop MfsModel MfsImmediate MfsConvert MfsSize VfsModel VfsSizes VfsTruncate

/-! ## What is asked of a write -/

/-- A write of `k` bytes at `p` takes the branch that copies into `i_zone`. -/
def TakesBranch (sb : Super) (st : Mfs) (p : Int) (k : Nat) : Prop :=
  inodeType st.inode = iImmediate ∧
    writeCheck sb st.inode.size ⟨.writing, p, k⟩ = .ok none ∧ p + k ≤ immediateMax

/-- The 32-bit addresses from `zone+position` on are those of the first 32
    bytes of `i_zone`. -/
def Inside (p : Int) (k : Nat) : Prop := u32 p + k ≤ 32

instance (p : Int) (k : Nat) : Decidable (Inside p k) := inferInstanceAs (Decidable (_ ≤ _))

/-- The write returns an error, and the file is as it was. -/
def Rejected {sb : Super} (env : Env sb) (s : Vfs) (fd : Nat) (buf : Mem) (k : Nat) : Prop :=
  ∃ e s', readWrite env s .writing fd buf k = .ok (.error e, s') ∧ s'.vnode = s.vnode ∧
    s'.filps = s.filps ∧ s'.fs.inode = s.fs.inode ∧ s'.fs.used = s.fs.used ∧
    s'.fs.blocks = s.fs.blocks

/-- Every write that may follow stays inside, and is rejected where it could
    not. -/
def WritesInside {sb : Super} (env : Env sb) (s : Vfs) : Prop :=
  inodeType s.fs.inode = iImmediate → ∀ fd, (s.filps fd).writable = true → ∀ buf k, 1 ≤ k →
    (k ≤ ssizeMax → TakesBranch sb s.fs (startPos s .writing fd) k →
      Inside (startPos s .writing fd) k) ∧
    (startPos s .writing fd < 0 → ¬ Inside (startPos s .writing fd) k → Rejected env s fd buf k)

/-- No descriptor that a write starts from stands before the first byte. -/
def Ahead (sb : Super) (s : Vfs) : Prop :=
  inodeType s.fs.inode = iImmediate → sb.rdOnly = false → ∀ fd, (s.filps fd).writable = true →
    (s.filps fd).append = false → 0 ≤ (s.filps fd).pos

section State

variable {sb : Super} {env : Env sb} {s : Vfs}

/-- Where a transfer leaves the descriptor. -/
def endPos (s : Vfs) (flag : RwFlag) (fd : Nat) (reply : Reply) : Int :=
  if flag ≠ .peeking ∧ reply.r ≥ 0 then reply.seekPos else startPos s flag fd

/-- A transfer that MFS answers. -/
theorem readWrite_answered {flag : RwFlag} {fd size : Nat} {buf : Mem} {reply : Reply} {st : Mfs}
    (hty : Typed s) (hle : size ≤ ssizeMax)
    (hfs : fsReadwrite env { s.fs with grant := ⟨size, buf⟩ } ⟨flag, startPos s flag fd, size⟩ =
      .ok (reply, st)) :
    ∃ moved, readWrite env s flag fd buf size =
      .ok (if reply.r = ok then .ok moved else .error reply.r,
        ({ s with fs := st } : Vfs).setPos fd (endPos s flag fd reply)) := by
  have hother : ¬ (isFifo s.vnode.mode ∨ isChr s.vnode.mode ∨ isBlk s.vnode.mode) := by
    rw [isFifo, isChr, isBlk, hty.vnode]
    decide
  have hreq : reqReadwrite env s.fs (startPos s flag fd) flag buf size = .ok (reply, st) := by
    rw [reqReadwrite, hfs]
  simp only [readWrite, if_neg (Nat.not_lt.mpr hle), if_neg hother]
  refine ⟨if flag ≠ .peeking ∧ reply.r ≥ 0 then reply.nbytes else 0, bind_ok.mpr ⟨_, hreq, ?_⟩⟩
  simp only [hty.notReg, hty.notDir, Bool.false_eq_true, or_self, false_and, and_false, if_false]
  rfl

/-- A position that is set to what it was. -/
theorem setPos_same (s : Vfs) (fd : Nat) : (s.setPos fd (s.filps fd).pos).filps = s.filps := by
  funext x
  by_cases hx : x = fd
  · rw [hx]
    exact if_pos rfl
  · exact if_neg hx

/-- A file system mounted read-only rejects every write. -/
theorem rejected_readOnly (hty : Typed s) (hro : sb.rdOnly = true) {fd : Nat}
    (hstart : startPos s .writing fd = (s.filps fd).pos) (buf : Mem) (k : Nat) :
    Rejected env s fd buf k := by
  by_cases hk : k ≤ ssizeMax
  · have hne : inodeType s.fs.inode ≠ iBlockSpecial := by
      rcases hty.inode with h | h
      · rw [h]; decide
      · rw [h]; decide
    have hcheck : writeCheck sb s.fs.inode.size ⟨.writing, startPos s .writing fd, k⟩ =
        .ok (some erofs) := by
      rw [writeCheck, if_pos rfl, if_pos hro]
    have hfs : fsReadwrite env { s.fs with grant := ⟨k, buf⟩ }
        ⟨.writing, startPos s .writing fd, k⟩ = .ok (⟨erofs, 0, 0⟩, _) :=
      fsReadwrite_ok.mpr ⟨hne, some erofs, hcheck, rfl⟩
    obtain ⟨moved, hrun⟩ := readWrite_answered hty hk hfs
    have hend : endPos s .writing fd ⟨erofs, 0, 0⟩ = (s.filps fd).pos := hstart
    rw [if_neg (by decide), hend] at hrun
    exact ⟨erofs, _, hrun, rfl, setPos_same s fd, rfl, rfl, rfl⟩
  · exact ⟨einval, s, if_pos (by omega), rfl, rfl, rfl, rfl, rfl⟩

/-- **WRITES STAY INSIDE** exactly when no descriptor stands before the first
    byte. -/
theorem inside_iff (hty : Typed s) (hv : 0 ≤ s.vnode.size) (hsize : 0 ≤ s.fs.inode.size) :
    WritesInside env s ↔ Ahead sb s := by
  constructor
  · intro hinside himm hrw fd hw hnot
    have hstart : startPos s .writing fd = (s.filps fd).pos := by
      rw [startPos, if_neg (by simp [hnot])]
    by_contra hneg
    -- thirty-three bytes are never inside
    have hall := (hinside himm fd hw (fun _ => 0) 33 (by decide)).1 (by decide)
    rw [hstart] at hall
    have hcheck : writeCheck sb s.fs.inode.size ⟨.writing, (s.filps fd).pos, 33⟩ = .ok none := by
      have hbig : ¬ (s.filps fd).pos > (u32 (sb.maxSize - (33 : Nat) : Int) : Int) := by omega
      have hhole : ¬ (s.filps fd).pos > s.fs.inode.size := by omega
      simp only [writeCheck, hrw, Bool.false_eq_true, if_false, if_true, if_neg hbig,
        if_neg hhole]
    have hin : u32 (s.filps fd).pos + 33 ≤ 32 := hall ⟨himm, hcheck, by
      show (s.filps fd).pos + ((33 : Nat) : Int) ≤ 32
      omega⟩
    omega
  · intro hahead himm fd hw buf k hk
    by_cases hro : sb.rdOnly = true
    · refine ⟨fun _ htakes => ?_, fun hneg _ => rejected_readOnly hty hro ?_ buf k⟩
      case refine_2 =>
        rw [startPos] at hneg ⊢
        split
        · next happend =>
            rw [if_pos happend] at hneg
            omega
        · rfl
      have hcheck := htakes.2.1
      rw [writeCheck, if_pos rfl, if_pos hro] at hcheck
      cases hcheck
    · have hstart : 0 ≤ startPos s .writing fd := by
        rw [startPos]
        split
        · omega
        · next hnot => exact hahead himm (by simpa using hro) fd hw (by simpa using hnot)
      refine ⟨fun _ htakes => ?_, fun hneg _ => absurd hstart (by omega)⟩
      have hend : startPos s .writing fd + (k : Int) ≤ 32 := htakes.2.2
      unfold Inside u32
      omega

end State

/-! ## One call -/

section Step

variable {sb : Super} {env : Env sb} {s s' : Vfs}

/-- The branch for immediate files goes as far as it moves bytes. -/
theorem immediateTransfer_position {flag : RwFlag} {fSize : Int} {i t : Progress}
    (hsize : 0 ≤ fSize ∧ fSize ≤ 32) (hcum : i.cumIo = 0)
    (h : immediateTransfer env flag fSize i = .ok t) :
    t.position - t.cumIo = i.position - i.cumIo := by
  have hwrite : immediateTransfer env .writing fSize i = .ok t →
      t.position - t.cumIo = i.position - i.cumIo :=
    fun hw => (immediateTransfer_moved hw).position
  cases flag with
  | writing => exact hwrite h
  | peeking => exact hwrite h
  | reading =>
      obtain ⟨_, -, h⟩ := bind_ok.mp h
      split at h
      · cases h
        show i.position + fSize - ((u32 (i.cumIo + fSize) : Nat) : Int) = _
        rw [hcum]
        unfold u32
        omega
      · cases h; rfl

/-- Before the chunk loop the position has gone as far as bytes were moved. -/
theorem entry_position {st : Mfs} {req : Request} {i : Progress}
    (hsize : inodeType st.inode = iImmediate → 0 ≤ st.inode.size ∧ st.inode.size ≤ 32)
    (hentry : entry env st req = .ok (none, i)) : i.position - i.cumIo = req.seekPos := by
  have hstart : (start st req).position - (start st req).cumIo = req.seekPos := Int.sub_zero _
  rw [entry] at hentry
  split at hentry
  case isFalse =>
    obtain ⟨-, rfl⟩ := Prod.mk.inj (Except.ok.inj hentry)
    exact hstart
  case isTrue himm =>
    rw [immediateFile] at hentry
    split at hentry
    · split at hentry
      · obtain ⟨c, -, hc⟩ := bind_ok.mp hentry
        obtain ⟨-, rfl⟩ := Prod.mk.inj (Except.ok.inj hc)
        exact hstart
      · obtain ⟨t, ht, hc⟩ := bind_ok.mp hentry
        obtain ⟨-, rfl⟩ := Prod.mk.inj (Except.ok.inj hc)
        rw [← hstart]
        exact immediateTransfer_position (hsize himm) rfl ht
    · split at hentry
      · obtain ⟨-, rfl⟩ := Prod.mk.inj (Except.ok.inj hentry)
        exact hstart
      · obtain ⟨t, ht, hc⟩ := bind_ok.mp hentry
        obtain ⟨-, rfl⟩ := Prod.mk.inj (Except.ok.inj hc)
        rw [← hstart]
        exact immediateTransfer_position (hsize himm) rfl ht

/-- **AN ANSWERED REQUEST** never leaves the position before where it was, and
    one that is refused at once leaves it at the first byte. -/
theorem reply_forward {st st' : Mfs} {req : Request} {reply : Reply}
    (hsize : inodeType st.inode = iImmediate → 0 ≤ st.inode.size ∧ st.inode.size ≤ 32)
    (hrun : fsReadwrite env st req = .ok (reply, st')) (hp : 0 ≤ req.seekPos) :
    0 ≤ reply.seekPos := by
  obtain ⟨-, early, hearly, h⟩ := fsReadwrite_ok.mp hrun
  cases early with
  | some e =>
      obtain ⟨rfl, -⟩ := Prod.mk.inj h
      exact le_refl 0
  | none =>
      obtain ⟨⟨c, i⟩, hi, h⟩ := h
      cases c with
      | some e =>
          obtain ⟨rfl, -⟩ := Prod.mk.inj h
          exact le_refl 0
      | none =>
          obtain ⟨t, hloop, hx⟩ := h
          have hfrom := entry_position hsize hi
          have hmoved : t.position - t.cumIo = i.position - i.cumIo := (loop_moved hloop).position
          rw [show reply.seekPos = t.position from congrArg (fun x => x.1.seekPos) hx]
          omega

/-- A regular file stays regular. -/
theorem io_regular {st st' : Mfs} {req : Request} {reply : Reply}
    (hreg : inodeType st.inode = iRegular) (hrun : fsReadwrite env st req = .ok (reply, st')) :
    inodeType st'.inode = iRegular := by
  have hkept : Steady st st' → inodeType st'.inode = iRegular := fun h =>
    (congrArg (fun m => m &&& iType) h.mode).trans hreg
  by_cases hflag : req.flag = .writing
  case neg => exact hkept (other_effect hflag hrun)
  obtain ⟨flag, p, k⟩ := req
  cases hflag
  have hnot : ¬ Converts st p k := fun h => not_immediate hreg h.1
  rcases write_effect (Or.inl hreg) (fun himm => absurd himm (not_immediate hreg)) hrun with
    ⟨-, -, hsteady | ⟨hconv, -⟩⟩ | hserved
  · exact hkept hsteady
  · exact absurd hconv hnot
  · rw [hserved.type, if_neg hnot]
    exact hreg

/-- Transfers and seeks. -/
def Moves : Call → Except Int Nat → Prop
  | .io .., _ => True
  | .lseek .., _ => True
  | .ftruncate .., _ => False
  | .truncate .., _ => False

/-- The seek passes the test for overflow and ends before the first byte. -/
def GoesBack (s : Vfs) (fd : Nat) (whence : Whence) (offset : Int) : Prop :=
  ¬ (offset > 0 ∧ off64 (seekBase s fd whence + offset) ≤ seekBase s fd whence) ∧
  ¬ (offset < 0 ∧ off64 (seekBase s fd whence + offset) ≥ seekBase s fd whence) ∧
  off64 (seekBase s fd whence + offset) < 0

/-- The call is no seek that goes back on a descriptor that writes to an
    immediate file start from. -/
def StaysAhead (sb : Super) (s : Vfs) : Call → Prop
  | .lseek fd whence offset _ => inodeType s.fs.inode = iImmediate → sb.rdOnly = false →
      (s.filps fd).writable = true → (s.filps fd).append = false → ¬ GoesBack s fd whence offset
  | _ => True

/-- Moving a descriptor to `pos` keeps all of them ahead. -/
theorem setPos_ahead (fd : Nat) (pos : Int) (hahead : Ahead sb s)
    (himm : inodeType s'.fs.inode = iImmediate → inodeType s.fs.inode = iImmediate)
    (hfilps : s'.filps = (s.setPos fd pos).filps) :
    Ahead sb s' ↔ (inodeType s'.fs.inode = iImmediate → sb.rdOnly = false →
      (s.filps fd).writable = true → (s.filps fd).append = false → 0 ≤ pos) := by
  have hself : s'.filps fd = { s.filps fd with pos := pos } := by
    rw [hfilps]
    exact if_pos rfl
  constructor
  · intro hahead' himm' hrw hw hnot
    have hpos := hahead' himm' hrw fd (by rw [hself]; exact hw) (by rw [hself]; exact hnot)
    rw [hself] at hpos
    exact hpos
  · intro hpos himm' hrw x hw hnot
    by_cases hx : x = fd
    · subst hx
      rw [hself] at hw hnot ⊢
      exact hpos himm' hrw hw hnot
    · have hother : s'.filps x = s.filps x := by
        rw [hfilps]
        exact if_neg hx
      rw [hother] at hw hnot ⊢
      exact hahead (himm himm') hrw x hw hnot

/-- **TRANSFERS STAY AHEAD.** -/
theorem io_ahead {flag : RwFlag} {fd size : Nat} {buf : Mem} {res : Except Int Nat}
    (hty : Typed s) (hpos : 0 ≤ s.fs.inode.size) (hc : Contained s.fs)
    (hahead : Ahead sb s) (hrun : readWrite env s flag fd buf size = .ok (res, s')) :
    Ahead sb s' := by
  by_cases hle : size ≤ ssizeMax
  case neg =>
    rw [readWrite, if_pos (by omega)] at hrun
    cases hrun
    exact hahead
  rcases (io_vnode hty hrun).2 with ⟨-, rfl⟩ | ⟨reply, hfs, -⟩
  · exact hahead
  obtain ⟨moved, hanswer⟩ := readWrite_answered hty hle hfs
  have hst := (Prod.mk.inj (Except.ok.inj (hrun.symm.trans hanswer))).2
  have hfilps : s'.filps = (s.setPos fd (endPos s flag fd reply)).filps := by
    rw [hst]
    rfl
  have himm : inodeType s'.fs.inode = iImmediate → inodeType s.fs.inode = iImmediate := by
    intro himm'
    rcases hty.inode with hreg | himm
    · have hreg₀ : inodeType ({ s.fs with grant := ⟨size, buf⟩ } : Mfs).inode = iRegular := hreg
      exact absurd himm' (not_immediate (io_regular hreg₀ hfs))
    · exact himm
  refine (setPos_ahead fd _ hahead himm hfilps).mpr fun himm' hrw hw hnot => ?_
  have hstart : 0 ≤ startPos s flag fd := by
    rw [startPos, if_neg (by simp [hnot])]
    exact hahead (himm himm') hrw fd hw hnot
  rw [endPos]
  split
  · refine reply_forward ?_ hfs hstart
    exact fun h => ⟨hpos, hc.bound h⟩
  · exact hstart

/-- **A SEEK** stays ahead exactly when it does not go back. -/
theorem lseek_ahead {fd : Nat} {whence : Whence} {offset inhibread : Int} (hty : Typed s)
    (hahead : Ahead sb s) : Ahead sb (actualLseek s fd whence offset inhibread).2.2 ↔
      StaysAhead sb s (.lseek fd whence offset inhibread) := by
  have hfifo : ¬ isFifo s.vnode.mode = true := by simp [hty.notFifo]
  rw [actualLseek, if_neg hfifo]
  dsimp only
  by_cases hover : offset > 0 ∧
      off64 (seekBase s fd whence + offset) ≤ seekBase s fd whence
  · rw [if_pos hover]
    exact iff_of_true hahead fun _ _ _ _ hback => hback.1 hover
  rw [if_neg hover]
  by_cases hunder : offset < 0 ∧
      off64 (seekBase s fd whence + offset) ≥ seekBase s fd whence
  · rw [if_pos hunder]
    exact iff_of_true hahead fun _ _ _ _ hback => hback.2.1 hunder
  rw [if_neg hunder]
  by_cases hmove : off64 (seekBase s fd whence + offset) ≠ (s.filps fd).pos
  · rw [if_pos hmove]
    refine Iff.trans (setPos_ahead fd (off64 (seekBase s fd whence + offset)) hahead id rfl) ?_
    constructor
    · intro hpos himm hrw hw hnot hback
      have h0 := hpos himm hrw hw hnot
      have hneg := hback.2.2
      omega
    · intro hstay himm hrw hw hnot
      by_contra hneg
      exact hstay himm hrw hw hnot ⟨hover, hunder, by omega⟩
  · rw [if_neg hmove]
    refine iff_of_true hahead fun himm hrw hw hnot hback => ?_
    have h0 := hahead himm hrw fd hw hnot
    have hneg := hback.2.2
    rw [not_not.mp hmove] at hneg
    omega

/-- An open immediate file: its bytes fit the inode, and VFS has a size of it
    that is not negative. -/
structure Opened (s : Vfs) : Prop where
  typed : Typed s
  cached : 0 ≤ s.vnode.size
  size : 0 ≤ s.fs.inode.size
  contained : Contained s.fs

/-- **ONE CALL** stays ahead exactly when it is no seek that goes back. -/
theorem call_ahead {ftrunc : Ftrunc} {c : Call} {res : Except Int Nat} (hopen : Opened s)
    (hahead : Ahead sb s) (hserve : serveCall env ftrunc s c = .ok (res, s'))
    (hallow : Moves c res) : Opened s' ∧ (Ahead sb s' ↔ StaysAhead sb s c) := by
  cases c with
  | io flag fd buf size =>
      obtain ⟨hty', hpos', hc'⟩ := io_contained hopen.typed hopen.size hopen.contained hserve
      have hvnode := (io_vnode hopen.typed hserve).1
      exact ⟨⟨hty', by rw [hvnode]; exact hopen.cached, hpos', hc'⟩, iff_of_true
        (io_ahead hopen.typed hopen.size hopen.contained hahead hserve) trivial⟩
  | lseek fd whence offset inhibread =>
      obtain ⟨hvnode, hfs⟩ := lseek_same (s := s) fd whence offset inhibread
      have hst : s' = (actualLseek s fd whence offset inhibread).2.2 :=
        (congrArg Prod.snd (Except.ok.inj hserve)).symm
      rw [hst]
      exact ⟨⟨⟨by rw [hvnode]; exact hopen.typed.vnode, by rw [hfs]; exact hopen.typed.inode⟩,
        by rw [hvnode]; exact hopen.cached, by rw [hfs]; exact hopen.size,
        by rw [hfs]; exact hopen.contained⟩, lseek_ahead hopen.typed hahead⟩
  | ftruncate fd length => exact hallow.elim
  | truncate permit length => exact hallow.elim

end Step

/-! ## Runs -/

section Run

variable {sb : Super} {env : Env sb} {ftrunc : Ftrunc} {s : Vfs}

/-- A file that was just created is such a file. -/
theorem commonOpen_opened (s : Vfs) (fd : Nat) (append writable : Bool) (omode umask : Nat) :
    Opened (commonOpen s fd append writable omode umask) :=
  ⟨commonOpen_typed s fd append writable omode umask, le_refl 0, le_refl 0,
    commonOpen_contained s fd append writable omode umask⟩

/-- Its descriptor starts at the first byte. -/
theorem commonOpen_pos {s : Vfs} (fd : Nat) (append writable : Bool) (omode umask : Nat)
    (hpos : ∀ x, 0 ≤ (s.filps x).pos) (x : Nat) :
    0 ≤ ((commonOpen s fd append writable omode umask).filps x).pos := by
  by_cases hx : x = fd
  · simp only [commonOpen, if_pos hx, le_refl]
  · simp only [commonOpen, if_neg hx]
    exact hpos x

/-- **WRITES STAY INSIDE THE DATA AREA** in every state that seeks and transfers
    on an open immediate file reach, exactly when no seek of the run goes back
    before the first byte.  No descriptor stands there at the beginning. -/
theorem writes_inside_exact {s₀ : Vfs} {hist : List (Vfs × Call)} (hopen : Opened s₀)
    (hpos : ∀ x, 0 ≤ (s₀.filps x).pos) (hrun : Calls env ftrunc Moves s₀ hist s) :
    ((∀ x ∈ hist, WritesInside env x.1) ∧ WritesInside env s) ↔
      ∀ x ∈ hist, StaysAhead sb x.1 x.2 := by
  have hahead : Ahead sb s₀ := fun _ _ x _ _ => hpos x
  refine (hrun.exact (I := Opened) (P := WritesInside env) ?_ hopen
    ((inside_iff hopen.typed hopen.cached hopen.size).mpr hahead)).1
  intro s s' c res hopen hinside hserve hallow
  obtain ⟨hopen', hiff⟩ := call_ahead hopen
    ((inside_iff hopen.typed hopen.cached hopen.size).mp hinside) hserve hallow
  exact ⟨hopen', (inside_iff hopen'.typed hopen'.cached hopen'.size).trans hiff⟩

end Run

/-- A new file, opened for writing. -/
def plainFile : Vfs := commonOpen idle 0 false true 0o644 0o755

/-- The same file with five bytes, of which VFS knows. -/
def fiveFile : Vfs :=
  { plainFile with
    vnode := { plainFile.vnode with size := 5 }
    fs := { plainFile.fs with inode := { plainFile.fs.inode with size := 5 } } }

theorem fiveFile_opened : Opened fiveFile := by
  have hnew := (commonOpen_opened idle 0 false true 0o644 0o755).typed
  refine ⟨⟨hnew.vnode, hnew.inode⟩, by decide, by decide, ?_⟩
  exact (contained_iff (by decide)).mpr fun _ => by decide

/-- The end is sought. -/
theorem writes_inside_exact_seek : ∃ s, Calls (calm smallDisk) setSize Moves fiveFile
      [(fiveFile, .lseek 0 .fromEnd 0 ok)] s ∧
    (((∀ x ∈ [(fiveFile, Call.lseek 0 .fromEnd 0 ok)], WritesInside (calm smallDisk) x.1) ∧
        WritesInside (calm smallDisk) s) ↔
      ∀ x ∈ [(fiveFile, Call.lseek 0 .fromEnd 0 ok)], StaysAhead smallDisk x.1 x.2) := by
  have hpos : ∀ x, 0 ≤ (fiveFile.filps x).pos :=
    commonOpen_pos 0 false true 0o644 0o755 fun _ => le_refl 0
  have hrun : Calls (calm smallDisk) setSize Moves fiveFile
      [(fiveFile, .lseek 0 .fromEnd 0 ok)] (actualLseek fiveFile 0 .fromEnd 0 ok).2.2 :=
    .call .start rfl trivial
  exact ⟨_, hrun, writes_inside_exact fiveFile_opened hpos hrun⟩

/-- The descriptor is moved to five bytes before the file, and one byte is
    written there. -/
theorem seek_before_start : ∃ s, Calls (calm smallDisk) setSize Moves plainFile
      [(plainFile, .lseek 0 .set (-5) ok)] s ∧ (s.filps 0).pos = -5 ∧
    ¬ WritesInside (calm smallDisk) s ∧
    readWrite (calm smallDisk) s .writing 0 (fun _ => 97) 1 = .error (.mfs .overrun) := by
  refine ⟨(actualLseek plainFile 0 .set (-5) ok).2.2, .call .start rfl trivial, by decide, ?_, ?_⟩
  · intro hinside
    have hin := (hinside (by decide) 0 rfl (fun _ => 97) 1 (by decide)).1 (by decide)
      ⟨by decide, by decide, by decide⟩
    exact absurd hin (by decide)
  · rfl

end VfsSeek
