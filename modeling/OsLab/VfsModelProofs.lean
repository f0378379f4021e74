import OsLab.MfsModelProofs

/-! # A file as VFS sees it

    VFS keeps a vnode for the file, with a mode and a size of its own, and a
    position and flags for every open descriptor.  The definitions below
    follow `read_write`, `actual_lseek`, `truncate_vnode` with its two callers,
    and the creation of a file in `common_open`, for one file and the MFS that
    serves it.

    The message layer hands requests to `fs_readwrite` and its replies back.
    What MFS does with a truncation is not among the files modelled; `Ftrunc`
    says what `truncate_vnode` relies on. -/

namespace VfsModel

open OsBytes OsLoop MfsModel

/-- The ways a system call does not return. -/
inductive VfsFault where
  /-- MFS does not answer the request -/
  | mfs (f : Fault)
  /-- a pipe or a special file, served by another path -/
  | otherFile
  deriving DecidableEq

/-! ## Constants -/

def einval : Int := -22
def ebadf : Int := -9
def espipe : Int := -29
def eoverflow : Int := -84

def iCharSpecial : Nat := 0o020000

/-- `SSIZE_MAX` of a 32-bit machine. -/
def ssizeMax : Nat := 2147483647

def isReg (mode : Nat) : Bool := mode &&& iType == iRegular
def isDir (mode : Nat) : Bool := mode &&& iType == iDirectory
def isFifo (mode : Nat) : Bool := mode &&& iType == iNamedPipe
def isChr (mode : Nat) : Bool := mode &&& iType == iCharSpecial
def isBlk (mode : Nat) : Bool := mode &&& iType == iBlockSpecial

/-- A 64-bit `off_t`. -/
def off64 (x : Int) : Int := Int.bmod x 18446744073709551616

/-! ## State -/

structure Vnode where
  mode : Nat
  size : Int

/-- An open descriptor of the file. -/
structure Filp where
  pos : Int
  /-- `O_APPEND` -/
  append : Bool
  /-- `W_BIT` -/
  writable : Bool

/-- The file in VFS, and the server behind it. -/
structure Vfs where
  vnode : Vnode
  filps : Nat → Filp
  fs : Mfs

def Vfs.setPos (s : Vfs) (fd : Nat) (pos : Int) : Vfs :=
  { s with filps := fun x => if x = fd then { s.filps fd with pos := pos } else s.filps x }

/-- What `req_ftrunc` does: on success the inode has the size asked for, and
    its type is as it was in any case. -/
structure Ftrunc where
  run : Mfs → Int → Int × Mfs
  mode : ∀ st length, (run st length).2.inode.mode = st.inode.mode
  sets : ∀ st length, (run st length).1 = ok → (run st length).2.inode.size = length
  keeps : ∀ st length, (run st length).1 ≠ ok → (run st length).2.inode.size = st.inode.size

/-- A server that sets the size and nothing else. -/
def setSize : Ftrunc where
  run := fun st length => (ok, { st with inode := { st.inode with size := length } })
  mode := fun _ _ => rfl
  sets := fun _ _ _ => rfl
  keeps := fun _ _ h => absurd rfl h

/-! ## Reading and writing -/

section Calls

variable {sb : Super} (env : Env sb)

/-- `req_readwrite` and `req_peek`: the caller's buffer is granted to MFS. -/
def reqReadwrite (st : Mfs) (position : Int) (flag : RwFlag) (buf : Mem) (size : Nat) :
    Except VfsFault (Reply × Mfs) :=
  match fsReadwrite env { st with grant := ⟨size, buf⟩ } ⟨flag, position, size⟩ with
  | .error f => .error (.mfs f)
  | .ok x => .ok x

/-- Where a transfer starts: at the cached size for an appending write. -/
def startPos (s : Vfs) (flag : RwFlag) (fd : Nat) : Int :=
  if flag = .writing ∧ (s.filps fd).append then s.vnode.size else (s.filps fd).pos

/-- `read_write`: the bytes moved or an error code. -/
def readWrite (s : Vfs) (flag : RwFlag) (fd : Nat) (buf : Mem) (size : Nat) :
    Except VfsFault (Except Int Nat × Vfs) :=
  if size > ssizeMax then .ok (.error einval, s)
  else if isFifo s.vnode.mode ∨ isChr s.vnode.mode ∨ isBlk s.vnode.mode then .error .otherFile
  else do
    let x ← reqReadwrite env s.fs (startPos s flag fd) flag buf size
    let moved := flag ≠ .peeking ∧ x.1.r ≥ 0
    let position := if moved then x.1.seekPos else startPos s flag fd
    let cumIo := if moved then x.1.nbytes else 0
    let grown := flag = .writing ∧ (isReg s.vnode.mode ∨ isDir s.vnode.mode) ∧
      position > s.vnode.size
    let s' := { s with
      vnode := { s.vnode with size := if grown then position else s.vnode.size }
      fs := x.2 }
    .ok (if x.1.r = ok then .ok cumIo else .error x.1.r, s'.setPos fd position)

/-! ## Seeking -/

inductive Whence where
  | set
  | cur
  | fromEnd
  deriving DecidableEq

/-- The position an offset counts from. -/
def seekBase (s : Vfs) (fd : Nat) : Whence → Int
  | .set => 0
  | .cur => (s.filps fd).pos
  | .fromEnd => s.vnode.size

/-- `actual_lseek`: the code and the new position; `inhibread` is the answer of
    `req_inhibread`. -/
def actualLseek (s : Vfs) (fd : Nat) (whence : Whence) (offset : Int) (inhibread : Int) :
    Int × Option Int × Vfs :=
  if isFifo s.vnode.mode then (espipe, none, s)
  else
    let pos := seekBase s fd whence
    let newpos := off64 (pos + offset)
    if offset > 0 ∧ newpos ≤ pos then (eoverflow, none, s)
    else if offset < 0 ∧ newpos ≥ pos then (eoverflow, none, s)
    else if newpos ≠ (s.filps fd).pos then (inhibread, some newpos, s.setPos fd newpos)
    else (ok, some newpos, s)

/-! ## Truncating -/

section Truncate

variable (ftrunc : Ftrunc)

def truncateVnode (s : Vfs) (newsize : Int) : Int × Vfs :=
  if ¬ isFifo s.vnode.mode ∧ ¬ (isReg s.vnode.mode ∨ s.vnode.mode &&& iType = iImmediate) then
    (einval, s)
  else
    let x := ftrunc.run s.fs newsize
    if x.1 = ok then (x.1, { s with fs := x.2, vnode := { s.vnode with size := newsize } })
    else (x.1, { s with fs := x.2 })

/-- `do_ftruncate`. -/
def doFtruncate (s : Vfs) (fd : Nat) (length : Int) : Int × Vfs :=
  if length < 0 then (einval, s)
  else if ¬ (s.filps fd).writable then (ebadf, s)
  else if isReg s.vnode.mode ∧ s.vnode.size = length then (ok, s)
  else truncateVnode ftrunc s length

/-- `do_truncate`; `permit` is the answer of `forbidden`. -/
def doTruncate (s : Vfs) (permit : Int) (length : Int) : Int × Vfs :=
  if length < 0 then (einval, s)
  else if permit ≠ ok then (permit, s)
  else if isReg s.vnode.mode ∧ s.vnode.size = length then (ok, s)
  else truncateVnode ftrunc s length

end Truncate

/-! ## Creation -/

/-- The mode `common_open` creates a file with. -/
def createMode (omode umask : Nat) : Nat := iImmediate ||| (omode &&& allModes &&& umask)

/-- `common_open` with `O_CREAT`, when the file is new: MFS makes an inode of
    the mode asked for, and the vnode takes mode and size from it. -/
def commonOpen (s : Vfs) (fd : Nat) (append writable : Bool) (omode umask : Nat) : Vfs where
  vnode := ⟨createMode omode umask, 0⟩
  filps := fun x => if x = fd then ⟨0, append, writable⟩ else s.filps x
  fs := { s.fs with inode := { newInode with mode := createMode omode umask } }

/-! ## Calls -/

/-- A system call on the file. -/
inductive Call where
  | io (flag : RwFlag) (fd : Nat) (buf : Mem) (size : Nat)
  | lseek (fd : Nat) (whence : Whence) (offset : Int) (inhibread : Int)
  | ftruncate (fd : Nat) (length : Int)
  | truncate (permit : Int) (length : Int)

/-- The result of a call that moves no bytes. -/
def result (r : Int) : Except Int Nat := if r = ok then .ok 0 else .error r

/-- Serve a call: its result, and the state after it. -/
def serveCall (ftrunc : Ftrunc) (s : Vfs) : Call → Except VfsFault (Except Int Nat × Vfs)
  | .io flag fd buf size => readWrite env s flag fd buf size
  | .lseek fd whence offset inhibread =>
      let x := actualLseek s fd whence offset inhibread
      .ok (result x.1, x.2.2)
  | .ftruncate fd length =>
      let x := doFtruncate ftrunc s fd length
      .ok (result x.1, x.2)
  | .truncate permit length =>
      let x := doTruncate ftrunc s permit length
      .ok (result x.1, x.2)

/-- A run of calls that return, each of which is allowed with its result: every
    state that a call was made in, with the call, and the state after the last. -/
inductive Calls (ftrunc : Ftrunc) (allowed : Call → Except Int Nat → Prop) (s₀ : Vfs) :
    List (Vfs × Call) → Vfs → Prop where
  | start : Calls ftrunc allowed s₀ [] s₀
  | call {hist : List (Vfs × Call)} {s s' : Vfs} {c : Call} {r : Except Int Nat}
      (hrun : Calls ftrunc allowed s₀ hist s) (hserve : serveCall env ftrunc s c = .ok (r, s'))
      (hallow : allowed c r) : Calls ftrunc allowed s₀ (hist ++ [(s, c)]) s'

/-- A run of calls that may end with one in which MFS goes outside `i_zone` or
    the buffer on its stack.  The server is left with other memory overwritten
    then, and there is no state after the call. -/
inductive Attempt (ftrunc : Ftrunc) (allowed : Call → Except Int Nat → Prop) (s₀ : Vfs) :
    List (Vfs × Call) → Option Vfs → Prop where
  | reached {hist : List (Vfs × Call)} {s : Vfs}
      (hrun : Calls env ftrunc allowed s₀ hist s) : Attempt ftrunc allowed s₀ hist (some s)
  | left {hist : List (Vfs × Call)} {s : Vfs} {c : Call}
      (hrun : Calls env ftrunc allowed s₀ hist s)
      (hserve : serveCall env ftrunc s c = .error (.mfs .overrun)) :
      Attempt ftrunc allowed s₀ (hist ++ [(s, c)]) none

variable {env} {ftrunc : Ftrunc} {allowed : Call → Except Int Nat → Prop} {s₀ s : Vfs}
  {hist : List (Vfs × Call)}

/-- Calls are steps. -/
theorem Calls.steps (hrun : Calls env ftrunc allowed s₀ hist s) :
    Steps (fun s c s' => ∃ r, serveCall env ftrunc s c = .ok (r, s') ∧ allowed c r) s₀ hist s := by
  induction hrun with
  | start => exact .start
  | call hrun hserve hallow ih => exact .next ih ⟨_, hserve, hallow⟩

/-- **EXACT RUNS**: when every call made in a `P`-state leads to a `P`-state
    exactly if it is harmless, then all states of a run are `P`-states exactly if
    all its calls are harmless.  `I` is what the calls keep meanwhile. -/
theorem Calls.exact {I P : Vfs → Prop} {harmless : Vfs → Call → Prop}
    (hstep : ∀ {s s' c r}, I s → P s → serveCall env ftrunc s c = .ok (r, s') →
      allowed c r → I s' ∧ (P s' ↔ harmless s c))
    (hrun : Calls env ftrunc allowed s₀ hist s) (hI : I s₀) (hP : P s₀) :
    (((∀ x ∈ hist, P x.1) ∧ P s) ↔ ∀ x ∈ hist, harmless x.1 x.2) ∧
    ((∀ x ∈ hist, harmless x.1 x.2) → I s) :=
  hrun.steps.exact (fun hI hP ⟨_, hserve, hallow⟩ (_ : True) => hstep hI hP hserve hallow)
    (fun _ _ => trivial) hI hP

/-- The same for runs that may end outside, with `Q` for harmless: no state is
    reached there, so that a call which leads there is not. -/
theorem Attempt.exact {I P : Vfs → Prop} {Q : Vfs → Call → Prop} {o : Option Vfs}
    (hstep : ∀ {s s' c r}, I s → P s → serveCall env ftrunc s c = .ok (r, s') →
      allowed c r → I s' ∧ (P s' ↔ Q s c))
    (hleft : ∀ {s c}, I s → P s → serveCall env ftrunc s c = .error (.mfs .overrun) →
      ¬ Q s c)
    (hrun : Attempt env ftrunc allowed s₀ hist o) (hI : I s₀) (hP : P s₀) :
    ((∀ x ∈ hist, P x.1) ∧ ∃ s, o = some s ∧ P s) ↔ ∀ x ∈ hist, Q x.1 x.2 := by
  cases hrun with
  | reached hrun =>
      rw [← (hrun.exact hstep hI hP).1]
      simp only [Option.some.injEq, exists_eq_left']
  | left hrun hserve =>
      obtain ⟨hexact, hinv⟩ := hrun.exact hstep hI hP
      refine iff_of_false ?_ fun hall => ?_
      · rintro ⟨-, s', hs, -⟩
        cases hs
      · -- the run was harmless so far
        have hbefore := fun x hx => hall x (List.mem_append_left _ hx)
        have hlast := hall _ (List.mem_append_right _ (List.mem_singleton_self _))
        exact hleft (hinv hbefore) (hexact.mpr hbefore).2 hserve hlast

end Calls

end VfsModel
