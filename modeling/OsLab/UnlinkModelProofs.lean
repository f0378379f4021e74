import OsLab.LedgerProofs

/-! # `do_unlink`, as VFS runs it

    `do_unlink` looks up the directory of the path, checks it, looks the file
    up once more when the sticky bit is set, and asks the file system to
    unlink.  The version with the deletion message looks the file up in any
    case, and prints its inode number on `/home`.

    What the functions of other files answer is an `Env`: the directory that
    `last_dir` finds, and for each call of `advance` the vnode, the error and
    the mount point it leaves locked.  A vnode that the caller has locked
    already is not locked again.  The state is the list of the locks and
    references held, with no kinds of locks, so that `upgrade_vmnt_lock` is
    left out.  Following a null pointer, a failing `assert` and the
    release of something that is not held are `Fault`s; what is printed is
    left out. -/

namespace UnlinkModel

open OsLedger

/-- The ways a call does not return. -/
inductive Fault where
  /-- a field of a null vnode is read -/
  | nullVnode
  /-- `assert(vmp2 == NULL)` fails -/
  | assertion
  /-- a lock or reference that is not held is released -/
  | notHeld
  deriving DecidableEq, Repr

def ok : Int := 0
def eperm : Int := -1
def enotdir : Int := -20

def suUid : Nat := 0

/-- The file type bits of a mode. -/
def sIfmt : Nat := 0o170000
def sIfdir : Nat := 0o040000
def sIsvtx : Nat := 0o001000

def sIsDir (mode : Nat) : Bool := mode &&& sIfmt == sIfdir

/-- A vnode, with the slot that makes it this one. -/
structure Vnode where
  slot : Nat
  vMode : Nat
  vUid : Nat
  vFsE : Int
  vInodeNr : Nat
  deriving DecidableEq, Repr

structure Vmnt where
  slot : Nat
  mMountPath : String
  deriving DecidableEq, Repr

/-- What can be held: a lock on a vnode or a mount point, or a reference. -/
inductive Res where
  | vnodeLock (slot : Nat)
  | vmntLock (slot : Nat)
  | vnodeRef (slot : Nat)
  deriving DecidableEq, Repr

abbrev Held := List Res

/-- What `advance` leaves in `*vmp2`, its answer, and `err_code` with no
    answer. -/
structure Advanced where
  vmp2 : Option Vmnt
  vp : Option Vnode
  errCode : Int

/-- What a call meets. -/
structure Env where
  copyPath : Int
  copyPathErr : Int
  lastDir : Option (Vnode × Vmnt)
  lastDirErr : Int
  forbidden : Vnode → Int
  stickyLookup : Advanced
  effuid : Nat
  /-- the look-up for the message -/
  fileLookup : Advanced
  /-- `job_call_nr == VFS_UNLINK` -/
  unlinkCall : Bool
  reqUnlink : Int → Nat → Int
  reqRmdir : Int → Nat → Int

/-! ## Locks and references -/

def unlockVnode (vp : Vnode) (held : Held) : Except Fault Held :=
  release .notHeld (.vnodeLock vp.slot) held

def unlockVmnt (vmp : Vmnt) (held : Held) : Except Fault Held :=
  release .notHeld (.vmntLock vmp.slot) held

def putVnode (vp : Vnode) (held : Held) : Except Fault Held :=
  release .notHeld (.vnodeRef vp.slot) held

/-- What is held once `last_dir` has found the directory. -/
def lastDirHeld (dirp : Vnode) (vmp : Vmnt) (held : Held) : Held :=
  .vnodeLock dirp.slot :: .vnodeRef dirp.slot :: .vmntLock vmp.slot :: held

/-- What is held once `advance` has answered. -/
def advance (a : Advanced) (held : Held) : Held :=
  let entered := match a.vmp2 with
    | none => held
    | some vmp2 => .vmntLock vmp2.slot :: held
  match a.vp with
  | none => entered
  | some vp =>
      .vnodeRef vp.slot ::
        if .vnodeLock vp.slot ∈ held then entered else .vnodeLock vp.slot :: entered

/-! ## The calls -/

/-- The end of every path behind `last_dir`. -/
def leave (dirp : Vnode) (vmp : Vmnt) (r : Int) (held : Held) : Except Fault (Int × Held) := do
  let held ← unlockVnode dirp held
  let held ← unlockVmnt vmp held
  let held ← putVnode dirp held
  .ok (r, held)

/-- The answer of the sticky check: only the owner or the superuser. -/
def ownerCheck (env : Env) : Int :=
  match env.stickyLookup.vp with
  | none => env.stickyLookup.errCode
  | some vp => if vp.vUid ≠ env.effuid ∧ env.effuid ≠ suUid then eperm else ok

/-- The block for the sticky bit. -/
def stickyCheck (env : Env) (held : Held) : Except Fault (Int × Held) := do
  let held := advance env.stickyLookup held
  if env.stickyLookup.vmp2.isSome then .error .assertion
  else
    match env.stickyLookup.vp with
    | none => .ok (ownerCheck env, held)
    | some vp =>
        let held ← unlockVnode vp held
        let held ← putVnode vp held
        .ok (ownerCheck env, held)

/-- The block for the deletion message. -/
def deletionMessage (env : Env) (vmp : Vmnt) (held : Held) : Except Fault Held := do
  let held := advance env.fileLookup held
  if vmp.mMountPath = "/home" ∧ env.fileLookup.vp.isNone then .error .nullVnode
  else
    match env.fileLookup.vp with
    | none => .ok held
    | some vp =>
        let held ← unlockVnode vp held
        putVnode vp held

/-- The call to the file system. -/
def request (env : Env) (dirp : Vnode) : Int :=
  if env.unlinkCall then env.reqUnlink dirp.vFsE dirp.vInodeNr
  else env.reqRmdir dirp.vFsE dirp.vInodeNr

/-- Behind the sticky check, whose answer is `r`: the block of the version at
    hand and the request. -/
def afterChecks (block : Vmnt → Held → Except Fault Held) (env : Env) (dirp : Vnode) (vmp : Vmnt)
    (r : Int) (held : Held) : Except Fault (Int × Held) :=
  if r ≠ ok then leave dirp vmp r held
  else do
    let held ← block vmp held
    leave dirp vmp (request env dirp) held

/-- The body of the two versions, with the block between the checks and the
    request. -/
def unlinkWith (block : Vmnt → Held → Except Fault Held) (env : Env) (held : Held) :
    Except Fault (Int × Held) :=
  if env.copyPath ≠ ok then .ok (env.copyPathErr, held)
  else
    match env.lastDir with
    | none => .ok (env.lastDirErr, held)
    | some (dirp, vmp) =>
        let held := lastDirHeld dirp vmp held
        if ¬ sIsDir dirp.vMode then leave dirp vmp enotdir held
        else if env.forbidden dirp ≠ ok then leave dirp vmp (env.forbidden dirp) held
        else do
          let checked ←
            if dirp.vMode &&& sIsvtx = sIsvtx then stickyCheck env held else .ok (ok, held)
          afterChecks block env dirp vmp checked.1 checked.2

/-- `do_unlink` with the deletion message. -/
def doUnlink (env : Env) (held : Held) : Except Fault (Int × Held) :=
  unlinkWith (deletionMessage env) env held

/-- The original `do_unlink`. -/
def originalDoUnlink (env : Env) (held : Held) : Except Fault (Int × Held) :=
  unlinkWith (fun _ held => .ok held) env held

end UnlinkModel
