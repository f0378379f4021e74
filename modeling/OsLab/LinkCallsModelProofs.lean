import OsLab.UnlinkModelProofs

/-! # The other calls of `link.c`

    `do_link` and `do_rename` look up two names, `do_truncate`, `do_slink`,
    `do_rdlink` and `rdlink_direct` one.  To fetch a name and look it up
    (`fetch_name`, then `eat_path` or `last_dir`) ends with an error code or
    with a vnode: one more reference to it, and a lock on it and on its mount
    point.  What the caller has locked already is not locked a second time,
    and then `resolve.l_vnode` or `resolve.l_vmp` stays null.

    As for `do_unlink`, the state is what is held, with no kinds of locks, and
    what other servers and `forbidden` answer is an `Env`. -/

namespace LinkCallsModel

open OsLedger UnlinkModel

def enoent : Int := -2
def exdev : Int := -18
def einval : Int := -22
def enametoolong : Int := -63

def posixSymlinkMax : Nat := 255
def ssizeMax : Nat := 2147483647

def sIfreg : Nat := 0o100000
def sIflnk : Nat := 0o120000
def sIfifo : Nat := 0o010000

/-- The type of an immediate file, `0110000`. -/
def sIfimm : Nat := 0o110000

def fileType (vp : Vnode) : Nat := vp.vMode &&& sIfmt

/-- An error code of a function that fails. -/
structure Errno where
  code : Int
  failed : code ≠ ok

/-- A vnode and the mount point it lives on. -/
structure Found where
  vp : Vnode
  vmp : Vmnt
  deriving DecidableEq, Repr

abbrev Lookup := Except Errno Found

/-- What a call meets. -/
structure Env where
  name1 : Lookup
  name2 : Lookup
  forbidden : Vnode → Int
  /-- the block for the sticky bit of `do_rename`, the same as in `do_unlink` -/
  checks : UnlinkModel.Env
  /-- `strlen(fullpath) >= sizeof(old_name)` -/
  longName : Bool
  vSize : Vnode → Int
  reqLink : Int → Nat → Nat → Int
  reqRename : Int → Nat → Nat → Int
  reqFtrunc : Int → Nat → Int → Int
  reqSlink : Int → Nat → Int
  reqRdlink : Int → Nat → Int

/-! ## A second look-up -/

/-- `resolve.l_vnode`, the vnode when it was locked. -/
def lockedVnode (f : Found) (held : Held) : Option Vnode :=
  if .vnodeLock f.vp.slot ∈ held then none else some f.vp

/-- `resolve.l_vmp`, the mount point when it was locked. -/
def lockedVmnt (f : Found) (held : Held) : Option Vmnt :=
  if .vmntLock f.vmp.slot ∈ held then none else some f.vmp

def enterVmnt (vmp : Option Vmnt) (held : Held) : Held :=
  match vmp with
  | none => held
  | some vmp => .vmntLock vmp.slot :: held

def enterVnode (vp : Option Vnode) (held : Held) : Held :=
  match vp with
  | none => held
  | some vp => .vnodeLock vp.slot :: held

/-- What is held once a second name has been looked up. -/
def lookUp (f : Found) (held : Held) : Held :=
  .vnodeRef f.vp.slot :: enterVnode (lockedVnode f held) (enterVmnt (lockedVmnt f held) held)

/-- `if (vp) unlock_vnode(vp)` -/
def unlockVnodeIf (vp : Option Vnode) (held : Held) : Except Fault Held :=
  match vp with
  | none => .ok held
  | some vp => unlockVnode vp held

/-- `if (vmp) unlock_vmnt(vmp)` -/
def unlockVmntIf (vmp : Option Vmnt) (held : Held) : Except Fault Held :=
  match vmp with
  | none => .ok held
  | some vmp => unlockVmnt vmp held

/-! ## Calls with two names -/

/-- The checks of `do_link` and the request. -/
def linkAnswer (env : Env) (vp dirp : Vnode) : Int :=
  if vp.vFsE ≠ dirp.vFsE then exdev
  else if env.forbidden dirp ≠ ok then env.forbidden dirp
  else env.reqLink vp.vFsE dirp.vInodeNr vp.vInodeNr

/-- The end of `do_link`, with both names looked up. -/
def leaveLink (env : Env) (f g : Found) (vmp2 : Option Vmnt) (held : Held) :
    Except Fault (Int × Held) := do
  let held ← unlockVnode f.vp held
  let held ← unlockVnode g.vp held
  let held ← unlockVmntIf vmp2 held
  let held ← unlockVmnt f.vmp held
  let held ← putVnode f.vp held
  let held ← putVnode g.vp held
  .ok (linkAnswer env f.vp g.vp, held)

def doLink (env : Env) (held : Held) : Except Fault (Int × Held) :=
  match env.name1 with
  | .error e => .ok (e.code, held)
  | .ok f =>
      let held := lastDirHeld f.vp f.vmp held
      match env.name2 with
      | .error e => leave f.vp f.vmp e.code held
      | .ok g => leaveLink env f g (lockedVmnt g held) (lookUp g held)

/-- The checks of `do_rename` and the request. -/
def renameAnswer (env : Env) (oldDirp newDirp : Vnode) : Int :=
  if env.forbidden oldDirp ≠ ok then env.forbidden oldDirp
  else if env.forbidden newDirp ≠ ok then env.forbidden newDirp
  else if oldDirp.vFsE ≠ newDirp.vFsE then exdev
  else env.reqRename oldDirp.vFsE oldDirp.vInodeNr newDirp.vInodeNr

/-- The end of `do_rename`, with both directories looked up. -/
def leaveRename (env : Env) (f g : Found) (newDirpL : Option Vnode) (newvmp : Option Vmnt)
    (held : Held) : Except Fault (Int × Held) := do
  let held ← unlockVnode f.vp held
  let held ← unlockVmnt f.vmp held
  let held ← unlockVnodeIf newDirpL held
  let held ← unlockVmntIf newvmp held
  let held ← putVnode f.vp held
  let held ← putVnode g.vp held
  .ok (renameAnswer env f.vp g.vp, held)

/-- Behind the sticky check, whose answer is `r`. -/
def renameOnto (env : Env) (f : Found) (r : Int) (held : Held) : Except Fault (Int × Held) :=
  if r ≠ ok then leave f.vp f.vmp r held
  else if env.longName then leave f.vp f.vmp enametoolong held
  else
    match env.name2 with
    | .error e => leave f.vp f.vmp e.code held
    | .ok g =>
        -- `if (new_dirp == old_dirp) assert(new_dirp_l == NULL);`
        if g.vp.slot = f.vp.slot ∧ (lockedVnode g held).isSome then .error .assertion
        else leaveRename env f g (lockedVnode g held) (lockedVmnt g held) (lookUp g held)

def doRename (env : Env) (held : Held) : Except Fault (Int × Held) :=
  match env.name1 with
  | .error e => .ok (e.code, held)
  | .ok f => do
      let held := lastDirHeld f.vp f.vmp held
      let checked ←
        if f.vp.vMode &&& sIsvtx = sIsvtx then stickyCheck env.checks held else .ok (ok, held)
      renameOnto env f checked.1 checked.2

/-! ## Calls with one name -/

/-- A call that opens a file for a while: `act` is what it answers for it. -/
def withName (name : Lookup) (act : Vnode → Int) (held : Held) : Except Fault (Int × Held) :=
  match name with
  | .error e => .ok (e.code, held)
  | .ok f => leave f.vp f.vmp (act f.vp) (lastDirHeld f.vp f.vmp held)

def truncateVnode (env : Env) (newsize : Int) (vp : Vnode) : Int :=
  if fileType vp ≠ sIfifo ∧ ¬ (fileType vp = sIfreg ∨ fileType vp = sIfimm) then einval
  else env.reqFtrunc vp.vFsE vp.vInodeNr newsize

def doTruncate (env : Env) (length : Int) (held : Held) : Except Fault (Int × Held) :=
  if length < 0 then .ok (einval, held)
  else
    withName env.name1 (fun vp =>
      if env.forbidden vp ≠ ok then env.forbidden vp
      else if fileType vp = sIfreg ∧ env.vSize vp = length then ok
      else truncateVnode env length vp) held

/-- `vname1_length` is the length of the text of the link, with its null byte. -/
def doSlink (env : Env) (vname1Length : Nat) (held : Held) : Except Fault (Int × Held) :=
  if vname1Length ≤ 1 then .ok (enoent, held)
  else if vname1Length ≥ posixSymlinkMax then .ok (enametoolong, held)
  else
    withName env.name2 (fun vp =>
      if env.forbidden vp ≠ ok then env.forbidden vp
      else env.reqSlink vp.vFsE vp.vInodeNr) held

def rdlinkAnswer (env : Env) (vp : Vnode) : Int :=
  if fileType vp ≠ sIflnk then einval else env.reqRdlink vp.vFsE vp.vInodeNr

def rdlinkDirect (env : Env) (held : Held) : Except Fault (Int × Held) :=
  withName env.name1 (rdlinkAnswer env) held

def doRdlink (env : Env) (bufSize : Nat) (held : Held) : Except Fault (Int × Held) :=
  if bufSize > ssizeMax then .ok (einval, held)
  else withName env.name1 (rdlinkAnswer env) held

/-! ## A thread of VFS -/

/-- The calls of `link.c` with a path, each with what it meets. -/
inductive Call where
  | link (env : Env)
  | unlink (env : UnlinkModel.Env)
  | rename (env : Env)
  | truncate (env : Env) (length : Int)
  | slink (env : Env) (vname1Length : Nat)
  | rdlink (env : Env) (bufSize : Nat)
  | rdlinkDirect (env : Env)

def serve (call : Call) (held : Held) : Except Fault (Int × Held) :=
  match call with
  | .link env => doLink env held
  | .unlink env => originalDoUnlink env held
  | .rename env => doRename env held
  | .truncate env length => doTruncate env length held
  | .slink env vname1Length => doSlink env vname1Length held
  | .rdlink env bufSize => doRdlink env bufSize held
  | .rdlinkDirect env => rdlinkDirect env held

/-- A call after others: the answers so far and what is held. -/
def serveNext (s : List Int × Held) (call : Call) : Except Fault (List Int × Held) := do
  let answer ← serve call s.2
  .ok (s.1 ++ [answer.1], answer.2)

end LinkCallsModel
