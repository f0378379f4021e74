import OsLab.MfsModelProofs

/-! # Listing a directory, as MFS and VFS compute it

    `fs_getdents` walks over the slots of a directory, block by block, and
    writes a record for each entry in use into `getdents_buf`, which it copies
    to the caller when the next record does not fit.  It answers with the
    number of bytes copied and the position to go on from, and `do_getdents`
    of VFS keeps that position in the file descriptor.

    The sizes that come from header files are a `Layout`.  What other code
    decides is a parameter: the blocks of the directory, the modes of the
    inodes (`Env`) and whether the kernel copies.  The server does nothing
    else during a request, so that inodes and blocks do not change in it. -/

namespace MfsGetdentsModel

open OsLoop
open MfsModel (ok eperm u32 iType iRegular iImmediate iBlockSpecial iDirectory iNamedPipe)

/-- The ways a request does not return. -/
inductive Fault where
  /-- `panic` -/
  | panic
  /-- a failed `assert` -/
  | assert
  /-- a record behind the end of `getdents_buf` -/
  | overrun
  /-- the loop over the blocks runs forever -/
  | endless
  deriving DecidableEq, Repr

def enoent : Int := -2
def ebadf : Int := -9
def einval : Int := -22

/-! ## Directories and records -/

/-- The sizes of entries and records, and of a block. -/
structure Layout where
  /-- `DIR_ENTRY_SIZE` -/
  entrySize : Nat
  /-- `sizeof(dp->mfs_d_name)` -/
  nameSize : Nat
  /-- `NR_DIR_ENTRIES(block_size)` -/
  perBlock : Nat
  /-- `GETDENTS_BUFSIZE` -/
  bufSize : Nat
  /-- `_DIRENT_RECLEN` -/
  reclen : Nat → Nat
  entry_dvd : entrySize ∣ 4294967296
  perBlock_pos : 0 < perBlock
  /-- a record holds the name and a null byte -/
  holds_name : ∀ len, len ≤ nameSize → len < reclen len
  reclen_le : ∀ len, len ≤ nameSize → reclen len ≤ bufSize
  /-- record lengths are an `unsigned short` -/
  bufSize_short : bufSize < 65536

namespace Layout

variable (L : Layout)

/-- `block_size`. -/
def blockSize : Nat := L.perBlock * L.entrySize

/-- The size of `getdents_buf`. -/
def capacity : Nat := L.bufSize * 8

end Layout

/-- `struct direct`. -/
structure Direct (L : Layout) where
  ino : Nat
  name : List UInt8
  size : name.length = L.nameSize

/-- `DT_REG` and so on. -/
inductive FileType where
  | fifo
  | chr
  | dir
  | blk
  | reg
  | lnk
  | sock
  deriving DecidableEq, Repr

/-- `struct dirent`; the name stands without its null byte. -/
structure Dirent where
  fileno : Nat
  reclen : Nat
  namlen : Nat
  type : FileType
  name : List UInt8
  deriving DecidableEq, Repr

/-- A directory: `i_size`, and its blocks by their number. -/
structure Dir (L : Layout) where
  size : Nat
  block : Nat → Option (Nat → Direct L)
  rdOnly : Bool

/-- What lies outside `read.c` and `fslib.c`: the mode of an inode, if there is
    one of that number, and the code of a kernel copy inside the grant. -/
structure Env where
  mode : Nat → Option Nat
  copyCode : Nat → Nat → Nat → Int

def iCharSpecial : Nat := 0o020000
def iSymbolicLink : Nat := 0o120000
def iUnixSocket : Nat := 0o140000

/-- `fs_mode_to_type`, which also takes immediate files for regular ones. -/
def fsModeToType (mode : Nat) : Except Fault FileType :=
  if mode &&& iType = iRegular then .ok .reg
  else if mode &&& iType = iImmediate then .ok .reg
  else if mode &&& iType = iDirectory then .ok .dir
  else if mode &&& iType = iSymbolicLink then .ok .lnk
  else if mode &&& iType = iCharSpecial then .ok .chr
  else if mode &&& iType = iBlockSpecial then .ok .blk
  else if mode &&& iType = iNamedPipe then .ok .fifo
  else if mode &&& iType = iUnixSocket then .ok .sock
  else .error .assert

/-! ## fs_getdents -/

/-- The local variables of `fs_getdents`: records with their offsets in
    `getdents_buf` and in the caller's buffer.  The last two count what the
    server has acquired and not released. -/
structure Scan where
  tmpbuf : List (Nat × Dirent)
  tmpbufOff : Nat
  userbuf : List (Nat × Dirent)
  userbufOff : Nat
  clock : Nat
  inodes : Int
  blocks : Int
  deriving DecidableEq

/-- What follows an entry: the next one, or the end of the loop because the
    user has no space for the entry at a position, or an early return. -/
inductive Step where
  | next (s : Scan)
  | full (s : Scan) (entPos : Nat)
  | failed (s : Scan) (r : Int)

section Getdents

variable {L : Layout} (env : Env)

/-- The length of a name that need not end in a null byte. -/
def nameLen (dp : Direct L) : Nat := (dp.name.takeWhile (· ≠ 0)).length

/-- `sys_safecopyto` of `len` bytes to `off` in a grant of `size` bytes. -/
def safecopyto (size clock off len : Nat) : Int :=
  if size < off + len then eperm else env.copyCode clock off len

/-- Copy `getdents_buf` to the caller. -/
def flush (size : Nat) (s : Scan) : Int × Scan :=
  let r := safecopyto env size s.clock s.userbufOff s.tmpbufOff
  (r, if r ≠ ok then { s with clock := s.clock + 1 }
    else { s with
      userbuf := s.userbuf ++ s.tmpbuf.map (fun p => (s.userbufOff + p.1, p.2))
      userbufOff := s.userbufOff + s.tmpbufOff
      tmpbuf := []
      tmpbufOff := 0
      clock := s.clock + 1 })

/-- `d_type`: the inode is looked up and released again. -/
def entryType (ino : Nat) : Except Fault FileType :=
  match env.mode ino with
  | none => .error .panic
  | some mode => fsModeToType mode

/-- The record of an entry. -/
def record (dp : Direct L) : Except Fault Dirent := do
  let len := nameLen dp
  let type ← entryType env dp.ino
  .ok ⟨dp.ino, L.reclen len % 65536, len, type, dp.name.take len⟩

/-- Empty `getdents_buf` when a record of `reclen` bytes does not fit behind
    what is in it. -/
def makeRoom (L : Layout) (size : Nat) (s : Scan) (reclen : Nat) : Int × Scan :=
  if s.tmpbufOff + reclen ≥ L.capacity then flush env size s else (ok, s)

/-- Put the record of an entry into `getdents_buf`, unless the copy that was to
    make room has failed. -/
def store (c : Int × Scan) (dp : Direct L) : Except Fault Step :=
  if c.1 ≠ ok then .ok (.failed { c.2 with inodes := c.2.inodes - 1 } c.1)
  else if L.capacity < c.2.tmpbufOff + L.reclen (nameLen dp) then .error .overrun
  else do
    let dep ← record env dp
    .ok (.next { c.2 with
      tmpbuf := c.2.tmpbuf ++ [(c.2.tmpbufOff, dep)]
      tmpbufOff := c.2.tmpbufOff + L.reclen (nameLen dp) })

/-- One turn of the loop over the entries of a block. -/
def scanEntry (size : Nat) (s : Scan) (entPos : Nat) (dp : Direct L) : Except Fault Step :=
  if dp.ino = 0 then .ok (.next s)
  else if u32 ((s.userbufOff + s.tmpbufOff + L.reclen (nameLen dp) : Nat) : Int) ≥ size then
    .ok (.full s entPos)
  else store env (makeRoom env L size s (L.reclen (nameLen dp))) dp

/-- The loop over entries, each with its position in the directory. -/
def scanEntries (size : Nat) : List (Nat × Direct L) → Scan → Except Fault Step
  | [], s => .ok (.next s)
  | (entPos, dp) :: es, s => do
      let step ← scanEntry env size s entPos dp
      match step with
      | .next s => scanEntries size es s
      | stop => .ok stop

/-- The entries of a block from the `first` on. -/
def blockEntries (b : Nat → Direct L) (blockPos first : Nat) : List (Nat × Direct L) :=
  (List.range' first (L.perBlock - first)).map (fun i => (blockPos + i * L.entrySize, b i))

/-- The variables of the loop over blocks; `done` with `newPos` where it ended. -/
structure Progress where
  blockPos : Nat
  scan : Scan
  done : Bool
  newPos : Nat

/-- What follows a block: the next one, or the end of the loop; a code is an
    early return, which does not release the block. -/
def afterBlock (L : Layout) (p : Progress) : Step → Turn Progress (Progress × Option Int)
  | .next s => .again { p with
      blockPos := p.blockPos + L.blockSize
      scan := { s with blocks := s.blocks - 1 } }
  | .full s entPos => .done ({ p with
      scan := { s with blocks := s.blocks - 1 }
      done := true
      newPos := entPos }, none)
  | .failed s r => .done ({ p with scan := s }, some r)

/-- The entry of a block that the scan starts from. -/
def firstEntry (L : Layout) (pos blockPos : Nat) : Nat :=
  if blockPos < pos then pos % L.blockSize / L.entrySize else 0

/-- One turn of the loop over blocks. -/
def blockTurn (size : Nat) (dir : Dir L) (pos : Nat) (p : Progress) :
    Except Fault (Turn Progress (Progress × Option Int)) :=
  if ¬ p.blockPos < dir.size then .ok (.done (p, none))
  else
    match dir.block (p.blockPos / L.blockSize) with
    | none => .error .assert
    | some b => do
        let step ← scanEntries env size (blockEntries b p.blockPos (firstEntry L pos p.blockPos))
          { p.scan with blocks := p.scan.blocks + 1 }
        .ok (afterBlock L p step)

/-- The result code, the reply message, and what the request leaves behind;
    `atime` is set when the time of access is to be updated. -/
structure Result where
  r : Int
  nbytes : Nat
  seekPos : Nat
  scan : Scan
  atime : Bool

/-- Nothing is buffered, copied or acquired. -/
def Scan.start : Scan := ⟨[], 0, [], 0, 0, 0, 0⟩

/-- `put_inode` and return with an error. -/
def failure (s : Scan) (r : Int) : Result := ⟨r, 0, 0, { s with inodes := s.inodes - 1 }, false⟩

/-- What follows the loop over blocks: the rest is copied, and the reply
    filled in. -/
def finish (size : Nat) (rdOnly : Bool) (p : Progress) : Result :=
  let c := if p.scan.tmpbufOff ≠ 0 then flush env size p.scan else (ok, p.scan)
  if c.1 ≠ ok then failure c.2 c.1
  else if p.done ∧ c.2.userbufOff = 0 then failure c.2 einval
  else ⟨ok, c.2.userbufOff, p.newPos, { c.2 with inodes := c.2.inodes - 1 }, !rdOnly⟩

/-- `fs_getdents` for an inode, if there is one, a buffer of `size` bytes and a
    position. -/
def fsGetdents (dir : Option (Dir L)) (size pos : Nat) : Except Fault Result :=
  if u32 pos % L.entrySize ≠ 0 then .ok ⟨enoent, 0, 0, .start, false⟩
  else
    match dir with
    | none => .ok ⟨einval, 0, 0, .start, false⟩
    | some dir => do
        let p ← loop .endless (blockTurn env size dir pos) (dir.size + 1)
          ⟨pos - pos % L.blockSize, { Scan.start with inodes := 1 }, false, dir.size⟩
        match p.2 with
        | some r => .ok ⟨r, 0, 0, p.1.scan, false⟩
        | none => .ok (finish env size dir.rdOnly p.1)

end Getdents

/-! ## do_getdents -/

/-- What VFS looks at in a file descriptor: `R_BIT` of its mode, whether it is
    open on a directory, and the position. -/
structure Filp where
  readable : Bool
  isDir : Bool
  pos : Nat

/-- `do_getdents`, given what `req_getdents` answers for a position. -/
def doGetdents (filp : Filp) (req : Nat → Except Fault (Int × Nat)) : Except Fault (Int × Filp) :=
  if filp.readable = false then .ok (ebadf, filp)
  else if filp.isDir = false then .ok (ebadf, filp)
  else do
    let x ← req filp.pos
    .ok (x.1, if x.1 > 0 then { filp with pos := x.2 } else filp)

/-- A layout like that of the headers, with two entries to a block. -/
def smallLayout : Layout where
  entrySize := 64
  nameSize := 60
  perBlock := 2
  bufSize := 128
  reclen := fun len => (len + 24) / 8 * 8
  entry_dvd := by decide
  perBlock_pos := Nat.two_pos
  holds_name := by
    intro len _
    omega
  reclen_le := by
    intro len _
    omega
  bufSize_short := by decide

end MfsGetdentsModel
