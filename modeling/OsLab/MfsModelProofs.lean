import OsLab.BytesProofs
import OsLab.LoopProofs

/-! # Reading and writing a file, as MFS computes it

    The file server keeps the zone numbers of a regular file in the 40 bytes
    of `i_zone`, and the file's own bytes in the same 40 bytes while the
    inode is immediate.  The definitions below follow `read.c` and `write.c`
    for one inode that is no block device.

    What is not in those files is a parameter, `Env`: which zone the bitmap
    hands out or that it hands out none, whether the kernel copies to and
    from the caller succeed, what a cache buffer holds that was acquired
    without reading it, and when the cache reports an I/O error.  Every
    answer depends on a clock that ticks with each question, so answers may
    change from call to call.  The cache returns what was last stored in a
    block; `Fault` is every way a request is not answered. -/

namespace MfsModel

open OsBytes OsLoop

/-- The ways a request does not return. -/
inductive Fault where
  /-- `panic` -/
  | panic
  /-- a failed `assert` -/
  | assert
  /-- an access outside the 40 bytes of `buffer` or of `i_zone` -/
  | overrun
  /-- the inode is a block device, served by another path -/
  | blockSpecial
  /-- a loop runs forever -/
  | endless
  deriving DecidableEq, Repr

/-! ## Constants -/

def ok : Int := 0
def eperm : Int := -1
def efbig : Int := -27
def enospc : Int := -28
def erofs : Int := -30
def endOfFile : Int := -104

def iType : Nat := 0o170000
def iRegular : Nat := 0o100000
def iImmediate : Nat := 0o110000
def iBlockSpecial : Nat := 0o060000
def iDirectory : Nat := 0o040000
def iNamedPipe : Nat := 0o010000
def allModes : Nat := 0o007777

def noZone : Nat := 0
def noBlock : Nat := 0

/-- Zone numbers in an inode, `V2_NR_TZONES`, and the direct ones among them,
    `V2_NR_DZONES`. -/
def nrTzones : Nat := 10
def nrDzones : Nat := 7

/-- Bytes of `i_zone`, and of the stack buffer of `fs_readwrite`. -/
def zoneBytes : Nat := 40

/-- The largest immediate file. -/
def immediateMax : Int := 32

/-- Conversion to `unsigned int`. -/
def u32 (x : Int) : Nat := (x % 4294967296).toNat

/-! ## State -/

/-- The superblock of a mounted V3 file system. -/
structure Super where
  blockSize : Nat
  logZoneSize : Nat
  firstDataZone : Nat
  zones : Nat
  maxSize : Nat
  rdOnly : Bool
  minBlock : 1024 ≤ blockSize
  /-- zone 0 holds the boot block -/
  reserved : 0 < firstDataZone
  zones32 : zones ≤ 4294967296
  maxInt : maxSize < 2147483648

/-- Zone numbers in an indirect block, `V2_INDIRECTS`. -/
def Super.nrIndirects (sb : Super) : Nat := sb.blockSize / 4

/-- Which times of the inode are to be updated. -/
structure Update where
  atime : Bool
  ctime : Bool
  mtime : Bool
  deriving DecidableEq

structure Inode where
  mode : Nat
  size : Int
  zone : Mem
  zsearch : Nat
  update : Update
  dirty : Bool
  /-- `i_seek == NO_SEEK` -/
  noSeek : Bool

/-- The caller's buffer behind a grant. -/
structure Grant where
  size : Nat
  mem : Mem

/-- The server's state around one inode. -/
structure Mfs where
  inode : Inode
  used : List Nat
  blocks : Nat → Mem
  errCode : Int
  rdwtErr : Int
  grant : Grant
  clock : Nat

/-- What lies outside `read.c` and `write.c`. -/
structure Env (sb : Super) where
  /-- the zone the bitmap hands out, given those in use and where to look -/
  zoneFor : Nat → List Nat → Nat → Option Nat
  zoneFor_fresh : ∀ {t used near z}, zoneFor t used near = some z →
    z ∉ used ∧ sb.firstDataZone ≤ z ∧ z < sb.zones
  /-- the code of a kernel copy that stays inside the grant -/
  copyCode : Nat → Nat → Nat → Int
  /-- an I/O error the cache has run into -/
  cacheErr : Nat → Int
  /-- what a buffer holds that was acquired without reading the block -/
  stale : Nat → Mem

section Access

variable {sb : Super} (env : Env sb)

def inodeType (ino : Inode) : Nat := ino.mode &&& iType

/-- Set the `i`-th zone number. -/
def Mfs.setZone (st : Mfs) (i z : Nat) : Mfs :=
  { st with inode := { st.inode with zone := setWord st.inode.zone i z } }

/-- Store a buffer in the cache. -/
def Mfs.putBlock (st : Mfs) (b : Nat) (data : Mem) : Mfs :=
  { st with blocks := fun x => if x = b then data else st.blocks x }

/-- `IN_MARKDIRTY`. -/
def Mfs.markDirty (st : Mfs) : Mfs :=
  { st with inode := { st.inode with dirty := true } }

/-- The cache may have run into an I/O error since it was last asked. -/
def noteErr (st : Mfs) : Mfs :=
  { st with
    rdwtErr := if env.cacheErr st.clock = ok then st.rdwtErr else env.cacheErr st.clock
    clock := st.clock + 1 }

def allocZone (st : Mfs) (near : Nat) : Nat × Mfs :=
  match env.zoneFor st.clock st.used near with
  | none => (noZone, { st with errCode := enospc, clock := st.clock + 1 })
  | some z => (z, { st with used := z :: st.used, clock := st.clock + 1 })

def freeZone (st : Mfs) (z : Nat) : Mfs := { st with used := st.used.erase z }

/-- The code of a copy of `count` bytes at `off` in the grant. -/
def grantCode (st : Mfs) (off count : Nat) : Int :=
  if st.grant.size < off + count then eperm else env.copyCode st.clock off count

/-- `sys_safecopyto`, and `sys_safememset` for a source of zeros. -/
def safecopyto (st : Mfs) (off : Nat) (src : Mem) (count : Nat) : Int × Mfs :=
  (grantCode env st off count,
    { st with
      grant := if grantCode env st off count = ok then
        { st.grant with mem := overlay st.grant.mem off count src } else st.grant
      clock := st.clock + 1 })

/-- `sys_safecopyfrom`: the code and the memory copied into. -/
def safecopyfrom (st : Mfs) (off : Nat) (dst : Mem) (at_ count : Nat) : Int × Mem × Mfs :=
  (grantCode env st off count,
    if grantCode env st off count = ok then
      overlay dst at_ count (fun i => st.grant.mem (off + i)) else dst,
    { st with clock := st.clock + 1 })

end Access

/-- A server where nothing goes wrong as long as there are zones: the bitmap
    hands out the first free one. -/
def calm (sb : Super) : Env sb where
  zoneFor := fun _ used _ =>
    (List.range sb.zones).find? (fun z => sb.firstDataZone ≤ z ∧ z ∉ used)
  zoneFor_fresh := by
    intro t used near z h
    have hz := List.find?_some h
    have hm := List.mem_range.mp (List.mem_of_find?_eq_some h)
    simp only [decide_eq_true_eq] at hz
    exact ⟨hz.2, hz.1, hm⟩
  copyCode := fun _ _ _ => ok
  cacheErr := fun _ => ok
  stale := fun _ _ => 0

/-- A new immediate file: no size, every zone number `NO_ZONE`. -/
def newInode : Inode where
  mode := iImmediate ||| 0o644
  size := 0
  zone := fun _ => 0
  zsearch := noZone
  update := ⟨true, true, true⟩
  dirty := true
  noSeek := true

/-- A server with an empty disk and a new immediate file. -/
def newFile : Mfs where
  inode := newInode
  used := []
  blocks := fun _ _ => 0
  errCode := ok
  rdwtErr := ok
  grant := ⟨0, fun _ => 0⟩
  clock := 0

/-- A disk of twenty zones of 1024 bytes, two of which are reserved. -/
def smallDisk : Super where
  blockSize := 1024
  logZoneSize := 0
  firstDataZone := 2
  zones := 20
  maxSize := 100000
  rdOnly := false
  minBlock := by decide
  reserved := by decide
  zones32 := by decide
  maxInt := by decide

/-! ## Zone maps -/

/-- `(block_t) z << scale` plus a block within the zone. -/
def zoneBlock (sb : Super) (z boff : Nat) : Nat := u32 (z * 2 ^ sb.logZoneSize + boff : Nat)

def rdIndir (sb : Super) (bp : Mem) (index : Nat) : Except Fault Nat :=
  if word bp index ≠ noZone ∧
      (word bp index < sb.firstDataZone ∨ sb.zones ≤ word bp index) then .error .panic
  else .ok (word bp index)

def wrIndir (bp : Mem) (index zone : Nat) : Mem := setWord bp index zone

def emptyIndir (sb : Super) (bp : Mem) : Bool :=
  (List.range sb.nrIndirects).all (fun i => word bp i == noZone)

/-- The end of `read_map`: `z` is the zone of a single indirect block. -/
def readSingle (sb : Super) (blocks : Nat → Mem) (z excess boff : Nat) : Except Fault Nat :=
  if z = noZone then .ok noBlock
  else do
    let z ← rdIndir sb (blocks (zoneBlock sb z 0)) excess
    if z = noZone then .ok noBlock else .ok (zoneBlock sb z boff)

def readMap (sb : Super) (rip : Inode) (blocks : Nat → Mem) (position : Nat) :
    Except Fault Nat :=
  let blockPos := position / sb.blockSize
  let zone := blockPos / 2 ^ sb.logZoneSize
  let boff := blockPos - zone * 2 ^ sb.logZoneSize
  if zone < nrDzones then
    if word rip.zone zone = noZone then .ok noBlock
    else .ok (zoneBlock sb (word rip.zone zone) boff)
  else
    let excess := zone - nrDzones
    if excess < sb.nrIndirects then
      readSingle sb blocks (word rip.zone nrDzones) excess boff
    else if word rip.zone (nrDzones + 1) = noZone then .ok noBlock
    else
      let excess := excess - sb.nrIndirects
      let index := excess / sb.nrIndirects
      if index > sb.nrIndirects then .ok noBlock
      else do
        let z ← rdIndir sb (blocks (zoneBlock sb (word rip.zone (nrDzones + 1)) 0)) index
        readSingle sb blocks z (excess % sb.nrIndirects) boff

section Write

variable {sb : Super} (env : Env sb)

/-- Where `write_map` finds the zone number of a single indirect block. -/
inductive Holder where
  /-- in the inode -/
  | inode
  /-- in the double indirect block `bp_dindir`, at an index; `z2` is the
      double indirect zone the inode had -/
  | dindir (bp : Nat) (indEx z2 : Nat)

/-- Enter `z1` where the holder keeps it. -/
def Holder.enter (h : Holder) (st : Mfs) (z1 : Nat) : Mfs :=
  match h with
  | .inode => st.setZone nrDzones z1
  | .dindir bp indEx _ => st.putBlock bp (wrIndir (st.blocks bp) indEx z1)

/-- Clear an entry of the single indirect block of zone `z1`; when it was the
    last, the block goes too.  The second component is `z1` afterwards. -/
def clearEntry (sb : Super) (h : Holder) (st : Mfs) (z1 ex : Nat) : Except Fault (Mfs × Nat) := do
  let b := zoneBlock sb z1 0
  let oldZone ← rdIndir sb (st.blocks b) ex
  let st := if oldZone = noZone then st
    else (freeZone st oldZone).putBlock b (wrIndir (st.blocks b) ex noZone)
  if emptyIndir sb (st.blocks b) then .ok (h.enter (freeZone st z1) noZone, noZone)
  else .ok (st, z1)

/-- The second half of `write_map`, from `z1` on, when a zone is entered. -/
def enterZone (h : Holder) (st : Mfs) (z1 ex newZone : Nat) : Int × Mfs :=
  if z1 = noZone then
    -- create the single indirect block, even when there is no zone for it
    let a := allocZone env st (word st.inode.zone 0)
    let st := h.enter a.2 a.1
    if a.1 = noZone then (st.errCode, st)
    else (ok, st.putBlock (zoneBlock sb a.1 0) (wrIndir (fun _ => 0) ex newZone))
  else
    let b := zoneBlock sb z1 0
    (ok, st.putBlock b (wrIndir (st.blocks b) ex newZone))

/-- The second half of `write_map`, from `z1` on, when a zone is freed. -/
def dropZone (sb : Super) (h : Holder) (st : Mfs) (z1 ex : Nat) : Except Fault (Int × Mfs) := do
  let s ← if z1 = noZone then .ok (st, z1) else clearEntry sb h st z1 ex
  match h with
  | .inode => .ok (ok, s.1)
  | .dindir bp _ z2 =>
      if s.2 = noZone ∧ z2 ≠ noZone ∧ emptyIndir sb (s.1.blocks bp) then
        .ok (ok, (freeZone s.1 z2).setZone (nrDzones + 1) noZone)
      else .ok (ok, s.1)

/-- `write_map(rip, position, new_zone, op)`; `free` is `op & WMAP_FREE`. -/
def writeMap (st : Mfs) (position newZone : Nat) (free : Bool) : Except Fault (Int × Mfs) :=
  if inodeType st.inode = iImmediate then .ok (noBlock, st)
  else
    let st := st.markDirty
    let zone := position / sb.blockSize / 2 ^ sb.logZoneSize
    if zone < nrDzones then
      if word st.inode.zone zone ≠ noZone ∧ free then
        .ok (ok, (freeZone st (word st.inode.zone zone)).setZone zone noZone)
      else .ok (ok, st.setZone zone newZone)
    else
      let excess := zone - nrDzones
      if excess < sb.nrIndirects then
        let z1 := word st.inode.zone nrDzones
        if free then dropZone sb .inode st z1 excess
        else .ok (enterZone env .inode st z1 excess newZone)
      else
        let z2 := word st.inode.zone (nrDzones + 1)
        let excess := excess - sb.nrIndirects
        let indEx := excess / sb.nrIndirects
        let ex := excess % sb.nrIndirects
        if z2 = noZone ∧ ¬ free then
          -- create the double indirect block
          let a := allocZone env st (word st.inode.zone 0)
          if a.1 = noZone then .ok (a.2.errCode, a.2)
          else
            let st := a.2.setZone (nrDzones + 1) a.1
            if indEx ≥ sb.nrIndirects then .ok (efbig, st)
            else
              let b := zoneBlock sb a.1 0
              .ok (enterZone env (.dindir b indEx z2) (st.putBlock b (fun _ => 0)) noZone ex newZone)
        else if indEx ≥ sb.nrIndirects then .ok (efbig, st)
        else if z2 = noZone then .ok (ok, st)
        else do
          let b := zoneBlock sb z2 0
          let z1 ← rdIndir sb (st.blocks b) indEx
          if free then dropZone sb (.dindir b indEx z2) st z1 ex
          else .ok (enterZone env (.dindir b indEx z2) st z1 ex newZone)

/-- `clear_zone`: it only checks that zones and blocks have the same size. -/
def clearZone (sb : Super) : Except Fault Unit :=
  if sb.logZoneSize = 0 then .ok () else .error .assert

/-- Where `new_block` starts to look for a zone. -/
def searchStart (sb : Super) (rip : Inode) : Nat :=
  if rip.zsearch = noZone then
    if word rip.zone 0 = noZone then sb.firstDataZone else word rip.zone 0
  else rip.zsearch

/-- `new_block`: the zeroed block, or none with `err_code` set. -/
def newBlock (st : Mfs) (position : Nat) : Except Fault (Option Nat × Mfs) := do
  let b ← readMap sb st.inode st.blocks position
  if b = noBlock then
    let a := allocZone env st (searchStart sb st.inode)
    if a.1 = noZone then .ok (none, a.2)
    else do
      let st := { a.2 with inode := { a.2.inode with zsearch := a.1 } }
      let w ← writeMap env st position a.1 false
      if w.1 ≠ ok then .ok (none, { freeZone w.2 a.1 with errCode := w.1 })
      else do
        if (position : Int) ≠ w.2.inode.size then clearZone sb
        let zoneSize := sb.blockSize * 2 ^ sb.logZoneSize
        let b := zoneBlock sb a.1 (position % zoneSize / sb.blockSize)
        .ok (some b, noteErr env (w.2.putBlock b (fun _ => 0)))
  else .ok (some b, noteErr env (st.putBlock b (fun _ => 0)))

end Write

/-! ## Chunks -/

inductive RwFlag where
  | reading
  | writing
  | peeking
  deriving DecidableEq, Repr

section Chunk

variable {sb : Super} (env : Env sb)

/-- The end of `rw_chunk`: `bp` is the buffer of block `b`. -/
def transfer (st : Mfs) (position off chunk : Nat) (flag : RwFlag) (bufOff b : Nat) (bp : Mem) :
    Int × Mfs :=
  match flag with
  | .reading => safecopyto env st bufOff (fun i => bp (off + i)) chunk
  | .writing =>
      let zeroed := if chunk ≠ sb.blockSize ∧ (position : Int) ≥ st.inode.size ∧ off = 0 then
        (fun _ => 0) else bp
      let c := safecopyfrom env st bufOff zeroed off chunk
      (c.1, c.2.2.putBlock b c.2.1)
  | .peeking => (ok, st)

def rwChunk (st : Mfs) (position off chunk : Nat) (flag : RwFlag) (bufOff : Nat) :
    Except Fault (Int × Mfs) :=
  if position ≥ 4294967296 then .error .panic
  else do
    let b ← readMap sb st.inode st.blocks position
    let st := noteErr env st
    if b = noBlock then
      match flag with
      | .reading => .ok (safecopyto env st bufOff (fun _ => 0) chunk)
      | _ => do
          let n ← newBlock env st position
          match n.1 with
          | none => .ok (n.2.errCode, n.2)
          | some b => .ok (transfer env n.2 position off chunk flag bufOff b (n.2.blocks b))
    else
      match flag with
      | .writing =>
          let noRead := chunk = sb.blockSize ∨ (off = 0 ∧ (position : Int) ≥ st.inode.size)
          let bp := if noRead then env.stale st.clock else st.blocks b
          .ok (transfer env st position off chunk flag bufOff b bp)
      | _ => .ok (transfer env st position off chunk flag bufOff b (st.blocks b))

/-- The local variables of the transfer, and the server's state. -/
structure Progress where
  mfs : Mfs
  r : Int
  nrbytes : Nat
  cumIo : Nat
  position : Int

/-- `off`: where a chunk starts in its block. -/
def chunkOff (sb : Super) (s : Progress) : Nat := u32 s.position % sb.blockSize

/-- `chunk`: up to the end of the block, and of the file when reading. -/
def chunkLen (sb : Super) (flag : RwFlag) (fSize : Int) (s : Progress) : Nat :=
  if flag = .reading then
    min (min s.nrbytes (sb.blockSize - chunkOff sb s)) (u32 (fSize - s.position))
  else min s.nrbytes (sb.blockSize - chunkOff sb s)

/-- One turn of the loop that splits the transfer into chunks. -/
def chunkTurn (flag : RwFlag) (fSize : Int) (s : Progress) :
    Except Fault (Turn Progress Progress) :=
  if s.nrbytes = 0 then .ok (.done s)
  else if flag = .reading ∧ s.position ≥ fSize then .ok (.done s)
  else do
    let chunk := chunkLen sb flag fSize s
    let c ← rwChunk env s.mfs (u32 s.position) (chunkOff sb s) chunk flag s.cumIo
    if c.1 ≠ ok then .ok (.done { s with mfs := c.2, r := c.1 })
    else if c.2.rdwtErr < 0 then .ok (.done { s with mfs := c.2, r := c.1 })
    else .ok (.again {
      mfs := c.2
      r := c.1
      nrbytes := s.nrbytes - chunk
      cumIo := s.cumIo + chunk
      position := s.position + chunk })

end Chunk

/-! ## fs_readwrite -/

/-- A request message. -/
structure Request where
  flag : RwFlag
  seekPos : Int
  nbytes : Nat

/-- The result code and the reply message, zero unless it is filled in. -/
structure Reply where
  r : Int
  seekPos : Int
  nbytes : Nat
  deriving DecidableEq

section Readwrite

variable {sb : Super} (env : Env sb)

/-- The loop that copies `n` bytes of `i_zone` to the stack buffer: the
    pointer `temp_bytes`, moved every fourth turn, and the buffer. -/
def copyOut (zone : Mem) : Nat → Except Fault (Nat × Mem)
  | 0 => .ok (0, fun _ => 0)
  | i + 1 => do
      let s ← copyOut zone i
      let tempBytes := if i % 4 = 0 then i else s.1
      if i ≥ zoneBytes then .error .overrun
      else .ok (tempBytes, fun x => if x = i then zone (tempBytes + i % 4) else s.2 x)

def removeInodeEntry (st : Mfs) : Mfs :=
  { st with inode := { st.inode with
      size := 0
      update := ⟨true, true, true⟩
      dirty := true
      zone := (List.range nrTzones).foldl (fun m i => setWord m i noZone) st.inode.zone } }

/-- An immediate file becomes regular: its bytes move to a new block.  The
    error code is that of a block that could not be had. -/
def convert (st : Mfs) (fSize : Int) : Except Fault (Option Int × Mfs) := do
  let buffer ← copyOut st.inode.zone fSize.toNat
  let st := removeInodeEntry st
  let st := { st with inode := { st.inode with mode := iRegular ||| (st.inode.mode &&& allModes) } }
  let n ← newBlock env st 0
  match n.1 with
  | none => .ok (some n.2.errCode, n.2)
  | some b => .ok (none, n.2.putBlock b (overlay (n.2.blocks b) 0 fSize.toNat buffer.2))

/-- The `immediate == 1` branch: the whole file is read, or the bytes are
    written straight into `i_zone`. -/
def immediateTransfer (flag : RwFlag) (fSize : Int) (s : Progress) : Except Fault Progress :=
  match flag with
  | .reading => do
      let c := safecopyto env s.mfs s.cumIo s.mfs.inode.zone (u32 fSize)
      let _ ← copyOut s.mfs.inode.zone fSize.toNat
      if c.1 = ok then
        .ok ⟨c.2, c.1, 0, u32 (s.cumIo + fSize), s.position + fSize⟩
      else .ok { s with mfs := c.2, r := c.1 }
  | _ =>
      -- `zone+position` is a 32-bit address
      let c := safecopyfrom env s.mfs s.cumIo s.mfs.inode.zone (u32 s.position) s.nrbytes
      let st := { c.2.2 with inode := { c.2.2.inode with zone := c.2.1, dirty := true } }
      if c.1 = ok then
        if 0 < s.nrbytes ∧ zoneBytes < u32 s.position + s.nrbytes then
          .error .overrun
        else .ok ⟨st, c.1, 0, s.cumIo + s.nrbytes, s.position + s.nrbytes⟩
      else .ok { s with mfs := st, r := c.1 }

/-- The block for immediate files; a code is an early return. -/
def immediateFile (flag : RwFlag) (fSize : Int) (s : Progress) :
    Except Fault (Option Int × Progress) :=
  if flag = .writing then
    if s.position + s.nrbytes > immediateMax then do
      let c ← convert env s.mfs fSize
      .ok (c.1, { s with mfs := c.2 })
    else do .ok (none, ← immediateTransfer env flag fSize s)
  else if s.position ≥ fSize then .ok (none, s)
  else do .ok (none, ← immediateTransfer env flag fSize s)

/-- What follows the chunk loop; `modeWord` is the type the inode has by
    then, `regular` was set from the type it had. -/
def finish (sb : Super) (flag : RwFlag) (regular : Bool) (modeWord : Nat) (fSize : Int) (s : Progress) :
    Reply × Mfs :=
  let grown := flag = .writing ∧ (regular ∨ modeWord = iDirectory) ∧ s.position > fSize
  let ino := { s.mfs.inode with
    size := if grown then s.position else s.mfs.inode.size
    noSeek := true }
  let r := if s.mfs.rdwtErr = ok then s.r else if s.mfs.rdwtErr = endOfFile then ok
    else s.mfs.rdwtErr
  let stamped := if r = ok ∧ sb.rdOnly = false then
    { ino with
      dirty := true
      update := match flag with
        | .reading => { ino.update with atime := true }
        | .writing => { ino.update with ctime := true, mtime := true }
        | .peeking => ino.update }
    else ino
  (⟨r, s.position, s.cumIo⟩, { s.mfs with inode := stamped })

/-- The checks a write has to pass first; a code is an early return. -/
def writeCheck (sb : Super) (fSize : Int) (req : Request) : Except Fault (Option Int) :=
  if req.flag = .writing then
    if sb.rdOnly then .ok (some erofs)
    else if req.seekPos > u32 (sb.maxSize - req.nbytes : Int) then .ok (some efbig)
    else do
      if req.seekPos > fSize then clearZone sb
      .ok none
  else .ok none

/-- The local variables before any byte is moved. -/
def start (st : Mfs) (req : Request) : Progress :=
  ⟨{ st with rdwtErr := ok }, ok, req.nbytes, 0, req.seekPos⟩

/-- The transfer up to the chunk loop. -/
def entry (st : Mfs) (req : Request) : Except Fault (Option Int × Progress) :=
  if inodeType st.inode = iImmediate then
    immediateFile env req.flag st.inode.size (start st req)
  else .ok (none, start st req)

def fsReadwrite (st : Mfs) (req : Request) : Except Fault (Reply × Mfs) :=
  let modeWord := inodeType st.inode
  let regular := modeWord = iRegular ∨ modeWord = iNamedPipe ∨ modeWord = iImmediate
  if modeWord = iBlockSpecial then .error .blockSpecial
  else do
    let fSize := st.inode.size
    let early ← writeCheck sb fSize req
    match early with
    | some e => .ok (⟨e, 0, 0⟩, (start st req).mfs)
    | none => do
        let i ← entry env st req
        match i.1 with
        | some e => .ok (⟨e, 0, 0⟩, i.2.mfs)
        | none => do
            let s ← loop .endless (chunkTurn env req.flag fSize) (i.2.nrbytes + 1) i.2
            .ok (finish sb req.flag regular (inodeType i.2.mfs.inode) fSize s)

end Readwrite

end MfsModel
