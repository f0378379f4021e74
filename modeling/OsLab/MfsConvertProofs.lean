import OsLab.MfsImmediateProofs

/-! # What a transfer leaves alone, and the change of representation

    Below `fs_readwrite` nothing changes the size or the mode of the inode:
    the chunk loop moves bytes and enters zones, and the size is set once, at
    the end (`Moved`, `loop_moved`).

    Before the loop an immediate file that is to grow past its 32 bytes is
    converted: size and zone numbers are erased, the mode becomes that of a
    regular file, and only then a block is asked for (`convert_spec`). -/

namespace MfsConvert

open OsBytes OsLoop MfsModel MfsImmediate

/-! ## Size and mode -/

/-- The inode has the size and the mode it had. -/
structure Steady (st st' : Mfs) : Prop where
  size : st'.inode.size = st.inode.size
  mode : st'.inode.mode = st.inode.mode

theorem Steady.refl (st : Mfs) : Steady st st := ⟨rfl, rfl⟩

theorem Steady.trans {a b c : Mfs} (h : Steady a b) (h' : Steady b c) : Steady a c :=
  ⟨h'.size.trans h.size, h'.mode.trans h.mode⟩

section Steady

variable {sb : Super} {env : Env sb} {st : Mfs}

theorem allocZone_steady (near : Nat) : Steady st (allocZone env st near).2 := by
  simp only [allocZone]
  cases env.zoneFor st.clock st.used near with
  | none => exact ⟨rfl, rfl⟩
  | some z => exact ⟨rfl, rfl⟩

theorem enter_steady (h : Holder) (z : Nat) : Steady st (h.enter st z) := by
  cases h with
  | inode => exact ⟨rfl, rfl⟩
  | dindir bp indEx z2 => exact ⟨rfl, rfl⟩

theorem enterZone_steady {s₁ : Mfs} (hst : Steady st s₁) (h : Holder) (z1 ex z : Nat) :
    Steady st (enterZone env h s₁ z1 ex z).2 := by
  simp only [enterZone]
  by_cases hz1 : z1 = noZone
  · rw [if_pos hz1]
    have halloc : Steady s₁ (allocZone env s₁ (word s₁.inode.zone 0)).2 := allocZone_steady _
    have hent := (hst.trans halloc).trans
      (enter_steady h (allocZone env s₁ (word s₁.inode.zone 0)).1)
    by_cases ha : (allocZone env s₁ (word s₁.inode.zone 0)).1 = noZone
    · simp only [if_pos ha]
      exact hent
    · simp only [if_neg ha]
      exact ⟨hent.size, hent.mode⟩
  · rw [if_neg hz1]
    exact ⟨hst.size, hst.mode⟩

/-- Entering a zone in the zone map leaves size and mode alone. -/
theorem writeMap_steady {p z : Nat} {w : Int × Mfs} (h : writeMap env st p z false = .ok w) :
    Steady st w.2 := by
  simp only [writeMap] at h
  simp only [Bool.false_eq_true, and_false, if_false, not_false_eq_true, and_true] at h
  split at h
  · cases h; exact Steady.refl _
  split at h
  · cases h; exact ⟨rfl, rfl⟩
  split at h
  · cases h
    refine enterZone_steady ?_ _ _ _ _
    exact ⟨rfl, rfl⟩
  split at h
  · have halloc : Steady st.markDirty (allocZone env st.markDirty (word st.inode.zone 0)).2 :=
      allocZone_steady _
    split at h
    · cases h
      exact ⟨halloc.size, halloc.mode⟩
    split at h
    · cases h
      exact ⟨halloc.size, halloc.mode⟩
    · cases h
      refine enterZone_steady ?_ _ _ _ _
      exact ⟨halloc.size, halloc.mode⟩
  split at h
  · cases h; exact ⟨rfl, rfl⟩
  · obtain ⟨z1, -, h⟩ := bind_ok.mp h
    cases h
    refine enterZone_steady ?_ _ _ _ _
    exact ⟨rfl, rfl⟩

theorem newBlock_steady {p : Nat} {n : Option Nat × Mfs} (h : newBlock env st p = .ok n) :
    Steady st n.2 := by
  obtain ⟨b, -, h⟩ := bind_ok.mp h
  split at h
  · have halloc : Steady st (allocZone env st (searchStart sb st.inode)).2 := allocZone_steady _
    dsimp only at h
    split at h
    · cases h; exact halloc
    · obtain ⟨w, hw, h⟩ := bind_ok.mp h
      have hmap := writeMap_steady hw
      have hboth : Steady st w.2 := ⟨hmap.size.trans halloc.size, hmap.mode.trans halloc.mode⟩
      split at h
      · cases h
        exact ⟨hboth.size, hboth.mode⟩
      -- away from the end of the file the zone is cleared, which moves nothing
      split at h
      · obtain ⟨_, -, h⟩ := bind_ok.mp h
        cases h
        exact ⟨hboth.size, hboth.mode⟩
      · cases h
        exact ⟨hboth.size, hboth.mode⟩
  · cases h; exact ⟨rfl, rfl⟩

theorem transfer_steady (p off chunk : Nat) (flag : RwFlag) (bufOff b : Nat) (bp : Mem) :
    Steady st (transfer env st p off chunk flag bufOff b bp).2 := by
  cases flag with
  | reading => exact ⟨rfl, rfl⟩
  | writing => exact ⟨rfl, rfl⟩
  | peeking => exact ⟨rfl, rfl⟩

/-- A chunk leaves size and mode alone. -/
theorem rwChunk_steady {p off chunk bufOff : Nat} {flag : RwFlag} {c : Int × Mfs}
    (h : rwChunk env st p off chunk flag bufOff = .ok c) : Steady st c.2 := by
  simp only [rwChunk] at h
  split at h
  · cases h
  obtain ⟨b, -, h⟩ := bind_ok.mp h
  have hnote : Steady st (noteErr env st) := ⟨rfl, rfl⟩
  split at h
  · -- no block: only a write or a peek asks for one
    cases flag with
    | reading => cases h; exact ⟨rfl, rfl⟩
    | writing =>
        obtain ⟨n, hn, h⟩ := bind_ok.mp h
        have hnew := hnote.trans (newBlock_steady hn)
        obtain ⟨o, st'⟩ := n
        cases o with
        | none => cases h; exact hnew
        | some b' => cases h; exact hnew.trans (transfer_steady ..)
    | peeking =>
        obtain ⟨n, hn, h⟩ := bind_ok.mp h
        have hnew := hnote.trans (newBlock_steady hn)
        obtain ⟨o, st'⟩ := n
        cases o with
        | none => cases h; exact hnew
        | some b' => cases h; exact hnew.trans (transfer_steady ..)
  · cases flag with
    | reading => cases h; exact hnote.trans (transfer_steady ..)
    | writing => cases h; exact hnote.trans (transfer_steady ..)
    | peeking => cases h; exact hnote.trans (transfer_steady ..)

end Steady

/-! ## The chunk loop -/

/-- What the chunk loop keeps: the inode's size and mode, the distance of
    the position from the bytes moved, and the sum of bytes moved and to
    move. -/
structure Moved (s t : Progress) : Prop where
  steady : Steady s.mfs t.mfs
  position : t.position - t.cumIo = s.position - s.cumIo
  total : t.nrbytes + t.cumIo = s.nrbytes + s.cumIo

theorem Moved.refl (s : Progress) : Moved s s := ⟨Steady.refl _, rfl, rfl⟩

theorem Moved.trans {a b c : Progress} (h : Moved a b) (h' : Moved b c) : Moved a c :=
  ⟨h.steady.trans h'.steady, h'.position.trans h.position, h'.total.trans h.total⟩

section Moved

variable {sb : Super} {env : Env sb} {flag : RwFlag} {fSize : Int} {s t : Progress}

theorem chunkLen_le : chunkLen sb flag fSize s ≤ s.nrbytes := by
  simp only [chunkLen]
  by_cases hf : flag = .reading
  · rw [if_pos hf]; omega
  · rw [if_neg hf]; omega

/-- One turn, whether it is the last or not. -/
theorem chunkTurn_moved {x : Turn Progress Progress} (h : chunkTurn env flag fSize s = .ok x) :
    (∃ t, x = .done t ∧ Moved s t) ∨ ∃ t, x = .again t ∧ Moved s t := by
  simp only [chunkTurn] at h
  split at h
  · cases h; exact Or.inl ⟨s, rfl, Moved.refl s⟩
  split at h
  · cases h; exact Or.inl ⟨s, rfl, Moved.refl s⟩
  obtain ⟨c, hc, h⟩ := bind_ok.mp h
  have hst := rwChunk_steady hc
  split at h
  · cases h; exact Or.inl ⟨_, rfl, hst, rfl, rfl⟩
  split at h
  · cases h; exact Or.inl ⟨_, rfl, hst, rfl, rfl⟩
  · cases h
    have hle : chunkLen sb flag fSize s ≤ s.nrbytes := chunkLen_le
    refine Or.inr ⟨_, rfl, hst, ?_, ?_⟩
    · show s.position + (chunkLen sb flag fSize s : Nat) -
        ((s.cumIo + chunkLen sb flag fSize s : Nat) : Int) = s.position - s.cumIo
      omega
    · show s.nrbytes - chunkLen sb flag fSize s + (s.cumIo + chunkLen sb flag fSize s) =
        s.nrbytes + s.cumIo
      omega

/-- **THE CHUNK LOOP KEEPS SIZE AND MODE**, and moves the position by the
    bytes it reports. -/
theorem loop_moved {n : Nat} (h : loop .endless (chunkTurn env flag fSize) n s = .ok t) :
    Moved s t := by
  obtain ⟨u, hv, hu⟩ := loop_ok h
  have hsu : Moved s u := by
    refine visits_inv (I := Moved s) ?_ hv (Moved.refl s)
    intro a b ha hab
    rcases chunkTurn_moved hab with ⟨c, hc, -⟩ | ⟨c, hc, hm⟩
    · exact nomatch hc
    · cases hc; exact ha.trans hm
  rcases chunkTurn_moved hu with ⟨c, hc, hm⟩ | ⟨c, hc, -⟩
  · cases hc; exact hsu.trans hm
  · exact nomatch hc

end Moved

/-! ## Conversion -/

section Convert

variable {sb : Super} {env : Env sb} {st : Mfs}

theorem regular_type (m : Nat) : (iRegular ||| (m &&& allModes)) &&& iType = iRegular := by
  rw [Nat.and_or_distrib_right, Nat.and_assoc, show allModes &&& iType = 0 from rfl,
    Nat.and_zero, Nat.or_zero]
  rfl

/-- The inode of a file that is being converted, before it has a block. -/
def cleared (st : Mfs) : Mfs :=
  { removeInodeEntry st with
    inode := { (removeInodeEntry st).inode with
      mode := iRegular ||| ((removeInodeEntry st).inode.mode &&& allModes) } }

@[simp] theorem cleared_size : (cleared st).inode.size = 0 := rfl

theorem cleared_type : inodeType (cleared st).inode = iRegular := regular_type _

/-- Erasing the first words of a memory, one after the other. -/
theorem word_erased (m : Mem) (k j : Nat) :
    word ((List.range k).foldl (fun a i => setWord a i noZone) m) j =
      if j < k then noZone else word m j := by
  induction k with
  | zero => rfl
  | succ k ih =>
      rw [List.range_succ, List.foldl_append]
      show word (setWord _ k noZone) j = _
      rw [word_setWord (by decide), ih]
      by_cases hj : j = k
      · rw [if_pos hj, if_pos (by omega)]
      · rw [if_neg hj]
        by_cases hlt : j < k
        · rw [if_pos hlt, if_pos (by omega)]
        · rw [if_neg hlt, if_neg (by omega)]

theorem cleared_word (st : Mfs) {i : Nat} (hi : i < nrTzones) :
    word (cleared st).inode.zone i = noZone := by
  show word ((List.range nrTzones).foldl (fun a i => setWord a i noZone) st.inode.zone) i = noZone
  rw [word_erased, if_pos hi]

/-- The zone the conversion of a file is given. -/
def conversionZone (env : Env sb) (st : Mfs) : Option Nat :=
  env.zoneFor st.clock st.used (searchStart sb (cleared st).inode)

theorem zone_ne_zero {t : Nat} {used : List Nat} {near z : Nat}
    (h : env.zoneFor t used near = some z) : z ≠ noZone := by
  have hlow := (env.zoneFor_fresh h).2.1
  have hpos := sb.reserved
  show z ≠ 0
  omega

theorem allocZone_none {near : Nat} (h : env.zoneFor st.clock st.used near = none) :
    allocZone env st near = (noZone, { st with errCode := enospc, clock := st.clock + 1 }) := by
  rw [allocZone, h]

theorem allocZone_some {near z : Nat} (h : env.zoneFor st.clock st.used near = some z) :
    allocZone env st near = (z, { st with used := z :: st.used, clock := st.clock + 1 }) := by
  rw [allocZone, h]

/-- The first zones are entered in the inode itself. -/
theorem writeMap_direct {p z : Nat} (hty : inodeType st.inode ≠ iImmediate)
    (hq : p / sb.blockSize / 2 ^ sb.logZoneSize < nrDzones) : writeMap env st p z false =
      .ok (ok, st.markDirty.setZone (p / sb.blockSize / 2 ^ sb.logZoneSize) z) := by
  rw [writeMap, if_neg hty]
  simp only [if_pos hq, Bool.false_eq_true, and_false, if_false]

/-- The state after a conversion that was given zone `z`: the old bytes are in
    its first block, and the size is still zero. -/
def converted (env : Env sb) (st : Mfs) (z n : Nat) (buffer : Mem) : Mfs :=
  let st₁ : Mfs := { cleared st with
    inode := { (cleared st).inode with zsearch := z }
    used := z :: st.used
    clock := st.clock + 1 }
  (noteErr env ((st₁.markDirty.setZone 0 z).putBlock (zoneBlock sb z 0) (fun _ => 0))).putBlock
    (zoneBlock sb z 0) (overlay (fun _ => 0) 0 n buffer)

/-- A block at the start of a file that has none. -/
theorem newBlock_first (env : Env sb) (hz : word st.inode.zone 0 = noZone)
    (hty : inodeType st.inode ≠ iImmediate) (hsize : st.inode.size = 0) :
    newBlock env st 0 = .ok (match env.zoneFor st.clock st.used (searchStart sb st.inode) with
      | none => (none, { st with errCode := enospc, clock := st.clock + 1 })
      | some z => (some (zoneBlock sb z 0),
          let st₁ : Mfs := { st with
            inode := { st.inode with zsearch := z }
            used := z :: st.used
            clock := st.clock + 1 }
          noteErr env ((st₁.markDirty.setZone 0 z).putBlock (zoneBlock sb z 0) (fun _ => 0)))) := by
  have hq : 0 / sb.blockSize / 2 ^ sb.logZoneSize = 0 := by rw [Nat.zero_div, Nat.zero_div]
  have hmap : readMap sb st.inode st.blocks 0 = .ok noBlock := by
    simp only [readMap]
    simp only [hq, show (0 : Nat) < nrDzones from by decide, if_true, hz]
  refine bind_ok.mpr ⟨noBlock, hmap, ?_⟩
  rw [if_pos rfl]
  cases hfor : env.zoneFor st.clock st.used (searchStart sb st.inode) with
  | none =>
      rw [allocZone_none hfor]
      exact if_pos rfl
  | some z =>
      rw [allocZone_some hfor]
      simp only [if_neg (zone_ne_zero hfor)]
      refine bind_ok.mpr ⟨_, writeMap_direct hty (by rw [hq]; decide), ?_⟩
      -- the position is the end of the file, so that no zone is cleared
      have hend : ¬ ((0 : Nat) : Int) ≠ st.inode.size := by rw [hsize]; decide
      simp only [Mfs.setZone, Mfs.markDirty, if_neg hend, Nat.zero_mod, Nat.zero_div]
      rfl

/-- **CONVERSION**: the size is gone whether or not there is a zone for the
    bytes. -/
theorem convert_spec (env : Env sb) (st : Mfs) {n : Nat} (hn : n ≤ zoneBytes) :
    ∃ buffer : Mem, (∀ i, i < n → buffer i = st.inode.zone i) ∧ convert env st n =
      .ok (match conversionZone env st with
        | none => (some enospc, { cleared st with errCode := enospc, clock := st.clock + 1 })
        | some z => (none, converted env st z n buffer)) := by
  obtain ⟨t, buffer, hcopy, -, hbuf⟩ := copyOut_spec st.inode.zone hn
  refine ⟨buffer, hbuf, ?_⟩
  have hty : inodeType (cleared st).inode ≠ iImmediate := by rw [cleared_type]; decide
  have hnew := newBlock_first env (cleared_word st (by decide)) hty cleared_size
  cases hfor : conversionZone env st with
  | none =>
      rw [show env.zoneFor (cleared st).clock (cleared st).used
        (searchStart sb (cleared st).inode) = none from hfor] at hnew
      exact bind_ok.mpr ⟨_, hcopy, bind_ok.mpr ⟨_, hnew, rfl⟩⟩
  | some z =>
      rw [show env.zoneFor (cleared st).clock (cleared st).used
        (searchStart sb (cleared st).inode) = some z from hfor] at hnew
      refine bind_ok.mpr ⟨_, hcopy, bind_ok.mpr ⟨_, hnew, ?_⟩⟩
      simp only [converted, Mfs.putBlock, noteErr, if_true, Int.toNat_natCast]
      rfl

end Convert

/-! ## Writing requests -/

/-- A byte of the file as its inode says it is stored. -/
def fileByte (sb : Super) (st : Mfs) (i : Nat) : Except Fault UInt8 :=
  if inodeType st.inode = iImmediate then .ok (st.inode.zone i)
  else do .ok (blockByte st.blocks (← readMap sb st.inode st.blocks i) (i % sb.blockSize))

section Writing

variable {sb : Super} {env : Env sb} {st : Mfs} {n p k : Nat}

/-- What is left of the maximum file size does not wrap around. -/
theorem u32_room (hk : k ≤ sb.maxSize) :
    u32 ((sb.maxSize : Int) - (k : Int)) = sb.maxSize - k := by
  have hint := sb.maxInt
  rw [show (sb.maxSize : Int) - (k : Int) = ((sb.maxSize - k : Nat) : Int) by omega,
    u32_natCast (by omega)]

/-- A write within the maximum file size is only refused on a read-only file
    system. -/
theorem writeCheck_writing {early : Option Int} {fSize : Int} (hmax : p + k ≤ sb.maxSize)
    (h : writeCheck sb fSize ⟨.writing, p, k⟩ = .ok early) :
    early = if sb.rdOnly then some erofs else none := by
  rw [writeCheck, if_pos rfl] at h
  by_cases hro : sb.rdOnly = true
  · rw [if_pos hro] at h ⊢
    exact (Except.ok.inj h).symm
  · have hpos : ¬ ((p : Int) > (u32 ((sb.maxSize : Int) - (k : Int)) : Int)) := by
      rw [u32_room (by omega)]
      omega
    rw [if_neg hro] at h ⊢
    simp only [if_neg hpos] at h
    split at h
    · obtain ⟨_, -, h⟩ := bind_ok.mp h
      exact (Except.ok.inj h).symm
    · exact (Except.ok.inj h).symm

/-- What follows the chunk loop changes the size and the marks of the inode. -/
theorem finish_inode (sb : Super) (flag : RwFlag) (regular : Bool) (c : Nat) (fSize : Int)
    (s : Progress) : ∃ update dirty, (finish sb flag regular c fSize s).2 =
      { s.mfs with inode := { s.mfs.inode with
          size := if flag = .writing ∧ (regular ∨ c = iDirectory) ∧ s.position > fSize
            then s.position else s.mfs.inode.size
          noSeek := true
          update := update
          dirty := dirty } } := by
  simp only [finish]
  generalize (if s.mfs.rdwtErr = ok then s.r
    else if s.mfs.rdwtErr = endOfFile then ok else s.mfs.rdwtErr) = r
  by_cases hstamp : r = ok ∧ sb.rdOnly = false
  · simp only [if_pos hstamp]
    exact ⟨_, _, rfl⟩
  · simp only [if_neg hstamp]
    exact ⟨_, _, rfl⟩

/-- The end of a write to a file: its size is the position when that lies past
    the old end. -/
theorem finish_writing (sb : Super) {regular : Bool} (hreg : regular = true) (c : Nat) (fSize : Int)
    (s : Progress) : ∃ update dirty, (finish sb .writing regular c fSize s).2 =
      { s.mfs with inode := { s.mfs.inode with
          size := if s.position > fSize then s.position else s.mfs.inode.size
          noSeek := true
          update := update
          dirty := dirty } } := by
  obtain ⟨update, dirty, hfin⟩ := finish_inode sb .writing regular c fSize s
  simp only [hreg, true_or, true_and] at hfin ⊢
  exact ⟨update, dirty, hfin⟩

/-- The end of a read or a peek. -/
theorem finish_other (sb : Super) {flag : RwFlag} (hflag : flag ≠ .writing) (regular : Bool)
    (c : Nat) (fSize : Int) (s : Progress) :
    ∃ update dirty, (finish sb flag regular c fSize s).2 =
      { s.mfs with inode := { s.mfs.inode with
          noSeek := true
          update := update
          dirty := dirty } } := by
  obtain ⟨update, dirty, hfin⟩ := finish_inode sb flag regular c fSize s
  simp only [hflag, false_and, if_false] at hfin
  exact ⟨update, dirty, hfin⟩

/-- `regular` is set for the files of the model. -/
theorem regular_flag (hty : inodeType st.inode = iRegular ∨ inodeType st.inode = iImmediate) :
    decide (inodeType st.inode = iRegular ∨ inodeType st.inode = iNamedPipe ∨
      inodeType st.inode = iImmediate) = true := by
  rcases hty with h | h
  · simp [h]
  · simp [h]

/-- How a write that does not fit the inode enters the chunk loop. -/
theorem entry_growing (env : Env sb) {x : Int} (himm : inodeType st.inode = iImmediate)
    (hsize : st.inode.size = n) (hn : n ≤ zoneBytes) (hgrow : 32 < x + k) :
    ∃ buffer : Mem, (∀ i, i < n → buffer i = st.inode.zone i) ∧
      entry env st ⟨.writing, x, k⟩ = .ok (match conversionZone env st with
        | none => (some enospc, { start st ⟨.writing, x, k⟩ with
            mfs := { cleared (start st ⟨.writing, x, k⟩).mfs with
              errCode := enospc
              clock := st.clock + 1 } })
        | some z => (none, { start st ⟨.writing, x, k⟩ with
            mfs := converted env (start st ⟨.writing, x, k⟩).mfs z n buffer })) := by
  obtain ⟨buffer, hbuf, hconv⟩ := convert_spec env (start st ⟨.writing, x, k⟩).mfs hn
  refine ⟨buffer, hbuf, ?_⟩
  have hbig : (start st ⟨.writing, x, k⟩).position + (start st ⟨.writing, x, k⟩).nrbytes >
      immediateMax := hgrow
  rw [entry, if_pos himm, immediateFile, if_pos rfl, if_pos hbig, hsize, hconv]
  show Except.ok _ = _
  rw [show conversionZone env (start st ⟨.writing, x, k⟩).mfs = conversionZone env st from rfl]
  cases conversionZone env st with
  | none => rfl
  | some z => rfl

end Writing

end MfsConvert
