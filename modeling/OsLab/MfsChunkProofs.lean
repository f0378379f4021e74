import OsLab.MfsZoneMapProofs

/-! # Writing a regular file, chunk by chunk

    The bytes of a regular file are those of its zones, and zeros where it has
    none (`byteAt`).  A chunk written overlays them (`rwChunk_writing`), also
    where the block is not read first, because it is overwritten whole or is
    cleared; so does the whole loop (`chunkLoop_writing`).

    A block is cleared when a chunk starts it at or behind the size in the
    inode, and what it held behind the chunk is gone (`Overlaid`).  A file has
    zeros there, as a rule (`Overlaid.eq`).  During a conversion the size is
    zero while the file has bytes, and clearing does no harm where the write
    reaches beyond them. -/

namespace MfsChunk

open OsBytes OsLoop WordTree MfsModel MfsImmediate MfsConvert MfsZoneMap

/-- The byte at a position of a regular file. -/
def byteAt (sb : Super) (st : Mfs) (i : Nat) : UInt8 :=
  blockByte st.blocks (val (store st) (leafSlot sb (i / sb.blockSize))) (i % sb.blockSize)

/-- The file has the bytes of `g`. -/
def Holds (sb : Super) (st : Mfs) (g : Mem) : Prop :=
  ∀ i, i / sb.blockSize < capacity sb → byteAt sb st i = g i

section Chunk

variable {sb : Super} {env : Env sb} {st : Mfs} {g : Mem} {p off c bufOff : Nat}

theorem safecopyfrom_ok (st : Mfs) (bufOff c : Nat) (dst : Mem) (at_ : Nat)
    (hcopy : CopiesSucceed env)
    (hfit : bufOff + c ≤ st.grant.size) : safecopyfrom env st bufOff dst at_ c =
      (ok, overlay dst at_ c (fun i => st.grant.mem (bufOff + i)),
        { st with clock := st.clock + 1 }) := by
  have hcode : grantCode env st bufOff c = ok := by
    rw [grantCode, if_neg (by omega)]
    exact hcopy _ _ _
  rw [safecopyfrom, hcode, if_pos rfl]

/-- Bytes of zones that are as they were. -/
theorem byteAt_congr {st' : Mfs} {i : Nat}
    (hzone : val (store st') (leafSlot sb (i / sb.blockSize)) =
      val (store st) (leafSlot sb (i / sb.blockSize)))
    (hblock : val (store st) (leafSlot sb (i / sb.blockSize)) ≠ 0 →
      st'.blocks (val (store st) (leafSlot sb (i / sb.blockSize))) =
        st.blocks (val (store st) (leafSlot sb (i / sb.blockSize)))) :
    byteAt sb st' i = byteAt sb st i := by
  simp only [byteAt, blockByte]
  rw [hzone]
  by_cases h0 : val (store st) (leafSlot sb (i / sb.blockSize)) = noBlock
  · rw [if_pos h0, if_pos h0]
  · rw [if_neg h0, if_neg h0, hblock h0]

/-- Storing the block of one zone. -/
theorem putBlock_holds (st : Mfs) {q : Nat} (b : Nat) (d g : Mem) (hmap : MapOk sb st)
    (hq : q < capacity sb)
    (hb : val (store st) (leafSlot sb q) = b) (hb0 : b ≠ noBlock)
    (hother : ∀ i, i / sb.blockSize < capacity sb → i / sb.blockSize ≠ q → byteAt sb st i = g i)
    (hd : ∀ i, i / sb.blockSize = q → d (i % sb.blockSize) = g i) :
    MapOk sb (st.putBlock b d) ∧ Holds sb (st.putBlock b d) g := by
  have hput := putBlock_leaf (d := d) hmap hq (by rw [hb]; exact hb0)
  rw [hb] at hput
  refine ⟨ZonesOk.congr hmap hput, fun i hi => ?_⟩
  have hzone := hput _ (leafSlot_mapped hi)
  by_cases hiq : i / sb.blockSize = q
  · have hib : val (store (st.putBlock b d)) (leafSlot sb (i / sb.blockSize)) = b := by
      rw [hzone, hiq, hb]
    simp only [byteAt, blockByte]
    rw [hib, if_neg hb0, ← hd i hiq]
    exact congrFun (if_pos rfl) _
  · rw [byteAt_congr hzone, hother i hi hiq]
    intro h0
    refine if_neg (fun hsame => hiq ?_)
    exact leafSlot_inj (hmap.distinct _ _ (leafSlot_mapped hi) (leafSlot_mapped hq) h0
      (hsame.trans hb.symm))

/-- `g'` is `g` with `k` bytes laid over it at `p`.  Behind them bytes may be
    gone, from the size `n` on. -/
structure Overlaid (n : Int) (g : Mem) (p k : Nat) (src g' : Mem) : Prop where
  inside : ∀ i, p ≤ i → i < p + k → g' i = src (i - p)
  before : ∀ i, i < p → g' i = g i
  behind : ∀ i, p + k ≤ i → g' i = g i ∨ (g' i = 0 ∧ n ≤ i)

section Overlaid

variable {n : Int} {g h g₁ g₂ src : Mem} {p k a b : Nat}

theorem Overlaid.refl (n : Int) (g : Mem) (p : Nat) (src : Mem) : Overlaid n g p 0 src g where
  inside := fun i hi hlt => absurd hi (by omega)
  before := fun _ _ => rfl
  behind := fun _ _ => Or.inl rfl

/-- The next bytes are laid over behind. -/
theorem Overlaid.append (h₁ : Overlaid n g p a src g₁)
    (h₂ : Overlaid n g₁ (p + a) b (fun i => src (a + i)) g₂) : Overlaid n g p (a + b) src g₂ where
  inside := by
    intro i hi hlt
    by_cases hin : i < p + a
    · rw [h₂.before i hin]
      exact h₁.inside i hi hin
    · rw [h₂.inside i (by omega) (by omega)]
      exact congrArg src (by omega)
  before := by
    intro i hi
    rw [h₂.before i (by omega)]
    exact h₁.before i hi
  behind := by
    intro i hi
    rcases h₂.behind i (by omega) with hsame | hgone
    · rw [hsame]
      exact h₁.behind i (by omega)
    · exact Or.inr hgone

/-- An overlay on bytes that only differ where they may be gone. -/
theorem overlaid_overlay (hbefore : ∀ i, i < p → h i = g i)
    (hbehind : ∀ i, p + k ≤ i → h i = g i ∨ (h i = 0 ∧ n ≤ i)) :
    Overlaid n g p k src (overlay h p k src) where
  inside := fun i hi hlt => overlay_in hi hlt
  before := by
    intro i hi
    rw [overlay_out (Or.inl hi)]
    exact hbefore i hi
  behind := by
    intro i hi
    rw [overlay_out (Or.inr hi)]
    exact hbehind i hi

/-- Nothing is gone where there were zeros. -/
theorem Overlaid.eq (hover : Overlaid n g p k src h)
    (hzero : (∀ i : Nat, n ≤ i → g i = 0) ∨ ∀ i, p + k ≤ i → g i = 0) :
    h = overlay g p k src := by
  funext i
  by_cases hin : p ≤ i ∧ i < p + k
  · rw [overlay_in hin.1 hin.2]
    exact hover.inside i hin.1 hin.2
  · rw [overlay_out (by omega)]
    by_cases hlt : i < p
    · exact hover.before i hlt
    · have hle : p + k ≤ i := by omega
      rcases hover.behind i hle with hsame | ⟨hgone, hn⟩
      · exact hsame
      · rw [hgone]
        rcases hzero with hsize | hfar
        · exact (hsize i hn).symm
        · exact (hfar i hle).symm

end Overlaid

/-- The outcome of a chunk: no zone for it, or the file's bytes overlaid and
    all else as it was. -/
def ChunkDone (sb : Super) (st : Mfs) (g : Mem) (p c : Nat) (src : Mem) (x : Int × Mfs) : Prop :=
  x.2.rdwtErr = st.rdwtErr ∧ (x.1 = enospc ∨ (x.1 = ok ∧ MapOk sb x.2 ∧
    (∃ g', Holds sb x.2 g' ∧ Overlaid st.inode.size g p c src g') ∧ x.2.grant = st.grant))

/-- The bytes of a chunk are copied into its block. -/
theorem transfer_holds {st₁ : Mfs} {b : Nat} {bp h : Mem} (hcopy : CopiesSucceed env)
    (hoff : off = p % sb.blockSize) (hc : off + c ≤ sb.blockSize)
    (hfit : bufOff + c ≤ st.grant.size) (hq : p / sb.blockSize < capacity sb)
    (hmap : MapOk sb st₁) (hb : val (store st₁) (leafSlot sb (p / sb.blockSize)) = b)
    (hb0 : b ≠ noBlock) (hgrant : st₁.grant = st.grant) (herr : st₁.rdwtErr = st.rdwtErr)
    (hother : ∀ i, i / sb.blockSize < capacity sb → i / sb.blockSize ≠ p / sb.blockSize →
      byteAt sb st₁ i = h i)
    (hbp : ∀ i, i / sb.blockSize = p / sb.blockSize → i < p ∨ p + c ≤ i →
      (if c ≠ sb.blockSize ∧ (p : Int) ≥ st₁.inode.size ∧ off = 0 then 0
        else bp (i % sb.blockSize)) = h i)
    (hover : Overlaid st.inode.size g p c (fun i => st.grant.mem (bufOff + i))
      (overlay h p c (fun i => st.grant.mem (bufOff + i)))) :
    ChunkDone sb st g p c (fun i => st.grant.mem (bufOff + i))
      (transfer env st₁ p off c .writing bufOff b bp) := by
  have hfit' : bufOff + c ≤ st₁.grant.size := by rw [hgrant]; exact hfit
  have hdiv := Nat.div_add_mod p sb.blockSize
  simp only [transfer]
  simp only [safecopyfrom_ok _ _ _ _ _ hcopy hfit', hgrant]
  have hput := putBlock_holds { st₁ with clock := st₁.clock + 1 } b
    (overlay (if c ≠ sb.blockSize ∧ (p : Int) ≥ st₁.inode.size ∧ off = 0 then
      (fun _ => 0) else bp) off c (fun i => st.grant.mem (bufOff + i)))
    (overlay h p c (fun i => st.grant.mem (bufOff + i))) hmap hq hb hb0 ?_ ?_
  · exact ⟨herr, Or.inr ⟨rfl, hput.1, ⟨_, hput.2, hover⟩, rfl⟩⟩
  · -- other blocks lie outside the chunk
    intro i hi hne
    rw [overlay_out, ← hother i hi hne]
    · rfl
    · by_contra hin
      have hin' : p ≤ i ∧ i < p + c := by omega
      refine hne (Nat.div_eq_of_lt_le ?_ ?_)
      · rw [Nat.mul_comm]; omega
      · rw [Nat.mul_comm, Nat.mul_add, Nat.mul_one]; omega
  · intro i hi
    have hi' := Nat.div_add_mod i sb.blockSize
    rw [hi] at hi'
    have hp : sb.blockSize * (p / sb.blockSize) + off = p := by rw [hoff]; exact hdiv
    have hsum := overlay_shift h off c (fun i => st.grant.mem (bufOff + i))
      (if c ≠ sb.blockSize ∧ (p : Int) ≥ st₁.inode.size ∧ off = 0 then (fun _ => 0) else bp)
      (sb.blockSize * (p / sb.blockSize)) (i % sb.blockSize) (fun hout => by
        rw [hi', ← hbp i hi (by omega)]
        by_cases hzero : c ≠ sb.blockSize ∧ (p : Int) ≥ st₁.inode.size ∧ off = 0
        · rw [if_pos hzero, if_pos hzero]
        · rw [if_neg hzero, if_neg hzero])
    rw [hp, hi'] at hsum
    exact hsum

/-- Writing a chunk where the file has no block: a zeroed one is made. -/
theorem rwChunk_fresh (env : Env sb) (bufOff : Nat) (hlog : sb.logZoneSize = 0)
    (hcopy : CopiesSucceed env) (hcache : CacheWorks env) (hty : inodeType st.inode ≠ iImmediate)
    (hmap : MapOk sb st) (hg : Holds sb st g) (hp : p < 4294967296)
    (hq : p / sb.blockSize < capacity sb) (hoff : off = p % sb.blockSize)
    (hc : off + c ≤ sb.blockSize) (hfit : bufOff + c ≤ st.grant.size)
    (hb : val (store st) (leafSlot sb (p / sb.blockSize)) = noBlock) :
    ∃ x, rwChunk env st p off c .writing bufOff = .ok x ∧
      ChunkDone sb st g p c (fun i => st.grant.mem (bufOff + i)) x := by
  have hread := readMap_slot hlog hmap hq
  obtain ⟨st₁, hst₁⟩ : ∃ st₁ : Mfs, st₁ = { st with clock := st.clock + 1 } := ⟨_, rfl⟩
  have hnote : noteErr env st = st₁ := by rw [noteErr_works hcache, hst₁]
  have hstore : store st₁ = store st := by rw [hst₁]; rfl
  have hmap₁ : MapOk sb st₁ := by rw [hst₁]; exact hmap
  have hty₁ : inodeType st₁.inode ≠ iImmediate := by rw [hst₁]; exact hty
  obtain ⟨n, hn, hout⟩ := newBlock_slot env hlog hmap₁ hty₁ hcache hq (by rw [hstore]; exact hb)
  have hrun : rwChunk env st p off c .writing bufOff = n.1.elim (.ok (n.2.errCode, n.2))
      fun b => .ok (transfer env n.2 p off c .writing bufOff b (n.2.blocks b)) := by
    rw [rwChunk, if_neg (by omega)]
    rw [hread, hb, hnote]
    show (do let n ← newBlock env st₁ p; _) = _
    rw [hn]
    obtain ⟨_ | b, st₂⟩ := n
    · rfl
    · rfl
  rcases hout with ⟨hnone, hcode, herr⟩ | ⟨z, hsome, hz0, hent, hzeros⟩
  · rw [hnone] at hrun
    exact ⟨_, hrun, herr.trans (by rw [hst₁]), Or.inl hcode⟩
  · rw [hsome] at hrun
    refine ⟨_, hrun, transfer_holds hcopy hoff hc hfit hq hent.map
      ((hent.zone _ hq).trans (if_pos rfl)) hz0 (hent.grant.trans (by rw [hst₁]))
      (hent.rdwtErr.trans (by rw [hst₁])) (fun i hi hne => ?_) (fun i hi hout => ?_)
      (overlaid_overlay (fun _ _ => rfl) fun _ _ => Or.inl rfl)⟩
    · rw [← hg i hi]
      have hzone := hent.zone _ hi
      rw [if_neg hne, hstore] at hzone
      refine byteAt_congr hzone (fun h0 => ?_)
      have hblock := hent.block _ hi (by rw [hstore]; exact h0)
      rw [hstore] at hblock
      exact hblock.trans (by rw [hst₁])
    · -- the file had no block there, so that its bytes were zeros
      have hgi : g i = 0 := by
        rw [← hg i (by rw [hi]; exact hq), byteAt, hi]
        exact if_pos hb
      rw [hgi, hzeros, ite_self]

/-- Writing a chunk of a block the file has: the block is read unless it is
    overwritten whole or cleared. -/
theorem rwChunk_present (env : Env sb) (bufOff : Nat) (hlog : sb.logZoneSize = 0)
    (hcopy : CopiesSucceed env) (hcache : CacheWorks env) (hmap : MapOk sb st)
    (hg : Holds sb st g) (hp : p < 4294967296) (hq : p / sb.blockSize < capacity sb)
    (hoff : off = p % sb.blockSize) (hc : off + c ≤ sb.blockSize)
    (hfit : bufOff + c ≤ st.grant.size)
    (hb : val (store st) (leafSlot sb (p / sb.blockSize)) ≠ noBlock) :
    ∃ x, rwChunk env st p off c .writing bufOff = .ok x ∧
      ChunkDone sb st g p c (fun i => st.grant.mem (bufOff + i)) x := by
  have hread := readMap_slot hlog hmap hq
  obtain ⟨st₁, hst₁⟩ : ∃ st₁ : Mfs, st₁ = { st with clock := st.clock + 1 } := ⟨_, rfl⟩
  have hnote : noteErr env st = st₁ := by rw [noteErr_works hcache, hst₁]
  have hstore : store st₁ = store st := by rw [hst₁]; rfl
  have hmap₁ : MapOk sb st₁ := by rw [hst₁]; exact hmap
  have hblocks : st₁.blocks = st.blocks := by rw [hst₁]
  obtain ⟨bp, hbp⟩ : ∃ bp, bp = if c = sb.blockSize ∨ (off = 0 ∧ (p : Int) ≥ st.inode.size) then
      env.stale st₁.clock else st₁.blocks (val (store st) (leafSlot sb (p / sb.blockSize))) :=
    ⟨_, rfl⟩
  have hrun : rwChunk env st p off c .writing bufOff = .ok (transfer env st₁ p off c .writing
      bufOff (val (store st) (leafSlot sb (p / sb.blockSize))) bp) := by
    rw [rwChunk, if_neg (by omega), hread, hnote, hbp]
    show (if val (store st) (leafSlot sb (p / sb.blockSize)) = noBlock then _ else _) = _
    rw [if_neg hb, hst₁]
  have hmin := sb.minBlock
  have hdiv := Nat.div_add_mod p sb.blockSize
  -- the block without what a clearing loses
  obtain ⟨h, hblock, hother, hover⟩ : ∃ h : Mem,
      (∀ i, i / sb.blockSize = p / sb.blockSize → i < p ∨ p + c ≤ i →
        (if c ≠ sb.blockSize ∧ (p : Int) ≥ st₁.inode.size ∧ off = 0 then 0
          else bp (i % sb.blockSize)) = h i) ∧
      (∀ i, i / sb.blockSize ≠ p / sb.blockSize → h i = g i) ∧
      ∀ src, Overlaid st.inode.size g p c src (overlay h p c src) := by
    have hsz : st₁.inode.size = st.inode.size := by rw [hst₁]
    rw [hsz]
    by_cases hcl : c ≠ sb.blockSize ∧ (p : Int) ≥ st.inode.size ∧ off = 0
    · refine ⟨fun i => if i / sb.blockSize = p / sb.blockSize ∧ p ≤ i then 0 else g i, ?_,
        fun i hi => if_neg (fun h => hi h.1),
        fun src => overlaid_overlay (fun i hi => if_neg (by omega)) fun i hi => ?_⟩
      · intro i hi _
        have hi' := Nat.div_add_mod i sb.blockSize
        rw [hi] at hi'
        have hge : p ≤ i := by omega
        rw [if_pos hcl]
        exact (if_pos ⟨hi, hge⟩).symm
      · by_cases hin : i / sb.blockSize = p / sb.blockSize ∧ p ≤ i
        · exact Or.inr ⟨if_pos hin, by omega⟩
        · exact Or.inl (if_neg hin)
    · refine ⟨g, fun i hi hout => ?_, fun _ _ => rfl,
        fun src => overlaid_overlay (fun _ _ => rfl) fun _ _ => Or.inl rfl⟩
      have hgi : g i = blockByte st.blocks (val (store st) (leafSlot sb (p / sb.blockSize)))
          (i % sb.blockSize) := by
        rw [← hg i (by rw [hi]; exact hq), byteAt, hi]
      rw [if_neg hcl]
      by_cases hwhole : c = sb.blockSize
      · -- the chunk is the whole block
        have h1 := Nat.div_add_mod i sb.blockSize
        have h3 := Nat.mod_lt i (show sb.blockSize > 0 by omega)
        rw [hi] at h1
        omega
      · rw [hbp, if_neg, hblocks, hgi, blockByte, if_neg hb]
        rintro (h | ⟨h0, hge⟩)
        · exact hwhole h
        · exact hcl ⟨hwhole, hge, h0⟩
  refine ⟨_, hrun, transfer_holds hcopy hoff hc hfit hq hmap₁ (by rw [hstore]) hb
    (by rw [hst₁]) (by rw [hst₁]) (fun i hi hne => ?_) hblock (hover _)⟩
  rw [hother i hne, ← hg i hi]
  exact byteAt_congr (by rw [hstore]) (fun _ => by rw [hblocks])

/-- **WRITING A CHUNK** overlays the file's bytes. -/
theorem rwChunk_writing (env : Env sb) (bufOff : Nat) (hlog : sb.logZoneSize = 0)
    (hcopy : CopiesSucceed env) (hcache : CacheWorks env) (hty : inodeType st.inode ≠ iImmediate)
    (hmap : MapOk sb st) (hg : Holds sb st g) (hp : p < 4294967296)
    (hq : p / sb.blockSize < capacity sb) (hoff : off = p % sb.blockSize)
    (hc : off + c ≤ sb.blockSize) (hfit : bufOff + c ≤ st.grant.size) :
    ∃ x, rwChunk env st p off c .writing bufOff = .ok x ∧
      ChunkDone sb st g p c (fun i => st.grant.mem (bufOff + i)) x := by
  by_cases hb : val (store st) (leafSlot sb (p / sb.blockSize)) = noBlock
  · exact rwChunk_fresh env bufOff hlog hcopy hcache hty hmap hg hp hq hoff hc hfit hb
  · exact rwChunk_present env bufOff hlog hcopy hcache hmap hg hp hq hoff hc hfit hb

end Chunk

/-! ## The loop -/

/-- A write in progress: the bytes moved so far overlay the file's, and
    nothing else has changed. -/
structure Writing (sb : Super) (st : Mfs) (g : Mem) (p k : Nat) (s : Progress) : Prop where
  le : s.cumIo ≤ k
  left : s.nrbytes = k - s.cumIo
  position : s.position = (p + s.cumIo : Nat)
  good : s.r = ok
  steady : Steady st s.mfs
  map : MapOk sb s.mfs
  holds : ∃ g', Holds sb s.mfs g' ∧ Overlaid st.inode.size g p s.cumIo st.grant.mem g'
  grant : s.mfs.grant = st.grant
  err : s.mfs.rdwtErr = ok

/-- No zone was found, or all bytes are written. -/
def Written (sb : Super) (st : Mfs) (g : Mem) (p k : Nat) (t : Progress) : Prop :=
  t.mfs.rdwtErr = ok ∧ (t.r = enospc ∨ (t.cumIo = k ∧ Writing sb st g p k t))

section Loop

variable {sb : Super} {env : Env sb} {st : Mfs} {g : Mem} {p k : Nat} {fSize : Int}

/-- **ONE TURN** of the chunk loop of a write. -/
theorem chunkTurn_writing (hlog : sb.logZoneSize = 0) (hcopy : CopiesSucceed env)
    (hcache : CacheWorks env) (hty : inodeType st.inode ≠ iImmediate)
    (hfit : k ≤ st.grant.size) (hend : p + k ≤ sb.blockSize * capacity sb)
    (h32 : p + k < 4294967296) {s : Progress} (h : Writing sb st g p k s) :
    (∃ t, chunkTurn env .writing fSize s = .ok (.done t) ∧ Written sb st g p k t) ∨
      ∃ t, chunkTurn env .writing fSize s = .ok (.again t) ∧ Writing sb st g p k t ∧
        t.nrbytes < s.nrbytes := by
  have hmin := sb.minBlock
  by_cases h0 : s.nrbytes = 0
  · refine Or.inl ⟨s, chunkTurn_over (Or.inl h0), h.err, Or.inr ⟨?_, h⟩⟩
    have hle := h.le
    have hleft := h.left
    omega
  -- where the chunk lies
  obtain ⟨pos, hpos⟩ : ∃ pos, pos = p + s.cumIo := ⟨_, rfl⟩
  have hle := h.le
  have hleft := h.left
  have hpos32 : pos < 4294967296 := by omega
  have hu : u32 s.position = pos := by rw [h.position, ← hpos, u32_natCast hpos32]
  have hoff : chunkOff sb s = pos % sb.blockSize := by rw [chunkOff, hu]
  have hofflt : pos % sb.blockSize < sb.blockSize := Nat.mod_lt _ (by omega)
  obtain ⟨c, hc⟩ : ∃ c, c = chunkLen sb .writing fSize s := ⟨_, rfl⟩
  have hc' : c = min s.nrbytes (sb.blockSize - pos % sb.blockSize) := by
    rw [hc, chunkLen, if_neg (by simp), hoff]
  have hq : pos / sb.blockSize < capacity sb := by
    rw [Nat.div_lt_iff_lt_mul (by omega), Nat.mul_comm]
    omega
  have hty' : inodeType s.mfs.inode ≠ iImmediate := by
    rw [inodeType, h.steady.mode]
    exact hty
  obtain ⟨g₁, hg₁, hover₁⟩ := h.holds
  obtain ⟨x, hx, herr, hout⟩ := rwChunk_writing env (p := pos) (c := c) s.cumIo hlog
    hcopy hcache hty' h.map hg₁ hpos32 hq rfl (by omega) (by rw [h.grant]; omega)
  have hrw : rwChunk env s.mfs (u32 s.position) (chunkOff sb s) (chunkLen sb .writing fSize s)
      .writing s.cumIo = .ok x := by
    rw [hu, hoff, ← hc]
    exact hx
  have hin : ¬ (RwFlag.writing = RwFlag.reading ∧ s.position ≥ fSize) := by
    rintro ⟨hrw, -⟩
    cases hrw
  have herr' : x.2.rdwtErr = ok := herr.trans h.err
  rcases hout with hno | ⟨hok, hmap, ⟨g₂, hg₂, hover₂⟩, hgrant⟩
  · refine Or.inl ⟨_, chunkTurn_done h0 hin hrw (Or.inl (by rw [hno]; decide)), herr',
      Or.inl hno⟩
  · have hturn := chunkTurn_again h0 hin hrw hok (by rw [herr']; decide)
    rw [← hc] at hturn
    refine Or.inr ⟨_, hturn, ?_, ?_⟩
    · refine ⟨?_, ?_, ?_, rfl, h.steady.trans (rwChunk_steady hx), hmap, ?_,
        hgrant.trans h.grant, herr'⟩
      · show s.cumIo + c ≤ k
        omega
      · show s.nrbytes - c = k - (s.cumIo + c)
        omega
      · show s.position + (c : Int) = ((p + (s.cumIo + c) : Nat) : Int)
        rw [h.position]
        omega
      · rw [h.grant, h.steady.size, hpos] at hover₂
        exact ⟨g₂, hg₂, hover₁.append hover₂⟩
    · show s.nrbytes - c < s.nrbytes
      omega

/-- **THE CHUNK LOOP OF A WRITE** runs out of zones, or overlays all bytes. -/
theorem chunkLoop_writing (env : Env sb) (fSize : Int) (hlog : sb.logZoneSize = 0)
    (hcopy : CopiesSucceed env) (hcache : CacheWorks env) (hty : inodeType st.inode ≠ iImmediate)
    (hmap : MapOk sb st) (hg : Holds sb st g) (hfit : k ≤ st.grant.size) (herr : st.rdwtErr = ok)
    (hend : p + k ≤ sb.blockSize * capacity sb) (h32 : p + k < 4294967296) :
    ∃ t, loop .endless (chunkTurn env .writing fSize) (k + 1) ⟨st, ok, k, 0, p⟩ = .ok t ∧
      Written sb st g p k t := by
  refine loop_total (fun s => s.nrbytes) (fun s hs => ?_)
    (I := Writing sb st g p k) (Q := Written sb st g p k) ?_ (Nat.lt_succ_self k)
  · exact chunkTurn_writing hlog hcopy hcache hty hfit hend h32 hs
  · exact ⟨Nat.zero_le k, rfl, rfl, rfl, Steady.refl st, hmap,
      ⟨g, hg, Overlaid.refl _ g p st.grant.mem⟩, rfl, herr⟩

end Loop

end MfsChunk
