import OsLab.MfsTruncateProofs

/-! # A regular file as its callers see it

    Reads of a regular file go through the zone map chunk by chunk.  They stop
    at the end of the file, and a block that is missing reads as zeros
    (`chunkLoop_reading`).  Peeks give a missing block a zeroed one, also
    behind the end, and move no bytes (`chunkLoop_peeking`).

    With the writes and truncations this makes the file server a store: from
    the write on that converts a new file, every call that found zones is
    answered as the sparse file answers it (`file_faithful`). -/

namespace MfsServe

open OsBytes OsLoop WordTree MfsModel MfsImmediate MfsConvert MfsZoneMap MfsChunk MfsWrite
open MfsTruncate

/-! ## Calls -/

/-- What a caller asks for.  The grant of a read is the buffer it is for. -/
inductive Call where
  | read (pos : Nat) (buf : Grant)
  | peek (pos len : Nat)
  | write (w : Write)
  | truncate (length : Nat)

/-- What the caller gets: the reply, and the buffer of a read. -/
inductive Answer where
  | read (reply : Reply) (mem : Mem)
  | done (reply : Reply)
  | truncated

def Answer.code : Answer → Int
  | .read reply _ => reply.r
  | .done reply => reply.r
  | .truncated => ok

/-- Where a call that needs zones ends. -/
def Call.stop : Call → Nat
  | .read _ _ => 0
  | .peek pos len => pos + len
  | .write w => w.stop
  | .truncate length => length

/-- The file server's answer. -/
def perform {sb : Super} (env : Env sb) (tr : Truncation env) (st : Mfs) :
    Call → Except Fault (Answer × Mfs)
  | .read pos buf => do
      let x ← fsReadwrite env { st with grant := buf } ⟨.reading, pos, buf.size⟩
      .ok (.read x.1 x.2.grant.mem, x.2)
  | .peek pos len => do
      let x ← fsReadwrite env st ⟨.peeking, pos, len⟩
      .ok (.done x.1, x.2)
  | .write w => do
      let x ← serve env st w
      .ok (.done x.1, x.2)
  | .truncate length => do
      let st' ← tr.run st length
      .ok (.truncated, st')

/-- The answer of a sparse file, and the file afterwards. -/
def fileAnswer (f : Sparse) : Call → Answer × Sparse
  | .read pos buf =>
      let n := available pos buf.size f.size
      (.read ⟨ok, (pos + n : Nat), n⟩ (overlay buf.mem 0 n (fun i => f.byte (pos + i))), f)
  | .peek pos len => (.done ⟨ok, (pos + len : Nat), len⟩, f)
  | .write w => (.done ⟨ok, w.stop, w.len⟩, f.write w)
  | .truncate length => (.truncated, f.truncate length)

/-- Its answers to calls in order, and the file afterwards. -/
def fileAnswers (f : Sparse) : List Call → List Answer × Sparse
  | [] => ([], f)
  | c :: cs =>
      let x := fileAnswer f c
      let y := fileAnswers x.2 cs
      (x.1 :: y.1, y.2)

/-! ## Reading -/

/-- A read in progress: the bytes moved so far are in the grant, and the clock
    has ticked. -/
structure Reading (st : Mfs) (g : Mem) (p k n : Nat) (s : Progress) : Prop where
  le : s.cumIo ≤ available p k n
  left : s.nrbytes = k - s.cumIo
  position : s.position = (p + s.cumIo : Nat)
  good : s.r = ok
  mfs : s.mfs = { st with
    grant := ⟨st.grant.size, overlay st.grant.mem 0 s.cumIo (fun i => g (p + i))⟩
    clock := s.mfs.clock }

/-- All the bytes there are have been moved. -/
def Filled (st : Mfs) (g : Mem) (p k n : Nat) (t : Progress) : Prop :=
  t.cumIo = available p k n ∧ Reading st g p k n t

section Read

variable {sb : Super} {env : Env sb} {st : Mfs} {g : Mem} {p k n : Nat}

theorem overlay_congr (m : Mem) (off len : Nat) {src src' : Mem}
    (h : ∀ i, i < len → src i = src' i) :
    overlay m off len src = overlay m off len src' := by
  ext i
  by_cases hin : off ≤ i ∧ i < off + len
  · rw [overlay_in hin.1 hin.2, overlay_in hin.1 hin.2, h _ (by omega)]
  · rw [overlay_out (by omega), overlay_out (by omega)]

/-- The bytes of a chunk lie in one block. -/
theorem block_bytes (hg : Holds sb st g) {pos i : Nat} (hq : pos / sb.blockSize < capacity sb)
    (hi : pos % sb.blockSize + i < sb.blockSize) :
    blockByte st.blocks (val (store st) (leafSlot sb (pos / sb.blockSize)))
      (pos % sb.blockSize + i) = g (pos + i) := by
  have hsplit := Nat.div_add_mod pos sb.blockSize
  have hdiv : (pos + i) / sb.blockSize = pos / sb.blockSize := by
    refine Nat.div_eq_of_lt_le ?_ ?_
    · rw [Nat.mul_comm]; omega
    · rw [Nat.mul_comm, Nat.mul_add, Nat.mul_one]; omega
  have hmod : (pos + i) % sb.blockSize = pos % sb.blockSize + i := by
    have hsplit' := Nat.div_add_mod (pos + i) sb.blockSize
    rw [hdiv] at hsplit'
    omega
  rw [← hg (pos + i) (by rw [hdiv]; exact hq), byteAt, hdiv, hmod]

/-- Reading a chunk copies the file's bytes, or the zeros of a missing block. -/
theorem rwChunk_copies (hlog : sb.logZoneSize = 0) (hcopy : CopiesSucceed env)
    (hcache : CacheWorks env) (hmap : MapOk sb st) (hg : Holds sb st g) (pos c bufOff : Nat)
    (hp : pos < 4294967296) (hq : pos / sb.blockSize < capacity sb)
    (hc : pos % sb.blockSize + c ≤ sb.blockSize) (hfit : bufOff + c ≤ st.grant.size) :
    rwChunk env st pos (pos % sb.blockSize) c .reading bufOff = .ok (ok, { st with
      grant := ⟨st.grant.size, overlay st.grant.mem bufOff c (fun i => g (pos + i))⟩
      clock := st.clock + 2 }) := by
  have hbytes := overlay_congr st.grant.mem bufOff c
    (fun i hi => block_bytes hg hq (Nat.lt_of_lt_of_le (Nat.add_lt_add_left hi _) hc))
  have hcopied := safecopyto_ok { st with clock := st.clock + 1 } hcopy bufOff c
    (fun i => blockByte st.blocks (val (store st) (leafSlot sb (pos / sb.blockSize)))
      (pos % sb.blockSize + i)) hfit
  rw [rwChunk_reading st hp (readMap_slot hlog hmap hq), noteErr_works hcache, hcopied, ← hbytes]

/-- **ONE TURN** of the chunk loop of a read. -/
theorem chunkTurn_reading (hlog : sb.logZoneSize = 0) (hcopy : CopiesSucceed env)
    (hcache : CacheWorks env) (hmap : MapOk sb st) (hg : Holds sb st g)
    (hfit : k ≤ st.grant.size) (herr : st.rdwtErr = ok) (hn : n ≤ sb.blockSize * capacity sb)
    (h32 : n < 4294967296) {s : Progress} (h : Reading st g p k n s) :
    (∃ t, chunkTurn env .reading n s = .ok (.done t) ∧ Filled st g p k n t) ∨
      ∃ t, chunkTurn env .reading n s = .ok (.again t) ∧ Reading st g p k n t ∧
        t.nrbytes < s.nrbytes := by
  have hmin := sb.minBlock
  have hle := h.le
  have hleft := h.left
  have hav : available p k n = min (p + k) n - p := rfl
  by_cases h0 : s.nrbytes = 0
  · refine Or.inl ⟨s, chunkTurn_over (Or.inl h0), ?_, h⟩
    omega
  by_cases hend : s.position ≥ n
  · refine Or.inl ⟨s, chunkTurn_over (Or.inr ⟨rfl, hend⟩), ?_, h⟩
    rw [h.position] at hend
    omega
  -- where the chunk lies
  obtain ⟨pos, hpos⟩ : ∃ pos, pos = p + s.cumIo := ⟨_, rfl⟩
  have hposn : pos < n := by
    rw [h.position, ← hpos] at hend
    omega
  have hu : u32 s.position = pos := by rw [h.position, ← hpos, u32_natCast (by omega)]
  have hoff : chunkOff sb s = pos % sb.blockSize := by rw [chunkOff, hu]
  have hofflt : pos % sb.blockSize < sb.blockSize := Nat.mod_lt _ (by omega)
  have hrest : u32 ((n : Int) - s.position) = n - pos := by
    rw [h.position, ← hpos, ← Int.ofNat_sub hposn.le, u32_natCast (by omega)]
  obtain ⟨c, hc⟩ : ∃ c, c = chunkLen sb .reading n s := ⟨_, rfl⟩
  have hc' : c = min (min s.nrbytes (sb.blockSize - pos % sb.blockSize)) (n - pos) := by
    rw [hc, chunkLen, if_pos rfl, hoff, hrest]
  have hq : pos / sb.blockSize < capacity sb := by
    rw [Nat.div_lt_iff_lt_mul (by omega), Nat.mul_comm]
    omega
  -- the map and the blocks are those of the start
  have hmap' : MapOk sb s.mfs := by rw [h.mfs]; exact hmap
  have hg' : Holds sb s.mfs g := by rw [h.mfs]; exact hg
  have hgrant : s.mfs.grant = ⟨st.grant.size,
      overlay st.grant.mem 0 s.cumIo (fun i => g (p + i))⟩ := by rw [h.mfs]
  have hsize : s.mfs.grant.size = st.grant.size := by rw [hgrant]
  have hmem : s.mfs.grant.mem = overlay st.grant.mem 0 s.cumIo (fun i => g (p + i)) := by
    rw [hgrant]
  have herr' : s.mfs.rdwtErr = ok := by rw [h.mfs]; exact herr
  have hcopied := rwChunk_copies hlog hcopy hcache hmap' hg' pos c s.cumIo
    (by omega) hq (by omega) (by omega)
  rw [← hoff, ← hu, hc] at hcopied
  have hin : ¬ (RwFlag.reading = RwFlag.reading ∧ s.position ≥ n) := fun hb => hend hb.2
  have hturn := chunkTurn_again h0 hin hcopied rfl (by
    show ¬ s.mfs.rdwtErr < 0
    rw [herr']
    decide)
  rw [← hc, hu] at hturn
  refine Or.inr ⟨_, hturn, ⟨?_, ?_, ?_, rfl, ?_⟩, ?_⟩
  · show s.cumIo + c ≤ available p k n
    omega
  · show s.nrbytes - c = k - (s.cumIo + c)
    omega
  · show s.position + (c : Int) = ((p + (s.cumIo + c) : Nat) : Int)
    rw [h.position]
    omega
  · -- the chunk follows what was moved before
    have hjoin : overlay s.mfs.grant.mem s.cumIo c (fun i => g (pos + i)) =
        overlay st.grant.mem 0 (s.cumIo + c) (fun i => g (p + i)) := by
      rw [hmem, ← overlay_append, Nat.zero_add, hpos]
      exact overlay_congr _ _ _ (fun i _ => by rw [Nat.add_assoc])
    dsimp only
    rw [hjoin, hsize, h.mfs]
  · show s.nrbytes - c < s.nrbytes
    omega

/-- **THE CHUNK LOOP OF A READ** fills the grant up to the end of the file. -/
theorem chunkLoop_reading (st : Mfs) (p k n : Nat) (hlog : sb.logZoneSize = 0)
    (hcopy : CopiesSucceed env)
    (hcache : CacheWorks env) (hmap : MapOk sb st) (hg : Holds sb st g)
    (hfit : k ≤ st.grant.size) (herr : st.rdwtErr = ok) (hn : n ≤ sb.blockSize * capacity sb)
    (h32 : n < 4294967296) :
    ∃ t, loop .endless (chunkTurn env .reading n) (k + 1) ⟨st, ok, k, 0, p⟩ = .ok t ∧
      Filled st g p k n t := by
  refine loop_total (fun s => s.nrbytes) (fun s hs => ?_)
    (I := Reading st g p k n) (Q := Filled st g p k n) ?_ (Nat.lt_succ_self k)
  · exact chunkTurn_reading hlog hcopy hcache hmap hg hfit herr hn h32 hs
  · refine ⟨Nat.zero_le _, rfl, rfl, rfl, ?_⟩
    rw [overlay_zero]

end Read

/-! ## Peeking -/

/-- A peek in progress: the file has the bytes it had. -/
structure Peeking (sb : Super) (st : Mfs) (g : Mem) (p k : Nat) (s : Progress) : Prop where
  le : s.cumIo ≤ k
  left : s.nrbytes = k - s.cumIo
  position : s.position = (p + s.cumIo : Nat)
  good : s.r = ok
  steady : Steady st s.mfs
  map : MapOk sb s.mfs
  holds : Holds sb s.mfs g
  err : s.mfs.rdwtErr = ok

/-- No zone was found, or every block is there. -/
def Peeked (sb : Super) (st : Mfs) (g : Mem) (p k : Nat) (t : Progress) : Prop :=
  t.mfs.rdwtErr = ok ∧ (t.r = enospc ∨ (t.cumIo = k ∧ Peeking sb st g p k t))

section Peek

variable {sb : Super} {env : Env sb} {st : Mfs} {g : Mem} {p k c off bufOff : Nat} {fSize : Int}

/-- Peeking at a chunk: where the file has no block it gets a zeroed one. -/
theorem rwChunk_peeking (env : Env sb) (off c bufOff : Nat) (hlog : sb.logZoneSize = 0)
    (hcache : CacheWorks env) (hty : inodeType st.inode ≠ iImmediate) (hmap : MapOk sb st)
    (hg : Holds sb st g) (hp : p < 4294967296) (hq : p / sb.blockSize < capacity sb) :
    ∃ x, rwChunk env st p off c .peeking bufOff = .ok x ∧ x.2.rdwtErr = st.rdwtErr ∧
      (x.1 = enospc ∨ (x.1 = ok ∧ MapOk sb x.2 ∧ Holds sb x.2 g)) := by
  have hread := readMap_slot hlog hmap hq
  obtain ⟨st₁, hst₁⟩ : ∃ st₁ : Mfs, st₁ = { st with clock := st.clock + 1 } := ⟨_, rfl⟩
  have hnote : noteErr env st = st₁ := by rw [noteErr_works hcache, hst₁]
  have hstore : store st₁ = store st := by rw [hst₁]; rfl
  have hmap₁ : MapOk sb st₁ := by rw [hst₁]; exact hmap
  have hg₁ : Holds sb st₁ g := by rw [hst₁]; exact hg
  have herr₁ : st₁.rdwtErr = st.rdwtErr := by rw [hst₁]
  have hty₁ : inodeType st₁.inode ≠ iImmediate := by rw [hst₁]; exact hty
  by_cases hb : val (store st) (leafSlot sb (p / sb.blockSize)) = noBlock
  · obtain ⟨⟨b, st₂⟩, hn, hout⟩ :=
      newBlock_slot env hlog hmap₁ hty₁ hcache hq (by rw [hstore]; exact hb)
    have hrun : rwChunk env st p off c .peeking bufOff = b.elim (.ok (st₂.errCode, st₂))
        fun _ => .ok (ok, st₂) := by
      rw [rwChunk, if_neg (by omega), hread, hb, hnote]
      show (do let n ← newBlock env st₁ p; _) = _
      rw [hn]
      cases b with
      | none => rfl
      | some b => rfl
    rcases hout with ⟨hnone, hcode, herr⟩ | ⟨z, hsome, hz0, hent, hzeros⟩
    · obtain rfl : b = none := hnone
      exact ⟨_, hrun, herr.trans herr₁, Or.inl hcode⟩
    · obtain rfl : b = some z := hsome
      refine ⟨_, hrun, hent.rdwtErr.trans herr₁, Or.inr ⟨rfl, hent.map, fun i hi => ?_⟩⟩
      rw [← hg₁ i hi]
      by_cases hiq : i / sb.blockSize = p / sb.blockSize
      · -- the zeros it had without a block are those of the new one
        have hzone := hent.zone _ hi
        rw [if_pos hiq] at hzone
        have hbyte : byteAt sb st₁ i = 0 := by
          rw [byteAt, hiq, hstore]
          exact if_pos hb
        rw [hbyte, byteAt, hzone, blockByte, hzeros, ite_self]
      · have hzone := hent.zone _ hi
        rw [if_neg hiq] at hzone
        exact byteAt_congr hzone (fun h0 => hent.block _ hi h0)
  · refine ⟨(ok, st₁), ?_, herr₁, Or.inr ⟨rfl, hmap₁, hg₁⟩⟩
    rw [rwChunk, if_neg (by omega), hread, hnote]
    show (if val (store st) (leafSlot sb (p / sb.blockSize)) = noBlock then _ else _) = _
    rw [if_neg hb]
    rfl

/-- **ONE TURN** of the chunk loop of a peek. -/
theorem chunkTurn_peeking (hlog : sb.logZoneSize = 0) (hcache : CacheWorks env)
    (hty : inodeType st.inode ≠ iImmediate) (hend : p + k ≤ sb.blockSize * capacity sb)
    (h32 : p + k < 4294967296) {s : Progress} (h : Peeking sb st g p k s) :
    (∃ t, chunkTurn env .peeking fSize s = .ok (.done t) ∧ Peeked sb st g p k t) ∨
      ∃ t, chunkTurn env .peeking fSize s = .ok (.again t) ∧ Peeking sb st g p k t ∧
        t.nrbytes < s.nrbytes := by
  have hmin := sb.minBlock
  have hle := h.le
  have hleft := h.left
  by_cases h0 : s.nrbytes = 0
  · refine Or.inl ⟨s, chunkTurn_over (Or.inl h0), h.err, Or.inr ⟨?_, h⟩⟩
    omega
  obtain ⟨pos, hpos⟩ : ∃ pos, pos = p + s.cumIo := ⟨_, rfl⟩
  have hu : u32 s.position = pos := by rw [h.position, ← hpos, u32_natCast (by omega)]
  have hoff : chunkOff sb s = pos % sb.blockSize := by rw [chunkOff, hu]
  have hofflt : pos % sb.blockSize < sb.blockSize := Nat.mod_lt _ (by omega)
  obtain ⟨c, hc⟩ : ∃ c, c = chunkLen sb .peeking fSize s := ⟨_, rfl⟩
  have hc' : c = min s.nrbytes (sb.blockSize - pos % sb.blockSize) := by
    rw [hc, chunkLen, if_neg (by simp), hoff]
  have hq : pos / sb.blockSize < capacity sb := by
    rw [Nat.div_lt_iff_lt_mul (by omega), Nat.mul_comm]
    omega
  have hty' : inodeType s.mfs.inode ≠ iImmediate := by
    rw [inodeType, h.steady.mode]
    exact hty
  obtain ⟨x, hx, herr, hout⟩ := rwChunk_peeking env (p := pos) (pos % sb.blockSize) c s.cumIo hlog
    hcache hty' h.map h.holds (by omega) hq
  have hrw : rwChunk env s.mfs (u32 s.position) (chunkOff sb s) (chunkLen sb .peeking fSize s)
      .peeking s.cumIo = .ok x := by
    rw [hu, hoff, ← hc]
    exact hx
  have hin : ¬ (RwFlag.peeking = RwFlag.reading ∧ s.position ≥ fSize) := by
    rintro ⟨hrw, -⟩
    cases hrw
  have herr' : x.2.rdwtErr = ok := herr.trans h.err
  rcases hout with hno | ⟨hok, hmap, hholds⟩
  · exact Or.inl ⟨_, chunkTurn_done h0 hin hrw (Or.inl (by rw [hno]; decide)), herr', Or.inl hno⟩
  · have hturn := chunkTurn_again h0 hin hrw hok (by rw [herr']; decide)
    rw [← hc] at hturn
    refine Or.inr ⟨_, hturn, ⟨?_, ?_, ?_, rfl, h.steady.trans (rwChunk_steady hx), hmap, hholds,
      herr'⟩, ?_⟩
    · show s.cumIo + c ≤ k
      omega
    · show s.nrbytes - c = k - (s.cumIo + c)
      omega
    · show s.position + (c : Int) = ((p + (s.cumIo + c) : Nat) : Int)
      rw [h.position]
      omega
    · show s.nrbytes - c < s.nrbytes
      omega

/-- **THE CHUNK LOOP OF A PEEK** runs out of zones, or leaves the file's bytes as
    they are. -/
theorem chunkLoop_peeking (env : Env sb) (st : Mfs) (p k : Nat) (fSize : Int)
    (hlog : sb.logZoneSize = 0)
    (hcache : CacheWorks env) (hty : inodeType st.inode ≠ iImmediate) (hmap : MapOk sb st)
    (hg : Holds sb st g) (herr : st.rdwtErr = ok) (hend : p + k ≤ sb.blockSize * capacity sb)
    (h32 : p + k < 4294967296) :
    ∃ t, loop .endless (chunkTurn env .peeking fSize) (k + 1) ⟨st, ok, k, 0, p⟩ = .ok t ∧
      Peeked sb st g p k t := by
  refine loop_total (fun s => s.nrbytes) (fun s hs => ?_)
    (I := Peeking sb st g p k) (Q := Peeked sb st g p k) ?_ (Nat.lt_succ_self k)
  · exact chunkTurn_peeking hlog hcache hty hend h32 hs
  · exact ⟨Nat.zero_le k, rfl, rfl, rfl, Steady.refl st, hmap, hg, herr⟩

end Peek

/-! ## Calls to a regular file -/

section Serve

variable {sb : Super} {env : Env sb} {tr : Truncation env} {st : Mfs} {f : Sparse} {p k : Nat}

/-- A request that writes nothing, when its chunk loop is known. -/
theorem fsReadwrite_other (st : Mfs) (flag : RwFlag) (hflag : flag ≠ .writing)
    (hreg : inodeType st.inode = iRegular) {t : Progress}
    (hloop : loop .endless (chunkTurn env flag st.inode.size) (k + 1)
      ⟨{ st with rdwtErr := ok }, ok, k, 0, p⟩ = .ok t) (herr : t.mfs.rdwtErr = ok) :
    ∃ update dirty, fsReadwrite env st ⟨flag, p, k⟩ = .ok (⟨t.r, t.position, t.cumIo⟩,
      { t.mfs with inode := { t.mfs.inode with
          noSeek := true
          update := update
          dirty := dirty } }) := by
  have hne : inodeType st.inode ≠ iBlockSpecial := by rw [hreg]; decide
  have hentry : entry env st ⟨flag, p, k⟩ = .ok (none, start st ⟨flag, p, k⟩) :=
    if_neg (not_immediate hreg)
  obtain ⟨update, dirty, hfin⟩ := finish_other sb hflag (inodeType st.inode = iRegular ∨
    inodeType st.inode = iNamedPipe ∨ inodeType st.inode = iImmediate)
    (inodeType (start st ⟨flag, p, k⟩).mfs.inode) st.inode.size t
  refine ⟨update, dirty, fsReadwrite_ok.mpr ⟨hne, none, writeCheck_reading hflag, _, hentry, t,
    hloop, ?_⟩⟩
  refine Prod.ext ?_ hfin.symm
  show Reply.mk t.r t.position t.cumIo = ⟨if t.mfs.rdwtErr = ok then t.r else _, _, _⟩
  rw [if_pos herr]

/-- A file is what is in the inode and the blocks. -/
theorem represents_of_same {st' : Mfs} (h : Represents sb st f)
    (hfile : (st'.inode.size, st'.inode.mode, st'.inode.zone) =
      (st.inode.size, st.inode.mode, st.inode.zone))
    (hused : st'.used = st.used) (hblocks : st'.blocks = st.blocks) : Represents sb st' f := by
  simp only [Prod.mk.injEq] at hfile
  obtain ⟨hsize, hmode, hzone⟩ := hfile
  have hty : inodeType st'.inode = inodeType st.inode := by rw [inodeType, hmode, inodeType]
  have hstore : store st' = store st := by rw [store, hzone, hblocks, store]
  refine ⟨hsize.trans h.size, h.max, ?_⟩
  rcases h.layout with ⟨himm, h32, hbytes⟩ | ⟨hreg, hmap, hg⟩
  · exact Or.inl ⟨hty.trans himm, h32, fun i hi => by rw [hzone, hbytes i hi]⟩
  · refine Or.inr ⟨hty.trans hreg, ?_, fun i hi => ?_⟩
    · rw [MapOk, hstore, hused]
      exact hmap
    · rw [byteAt, hstore, hblocks]
      exact hg i hi

/-- **A READ** of a regular file is answered with its bytes, and changes nothing
    in the file. -/
theorem serve_reading (tr : Truncation env) (hsound : Sound env) (hrep : Represents sb st f)
    (hreg : inodeType st.inode = iRegular) (pos : Nat) (buf : Grant) :
    ∃ st', perform env tr st (.read pos buf) = .ok ((fileAnswer f (.read pos buf)).1, st') ∧
      Represents sb st' f ∧ inodeType st'.inode = iRegular := by
  obtain ⟨hmap, hg⟩ := hrep.in_zones hreg
  have hmax := hrep.max
  have hint := sb.maxInt
  have hreach := hsound.reach
  obtain ⟨t, hloop, hcum, ht⟩ := chunkLoop_reading { st with grant := buf, rdwtErr := ok }
    pos buf.size f.size hsound.scale hsound.copies hsound.cache hmap hg
    (Nat.le_refl _) rfl (by omega) (by omega)
  rw [← hrep.size] at hloop
  have hmfs := ht.mfs
  obtain ⟨update, dirty, hrun⟩ := fsReadwrite_other { st with grant := buf }
    .reading (by simp) hreg hloop (by rw [hmfs])
  obtain ⟨st', hst'⟩ : ∃ st' : Mfs, st' = { t.mfs with inode := { t.mfs.inode with
      noSeek := true
      update := update
      dirty := dirty } } := ⟨_, rfl⟩
  rw [← hst'] at hrun
  have hans : Answer.read ⟨t.r, t.position, t.cumIo⟩ st'.grant.mem =
      (fileAnswer f (.read pos buf)).1 := by
    rw [ht.good, ht.position, hcum, hst', hmfs, hcum]
    rfl
  refine ⟨st', bind_ok.mpr ⟨_, hrun, ?_⟩, represents_of_same hrep ?_ ?_ ?_, ?_⟩
  · rw [hans]
  · rw [hst', hmfs]
  · rw [hst', hmfs]
  · rw [hst', hmfs]
  · rw [hst', hmfs]
    exact hreg

/-- **A PEEK** finds no zone, or leaves the file as it is. -/
theorem serve_peeking (tr : Truncation env) (hsound : Sound env) (hrep : Represents sb st f)
    (hreg : inodeType st.inode = iRegular) {pos len : Nat} (hstop : pos + len ≤ sb.maxSize) :
    ∃ x, perform env tr st (.peek pos len) = .ok x ∧ (x.1.code = enospc ∨
      (x.1 = (fileAnswer f (.peek pos len)).1 ∧ Represents sb x.2 f ∧
        inodeType x.2.inode = iRegular)) := by
  obtain ⟨hmap, hg⟩ := hrep.in_zones hreg
  have hint := sb.maxInt
  have hreach := hsound.reach
  obtain ⟨t, hloop, herr, hout⟩ := chunkLoop_peeking env { st with rdwtErr := ok }
    pos len st.inode.size hsound.scale hsound.cache (not_immediate hreg) hmap hg
    rfl (by omega) (by omega)
  obtain ⟨update, dirty, hrun⟩ := fsReadwrite_other st .peeking (by simp) hreg hloop herr
  refine ⟨_, bind_ok.mpr ⟨_, hrun, rfl⟩, ?_⟩
  rcases hout with hno | ⟨hcum, ht⟩
  · exact Or.inl hno
  · have hreg' : t.mfs.inode.mode &&& iType = iRegular := by
      rw [ht.steady.mode]
      exact hreg
    refine Or.inr ⟨?_, ⟨?_, hrep.max, Or.inr ⟨hreg', ht.map, ht.holds⟩⟩, hreg'⟩
    · show Answer.done (Reply.mk t.r t.position t.cumIo) = _
      rw [ht.good, ht.position, hcum]
      rfl
    · exact ht.steady.size.trans hrep.size

/-- **ONE CALL** to a regular file finds no zone, or is answered as the sparse
    file answers it. -/
theorem perform_refines (hsound : Sound env) (hrep : Represents sb st f)
    (hreg : inodeType st.inode = iRegular) {c : Call} (hstop : c.stop ≤ sb.maxSize)
    {a : Answer} {st' : Mfs} (hrun : perform env tr st c = .ok (a, st')) (hcode : a.code ≠ enospc) :
    a = (fileAnswer f c).1 ∧ Represents sb st' (fileAnswer f c).2 ∧
      inodeType st'.inode = iRegular := by
  cases c with
  | read pos buf =>
      obtain ⟨st'', hrun', hrep', hreg'⟩ := serve_reading tr hsound hrep hreg pos buf
      obtain ⟨rfl, rfl⟩ := Prod.mk.inj (Except.ok.inj (hrun.symm.trans hrun'))
      exact ⟨rfl, hrep', hreg'⟩
  | peek pos len =>
      obtain ⟨x, hrun', hout⟩ := serve_peeking tr hsound hrep hreg hstop
      obtain rfl : (a, st') = x := Except.ok.inj (hrun.symm.trans hrun')
      exact hout.resolve_left hcode
  | write w =>
      obtain ⟨y, hy, hrun⟩ := bind_ok.mp hrun
      obtain ⟨rfl, rfl⟩ := Prod.mk.inj (Except.ok.inj hrun)
      obtain ⟨x, hx, hout⟩ := serve_regular hsound hrep hreg hstop
      obtain rfl : y = x := Except.ok.inj (hy.symm.trans hx)
      obtain ⟨hreply, hrep', hreg'⟩ := hout.resolve_left hcode
      exact ⟨congrArg Answer.done hreply, hrep', hreg'⟩
  | truncate length =>
      obtain ⟨y, hy, hrun⟩ := bind_ok.mp hrun
      obtain ⟨rfl, rfl⟩ := Prod.mk.inj (Except.ok.inj hrun)
      refine ⟨rfl, ?_⟩
      by_cases h0 : length = 0
      · subst h0
        exact truncate_zero hsound hreg hrep hy
      · exact tr.regular hy (Nat.pos_of_ne_zero h0) hstop hreg hrep

/-- A call is answered, unless it is a truncation that fails. -/
theorem perform_answers (hsound : Sound env) (hrep : Represents sb st f)
    (hreg : inodeType st.inode = iRegular) {c : Call} (hstop : c.stop ≤ sb.maxSize)
    (hcut : ∀ n, c = .truncate n → ∃ st', tr.run st n = .ok st') :
    ∃ x, perform env tr st c = .ok x := by
  cases c with
  | read pos buf =>
      obtain ⟨st', hrun, -⟩ := serve_reading tr hsound hrep hreg pos buf
      exact ⟨_, hrun⟩
  | peek pos len =>
      obtain ⟨x, hrun, -⟩ := serve_peeking tr hsound hrep hreg hstop
      exact ⟨x, hrun⟩
  | write w =>
      obtain ⟨x, hx, -⟩ := serve_regular hsound hrep hreg hstop
      exact ⟨_, bind_ok.mpr ⟨x, hx, rfl⟩⟩
  | truncate length =>
      obtain ⟨st', hrun⟩ := hcut length rfl
      exact ⟨_, bind_ok.mpr ⟨st', hrun, rfl⟩⟩

/-! ## Runs -/

/-- Calls in order that found zones, their answers, and the state after them. -/
inductive Ran (env : Env sb) (tr : Truncation env) : Mfs → List Call → List Answer → Mfs → Prop
  | nil (st : Mfs) : Ran env tr st [] [] st
  | cons {st st' st'' : Mfs} {c : Call} {a : Answer} {cs : List Call} {as : List Answer}
      (hrun : perform env tr st c = .ok (a, st')) (hzones : a.code ≠ enospc)
      (hrest : Ran env tr st' cs as st'') : Ran env tr st (c :: cs) (a :: as) st''

/-- A run of calls refines the sparse file. -/
theorem ran_refines (hsound : Sound env) {cs : List Call} {as : List Answer} {st' : Mfs}
    (hran : Ran env tr st cs as st') (hrep : Represents sb st f)
    (hreg : inodeType st.inode = iRegular) (hstop : ∀ c ∈ cs, c.stop ≤ sb.maxSize) :
    as = (fileAnswers f cs).1 ∧ Represents sb st' (fileAnswers f cs).2 ∧
      inodeType st'.inode = iRegular := by
  induction hran generalizing f with
  | nil st => exact ⟨rfl, hrep, hreg⟩
  | cons hrun hzones hrest ih =>
      obtain ⟨hans, hrep', hreg'⟩ :=
        perform_refines hsound hrep hreg (hstop _ List.mem_cons_self) hrun hzones
      obtain ⟨hrest', hrep'', hreg''⟩ :=
        ih hrep' hreg' (fun c hc => hstop c (List.mem_cons_of_mem _ hc))
      exact ⟨by rw [hans, hrest']; rfl, hrep'', hreg''⟩

/-- A new file is regular once a write has passed byte 32. -/
theorem wrote_regular (hsound : Sound env) {st₀ : Mfs} (hnew : NewFile st₀) {ws : List Write}
    {rs : List Reply} (hwrote : Wrote env st₀ ws rs st) (hmax : ∀ w ∈ ws, w.stop ≤ sb.maxSize)
    (hgrown : ∃ w ∈ ws, 32 < w.stop) :
    Represents sb st (Sparse.empty.writes ws) ∧ inodeType st.inode = iRegular := by
  obtain ⟨hrep, -, htype⟩ := wrote_represents hsound hnew hwrote hmax
  rcases hrep.layout with ⟨himm, -⟩ | ⟨hreg, -⟩
  · obtain ⟨w, hw, hgt⟩ := hgrown
    exact absurd (htype.mp himm w hw) (Nat.not_le_of_lt hgt)
  · exact ⟨hrep, hreg⟩

/-- **THE FILE SERVER IS A STORE**: once the writes to a new file have passed
    byte 32, every run of reads, peeks, writes and truncations, each of which
    found zones, is answered as the sparse file that the writes overlay answers
    it: a read returns exactly the file's bytes up to its end, a peek changes
    nothing.  And the next call will be answered, unless it is a truncation that
    fails. -/
theorem file_faithful (hsound : Sound env) {st₀ : Mfs} (hnew : NewFile st₀) {ws : List Write}
    {rs : List Reply} (hwrote : Wrote env st₀ ws rs st) (hmax : ∀ w ∈ ws, w.stop ≤ sb.maxSize)
    (hgrown : ∃ w ∈ ws, 32 < w.stop) {cs : List Call} {as : List Answer} {st' : Mfs}
    (hran : Ran env tr st cs as st') (hstop : ∀ c ∈ cs, c.stop ≤ sb.maxSize) :
    as = (fileAnswers (Sparse.empty.writes ws) cs).1 ∧
    Represents sb st' (fileAnswers (Sparse.empty.writes ws) cs).2 ∧
    ∀ c : Call, c.stop ≤ sb.maxSize →
      (∀ n, c = .truncate n → ∃ st'', tr.run st' n = .ok st'') →
      ∃ x, perform env tr st' c = .ok x := by
  obtain ⟨hrep, hreg⟩ := wrote_regular hsound hnew hwrote hmax hgrown
  obtain ⟨hans, hrep', hreg'⟩ := ran_refines hsound hran hrep hreg hstop
  exact ⟨hans, hrep', fun c hc hcut => perform_answers hsound hrep' hreg' hc hcut⟩

end Serve

/-- Five bytes across byte 32, and then a read of ten from byte 28: two zeros,
    the five bytes, and nothing behind the end. -/
theorem file_faithful_read : ∃ st st' reply mem, Wrote (calm smallDisk) newFile
      [⟨30, 5, fun _ => 98⟩] [⟨ok, 35, 5⟩] st ∧
    Ran (calm smallDisk) (byZones calm_sound) st [.read 28 ⟨10, fun _ => 1⟩] [.read reply mem] st' ∧
    reply = ⟨ok, 35, 7⟩ ∧ mem 1 = 0 ∧ mem 2 = 98 ∧ mem 6 = 98 ∧ mem 7 = 1 := by
  have h1 : (serve (calm smallDisk) newFile ⟨30, 5, fun _ => 98⟩).toOption.map Prod.fst =
      some ⟨ok, 35, 5⟩ := by decide
  obtain ⟨⟨r₁, st⟩, hs₁, hr₁⟩ := Option.map_eq_some_iff.mp h1
  obtain rfl : r₁ = ⟨ok, 35, 5⟩ := hr₁
  have hwrote : Wrote (calm smallDisk) newFile [⟨30, 5, fun _ => 98⟩] [⟨ok, 35, 5⟩] st :=
    .write .new (mem_toOption.mp hs₁) (by decide)
  have hmax : ∀ w ∈ [(⟨30, 5, fun _ => 98⟩ : Write)], w.stop ≤ smallDisk.maxSize := by
    intro w hw
    rw [List.mem_singleton.mp hw]
    decide
  have hgrown : ∃ w ∈ [(⟨30, 5, fun _ => 98⟩ : Write)], 32 < w.stop :=
    ⟨_, List.mem_singleton_self _, by decide⟩
  obtain ⟨hrep, hreg⟩ := wrote_regular calm_sound newFile_new hwrote hmax hgrown
  obtain ⟨st', hread, -⟩ := serve_reading (byZones calm_sound) calm_sound hrep hreg 28
    ⟨10, fun _ => 1⟩
  obtain ⟨reply, mem, ha, hok⟩ : ∃ reply mem, (fileAnswer (Sparse.empty.writes
      [⟨30, 5, fun _ => 98⟩]) (.read 28 ⟨10, fun _ => 1⟩)).1 = .read reply mem ∧ reply.r = ok :=
    ⟨_, _, rfl, rfl⟩
  rw [ha] at hread
  have hran : Ran (calm smallDisk) (byZones calm_sound) st [.read 28 ⟨10, fun _ => 1⟩]
      [.read reply mem] st' :=
    .cons hread (by
      show reply.r ≠ enospc
      rw [hok]
      decide) (.nil st')
  obtain ⟨hans, -⟩ := file_faithful calm_sound newFile_new hwrote hmax hgrown hran
    (by simp [Call.stop])
  obtain ⟨hreply, hmem⟩ := Answer.read.inj (List.cons.inj hans).1
  refine ⟨st, st', reply, mem, hwrote, hran, hreply, ?_, ?_, ?_, ?_⟩
  · rw [hmem]; rfl
  · rw [hmem]; rfl
  · rw [hmem]; rfl
  · rw [hmem]; rfl

end MfsServe
