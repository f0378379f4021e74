import OsLab.MfsModelProofs

/-! # Reading an immediate file

    The branch for immediate files hands the kernel the whole file from its
    first byte on, whatever position and length the request has.  So a read
    is answered right when it starts at or behind the end, or when it starts
    at the first byte and asks for at least the whole file.

    A request for fewer bytes than the file has does not fit the grant; the
    copy fails, and the request falls through to the chunk loop, where the
    first four bytes of the file are taken for a zone number
    (`shortRead_spec`).  Then the answer is right only if the block of that
    number happens to hold the wanted bytes (`immediate_read_exact`). -/

namespace MfsImmediate

open OsBytes OsLoop MfsModel

theorem u32_natCast {x : Nat} (h : x < 4294967296) : u32 (x : Int) = x := by
  unfold u32
  omega

/-- A regular inode is not an immediate one. -/
theorem not_immediate {rip : Inode} (h : inodeType rip = iRegular) :
    inodeType rip ≠ iImmediate := by
  rw [h]
  decide

/-! ## The pieces of a request -/

section Pieces

variable {sb : Super} {env : Env sb} {st : Mfs} {req : Request}

/-- What a request does that is answered. -/
theorem fsReadwrite_ok {x : Reply × Mfs} : fsReadwrite env st req = .ok x ↔
    inodeType st.inode ≠ iBlockSpecial ∧ ∃ early, writeCheck sb st.inode.size req = .ok early ∧
      match early with
      | some e => x = (⟨e, 0, 0⟩, (start st req).mfs)
      | none => ∃ i, entry env st req = .ok i ∧
          match i.1 with
          | some e => x = (⟨e, 0, 0⟩, i.2.mfs)
          | none => ∃ s, loop .endless (chunkTurn env req.flag st.inode.size)
              (i.2.nrbytes + 1) i.2 = .ok s ∧
              x = finish sb req.flag (inodeType st.inode = iRegular ∨
                inodeType st.inode = iNamedPipe ∨ inodeType st.inode = iImmediate)
                (inodeType i.2.mfs.inode) st.inode.size s := by
  simp only [fsReadwrite]
  by_cases hb : inodeType st.inode = iBlockSpecial
  · simp [hb]
  · simp only [if_neg hb, bind_ok]
    constructor
    · rintro ⟨early, hw, h⟩
      refine ⟨hb, early, hw, ?_⟩
      cases early with
      | some e => exact (Except.ok.inj h).symm
      | none =>
          obtain ⟨i, hi, h⟩ := bind_ok.mp h
          refine ⟨i, hi, ?_⟩
          obtain ⟨c, s⟩ := i
          cases c with
          | some e => exact (Except.ok.inj h).symm
          | none =>
              obtain ⟨t, ht, h⟩ := bind_ok.mp h
              exact ⟨t, ht, (Except.ok.inj h).symm⟩
    · rintro ⟨-, early, hw, h⟩
      refine ⟨early, hw, ?_⟩
      cases early with
      | some e => rw [h]
      | none =>
          obtain ⟨i, hi, h⟩ := h
          refine bind_ok.mpr ⟨i, hi, ?_⟩
          obtain ⟨c, s⟩ := i
          cases c with
          | some e => simp only at h ⊢; rw [h]
          | none =>
              obtain ⟨t, ht, h⟩ := h
              exact bind_ok.mpr ⟨t, ht, by rw [h]⟩

/-- The copy loop moves the bytes of `i_zone`, as long as they are at most
    the 40 there are. -/
theorem copyOut_spec (zone : Mem) {n : Nat} (h : n ≤ zoneBytes) :
    ∃ t buffer, copyOut zone n = .ok (t, buffer) ∧ (0 < n → t = (n - 1) - (n - 1) % 4) ∧
      ∀ i, i < n → buffer i = zone i := by
  induction n with
  | zero =>
      exact ⟨0, _, rfl, fun h0 => absurd h0 (Nat.lt_irrefl 0), fun i hi => absurd hi (by omega)⟩
  | succ n ih =>
      obtain ⟨t, buffer, hcopy, ht, hbuf⟩ := ih (by omega)
      have hlt : ¬ n ≥ zoneBytes := by omega
      refine ⟨_, _, bind_ok.mpr ⟨_, hcopy, if_neg hlt⟩, ?_, ?_⟩
      · intro _
        by_cases h4 : n % 4 = 0
        · rw [if_pos h4]; omega
        · rw [if_neg h4, ht (by omega)]; omega
      · intro i hi
        by_cases hin : i = n
        · -- the pointer is at the start of the word, and the byte is in it
          have hsum : (if n % 4 = 0 then n else t) + n % 4 = n := by
            by_cases h4 : n % 4 = 0
            · rw [if_pos h4]; omega
            · rw [if_neg h4, ht (by omega)]; omega
          rw [if_pos hin, hsum, hin]
        · rw [if_neg hin]
          exact hbuf i (by omega)

/-- Longer than 40 bytes the copy loop leaves the buffer. -/
theorem copyOut_overrun (zone : Mem) {n : Nat} (h : zoneBytes < n) :
    copyOut zone n = .error .overrun := by
  induction n with
  | zero => exact absurd h (Nat.not_lt_zero _)
  | succ n ih =>
      by_cases hn : zoneBytes < n
      · exact bind_error.mpr (Or.inl (ih hn))
      · obtain ⟨t, buffer, hcopy, -⟩ := copyOut_spec zone (n := n) (by omega)
        exact bind_error.mpr (Or.inr ⟨_, hcopy, if_pos (by omega)⟩)

/-- A read passes the checks for writing. -/
theorem writeCheck_reading {fSize : Int} (h : req.flag ≠ .writing) :
    writeCheck sb fSize req = .ok none := if_neg h

/-- Kernel copies that stay inside the grant succeed. -/
def CopiesSucceed (env : Env sb) : Prop := ∀ t off count, env.copyCode t off count = ok

theorem safecopyto_ok (st : Mfs) (hcopy : CopiesSucceed env) (off count : Nat) (src : Mem)
    (hfit : off + count ≤ st.grant.size) : safecopyto env st off src count =
      (ok, { st with
        grant := { st.grant with mem := overlay st.grant.mem off count src }
        clock := st.clock + 1 }) := by
  have hcode : grantCode env st off count = ok := by
    rw [grantCode, if_neg (by omega)]
    exact hcopy _ _ _
  rw [safecopyto, hcode, if_pos rfl]

/-- A copy that does not fit the grant fails and copies nothing. -/
theorem safecopyto_eperm (env : Env sb) (st : Mfs) (off count : Nat) (src : Mem)
    (hbig : st.grant.size < off + count) :
    safecopyto env st off src count = (eperm, { st with clock := st.clock + 1 }) := by
  have hcode : grantCode env st off count = eperm := if_pos hbig
  rw [safecopyto, hcode, if_neg (by decide)]

variable {flag : RwFlag} {fSize : Int} {s : Progress} {c : Int × Mfs}

/-- A turn of the chunk loop whose chunk is moved. -/
theorem chunkTurn_again (h0 : s.nrbytes ≠ 0) (hin : ¬ (flag = .reading ∧ s.position ≥ fSize))
    (hrw : rwChunk env s.mfs (u32 s.position) (chunkOff sb s) (chunkLen sb flag fSize s) flag
      s.cumIo = .ok c) (hc : c.1 = ok) (herr : ¬ c.2.rdwtErr < 0) :
    chunkTurn env flag fSize s = .ok (.again ⟨c.2, ok, s.nrbytes - chunkLen sb flag fSize s,
      s.cumIo + chunkLen sb flag fSize s, s.position + chunkLen sb flag fSize s⟩) := by
  rw [chunkTurn, if_neg h0, if_neg hin]
  refine bind_ok.mpr ⟨c, hrw, ?_⟩
  rw [if_neg (not_not.mpr hc), if_neg herr, hc]

/-- A turn of the chunk loop whose chunk fails. -/
theorem chunkTurn_done (h0 : s.nrbytes ≠ 0) (hin : ¬ (flag = .reading ∧ s.position ≥ fSize))
    (hrw : rwChunk env s.mfs (u32 s.position) (chunkOff sb s) (chunkLen sb flag fSize s) flag
      s.cumIo = .ok c) (hc : c.1 ≠ ok ∨ c.2.rdwtErr < 0) :
    chunkTurn env flag fSize s = .ok (.done { s with mfs := c.2, r := c.1 }) := by
  rw [chunkTurn, if_neg h0, if_neg hin]
  refine bind_ok.mpr ⟨c, hrw, ?_⟩
  by_cases h1 : c.1 = ok
  · rw [if_neg (not_not.mpr h1), if_pos (hc.resolve_left (not_not.mpr h1))]
  · rw [if_pos h1]

/-- The chunk loop is over when no byte is left, or at the end of the file
    when reading. -/
theorem chunkTurn_over (h : s.nrbytes = 0 ∨ (flag = .reading ∧ s.position ≥ fSize)) :
    chunkTurn env flag fSize s = .ok (.done s) := by
  rw [chunkTurn]
  by_cases h0 : s.nrbytes = 0
  · rw [if_pos h0]
  · rw [if_neg h0, if_pos (h.resolve_left h0)]

end Pieces

/-! ## Reading -/

/-- How many of the requested bytes the file has. -/
def available (p k n : Nat) : Nat := min (p + k) n - p

/-- The answer to a read of `k` bytes at `p` that the file's bytes call for:
    success, the bytes there are at the start of the grant, nothing else
    touched, and their number and the new position reported. -/
def ReadsRight {sb : Super} (env : Env sb) (st : Mfs) (n p k : Nat) : Prop :=
  ∃ reply st', fsReadwrite env st ⟨.reading, p, k⟩ = .ok (reply, st') ∧
    reply.r = ok ∧ reply.nbytes = available p k n ∧ reply.seekPos = p + available p k n ∧
    ∀ i, st'.grant.mem i =
      if i < available p k n then st.inode.zone (p + i) else st.grant.mem i

/-- The byte a block number stands for: zero without a block. -/
def blockByte (blocks : Nat → Mem) (b i : Nat) : UInt8 := if b = noBlock then 0 else blocks b i

/-- The block whose number the first four bytes of the file spell holds the
    wanted bytes, and is read without an error. -/
def Coincides {sb : Super} (env : Env sb) (st : Mfs) (n p k : Nat) : Prop :=
  env.cacheErr (st.clock + 1) = ok ∧ ∃ b, readMap sb st.inode st.blocks p = .ok b ∧
    ∀ i, i < available p k n → blockByte st.blocks b (p + i) = st.inode.zone (p + i)

section Read

variable {sb : Super} {env : Env sb} {st : Mfs} {n p k : Nat}

/-- The first zone number is looked at for every position of an immediate
    file. -/
theorem readMap_first (sb : Super) (st : Mfs) (p : Nat) (hp : p < 1024) :
    ∃ b, readMap sb st.inode st.blocks p = .ok b := by
  have h0 : p / sb.blockSize = 0 := Nat.div_eq_of_lt (lt_of_lt_of_le hp sb.minBlock)
  simp only [readMap]
  simp only [h0, Nat.zero_div, show (0 : Nat) < nrDzones from by decide, if_true]
  by_cases hz : word st.inode.zone 0 = noZone
  · exact ⟨noBlock, if_pos hz⟩
  · exact ⟨_, if_neg hz⟩

/-- Reading a chunk copies bytes of the block, or zeros without a block. -/
theorem rwChunk_reading (st : Mfs) {off chunk bufOff b : Nat} (hp : p < 4294967296)
    (hb : readMap sb st.inode st.blocks p = .ok b) :
    rwChunk env st p off chunk .reading bufOff =
      .ok (safecopyto env (noteErr env st) bufOff (fun i => blockByte st.blocks b (off + i))
        chunk) := by
  rw [rwChunk, if_neg (by omega)]
  refine bind_ok.mpr ⟨b, hb, ?_⟩
  by_cases hz : b = noBlock
  · simp only [if_pos hz, blockByte]
  · simp only [if_neg hz, blockByte]
    rfl

/-- Reading the whole immediate file, when the grant holds it. -/
theorem immediateTransfer_fits {s : Progress} (hcopy : CopiesSucceed env) (hn : n ≤ 32)
    (hcum : s.cumIo = 0) (hfit : n ≤ s.mfs.grant.size) :
    immediateTransfer env .reading n s = .ok ⟨{ s.mfs with
        grant := { s.mfs.grant with mem := overlay s.mfs.grant.mem 0 n s.mfs.inode.zone }
        clock := s.mfs.clock + 1 }, ok, 0, n, s.position + n⟩ := by
  obtain ⟨t, buffer, hout, -⟩ :=
    copyOut_spec s.mfs.inode.zone (n := n) (by simp only [zoneBytes]; omega)
  have hu : u32 (n : Int) = n := u32_natCast (by omega)
  have hu' : u32 (((0 : Nat) : Int) + (n : Int)) = n := by
    rw [Int.natCast_zero, Int.zero_add, hu]
  have hc := safecopyto_ok s.mfs hcopy 0 n s.mfs.inode.zone (by omega)
  refine bind_ok.mpr ⟨(t, buffer), hout, ?_⟩
  simp only [hcum, hu, hc, if_true, hu']

/-- The copy of the whole file fails when the grant is too small. -/
theorem immediateTransfer_short {s : Progress} (hn : n ≤ 32) (hcum : s.cumIo = 0)
    (hbig : s.mfs.grant.size < n) : immediateTransfer env .reading n s =
      .ok { s with mfs := { s.mfs with clock := s.mfs.clock + 1 }, r := eperm } := by
  obtain ⟨t, buffer, hout, -⟩ :=
    copyOut_spec s.mfs.inode.zone (n := n) (by simp only [zoneBytes]; omega)
  have hu : u32 (n : Int) = n := u32_natCast (by omega)
  have hc := safecopyto_eperm env s.mfs 0 n s.mfs.inode.zone (by omega)
  refine bind_ok.mpr ⟨(t, buffer), hout, ?_⟩
  simp only [hcum, hu, hc, show ¬ eperm = ok by decide, if_false]

/-- How a read of an immediate file enters the chunk loop. -/
theorem entry_reading (env : Env sb) (p k : Nat) (himm : inodeType st.inode = iImmediate)
    (hsize : st.inode.size = n) :
    entry env st ⟨.reading, p, k⟩ = if n ≤ p then .ok (none, start st ⟨.reading, p, k⟩)
      else (do .ok (none, ← immediateTransfer env .reading n (start st ⟨.reading, p, k⟩))) := by
  have hpos : (start st ⟨.reading, p, k⟩).position ≥ (n : Int) ↔ n ≤ p := by
    show (p : Int) ≥ n ↔ n ≤ p
    omega
  rw [entry, if_pos himm, immediateFile, if_neg (by simp), hsize]
  by_cases hnp : n ≤ p
  · rw [if_pos hnp, if_pos (hpos.mpr hnp)]
  · rw [if_neg hnp, if_neg (fun h => hnp (hpos.mp h))]

/-- A read whose part before the chunk loop and chunk loop are known. -/
theorem fsReadwrite_reading (himm : inodeType st.inode = iImmediate) {s t : Progress}
    (hentry : entry env st ⟨.reading, p, k⟩ = .ok (none, s))
    (hloop : loop .endless (chunkTurn env .reading st.inode.size) (s.nrbytes + 1) s = .ok t) :
    ∃ st', fsReadwrite env st ⟨.reading, p, k⟩ = .ok (⟨if t.mfs.rdwtErr = ok then t.r else
      if t.mfs.rdwtErr = endOfFile then ok else t.mfs.rdwtErr, t.position, t.cumIo⟩, st') ∧
      st'.grant = t.mfs.grant := by
  have hne : inodeType st.inode ≠ iBlockSpecial := by rw [himm]; decide
  exact ⟨_, fsReadwrite_ok.mpr ⟨hne, none, writeCheck_reading (by simp), _, hentry, t, hloop, rfl⟩,
    rfl⟩

/-- How the chunk loop starts when the copy of the whole file did not fit the
    grant. -/
def afterShort (st : Mfs) (p k : Nat) : Progress :=
  ⟨{ st with rdwtErr := ok, clock := st.clock + 1 }, eperm, k, 0, p⟩

/-- The state after a chunk of `c` bytes of block `b`. -/
def afterChunk (env : Env sb) (st : Mfs) (p b c : Nat) : Mfs :=
  { noteErr env { st with rdwtErr := ok, clock := st.clock + 1 } with
    grant := { st.grant with
      mem := overlay st.grant.mem 0 c (fun i => blockByte st.blocks b (p + i)) }
    clock := st.clock + 1 + 1 + 1 }

theorem entry_short (env : Env sb) (himm : inodeType st.inode = iImmediate)
    (hsize : st.inode.size = n) (hn : n ≤ 32) (hpn : p < n) (hkn : st.grant.size < n) :
    entry env st ⟨.reading, p, k⟩ = .ok (none, afterShort st p k) := by
  rw [entry_reading env p k himm hsize, if_neg (by omega)]
  exact bind_ok.mpr ⟨afterShort st p k, immediateTransfer_short hn rfl hkn, rfl⟩

theorem afterChunk_err (env : Env sb) (st : Mfs) (p b c : Nat) :
    (afterChunk env st p b c).rdwtErr = env.cacheErr (st.clock + 1) := by
  show (if env.cacheErr (st.clock + 1) = ok then ok else env.cacheErr (st.clock + 1)) = _
  by_cases he : env.cacheErr (st.clock + 1) = ok
  · rw [if_pos he, he]
  · rw [if_neg he]

/-- The chunk that is moved has the bytes there are, from the block the
    file's first bytes spell. -/
theorem shortRead_chunk (hn : n ≤ 32) (hpn : p < n) (hgrant : st.grant.size = k)
    (hcopy : CopiesSucceed env) {b : Nat} (hb : readMap sb st.inode st.blocks p = .ok b) :
    chunkLen sb .reading (n : Int) (afterShort st p k) = available p k n ∧
    rwChunk env (afterShort st p k).mfs (u32 (afterShort st p k).position)
      (chunkOff sb (afterShort st p k)) (chunkLen sb .reading (n : Int) (afterShort st p k))
      .reading 0 = .ok (ok, afterChunk env st p b (available p k n)) := by
  have hmin := sb.minBlock
  have hpos : u32 (p : Int) = p := u32_natCast (by omega)
  have hoff : chunkOff sb (afterShort st p k) = p := by
    show u32 (p : Int) % sb.blockSize = p
    rw [hpos]
    exact Nat.mod_eq_of_lt (by omega)
  have hlen : chunkLen sb .reading (n : Int) (afterShort st p k) = available p k n := by
    rw [chunkLen, if_pos rfl, hoff]
    show min (min k (sb.blockSize - p)) (u32 ((n : Int) - (p : Int))) = _
    rw [show (n : Int) - (p : Int) = ((n - p : Nat) : Int) by omega, u32_natCast (by omega)]
    simp only [available]
    omega
  have hfit : 0 + available p k n ≤ st.grant.size := by
    simp only [available]
    omega
  refine ⟨hlen, ?_⟩
  rw [hlen, hoff, show (afterShort st p k).position = (p : Int) from rfl, hpos,
    rwChunk_reading (afterShort st p k).mfs (by omega) hb]
  exact congrArg Except.ok (safecopyto_ok _ hcopy 0 _ _ hfit)

/-- **A SHORT READ GOES THROUGH THE ZONE MAP**: when it starts in the file and
    asks for less than the whole of it, the first four bytes of the file are
    taken for a zone number. -/
theorem shortRead_spec (himm : inodeType st.inode = iImmediate) (hsize : st.inode.size = n)
    (hn : n ≤ 32) (hk : 0 < k) (hpn : p < n) (hkn : k < n) (hgrant : st.grant.size = k)
    (hcopy : CopiesSucceed env) {b : Nat} (hb : readMap sb st.inode st.blocks p = .ok b) :
    ∃ reply st', fsReadwrite env st ⟨.reading, p, k⟩ = .ok (reply, st') ∧
      st'.grant.mem = overlay st.grant.mem 0 (available p k n)
        (fun i => blockByte st.blocks b (p + i)) ∧
      (env.cacheErr (st.clock + 1) = ok →
        reply = ⟨ok, p + available p k n, available p k n⟩) ∧
      (env.cacheErr (st.clock + 1) ≠ ok → reply.r ≠ ok ∨ reply.nbytes = 0) := by
  obtain ⟨hlen, hrw⟩ := shortRead_chunk hn hpn hgrant hcopy hb
  have hentry := entry_short (k := k) env himm hsize hn hpn (by omega)
  obtain ⟨c, hc⟩ : ∃ c, c = available p k n := ⟨_, rfl⟩
  have hc0 : c = k ∨ p + c = n := by
    simp only [available] at hc
    omega
  rw [← hc] at hlen hrw ⊢
  obtain ⟨s₁, hs₁⟩ : ∃ s₁, s₁ = afterShort st p k := ⟨_, rfl⟩
  obtain ⟨st₂, hst₂⟩ : ∃ st₂, st₂ = afterChunk env st p b c := ⟨_, rfl⟩
  rw [← hs₁] at hlen hrw hentry
  rw [← hst₂] at hrw
  have herr : st₂.rdwtErr = env.cacheErr (st.clock + 1) := by rw [hst₂, afterChunk_err]
  have hmem : st₂.grant.mem =
      overlay st.grant.mem 0 c (fun i => blockByte st.blocks b (p + i)) := by
    rw [hst₂, afterChunk]
  have hleft : s₁.nrbytes = k := by rw [hs₁]; rfl
  have hcum : s₁.cumIo = 0 := by rw [hs₁]; rfl
  have hat : s₁.position = p := by rw [hs₁]; rfl
  have h0 : s₁.nrbytes ≠ 0 := by omega
  have hin : ¬ (RwFlag.reading = RwFlag.reading ∧ s₁.position ≥ (n : Int)) := by
    rintro ⟨-, h⟩
    omega
  rw [← hcum] at hrw
  by_cases hneg : st₂.rdwtErr < 0
  · -- an error of the cache ends the loop before the chunk is counted
    have hturn := chunkTurn_done h0 hin hrw (Or.inr hneg)
    obtain ⟨st', hfs, hg⟩ := fsReadwrite_reading himm hentry
      (loop_done (hsize ▸ hturn) s₁.nrbytes)
    refine ⟨_, st', hfs, by rw [hg, hmem], fun he => ?_, fun _ => Or.inr hcum⟩
    rw [herr, he] at hneg
    exact absurd hneg (by decide)
  · have hturn := chunkTurn_again h0 hin hrw rfl hneg
    rw [hlen, hcum, hat, hleft] at hturn
    let s₂ : Progress := ⟨st₂, ok, k - c, 0 + c, (p : Int) + c⟩
    have hover : chunkTurn env .reading (n : Int) s₂ = .ok (.done s₂) := by
      refine chunkTurn_over ?_
      rcases hc0 with h | h
      · exact Or.inl (by show k - c = 0; omega)
      · exact Or.inr ⟨rfl, by show (p : Int) + c ≥ n; omega⟩
    have hloop : loop .endless (chunkTurn env .reading st.inode.size) (s₁.nrbytes + 1) s₁ =
        .ok s₂ := by
      rw [hsize, loop_again hturn]
      obtain ⟨j, hj⟩ : ∃ j, s₁.nrbytes = j + 1 := ⟨k - 1, by omega⟩
      rw [hj]
      exact loop_done hover j
    obtain ⟨st', hfs, hg⟩ := fsReadwrite_reading himm hentry hloop
    refine ⟨_, st', hfs, by rw [hg]; exact hmem, fun he => ?_, fun he => Or.inl ?_⟩
    · have hok : s₂.mfs.rdwtErr = ok := herr.trans he
      rw [if_pos hok]
      show Reply.mk ok ((p : Int) + c) (0 + c) = _
      rw [Nat.zero_add]
    · have hnok : s₂.mfs.rdwtErr ≠ ok := fun h => he (herr.symm.trans h)
      have hne : s₂.mfs.rdwtErr ≠ endOfFile := fun h => hneg (by
        rw [show st₂.rdwtErr = endOfFile from h]
        decide)
      show (if s₂.mfs.rdwtErr = ok then _ else _) ≠ ok
      rw [if_neg hnok, if_neg hne]
      exact hnok

/-- The chunk loop does nothing when no byte is left or the end is reached. -/
theorem loop_over {s : Progress} (h : s.nrbytes = 0 ∨ s.position ≥ st.inode.size) :
    loop .endless (chunkTurn env .reading st.inode.size) (s.nrbytes + 1) s = .ok s :=
  loop_done (chunkTurn_over (h.imp id (fun h => ⟨rfl, h⟩))) _

/-- At or behind the end no byte is moved. -/
theorem read_behind (himm : inodeType st.inode = iImmediate) (hsize : st.inode.size = n)
    (hnp : n ≤ p) : ReadsRight env st n p k := by
  have hav : available p k n = 0 := by simp only [available]; omega
  have hentry : entry env st ⟨.reading, p, k⟩ = .ok (none, start st ⟨.reading, p, k⟩) := by
    rw [entry_reading env p k himm hsize, if_pos hnp]
  obtain ⟨st', hfs, hg⟩ := fsReadwrite_reading himm hentry
    (loop_over (Or.inr (by rw [hsize]; show (p : Int) ≥ n; omega)))
  refine ⟨_, st', hfs, rfl, ?_, ?_, fun i => ?_⟩
  · rw [hav]; rfl
  · rw [hav]; exact (Int.add_zero _).symm
  · rw [hav, if_neg (Nat.not_lt_zero i), hg]
    rfl

/-- When the whole file fits the grant it is copied, wherever the read
    starts. -/
theorem read_whole (himm : inodeType st.inode = iImmediate) (hsize : st.inode.size = n)
    (hn : n ≤ 32) (hgrant : st.grant.size = k) (hcopy : CopiesSucceed env) (hnp : ¬ n ≤ p)
    (hnk : n ≤ k) : ReadsRight env st n p k ↔ p = 0 := by
  have hfit := immediateTransfer_fits (s := start st ⟨.reading, p, k⟩) hcopy hn rfl
    (by show n ≤ st.grant.size; omega)
  have hentry := entry_reading env p k himm hsize
  rw [if_neg hnp, hfit] at hentry
  obtain ⟨st', hfs, hg⟩ := fsReadwrite_reading himm hentry (loop_over (Or.inl rfl))
  constructor
  · rintro ⟨reply, st'', hfs', -, hnb, -, -⟩
    rw [hfs] at hfs'
    obtain ⟨rfl, -⟩ := Prod.mk.inj (Except.ok.inj hfs')
    have hcount : n = available p k n := hnb
    simp only [available] at hcount
    omega
  · rintro rfl
    have hav : available 0 k n = n := by simp only [available]; omega
    refine ⟨_, st', hfs, rfl, hav.symm, ?_, fun i => ?_⟩
    · rw [hav]; rfl
    · rw [hav, hg]
      show overlay st.grant.mem 0 n st.inode.zone i = _
      rw [overlay, Nat.zero_add, Nat.zero_add]
      simp only [Nat.zero_le, true_and, Nat.sub_zero]

/-- When the whole file does not fit, the read goes through the zone map, and
    is right when the block it finds there holds the same bytes. -/
theorem read_short (himm : inodeType st.inode = iImmediate) (hsize : st.inode.size = n)
    (hn : n ≤ 32) (hk : 1 ≤ k) (hgrant : st.grant.size = k) (hcopy : CopiesSucceed env)
    (hpn : p < n) (hkn : k < n) : ReadsRight env st n p k ↔ Coincides env st n p k := by
  obtain ⟨b, hb⟩ := readMap_first sb st p (by omega)
  obtain ⟨reply, st', hfs, hmem, hgood, hbad⟩ :=
    shortRead_spec himm hsize hn hk hpn hkn hgrant hcopy hb
  have hbyte : ∀ i, st'.grant.mem i = if i < available p k n then
      blockByte st.blocks b (p + i) else st.grant.mem i := by
    intro i
    rw [hmem, overlay, Nat.zero_add]
    simp only [Nat.zero_le, true_and, Nat.sub_zero]
  constructor
  · rintro ⟨reply', st'', hfs', hr, hnb, -, hbytes⟩
    rw [hfs] at hfs'
    obtain ⟨rfl, rfl⟩ := Prod.mk.inj (Except.ok.inj hfs')
    refine ⟨?_, b, hb, fun i hi => ?_⟩
    · by_contra herr
      rcases hbad herr with h | h
      · exact h hr
      · rw [h] at hnb
        simp only [available] at hnb
        omega
    · have h1 := hbytes i
      rw [hbyte, if_pos hi, if_pos hi] at h1
      exact h1
  · rintro ⟨herr, b', hb', hsame⟩
    obtain rfl : b' = b := Except.ok.inj (hb'.symm.trans hb)
    have hreply := hgood herr
    refine ⟨reply, st', hfs, by rw [hreply], by rw [hreply], by rw [hreply], fun i => ?_⟩
    rw [hbyte]
    by_cases hi : i < available p k n
    · rw [if_pos hi, if_pos hi, hsame i hi]
    · rw [if_neg hi, if_neg hi]

/-- **READS ARE RIGHT** exactly when they start at or behind the end, when
    they start at the first byte and ask for at least the whole file, or when
    the block that the file's first four bytes spell happens to hold the
    wanted bytes. -/
theorem immediate_read_exact (himm : inodeType st.inode = iImmediate)
    (hsize : st.inode.size = n) (hn : n ≤ 32) (hk : 1 ≤ k) (hgrant : st.grant.size = k)
    (hcopy : CopiesSucceed env) : ReadsRight env st n p k ↔
      n ≤ p ∨ (p = 0 ∧ n ≤ k) ∨ (p < n ∧ k < n ∧ Coincides env st n p k) := by
  by_cases hnp : n ≤ p
  · exact iff_of_true (read_behind himm hsize hnp) (Or.inl hnp)
  · by_cases hnk : n ≤ k
    · rw [read_whole himm hsize hn hgrant hcopy hnp hnk]
      exact ⟨fun h => Or.inr (Or.inl ⟨h, hnk⟩), fun h => by omega⟩
    · rw [read_short himm hsize hn hk hgrant hcopy (by omega) (by omega)]
      constructor
      · exact fun h => Or.inr (Or.inr ⟨by omega, by omega, h⟩)
      · rintro (h | ⟨-, h⟩ | ⟨-, -, h⟩)
        · exact absurd h hnp
        · exact absurd h hnk
        · exact h

end Read

/-- A file that holds the bytes `ab`, and a caller with room for two. -/
def abFile : Mfs :=
  { newFile with
    inode := { newInode with size := 2, zone := fun i => if i = 0 then 97 else if i = 1 then 98 else 0 }
    grant := ⟨2, fun _ => 0⟩ }

theorem immediate_read_exact_ab : ReadsRight (calm smallDisk) abFile 2 0 2 ↔
    2 ≤ 0 ∨ (0 = 0 ∧ 2 ≤ 2) ∨ (0 < 2 ∧ 2 < 2 ∧ Coincides (calm smallDisk) abFile 2 0 2) :=
  immediate_read_exact (by decide) rfl (by decide) (by decide) rfl (fun _ _ _ => rfl)

/-- Two bytes are asked for at position 1, where there is one: the whole file
    is copied, and two bytes and position 3 are reported. -/
theorem immediate_read_from_middle : inodeType abFile.inode = iImmediate ∧
    ((fsReadwrite (calm smallDisk) abFile ⟨.reading, (1 : Nat), 2⟩).toOption.map
      (fun x => (x.1, x.2.grant.mem 0)) = some (⟨ok, 3, 2⟩, 97)) ∧
    available 1 2 2 = 1 ∧ abFile.inode.zone 1 = 98 ∧
    ¬ ReadsRight (calm smallDisk) abFile 2 1 2 := by
  have heval : (fsReadwrite (calm smallDisk) abFile ⟨.reading, (1 : Nat), 2⟩).toOption.map
      (fun x => (x.1, x.2.grant.mem 0)) = some (⟨ok, 3, 2⟩, 97) := by decide
  refine ⟨by decide, heval, by decide, by decide, ?_⟩
  rintro ⟨reply, st', hfs, -, hnb, -, -⟩
  rw [hfs] at heval
  have hreply : reply = ⟨ok, 3, 2⟩ := congrArg Prod.fst (Option.some.inj heval)
  rw [hreply] at hnb
  exact absurd hnb (by decide)

end MfsImmediate
