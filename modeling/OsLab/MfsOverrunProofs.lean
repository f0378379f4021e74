import OsLab.MfsConvertProofs

/-! # Copies that leave the inode

    The branch for immediate files copies `nrbytes` bytes to `zone+position`,
    wherever that is.  Nothing else that serves a request goes outside `i_zone`
    or the buffer on the stack while the file fits them: not the zone maps, the
    chunks, a conversion, or a read.  So a request leaves them exactly when it
    copies bytes to a 32-bit position from which they pass the end of `i_zone`
    (`overrun_iff`). -/

namespace MfsOverrun

open OsBytes OsLoop MfsModel MfsImmediate MfsConvert

/-! ## What stays inside -/

variable {α β : Type}

/-- No access goes outside the 40 bytes of `buffer` or of `i_zone`. -/
def Stays (x : Except Fault α) : Prop := x ≠ .error .overrun

theorem stays_ok (a : α) : Stays (.ok a) := by
  intro h
  cases h

theorem stays_bind {x : Except Fault α} {f : α → Except Fault β} (hx : Stays x)
    (hf : ∀ a, Stays (f a)) : Stays (x >>= f) := by
  intro h
  rcases bind_error.mp h with h | ⟨a, -, h⟩
  · exact hx h
  · exact hf a h

section Transfer

variable {sb : Super} (env : Env sb)

theorem rdIndir_stays (bp : Mem) (i : Nat) : Stays (rdIndir sb bp i) := by
  unfold rdIndir
  split
  · intro h
    cases h
  · exact stays_ok _

theorem readSingle_stays (blocks : Nat → Mem) (z excess boff : Nat) :
    Stays (readSingle sb blocks z excess boff) := by
  unfold readSingle
  split
  · exact stays_ok _
  refine stays_bind (rdIndir_stays _ _) fun z => ?_
  split
  · exact stays_ok _
  · exact stays_ok _

theorem readMap_stays (rip : Inode) (blocks : Nat → Mem) (p : Nat) :
    Stays (readMap sb rip blocks p) := by
  unfold readMap
  dsimp only
  split
  · split
    · exact stays_ok _
    · exact stays_ok _
  split
  · exact readSingle_stays _ _ _ _
  split
  · exact stays_ok _
  split
  · exact stays_ok _
  · exact stays_bind (rdIndir_stays _ _) fun z => readSingle_stays _ _ _ _

theorem writeMap_stays (st : Mfs) (p z : Nat) : Stays (writeMap env st p z false) := by
  unfold writeMap
  split
  · exact stays_ok _
  dsimp only
  split
  · -- a direct zone
    split
    · exact stays_ok _
    · exact stays_ok _
  split
  · exact stays_ok _
  split
  · -- there is no double indirect block yet
    split
    · exact stays_ok _
    split
    · exact stays_ok _
    · exact stays_ok _
  split
  · exact stays_ok _
  split
  · exact stays_ok _
  · exact stays_bind (rdIndir_stays _ _) fun z1 => stays_ok _

theorem clearZone_stays : Stays (clearZone sb) := by
  unfold clearZone
  split
  · exact stays_ok _
  · intro h
    cases h

theorem newBlock_stays (st : Mfs) (p : Nat) : Stays (newBlock env st p) := by
  refine stays_bind (readMap_stays _ _ _) fun b => ?_
  split
  case isFalse => exact stays_ok _
  dsimp only
  split
  · exact stays_ok _
  refine stays_bind (writeMap_stays env _ _ _) fun w => ?_
  split
  · exact stays_ok _
  split
  · exact stays_bind clearZone_stays fun _ => stays_ok _
  · exact stays_ok _

theorem rwChunk_stays (st : Mfs) (p off chunk : Nat) (flag : RwFlag) (bufOff : Nat) :
    Stays (rwChunk env st p off chunk flag bufOff) := by
  unfold rwChunk
  split
  · intro h
    cases h
  refine stays_bind (readMap_stays _ _ _) fun b => ?_
  dsimp only
  split
  · -- a block is made for the chunk
    cases flag with
    | reading => exact stays_ok _
    | writing =>
        refine stays_bind (newBlock_stays env _ p) fun n => ?_
        split
        · exact stays_ok _
        · exact stays_ok _
    | peeking =>
        refine stays_bind (newBlock_stays env _ p) fun n => ?_
        split
        · exact stays_ok _
        · exact stays_ok _
  · cases flag with
    | reading => exact stays_ok _
    | writing => exact stays_ok _
    | peeking => exact stays_ok _

theorem chunkTurn_stays (flag : RwFlag) (fSize : Int) (s : Progress) :
    Stays (chunkTurn env flag fSize s) := by
  unfold chunkTurn
  split
  · exact stays_ok _
  split
  · exact stays_ok _
  refine stays_bind (rwChunk_stays env _ _ _ _ _ _) fun c => ?_
  split
  · exact stays_ok _
  split
  · exact stays_ok _
  · exact stays_ok _

theorem chunkLoop_stays (flag : RwFlag) (fSize : Int) :
    ∀ (n : Nat) (s : Progress), Stays (loop .endless (chunkTurn env flag fSize) n s) := by
  intro n
  induction n with
  | zero =>
      intro s h
      cases h
  | succ n ih =>
      intro s
      cases hturn : chunkTurn env flag fSize s with
      | error e =>
          rw [loop_fail hturn]
          intro h
          cases h
          exact chunkTurn_stays env flag fSize s hturn
      | ok t =>
          cases t with
          | done a =>
              rw [loop_done hturn]
              exact stays_ok a
          | again s' =>
              rw [loop_again hturn]
              exact ih s'

theorem writeCheck_stays (fSize : Int) (req : Request) : Stays (writeCheck sb fSize req) := by
  unfold writeCheck
  split
  case isFalse => exact stays_ok _
  split
  · exact stays_ok _
  split
  · exact stays_ok _
  dsimp only
  split
  · exact stays_bind clearZone_stays fun _ => stays_ok _
  · exact stays_ok _

/-- A file that fits the buffer is copied there without leaving it. -/
theorem copyOut_stays (zone : Mem) {fSize : Int} (h : fSize ≤ zoneBytes) :
    Stays (copyOut zone fSize.toNat) := by
  obtain ⟨t, buffer, hcopy, -⟩ := copyOut_spec zone (n := fSize.toNat) (by omega)
  rw [hcopy]
  exact stays_ok _

theorem convert_stays (st : Mfs) {fSize : Int} (h : fSize ≤ zoneBytes) :
    Stays (convert env st fSize) := by
  refine stays_bind (copyOut_stays _ h) fun buffer => ?_
  refine stays_bind (newBlock_stays env _ _) fun n => ?_
  split
  · exact stays_ok _
  · exact stays_ok _

end Transfer

/-! ## What leaves -/

section Leaves

variable {sb : Super} {env : Env sb} {st : Mfs} {req : Request}

/-- The request comes to the copy into `i_zone`, as a peek at a byte of the
    file does too. -/
def CopiesIn (sb : Super) (st : Mfs) (req : Request) : Prop :=
  match req.flag with
  | .reading => False
  | .writing => writeCheck sb st.inode.size req = .ok none ∧
      req.seekPos + req.nbytes ≤ immediateMax
  | .peeking => req.seekPos < st.inode.size

/-- The kernel copies bytes to `zone+position` and past the end of `i_zone`. -/
structure LeavesZone (env : Env sb) (st : Mfs) (req : Request) : Prop where
  immediate : inodeType st.inode = iImmediate
  copies : CopiesIn sb st req
  nonzero : 0 < req.nbytes
  outside : zoneBytes < u32 req.seekPos + req.nbytes
  copied : grantCode env st 0 req.nbytes = ok

/-- The copy of a write, or of a peek, into `i_zone`. -/
theorem immediateTransfer_overrun {flag : RwFlag} (hflag : flag ≠ .reading) (fSize : Int)
    (s : Progress) : immediateTransfer env flag fSize s = .error .overrun ↔
      grantCode env s.mfs s.cumIo s.nrbytes = ok ∧ 0 < s.nrbytes ∧
        zoneBytes < u32 s.position + s.nrbytes := by
  have hwrite : immediateTransfer env .writing fSize s = .error .overrun ↔
      grantCode env s.mfs s.cumIo s.nrbytes = ok ∧ 0 < s.nrbytes ∧
        zoneBytes < u32 s.position + s.nrbytes := by
    simp only [immediateTransfer, safecopyfrom]
    by_cases hcode : grantCode env s.mfs s.cumIo s.nrbytes = ok
    · by_cases hout : 0 < s.nrbytes ∧ zoneBytes < u32 s.position + s.nrbytes
      · simp [hcode, hout]
      · simp only [hcode, if_true, if_neg hout, true_and]
        exact iff_of_false (stays_ok _) hout
    · simp only [if_neg hcode]
      exact iff_of_false (stays_ok _) fun h => hcode h.1
  cases flag with
  | reading => exact absurd rfl hflag
  | writing => exact hwrite
  | peeking => exact hwrite

theorem immediateTransfer_reading {fSize : Int} (s : Progress) (h : fSize ≤ zoneBytes) :
    Stays (immediateTransfer env .reading fSize s) := by
  refine stays_bind (copyOut_stays _ h) fun _ => ?_
  split
  · exact stays_ok _
  · exact stays_ok _

/-- A request that goes into the branch and copies. -/
theorem immediateFile_overrun (hsize : st.inode.size ≤ zoneBytes)
    (hcheck : writeCheck sb st.inode.size req = .ok none) :
    immediateFile env req.flag st.inode.size (start st req) = .error .overrun ↔
      CopiesIn sb st req ∧ grantCode env st 0 req.nbytes = ok ∧ 0 < req.nbytes ∧
        zoneBytes < u32 req.seekPos + req.nbytes := by
  have hmap : ∀ {x : Except Fault Progress},
      (do .ok (none, ← x) : Except Fault (Option Int × Progress)) = .error .overrun ↔
        x = .error .overrun := by
    intro x
    refine bind_error.trans ⟨fun h => ?_, Or.inl⟩
    rcases h with h | ⟨a, -, h⟩
    · exact h
    · cases h
  have hcopy : req.flag ≠ .reading →
      (immediateTransfer env req.flag st.inode.size (start st req) = .error .overrun ↔
        grantCode env st 0 req.nbytes = ok ∧ 0 < req.nbytes ∧
          zoneBytes < u32 req.seekPos + req.nbytes) :=
    fun hflag => immediateTransfer_overrun hflag _ _
  rw [immediateFile]
  obtain ⟨flag, p, k⟩ := req
  cases flag with
  | writing =>
      rw [if_pos rfl]
      by_cases hgrow : (start st ⟨.writing, p, k⟩).position +
          (start st ⟨.writing, p, k⟩).nrbytes > immediateMax
      · -- the file is converted
        rw [if_pos hgrow]
        refine iff_of_false (stays_bind (convert_stays env _ hsize) fun c => stays_ok _) ?_
        intro h
        exact absurd hgrow (not_lt.mpr h.1.2)
      · rw [if_neg hgrow, hmap, hcopy (by simp)]
        have hin : CopiesIn sb st ⟨.writing, p, k⟩ := ⟨hcheck, not_lt.mp hgrow⟩
        exact ⟨fun h => ⟨hin, h⟩, fun h => h.2⟩
  | reading =>
      rw [if_neg (by simp)]
      refine iff_of_false ?_ fun h => h.1
      split
      · exact stays_ok _
      · exact mt hmap.mp (immediateTransfer_reading _ hsize)
  | peeking =>
      rw [if_neg (by simp)]
      by_cases hbehind : (start st ⟨.peeking, p, k⟩).position ≥ st.inode.size
      · rw [if_pos hbehind]
        refine iff_of_false (stays_ok _) fun h => ?_
        exact absurd hbehind (not_le.mpr h.1)
      · rw [if_neg hbehind, hmap, hcopy (by simp)]
        have hin : CopiesIn sb st ⟨.peeking, p, k⟩ := not_le.mp hbehind
        exact ⟨fun h => ⟨hin, h⟩, fun h => h.2⟩

/-- **WHAT GOES OUTSIDE**: of a file that fits, exactly the requests that copy
    past the end of `i_zone`. -/
theorem overrun_iff (hsize : inodeType st.inode = iImmediate → st.inode.size ≤ zoneBytes) :
    fsReadwrite env st req = .error .overrun ↔ LeavesZone env st req := by
  by_cases himm : inodeType st.inode = iImmediate
  case neg =>
    -- the transfer is the chunk loop alone
    refine iff_of_false ?_ fun h => himm h.immediate
    rw [fsReadwrite]
    split
    · intro h
      cases h
    refine stays_bind (writeCheck_stays _ _) fun early => ?_
    cases early with
    | some e => exact stays_ok _
    | none =>
        rw [entry, if_neg himm]
        refine stays_bind (stays_ok _) fun i => ?_
        split
        · exact stays_ok _
        · exact stays_bind (chunkLoop_stays env _ _ _ _) fun s => stays_ok _
  have hne : inodeType st.inode ≠ iBlockSpecial := by rw [himm]; decide
  rw [fsReadwrite, if_neg hne]
  constructor
  · intro h
    rcases bind_error.mp h with h | ⟨early, hcheck, h⟩
    · exact absurd h (writeCheck_stays _ _)
    cases early with
    | some e => exact absurd h (stays_ok _)
    | none =>
        rcases bind_error.mp h with h | ⟨i, -, h⟩
        · rw [entry, if_pos himm] at h
          obtain ⟨hcopies, hcode, hsome, hout⟩ := (immediateFile_overrun (hsize himm) hcheck).mp h
          exact ⟨himm, hcopies, hsome, hout, hcode⟩
        · obtain ⟨c, s⟩ := i
          cases c with
          | some e => exact absurd h (stays_ok _)
          | none => exact absurd h (stays_bind (chunkLoop_stays env _ _ _ _) fun s => stays_ok _)
  · intro h
    have hcheck : writeCheck sb st.inode.size req = .ok none := by
      have hcopies := h.copies
      unfold CopiesIn at hcopies
      split at hcopies
      · exact hcopies.elim
      · exact hcopies.1
      · next hflag => exact writeCheck_reading (by rw [hflag]; decide)
    refine bind_error.mpr (Or.inr ⟨none, hcheck, bind_error.mpr (Or.inl ?_)⟩)
    rw [entry, if_pos himm]
    exact (immediateFile_overrun (hsize himm) hcheck).mpr ⟨h.copies, h.copied, h.nonzero, h.outside⟩

end Leaves

end MfsOverrun
