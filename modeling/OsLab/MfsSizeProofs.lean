import OsLab.MfsConvertProofs

/-! # What a request does to the size and the type of a file

    Whatever the bitmap, the cache and the kernel answer, a write that is
    answered either was refused or ends at its position plus the bytes it
    reports, and leaves the size there when that lies behind the old end
    (`write_effect`).  The type changes from immediate to regular when the
    request reaches behind byte 32, and never back.  Other requests change
    neither (`other_effect`). -/

namespace MfsSize

open OsBytes OsLoop MfsModel MfsImmediate MfsConvert

/-- The request converts the file. -/
def Converts (st : Mfs) (p : Int) (k : Nat) : Prop :=
  inodeType st.inode = iImmediate ∧ 32 < p + k

/-- A write that was refused: an error, no byte, and the file as it was or
    erased by a conversion that found no zone. -/
def Refused (st st' : Mfs) (p : Int) (k : Nat) (reply : Reply) : Prop :=
  reply.r ≠ ok ∧ reply.nbytes = 0 ∧ (Steady st st' ∨
    (Converts st p k ∧ st'.inode.size = 0 ∧ inodeType st'.inode = iRegular))

open Classical in
/-- A write that went through the chunk loop. -/
structure Served (st st' : Mfs) (p : Int) (k : Nat) (reply : Reply) : Prop where
  position : reply.seekPos = p + reply.nbytes
  count : reply.nbytes ≤ k
  size : st'.inode.size = if reply.seekPos > st.inode.size then reply.seekPos
    else if Converts st p k then 0 else st.inode.size
  type : inodeType st'.inode = if Converts st p k then iRegular else inodeType st.inode

section Size

variable {sb : Super} {env : Env sb} {st st' : Mfs} {p : Int} {k : Nat} {reply : Reply}

/-- A write that is refused at once is refused with an error. -/
theorem writeCheck_some {fSize : Int} {req : Request} {e : Int}
    (h : writeCheck sb fSize req = .ok (some e)) : e ≠ ok := by
  unfold writeCheck at h
  split at h
  · split at h
    · cases h; decide
    split at h
    · cases h; decide
    · dsimp only at h
      split at h
      · obtain ⟨_, -, h⟩ := bind_ok.mp h
        exact nomatch h
      · exact nomatch h
  · exact nomatch h

/-- The immediate branch of a write moves all bytes or none. -/
theorem immediateTransfer_moved {fSize : Int} {s t : Progress}
    (h : immediateTransfer env .writing fSize s = .ok t) : Moved s t := by
  unfold immediateTransfer at h
  dsimp only at h
  split at h
  · split at h
    · exact nomatch h
    · cases h
      refine ⟨⟨rfl, rfl⟩, ?_, ?_⟩
      · show s.position + (s.nrbytes : Int) - ((s.cumIo + s.nrbytes : Nat) : Int) = _
        omega
      · show 0 + (s.cumIo + s.nrbytes) = s.nrbytes + s.cumIo
        omega
  · cases h
    exact ⟨⟨rfl, rfl⟩, rfl, rfl⟩

/-- The immediate branch leaves size and mode alone. -/
theorem immediateTransfer_steady {flag : RwFlag} {fSize : Int} {s t : Progress}
    (h : immediateTransfer env flag fSize s = .ok t) : Steady s.mfs t.mfs := by
  cases flag with
  | reading =>
      obtain ⟨_, -, h⟩ := bind_ok.mp h
      split at h
      · cases h; exact ⟨rfl, rfl⟩
      · cases h; exact ⟨rfl, rfl⟩
  | writing => exact (immediateTransfer_moved h).steady
  | peeking =>
      -- a peek is served as a write
      have hwrite : immediateTransfer env .writing fSize s = .ok t := h
      exact (immediateTransfer_moved hwrite).steady

/-- The end of a write whose chunk loop started from size `n`. -/
theorem served_of_loop {s t : Progress} {x : Reply × Mfs} {c : Nat}
    (hty : inodeType st.inode = iRegular ∨ inodeType st.inode = iImmediate)
    (hmoved : Moved s t) (hpos : s.position = p + s.cumIo) (hcount : s.nrbytes + s.cumIo = k)
    (hx : x = finish sb .writing (inodeType st.inode = iRegular ∨ inodeType st.inode = iNamedPipe ∨
      inodeType st.inode = iImmediate) c st.inode.size t) :
    x.1.seekPos = p + x.1.nbytes ∧ x.1.nbytes ≤ k ∧
      x.2.inode.size = (if x.1.seekPos > st.inode.size then x.1.seekPos else s.mfs.inode.size) ∧
      inodeType x.2.inode = inodeType s.mfs.inode := by
  obtain ⟨update, dirty, hfin⟩ := finish_writing sb (regular_flag hty) c st.inode.size t
  have hreply : x.1.seekPos = t.position ∧ x.1.nbytes = t.cumIo := by rw [hx]; exact ⟨rfl, rfl⟩
  have hp := hmoved.position
  have ht := hmoved.total
  refine ⟨?_, ?_, ?_, ?_⟩
  · rw [hreply.1, hreply.2]
    omega
  · rw [hreply.2]
    omega
  · rw [hx, hfin]
    show (if t.position > st.inode.size then t.position else t.mfs.inode.size) = _
    rw [hmoved.steady.size]
    rfl
  · rw [hx, hfin]
    show t.mfs.inode.mode &&& iType = _
    rw [hmoved.steady.mode]
    rfl

/-- **WHAT A WRITE DOES**, whatever the code outside answers. -/
theorem write_effect (hty : inodeType st.inode = iRegular ∨ inodeType st.inode = iImmediate)
    (hbound : inodeType st.inode = iImmediate → 0 ≤ st.inode.size ∧ st.inode.size ≤ 32)
    (hrun : fsReadwrite env st ⟨.writing, p, k⟩ = .ok (reply, st')) :
    Refused st st' p k reply ∨ Served st st' p k reply := by
  obtain ⟨-, early, hearly, h⟩ := fsReadwrite_ok.mp hrun
  cases early with
  | some e =>
      obtain ⟨rfl, rfl⟩ := Prod.mk.inj h
      exact Or.inl ⟨writeCheck_some hearly, rfl, Or.inl ⟨rfl, rfl⟩⟩
  | none =>
      obtain ⟨i, hi, h⟩ := h
      by_cases hconv : Converts st p k
      · -- the file is converted before the loop
        obtain ⟨himm, hgrow⟩ := hconv
        obtain ⟨n, hn⟩ := Int.eq_ofNat_of_zero_le (hbound himm).1
        have hn32 := (hbound himm).2
        obtain ⟨buffer, -, hentry⟩ := entry_growing env himm hn (by simp only [zoneBytes]; omega) hgrow
        rw [hentry] at hi
        cases hz : conversionZone env st with
        | none =>
            rw [hz] at hi
            cases hi
            obtain ⟨rfl, rfl⟩ := Prod.mk.inj h
            exact Or.inl ⟨by decide, rfl, Or.inr ⟨⟨himm, hgrow⟩, rfl, regular_type _⟩⟩
        | some z =>
            rw [hz] at hi
            cases hi
            obtain ⟨t, hloop, hx⟩ := h
            obtain ⟨h1, h2, h3, h4⟩ := served_of_loop hty (loop_moved hloop) (p := p) (k := k)
              (by show p = p + ((0 : Nat) : Int); omega) rfl hx
            have hconv : Converts st p k := ⟨himm, hgrow⟩
            refine Or.inr ⟨h1, h2, ?_, ?_⟩
            · rw [if_pos hconv]
              exact h3
            · rw [if_pos hconv]
              exact h4.trans (regular_type _)
      · -- the loop starts from the file as it was
        obtain ⟨s, rfl, hs⟩ : ∃ s, i = (none, s) ∧ Moved (start st ⟨.writing, p, k⟩) s := by
          simp only [entry] at hi
          split at hi
          · rename_i himm
            have hfit : ¬ (start st ⟨.writing, p, k⟩).position +
                (start st ⟨.writing, p, k⟩).nrbytes > immediateMax :=
              fun hgrow => hconv ⟨himm, hgrow⟩
            rw [immediateFile, if_pos rfl, if_neg hfit] at hi
            obtain ⟨s, hs, hi⟩ := bind_ok.mp hi
            exact ⟨s, (Except.ok.inj hi).symm, immediateTransfer_moved hs⟩
          · exact ⟨_, (Except.ok.inj hi).symm, Moved.refl _⟩
        obtain ⟨t, hloop, hx⟩ := h
        have hp := hs.position
        have hk := hs.total
        obtain ⟨h1, h2, h3, h4⟩ := served_of_loop (s := s) hty (loop_moved hloop) (p := p) (k := k)
          (by
            have hp' : s.position - s.cumIo = p - ((0 : Nat) : Int) := hp
            omega)
          (by
            have hk' : s.nrbytes + s.cumIo = k + 0 := hk
            omega) hx
        refine Or.inr ⟨h1, h2, ?_, ?_⟩
        · rw [if_neg hconv, h3, hs.steady.size]
          rfl
        · rw [if_neg hconv, h4]
          exact congrArg (fun m => m &&& iType) hs.steady.mode

/-- **WHAT A READ OR A PEEK DOES** to size and mode: nothing. -/
theorem other_effect {req : Request} (hflag : req.flag ≠ .writing)
    (hrun : fsReadwrite env st req = .ok (reply, st')) : Steady st st' := by
  obtain ⟨-, early, hearly, h⟩ := fsReadwrite_ok.mp hrun
  rw [writeCheck_reading hflag] at hearly
  cases hearly
  obtain ⟨i, hi, h⟩ := h
  obtain ⟨s, rfl, hs⟩ : ∃ s, i = (none, s) ∧ Steady st s.mfs := by
    simp only [entry] at hi
    split at hi
    · rw [immediateFile, if_neg hflag] at hi
      split at hi
      · exact ⟨_, (Except.ok.inj hi).symm, ⟨rfl, rfl⟩⟩
      · obtain ⟨s, hs, hi⟩ := bind_ok.mp hi
        have hsteady := immediateTransfer_steady hs
        exact ⟨s, (Except.ok.inj hi).symm, ⟨hsteady.size, hsteady.mode⟩⟩
    · exact ⟨_, (Except.ok.inj hi).symm, ⟨rfl, rfl⟩⟩
  obtain ⟨t, hloop, hx⟩ := h
  have ht := hs.trans (loop_moved hloop).steady
  obtain ⟨update, dirty, hfin⟩ := finish_other sb hflag _ _ st.inode.size t
  rw [show st' = _ from (congrArg Prod.snd hx).trans hfin]
  exact ⟨ht.size, ht.mode⟩

end Size

end MfsSize
