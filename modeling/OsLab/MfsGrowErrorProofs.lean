import OsLab.MfsConvertProofs

/-! # When an immediate file fails to grow

    The conversion erases the inode first and asks for a block afterwards, and
    nothing puts back what was erased.  So a write that moves no byte leaves a
    file of size zero, or of the write's position when that lies past the old
    end, whose bytes are gone either way (`failed_size`).  The file is as it
    was only where there was nothing to lose (`failed_growth_exact`). -/

namespace MfsGrowError

open OsBytes OsLoop MfsModel MfsImmediate MfsConvert

/-- The file still has its `n` bytes. -/
def Survives (sb : Super) (st st' : Mfs) (n : Nat) : Prop :=
  st'.inode.size = n ∧ ∀ i, i < n → fileByte sb st' i = .ok (st.inode.zone i)

section Growing

variable {sb : Super} {env : Env sb} {st st' : Mfs} {n p k : Nat} {reply : Reply}

/-- On a read-only file system nothing happens. -/
theorem readOnly_survives (himm : inodeType st.inode = iImmediate) (hsize : st.inode.size = n)
    (hmax : p + k ≤ sb.maxSize) (hro : sb.rdOnly = true)
    (hrun : fsReadwrite env st ⟨.writing, p, k⟩ = .ok (reply, st')) : Survives sb st st' n := by
  obtain ⟨-, early, hearly, h⟩ := fsReadwrite_ok.mp hrun
  rw [writeCheck_writing hmax hearly, if_pos hro] at h
  obtain ⟨-, rfl⟩ := Prod.mk.inj h
  exact ⟨hsize, fun i _ => if_pos himm⟩

/-- **THE SIZE AFTER A FAILED WRITE**: zero without a zone for the bytes;
    otherwise the position when it lies past the old end, or zero. -/
theorem failed_size (himm : inodeType st.inode = iImmediate) (hsize : st.inode.size = n)
    (hn : n ≤ 32) (hgrow : 32 < p + k) (hmax : p + k ≤ sb.maxSize) (hro : sb.rdOnly = false)
    (hrun : fsReadwrite env st ⟨.writing, p, k⟩ = .ok (reply, st')) (h0 : reply.nbytes = 0) :
    st'.inode.size = if conversionZone env st = none then 0 else if n < p then (p : Int) else 0 := by
  obtain ⟨-, early, hearly, h⟩ := fsReadwrite_ok.mp hrun
  rw [writeCheck_writing hmax hearly, if_neg (by rw [hro]; decide)] at h
  obtain ⟨i, hi, h⟩ := h
  obtain ⟨buffer, -, hentry⟩ := entry_growing env himm hsize (hn.trans (by decide)) (show 32 < (p : Int) + k by omega)
  rw [hentry] at hi
  cases hz : conversionZone env st with
  | none =>
      rw [hz] at hi
      cases hi
      obtain ⟨-, rfl⟩ := Prod.mk.inj h
      rw [if_pos rfl]
      exact cleared_size
  | some z =>
      rw [hz] at hi
      cases hi
      obtain ⟨s, hloop, h⟩ := h
      obtain ⟨rfl, rfl⟩ := Prod.mk.inj h
      -- no byte is moved, so that the position is still where it was
      have hmoved := loop_moved hloop
      have hcum : s.cumIo = 0 := h0
      have hpos : s.position = p := by
        have h1 := hmoved.position
        have h2 : s.position - (s.cumIo : Int) = (p : Int) - ((0 : Nat) : Int) := h1
        omega
      have hsteady : s.mfs.inode.size = 0 := hmoved.steady.size
      have hreg : decide (inodeType st.inode = iRegular ∨ inodeType st.inode = iNamedPipe ∨
          inodeType st.inode = iImmediate) = true := by simp [himm]
      obtain ⟨update, dirty, hfin⟩ := finish_writing sb hreg
        (inodeType (converted env (start st ⟨.writing, p, k⟩).mfs z n buffer).inode) st.inode.size s
      refine (congrArg (fun m : Mfs => m.inode.size) hfin).trans ?_
      show (if s.position > st.inode.size then s.position else s.mfs.inode.size) = _
      rw [if_neg (Option.some_ne_none z), hpos, hsteady, hsize]
      by_cases hnp : n < p
      · rw [if_pos (by omega), if_pos hnp]
      · rw [if_neg (by omega), if_neg hnp]

/-- **A FAILED WRITE KEEPS THE FILE** exactly on a read-only file system, or
    when the file is empty and the write is at its start or gets no zone. -/
theorem failed_growth_exact (himm : inodeType st.inode = iImmediate) (hsize : st.inode.size = n)
    (hn : n ≤ 32) (hgrow : 32 < p + k) (hmax : p + k ≤ sb.maxSize)
    (hrun : fsReadwrite env st ⟨.writing, p, k⟩ = .ok (reply, st')) (_ : reply.r ≠ ok)
    (h0 : reply.nbytes = 0) : Survives sb st st' n ↔
      sb.rdOnly = true ∨ (n = 0 ∧ (p = 0 ∨ conversionZone env st = none)) := by
  cases hro : sb.rdOnly with
  | true => exact ⟨fun _ => Or.inl rfl, fun _ => readOnly_survives himm hsize hmax hro hrun⟩
  | false =>
      have hafter := failed_size himm hsize hn hgrow hmax hro hrun h0
      constructor
      · rintro ⟨hkept, -⟩
        rw [hafter] at hkept
        refine Or.inr ?_
        by_cases hz : conversionZone env st = none
        · rw [if_pos hz] at hkept
          exact ⟨by omega, Or.inr hz⟩
        · rw [if_neg hz] at hkept
          by_cases hnp : n < p
          · rw [if_pos hnp] at hkept
            omega
          · rw [if_neg hnp] at hkept
            exact ⟨by omega, Or.inl (by omega)⟩
      · rintro (h | ⟨rfl, h⟩)
        · exact nomatch h
        · refine ⟨?_, fun i hi => absurd hi (Nat.not_lt_zero i)⟩
          rw [hafter]
          rcases h with rfl | hz
          · rw [if_neg (Nat.lt_irrefl 0), ite_self]
            rfl
          · rw [if_pos hz]
            rfl

end Growing

/-- A server whose bitmap has no free zone. -/
def fullDisk (sb : Super) : Env sb :=
  { calm sb with
    zoneFor := fun _ _ _ => none
    zoneFor_fresh := fun h => nomatch h }

/-- Thirty-one bytes appended to the file `ab`, without a zone for them. -/
theorem failed_growth_run : (fsReadwrite (fullDisk smallDisk) abFile ⟨.writing, (2 : Nat), 31⟩).toOption.map
    (fun x => (x.1, x.2.inode.size)) = some (⟨enospc, 0, 0⟩, 0) := by decide

theorem failed_growth_exact_ab : ∃ reply st',
    fsReadwrite (fullDisk smallDisk) abFile ⟨.writing, (2 : Nat), 31⟩ = .ok (reply, st') ∧
    (Survives smallDisk abFile st' 2 ↔ smallDisk.rdOnly = true ∨
      (2 = 0 ∧ (2 = 0 ∨ conversionZone (fullDisk smallDisk) abFile = none))) := by
  obtain ⟨⟨reply, st'⟩, hrun, heq⟩ := Option.map_eq_some_iff.mp failed_growth_run
  obtain ⟨hreply, -⟩ := Prod.mk.inj heq
  have hreply : reply = ⟨enospc, 0, 0⟩ := hreply
  refine ⟨reply, st', mem_toOption.mp hrun, ?_⟩
  exact failed_growth_exact (by decide) rfl (by decide) (by decide) (by decide)
    (mem_toOption.mp hrun) (by rw [hreply]; decide) (by rw [hreply])

/-- The two bytes of the file are gone after the write has failed. -/
theorem failed_growth_loses : inodeType abFile.inode = iImmediate ∧ abFile.inode.size = 2 ∧
    ∃ reply st', fsReadwrite (fullDisk smallDisk) abFile ⟨.writing, (2 : Nat), 31⟩ = .ok (reply, st') ∧
      reply.r ≠ ok ∧ reply.nbytes = 0 ∧ ¬ Survives smallDisk abFile st' 2 := by
  obtain ⟨⟨reply, st'⟩, hrun, heq⟩ := Option.map_eq_some_iff.mp failed_growth_run
  obtain ⟨hreply, hsize⟩ := Prod.mk.inj heq
  have hreply : reply = ⟨enospc, 0, 0⟩ := hreply
  have hsize : st'.inode.size = 0 := hsize
  refine ⟨by decide, rfl, reply, st', mem_toOption.mp hrun, ?_, ?_, ?_⟩
  · rw [hreply]; decide
  · rw [hreply]
  · rintro ⟨hkept, -⟩
    rw [hsize] at hkept
    exact absurd hkept (by decide)

end MfsGrowError
