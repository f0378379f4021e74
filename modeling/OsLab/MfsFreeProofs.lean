import OsLab.MfsChunkProofs

/-! # Freeing the zones of a file

    With `WMAP_FREE`, `write_map` takes one zone out of the map and gives it
    back to the bitmap, and the indirect blocks on the way to it when nothing
    is left in them (`writeMap_free`).  Every other zone of the file stays
    where it is, with what is in it (`Pruned`). -/

namespace MfsFree

open OsBytes OsLoop WordTree MfsModel MfsImmediate MfsConvert MfsZoneMap MfsChunk

/-! ## Clearing a slot -/

/-- The slot `s` of the map is empty, and all else of the file is as it was. -/
structure Dropped (sb : Super) (st st' : Mfs) (s : Slot) : Prop where
  map : MapOk sb st'
  slot : ∀ t, Mapped sb t → val (store st') t = if t = s then 0 else val (store st) t
  block : ∀ r, r < capacity sb → val (store st) (leafSlot sb r) ≠ 0 →
    st'.blocks (val (store st) (leafSlot sb r)) = st.blocks (val (store st) (leafSlot sb r))
  steady : Steady st st'

/-- The file has no zone at the places of `Q`, and all else of it is as it
    was. -/
structure Pruned (sb : Super) (st st' : Mfs) (Q : Nat → Prop) : Prop where
  map : MapOk sb st'
  gone : ∀ r, r < capacity sb → Q r → val (store st') (leafSlot sb r) = 0
  zone : ∀ r, r < capacity sb → ¬ Q r →
    val (store st') (leafSlot sb r) = val (store st) (leafSlot sb r)
  block : ∀ r, r < capacity sb → ¬ Q r → val (store st) (leafSlot sb r) ≠ 0 →
    st'.blocks (val (store st) (leafSlot sb r)) = st.blocks (val (store st) (leafSlot sb r))
  steady : Steady st st'

section Clear

variable {sb : Super} {env : Env sb} {st st' : Mfs} {q : Nat} {s : Slot}

/-- A zone is taken out of a map. -/
theorem ZonesOk.drop {used used' : List Nat} {v : Slot → Nat} (h : ZonesOk sb used v)
    (hs : Mapped sb s) (hused : ∀ z ∈ used, z ≠ v s → z ∈ used') :
    ZonesOk sb used' (fun t => if t = s then 0 else v t) := by
  constructor
  · intro t u ht hu h0 htu
    by_cases hts : t = s
    · exact absurd (if_pos hts) h0
    by_cases hus : u = s
    · simp only [if_neg hts, if_pos hus] at h0 htu
      exact absurd htu h0
    · simp only [if_neg hts, if_neg hus] at h0 htu
      exact h.distinct t u ht hu h0 htu
  · intro t ht h0
    by_cases hts : t = s
    · exact absurd (if_pos hts) h0
    · simp only [if_neg hts] at h0 ⊢
      obtain ⟨hmem, hrange⟩ := h.range t ht h0
      exact ⟨hused _ hmem (fun hsame => hts (h.distinct t s ht hs h0 hsame)), hrange⟩

/-- A word that is cleared in the store, with its zone freed. -/
theorem dropped_of_enter (hmap : MapOk sb st) (hs : Mapped sb s)
    (hpar : ∀ t, s.Parent t → val (store st) t ≠ 0)
    (hempty : ∀ i, Mapped sb (.child s i) → val (store st) (.child s i) = 0)
    (hst : store st' = (store st).enter s 0)
    (hused : ∀ z ∈ st.used, z ≠ val (store st) s → z ∈ st'.used) (hsteady : Steady st st') :
    Dropped sb st st' s := by
  have hval := clear_val mapped_closed hmap.distinct hs hpar hempty
  rw [← hst] at hval
  refine ⟨?_, hval, fun r hr h0 => ?_, hsteady⟩
  · exact (ZonesOk.drop hmap hs hused).congr hval
  · have hpage := enter_page_leaf (z := 0) mapped_closed hmap.distinct hs (leafSlot_mapped hr)
      (leafSlot_leaf r) h0
    rw [← hst] at hpage
    exact hpage

/-- A slot that was empty. -/
theorem Dropped.of_empty (hmap : MapOk sb st) (h0 : val (store st) s = 0) :
    Dropped sb st st s := by
  refine ⟨hmap, fun t _ => ?_, fun _ _ _ => rfl, Steady.refl st⟩
  by_cases hts : t = s
  · rw [if_pos hts, hts, h0]
  · rw [if_neg hts]

/-- Clearing the slot of a zone of the file. -/
theorem Dropped.leaf (h : Dropped sb st st' (leafSlot sb q)) : Pruned sb st st' (· = q) where
  map := h.map
  gone := by
    rintro r hr rfl
    rw [h.slot _ (leafSlot_mapped hr), if_pos rfl]
  zone := by
    intro r hr hne
    rw [h.slot _ (leafSlot_mapped hr), if_neg (fun hsame => hne (leafSlot_inj hsame))]
  block := fun r hr _ h0 => h.block r hr h0
  steady := h.steady

/-- Clearing the slot of an indirect block afterwards. -/
theorem Pruned.inner {Q : Nat → Prop} {st'' : Mfs} (h : Pruned sb st st' Q)
    (h' : Dropped sb st' st'' s) (hs : ∀ r, leafSlot sb r ≠ s) : Pruned sb st st'' Q := by
  have hval : ∀ r, r < capacity sb →
      val (store st'') (leafSlot sb r) = val (store st') (leafSlot sb r) := by
    intro r hr
    rw [h'.slot _ (leafSlot_mapped hr), if_neg (hs r)]
  refine ⟨h'.map, fun r hr hq => ?_, fun r hr hq => ?_, fun r hr hq h0 => ?_,
    h.steady.trans h'.steady⟩
  · rw [hval r hr, h.gone r hr hq]
  · rw [hval r hr, h.zone r hr hq]
  · have hblock := h'.block r hr (by rw [h.zone r hr hq]; exact h0)
    rw [h.zone r hr hq] at hblock
    rw [hblock, h.block r hr hq h0]

/-- Freeing more. -/
theorem Pruned.trans {Q R : Nat → Prop} {st'' : Mfs} (h : Pruned sb st st' Q)
    (h' : Pruned sb st' st'' R) : Pruned sb st st'' (fun r => Q r ∨ R r) := by
  refine ⟨h'.map, fun r hr hqr => ?_, fun r hr hqr => ?_, fun r hr hqr h0 => ?_,
    h.steady.trans h'.steady⟩
  · by_cases hR : R r
    · exact h'.gone r hr hR
    · rw [h'.zone r hr hR, h.gone r hr (hqr.resolve_right hR)]
  · rw [h'.zone r hr (fun hR => hqr (Or.inr hR)), h.zone r hr (fun hQ => hqr (Or.inl hQ))]
  · have hzone := h.zone r hr (fun hQ => hqr (Or.inl hQ))
    have hblock := h'.block r hr (fun hR => hqr (Or.inr hR)) (by rw [hzone]; exact h0)
    rw [hzone] at hblock
    rw [hblock, h.block r hr (fun hQ => hqr (Or.inl hQ)) h0]

/-! ## Entries and indirect blocks -/

theorem mapped_index {i : Nat} (h : Mapped sb (.child s i)) : i < sb.nrIndirects := by
  cases h with
  | inSingle h => exact h
  | middle h => exact h
  | inDouble hj he => exact he

/-- Below an indirect block that is empty there is nothing. -/
theorem empty_children {z1 : Nat} (hz1 : z1 = val (store st) s) (h0 : z1 ≠ noZone)
    (hempty : emptyIndir sb (st.blocks z1) = true) (i : Nat) (hi : Mapped sb (.child s i)) :
    val (store st) (.child s i) = 0 := by
  have hall := List.all_eq_true.mp hempty i (List.mem_range.mpr (mapped_index hi))
  rw [val_child (by rw [← hz1]; exact h0), ← hz1]
  exact eq_of_beq hall

/-- The entry of a zone in its indirect block is cleared. -/
theorem entry_dropped (hmap : MapOk sb st) {ex z1 : Nat} (hq : q < capacity sb)
    (hs : leafSlot sb q = .child s ex) (hz1 : z1 = val (store st) s) (h0 : z1 ≠ noZone) :
    Dropped sb st (if word (st.blocks z1) ex = noZone then st
      else (freeZone st (word (st.blocks z1) ex)).putBlock z1 (wrIndir (st.blocks z1) ex noZone))
      (.child s ex) := by
  have hleaf : Mapped sb (.child s ex) := hs ▸ leafSlot_mapped hq
  have hword : val (store st) (.child s ex) = word (st.blocks z1) ex := by
    rw [val_child (by rw [← hz1]; exact h0), ← hz1]
    rfl
  by_cases hold : word (st.blocks z1) ex = noZone
  · rw [if_pos hold]
    exact Dropped.of_empty hmap (hword.trans hold)
  · rw [if_neg hold]
    refine dropped_of_enter hmap hleaf ?_ (fun i hi => ?_) ?_ ?_ ⟨rfl, rfl⟩
    · rintro t ⟨i, hi⟩
      obtain ⟨rfl, -⟩ := Slot.child.inj hi
      rw [← hz1]
      exact h0
    · exact absurd (hs ▸ hi) (leafSlot_leaf q i)
    · rw [enter_child, ← hz1]
      rfl
    · intro z hz hne
      rw [hword] at hne
      exact (List.mem_erase_of_ne hne).mpr hz

/-- An indirect block with nothing left in it is freed. -/
theorem inner_dropped (hmap : MapOk sb st) (h : Holder) {z1 : Nat} (hs : Mapped sb s)
    (hz1 : z1 = val (store st) s) (h0 : z1 ≠ noZone)
    (hempty : emptyIndir sb (st.blocks z1) = true)
    (hpar : ∀ t, s.Parent t → val (store st) t ≠ 0)
    (hent : store (h.enter (freeZone st z1) noZone) = (store st).enter s 0) :
    Dropped sb st (h.enter (freeZone st z1) noZone) s := by
  refine dropped_of_enter hmap hs hpar (empty_children hz1 h0 hempty) hent ?_ ?_
  · intro z hz hne
    rw [← hz1] at hne
    rw [(enter_frame (freeZone st z1) h noZone).1]
    exact (List.mem_erase_of_ne hne).mpr hz
  · cases h with
    | inode => exact ⟨rfl, rfl⟩
    | dindir bp indEx z2 => exact ⟨rfl, rfl⟩

/-- **CLEARING AN ENTRY** of a single indirect block takes the zone out of the
    file, and the block out of the map when nothing is left in it. -/
theorem clearEntry_drops (hlog : sb.logZoneSize = 0) (hmap : MapOk sb st) (h : Holder)
    {ex z1 : Nat} (hq : q < capacity sb) (hs : leafSlot sb q = .child s ex)
    (hz1 : z1 = val (store st) s) (h0 : z1 ≠ noZone)
    (hpar : ∀ t, s.Parent t → val (store st) t ≠ 0)
    (hent : ∀ st₁, (∀ t, s.Parent t → val (store st₁) t = val (store st) t) →
      store (h.enter st₁ noZone) = (store st₁).enter s 0) :
    ∃ x, clearEntry sb h st z1 ex = .ok x ∧ Pruned sb st x.1 (· = q) ∧
      x.2 = val (store x.1) s ∧
      ∀ t, s.Parent t → Mapped sb t → val (store x.1) t = val (store st) t := by
  have hleaf : Mapped sb (.child s ex) := hs ▸ leafSlot_mapped hq
  have hPs : Mapped sb s := mapped_closed _ _ hleaf
  have hz1lt : z1 < 4294967296 := by rw [hz1]; exact val_lt _ _
  have hrd : rdIndir sb (st.blocks z1) ex = .ok (word (st.blocks z1) ex) := by
    refine rdIndir_ok _ _ _ (fun hne => ?_)
    have hword : val (store st) (.child s ex) = word (st.blocks z1) ex := by
      rw [val_child (by rw [← hz1]; exact h0), ← hz1]
      rfl
    rw [← hword] at hne ⊢
    exact (hmap.range _ hleaf hne).2
  have hentry := entry_dropped hmap hq hs hz1 h0
  obtain ⟨st₁, hst₁⟩ : ∃ st₁, st₁ = (if word (st.blocks z1) ex = noZone then st
      else (freeZone st (word (st.blocks z1) ex)).putBlock z1
        (wrIndir (st.blocks z1) ex noZone)) := ⟨_, rfl⟩
  rw [← hst₁] at hentry
  have hslot : ∀ t, Mapped sb t → t ≠ .child s ex → val (store st₁) t = val (store st) t := by
    intro t ht hne
    rw [hentry.slot t ht, if_neg hne]
  have hz1' : z1 = val (store st₁) s := by
    rw [hslot s hPs (fun h => child_ne s ex h.symm), hz1]
  have hpar' : ∀ t, s.Parent t → Mapped sb t → val (store st₁) t = val (store st) t := by
    rintro t ⟨i, rfl⟩ ht
    have hcut : ¬ Mapped sb (.child (leafSlot sb q) i) := leafSlot_leaf q i
    refine hslot t ht (fun h => hcut ?_)
    rw [hs, ← h]
    exact hPs
  have hrun : clearEntry sb h st z1 ex = if emptyIndir sb (st₁.blocks z1) then
      .ok (h.enter (freeZone st₁ z1) noZone, noZone) else .ok (st₁, z1) := by
    simp only [clearEntry, zoneBlock_eq hlog hz1lt, hrd]
    rw [hst₁]
    rfl
  by_cases hempty : emptyIndir sb (st₁.blocks z1) = true
  · -- the block was the last entry's, and goes too
    have hinner : Dropped sb st₁ (h.enter (freeZone st₁ z1) noZone) s := by
      refine inner_dropped hentry.map h hPs hz1' h0 hempty (fun t ht => ?_)
        (hent (freeZone st₁ z1) (fun t ht => ?_))
      · obtain ⟨i, rfl⟩ := ht
        rw [hpar' t ⟨i, rfl⟩ (mapped_closed _ _ hPs)]
        exact hpar t ⟨i, rfl⟩
      · obtain ⟨i, rfl⟩ := ht
        exact hpar' t ⟨i, rfl⟩ (mapped_closed _ _ hPs)
    refine ⟨_, hrun.trans (if_pos hempty), ?_, ?_, ?_⟩
    · have hpruned : Pruned sb st st₁ (· = q) := Dropped.leaf (hs ▸ hentry)
      refine hpruned.inner hinner (fun r h => ?_)
      have hcut : ¬ Mapped sb (.child (leafSlot sb r) ex) := leafSlot_leaf r ex
      exact hcut (h ▸ hleaf)
    · show noZone = _
      rw [hinner.slot s hPs, if_pos rfl]
      rfl
    · rintro t ⟨i, rfl⟩ ht
      rw [hinner.slot t ht, if_neg (fun h => child_ne t i h.symm)]
      exact hpar' t ⟨i, rfl⟩ ht
  · exact ⟨_, hrun.trans (if_neg hempty), (Dropped.leaf (hs ▸ hentry)), hz1', hpar'⟩

/-- The same when the indirect block may be missing. -/
theorem entry_drops (hlog : sb.logZoneSize = 0) (hmap : MapOk sb st) (h : Holder)
    {ex z1 : Nat} (hq : q < capacity sb) (hs : leafSlot sb q = .child s ex)
    (hz1 : z1 = val (store st) s) (hpar : ∀ t, s.Parent t → val (store st) t ≠ 0)
    (hent : ∀ st₁, (∀ t, s.Parent t → val (store st₁) t = val (store st) t) →
      store (h.enter st₁ noZone) = (store st₁).enter s 0) :
    ∃ x, (if z1 = noZone then .ok (st, z1) else clearEntry sb h st z1 ex) = Except.ok x ∧
      Pruned sb st x.1 (· = q) ∧ x.2 = val (store x.1) s ∧
      ∀ t, s.Parent t → Mapped sb t → val (store x.1) t = val (store st) t := by
  by_cases h0 : z1 = noZone
  · refine ⟨(st, z1), if_pos h0, Dropped.leaf (Dropped.of_empty hmap ?_), hz1, fun _ _ _ => rfl⟩
    rw [hs]
    exact val_child_cut (hz1.symm.trans h0) ex
  · rw [if_neg h0]
    exact clearEntry_drops hlog hmap h hq hs hz1 h0 hpar hent

/-! ## `write_map` with `WMAP_FREE` -/

/-- The end of `write_map`, behind the entry: the double indirect block goes
    when nothing is left in it. -/
def endDrop (sb : Super) (h : Holder) (x : Mfs × Nat) : Mfs :=
  match h with
  | .inode => x.1
  | .dindir bp _ z2 =>
      if x.2 = noZone ∧ z2 ≠ noZone ∧ emptyIndir sb (x.1.blocks bp) then
        (freeZone x.1 z2).setZone (nrDzones + 1) noZone
      else x.1

theorem dropZone_ok {h : Holder} {z1 ex : Nat} {x : Mfs × Nat} :
    (if z1 = noZone then .ok (st, z1) else clearEntry sb h st z1 ex) = Except.ok x →
      dropZone sb h st z1 ex = .ok (ok, endDrop sb h x) := by
  have hend : ∀ x : Mfs × Nat, (match h with
      | .inode => Except.ok (ok, x.1)
      | .dindir bp _ z2 =>
          if x.2 = noZone ∧ z2 ≠ noZone ∧ emptyIndir sb (x.1.blocks bp) then
            .ok (ok, (freeZone x.1 z2).setZone (nrDzones + 1) noZone)
          else .ok (ok, x.1) : Except Fault (Int × Mfs)) = .ok (ok, endDrop sb h x) := by
    intro x
    cases h with
    | inode => rfl
    | dindir bp indEx z2 =>
        simp only [endDrop]
        split
        · rfl
        · rfl
  intro hx
  rw [dropZone]
  by_cases h0 : z1 = noZone
  · rw [if_pos h0] at hx ⊢
    cases hx
    exact hend (st, z1)
  · rw [if_neg h0] at hx ⊢
    exact bind_ok.mpr ⟨x, hx, hend x⟩

/-- `write_map` frees the zone of a position. -/
def Frees (env : Env sb) (st : Mfs) (p : Nat) : Prop :=
  ∃ st', writeMap env st p noZone true = .ok (ok, st') ∧
    Pruned sb st st' (· = p / sb.blockSize)

/-- A zone number in the inode. -/
theorem free_inode (env : Env sb) (hlog : sb.logZoneSize = 0) (hmap : MapOk sb st)
    (hty : inodeType st.inode ≠ iImmediate) {p : Nat} (hp : p / sb.blockSize = q)
    (h : q < nrDzones) : Frees env st p := by
  have hdrop : ∀ st' : Mfs, store st' = (store st).enter (.root q) 0 →
      (∀ z ∈ st.used, z ≠ word st.inode.zone q → z ∈ st'.used) → Steady st st' →
      Pruned sb st st' (· = q) := by
    intro st' hst hused hsteady
    refine Dropped.leaf ?_
    rw [leafSlot_direct h]
    refine dropped_of_enter hmap (.direct h) ?_ (fun i hi => ?_) hst hused hsteady
    · rintro t ⟨i, hi⟩
      exact nomatch hi
    · have hcut : ¬ Mapped sb (.child (leafSlot sb q) i) := leafSlot_leaf q i
      rw [leafSlot_direct h] at hcut
      exact absurd hi hcut
  simp only [Frees, writeMap]
  rw [if_neg hty]
  simp only [zone_shift hlog hp, if_pos h, and_true]
  rw [hp]
  by_cases hz : word st.markDirty.inode.zone q ≠ noZone
  · rw [if_pos hz]
    refine ⟨_, rfl, hdrop _ rfl (fun z hmem hne => ?_) ⟨rfl, rfl⟩⟩
    exact (List.mem_erase_of_ne hne).mpr hmem
  · rw [if_neg hz]
    exact ⟨_, rfl, hdrop _ rfl (fun z hmem _ => hmem) ⟨rfl, rfl⟩⟩

/-- Marking the inode dirty frees nothing. -/
theorem Pruned.unmark {Q : Nat → Prop} (h : Pruned sb st.markDirty st' Q) : Pruned sb st st' Q :=
  ⟨h.map, h.gone, h.zone, h.block, ⟨h.steady.size, h.steady.mode⟩⟩

/-- A zone number in the single indirect block. -/
theorem free_single (env : Env sb) (hlog : sb.logZoneSize = 0) (hmap : MapOk sb st)
    (hty : inodeType st.inode ≠ iImmediate) {p : Nat} (hp : p / sb.blockSize = q)
    (hq : q < capacity sb) (h : ¬ q < nrDzones) (h' : q - nrDzones < sb.nrIndirects) :
    Frees env st p := by
  have hmap' : MapOk sb st.markDirty := hmap
  obtain ⟨x, hx, hpruned, -, -⟩ := entry_drops hlog hmap' .inode hq (leafSlot_single h h') rfl
    (fun t ht => by obtain ⟨i, hi⟩ := ht; exact nomatch hi) (fun st₁ _ => rfl)
  simp only [Frees, writeMap]
  rw [if_neg hty]
  simp only [zone_shift hlog hp, if_neg h, if_pos h', if_true]
  exact ⟨x.1, dropZone_ok hx, hp ▸ hpruned.unmark⟩

/-- A zone number behind the double indirect block. -/
theorem free_double (env : Env sb) (hlog : sb.logZoneSize = 0) (hmap : MapOk sb st)
    (hty : inodeType st.inode ≠ iImmediate) {p : Nat} (hp : p / sb.blockSize = q)
    (hq : q < capacity sb) (h : ¬ q < nrDzones) (h' : ¬ q - nrDzones < sb.nrIndirects) :
    Frees env st p := by
  have hidx : middleIndex sb q < sb.nrIndirects := double_index_lt hq h h'
  have hslot := leafSlot_double h h'
  have hmap' : MapOk sb st.markDirty := hmap
  have hroom : ¬ (q - nrDzones - sb.nrIndirects) / sb.nrIndirects ≥ sb.nrIndirects :=
    Nat.not_le.mpr hidx
  simp only [Frees, writeMap]
  rw [if_neg hty]
  simp only [zone_shift hlog hp, if_neg h, if_neg h', not_true_eq_false, and_false, if_false,
    if_neg hroom, if_true]
  rw [hp]
  by_cases hcut : word st.markDirty.inode.zone (nrDzones + 1) = noZone
  · -- without the block there is no zone to free
    rw [if_pos hcut]
    have hroot : val (store st) (.root (nrDzones + 1)) = 0 := hcut
    have h0 : val (store st) (leafSlot sb q) = 0 := by
      rw [hslot, val_child_cut (val_child_cut hroot _)]
    exact ⟨_, rfl, (Dropped.leaf (Dropped.of_empty hmap' h0)).unmark⟩
  · rw [if_neg hcut, zoneBlock_eq hlog (word_lt _ _)]
    have hroot : val (store st.markDirty) (.root (nrDzones + 1)) ≠ 0 := hcut
    have hword : val (store st.markDirty) (.child (.root (nrDzones + 1)) (middleIndex sb q)) =
        word (st.markDirty.blocks (word st.markDirty.inode.zone (nrDzones + 1)))
          (middleIndex sb q) := val_child hroot _
    have hrd := rdIndir_ok sb (st.markDirty.blocks (word st.markDirty.inode.zone (nrDzones + 1)))
      (middleIndex sb q) (fun hne => by
        rw [← hword] at hne ⊢
        exact (hmap.range _ (.middle hidx) hne).2)
    obtain ⟨x, hx, hpruned, hz1, hkeep⟩ := entry_drops hlog hmap'
      (.dindir (word st.markDirty.inode.zone (nrDzones + 1)) (middleIndex sb q)
        (word st.markDirty.inode.zone (nrDzones + 1))) hq hslot hword.symm
      (fun t ht => by
        obtain ⟨i, hi⟩ := ht
        obtain ⟨rfl, -⟩ := Slot.child.inj hi
        exact hroot)
      (fun st₁ hst₁ => dindir_enter rfl (hst₁ (.root (nrDzones + 1)) ⟨_, rfl⟩).symm)
    refine ⟨_, bind_ok.mpr ⟨_, hrd, dropZone_ok hx⟩, Pruned.unmark ?_⟩
    simp only [endDrop]
    split
    · next hend =>
        obtain ⟨-, -, hempty⟩ := hend
        have hroot' : val (store x.1) (.root (nrDzones + 1)) =
            word st.markDirty.inode.zone (nrDzones + 1) := hkeep _ ⟨_, rfl⟩ .double
        refine hpruned.inner (dropped_of_enter hpruned.map .double ?_
          (empty_children hroot'.symm hcut hempty) rfl ?_ ⟨rfl, rfl⟩) ?_
        · rintro t ⟨i, hi⟩
          cases hi
        · intro z hz hne
          rw [hroot'] at hne
          exact (List.mem_erase_of_ne hne).mpr hz
        · intro r h
          have hcut : ¬ Mapped sb (.child (leafSlot sb r) 0) := leafSlot_leaf r 0
          exact hcut (h ▸ .middle nrIndirects_pos)
    · exact hpruned

/-- **`write_map` FREES A ZONE** of a regular file, and nothing else of it. -/
theorem writeMap_free (env : Env sb) (hlog : sb.logZoneSize = 0) (hmap : MapOk sb st)
    (hty : inodeType st.inode ≠ iImmediate) {p : Nat} (hq : p / sb.blockSize < capacity sb) :
    Frees env st p := by
  by_cases h : p / sb.blockSize < nrDzones
  · exact free_inode env hlog hmap hty rfl h
  by_cases h' : p / sb.blockSize - nrDzones < sb.nrIndirects
  · exact free_single env hlog hmap hty rfl hq h h'
  · exact free_double env hlog hmap hty rfl hq h h'

/-! ## Freeing at several positions -/

/-- `write_map(rip, p, NO_ZONE, WMAP_FREE)` for each of the positions. -/
def freeAll (env : Env sb) (st : Mfs) (ps : List Nat) : Except Fault Mfs :=
  runAll (fun st p => do .ok (← writeMap env st p noZone true).2) st ps

/-- An immediate file has nothing freed. -/
theorem freeAll_immediate (env : Env sb) (himm : inodeType st.inode = iImmediate)
    (ps : List Nat) : freeAll env st ps = .ok st := by
  induction ps with
  | nil => rfl
  | cons p ps ih =>
      refine runAll_cons.mpr ⟨st, bind_ok.mpr ⟨(noBlock, st), ?_, rfl⟩, ih⟩
      rw [writeMap, if_pos himm]

/-- **FREEING** takes the zones of all the positions out of the file. -/
theorem freeAll_pruned (env : Env sb) (hlog : sb.logZoneSize = 0) (hmap : MapOk sb st)
    (hty : inodeType st.inode ≠ iImmediate) {ps : List Nat}
    (hps : ∀ p ∈ ps, p / sb.blockSize < capacity sb) :
    ∃ st', freeAll env st ps = .ok st' ∧
      Pruned sb st st' (fun r => ∃ p ∈ ps, r = p / sb.blockSize) := by
  induction ps generalizing st with
  | nil =>
      refine ⟨st, rfl, hmap, fun r _ h => ?_, fun _ _ _ => rfl, fun _ _ _ _ => rfl, Steady.refl st⟩
      obtain ⟨p, hp, -⟩ := h
      exact nomatch hp
  | cons p ps ih =>
      obtain ⟨st₁, hrun, hpruned⟩ := writeMap_free env hlog hmap hty (hps p List.mem_cons_self)
      have hty₁ : inodeType st₁.inode ≠ iImmediate := by
        rw [inodeType, hpruned.steady.mode]
        exact hty
      obtain ⟨st', hrest, hpruned'⟩ := ih hpruned.map hty₁
        (fun p' hp' => hps p' (List.mem_cons_of_mem p hp'))
      have hall : (fun r => ∃ p' ∈ p :: ps, r = p' / sb.blockSize) =
          fun r => r = p / sb.blockSize ∨ ∃ p' ∈ ps, r = p' / sb.blockSize := by
        funext r
        simp
      refine ⟨st', runAll_cons.mpr ⟨st₁, bind_ok.mpr ⟨_, hrun, rfl⟩, hrest⟩, ?_⟩
      rw [hall]
      exact hpruned.trans hpruned'

/-- The bytes of the file are zero where its zones were freed. -/
theorem freeAll_holds (env : Env sb) (hlog : sb.logZoneSize = 0) (hmap : MapOk sb st) {g : Mem}
    (hg : Holds sb st g) (hty : inodeType st.inode ≠ iImmediate) {ps : List Nat}
    (hps : ∀ p ∈ ps, p / sb.blockSize < capacity sb) :
    ∃ st', freeAll env st ps = .ok st' ∧ MapOk sb st' ∧ Steady st st' ∧
      Holds sb st' (fun i => if ∃ p ∈ ps, i / sb.blockSize = p / sb.blockSize then 0 else g i) := by
  obtain ⟨st', hrun, hpruned⟩ := freeAll_pruned env hlog hmap hty hps
  refine ⟨st', hrun, hpruned.map, hpruned.steady, fun i hi => ?_⟩
  by_cases hgone : ∃ p ∈ ps, i / sb.blockSize = p / sb.blockSize
  · refine Eq.trans ?_ (if_pos hgone).symm
    rw [byteAt, hpruned.gone _ hi hgone]
    rfl
  · refine Eq.trans ?_ (if_neg hgone).symm
    rw [← hg i hi]
    exact byteAt_congr (hpruned.zone _ hi hgone) (hpruned.block _ hi hgone)

end Clear

end MfsFree
