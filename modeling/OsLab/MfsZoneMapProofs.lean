import OsLab.MfsConvertProofs
import OsLab.WordTreeProofs

/-! # The zone map

    The zone numbers of a regular file are a tree of words: seven in the
    inode, one more leading to a single indirect block, one to a double
    indirect block.  `leafSlot` is the slot of the file's `q`-th zone, and
    `read_map` reads it (`readMap_slot`).

    As long as no zone has two owners (`MapOk`), `write_map` changes the one
    zone number it is asked to change, creating the indirect blocks on the way
    (`writeMap_slot`), and `new_block` gives a block of the file a zeroed zone
    and leaves every other alone (`newBlock_slot`).  Blocks and zones have the
    same size throughout. -/

namespace MfsZoneMap

open OsBytes OsLoop WordTree MfsModel MfsImmediate MfsConvert

/-! ## Slots -/

section Slots

variable (sb : Super)

/-- The slots of zone numbers that a V3 inode has. -/
inductive Mapped : Slot → Prop where
  | direct {i : Nat} (h : i < nrDzones) : Mapped (.root i)
  | single : Mapped (.root nrDzones)
  | double : Mapped (.root (nrDzones + 1))
  | inSingle {e : Nat} (h : e < sb.nrIndirects) : Mapped (.child (.root nrDzones) e)
  | middle {j : Nat} (h : j < sb.nrIndirects) : Mapped (.child (.root (nrDzones + 1)) j)
  | inDouble {j e : Nat} (hj : j < sb.nrIndirects) (he : e < sb.nrIndirects) :
      Mapped (.child (.child (.root (nrDzones + 1)) j) e)

/-- The slot of the `q`-th zone of the file. -/
def leafSlot (q : Nat) : Slot :=
  if q < nrDzones then .root q
  else if q - nrDzones < sb.nrIndirects then .child (.root nrDzones) (q - nrDzones)
  else .child (.child (.root (nrDzones + 1)) ((q - nrDzones - sb.nrIndirects) / sb.nrIndirects))
    ((q - nrDzones - sb.nrIndirects) % sb.nrIndirects)

/-- How many zones a file can have. -/
def capacity : Nat := nrDzones + sb.nrIndirects + sb.nrIndirects * sb.nrIndirects

variable {sb}

theorem nrIndirects_pos : 0 < sb.nrIndirects := by
  have hmin := sb.minBlock
  simp only [Super.nrIndirects]
  omega

theorem mapped_closed : Closed (Mapped sb) := by
  intro q i h
  cases h with
  | inSingle h => exact .single
  | middle h => exact .double
  | inDouble hj he => exact .middle hj

theorem leafSlot_direct {q : Nat} (h : q < nrDzones) : leafSlot sb q = .root q := if_pos h

theorem leafSlot_single {q : Nat} (h : ¬ q < nrDzones) (h' : q - nrDzones < sb.nrIndirects) :
    leafSlot sb q = .child (.root nrDzones) (q - nrDzones) := by
  rw [leafSlot, if_neg h, if_pos h']

theorem leafSlot_double {q : Nat} (h : ¬ q < nrDzones) (h' : ¬ q - nrDzones < sb.nrIndirects) :
    leafSlot sb q =
      .child (.child (.root (nrDzones + 1)) ((q - nrDzones - sb.nrIndirects) / sb.nrIndirects))
        ((q - nrDzones - sb.nrIndirects) % sb.nrIndirects) := by
  rw [leafSlot, if_neg h, if_neg h']

theorem double_index_lt {q : Nat} (hq : q < capacity sb) (h : ¬ q < nrDzones)
    (h' : ¬ q - nrDzones < sb.nrIndirects) :
    (q - nrDzones - sb.nrIndirects) / sb.nrIndirects < sb.nrIndirects := by
  rw [Nat.div_lt_iff_lt_mul nrIndirects_pos]
  simp only [capacity] at hq
  omega

theorem leafSlot_mapped {q : Nat} (hq : q < capacity sb) : Mapped sb (leafSlot sb q) := by
  by_cases h : q < nrDzones
  · rw [leafSlot_direct h]
    exact .direct h
  · by_cases h' : q - nrDzones < sb.nrIndirects
    · rw [leafSlot_single h h']
      exact .inSingle h'
    · rw [leafSlot_double h h']
      exact .inDouble (double_index_lt hq h h') (Nat.mod_lt _ nrIndirects_pos)

/-- Nothing hangs below the zones of the file. -/
theorem leafSlot_leaf (q i : Nat) : ¬ Mapped sb (.child (leafSlot sb q) i) := by
  intro hm
  by_cases h : q < nrDzones
  · rw [leafSlot_direct h] at hm
    cases hm with
    | inSingle _ => exact absurd h (by decide)
    | middle _ => exact absurd h (by decide)
  · by_cases h' : q - nrDzones < sb.nrIndirects
    · rw [leafSlot_single h h'] at hm
      exact nomatch hm
    · rw [leafSlot_double h h'] at hm
      exact nomatch hm

theorem leafSlot_inj {q r : Nat} (hqr : leafSlot sb q = leafSlot sb r) : q = r := by
  by_cases h : q < nrDzones
  · rw [leafSlot_direct h] at hqr
    by_cases hr : r < nrDzones
    · rw [leafSlot_direct hr] at hqr
      exact Slot.root.inj hqr
    · by_cases hr' : r - nrDzones < sb.nrIndirects
      · rw [leafSlot_single hr hr'] at hqr
        exact nomatch hqr
      · rw [leafSlot_double hr hr'] at hqr
        exact nomatch hqr
  · by_cases h' : q - nrDzones < sb.nrIndirects
    · rw [leafSlot_single h h'] at hqr
      by_cases hr : r < nrDzones
      · rw [leafSlot_direct hr] at hqr
        exact nomatch hqr
      · by_cases hr' : r - nrDzones < sb.nrIndirects
        · rw [leafSlot_single hr hr'] at hqr
          have hidx := (Slot.child.inj hqr).2
          omega
        · rw [leafSlot_double hr hr'] at hqr
          exact nomatch (Slot.child.inj hqr).1
    · rw [leafSlot_double h h'] at hqr
      by_cases hr : r < nrDzones
      · rw [leafSlot_direct hr] at hqr
        exact nomatch hqr
      · by_cases hr' : r - nrDzones < sb.nrIndirects
        · rw [leafSlot_single hr hr'] at hqr
          exact nomatch (Slot.child.inj hqr).1
        · rw [leafSlot_double hr hr'] at hqr
          obtain ⟨hmid, hrem⟩ := Slot.child.inj hqr
          have hquot := (Slot.child.inj hmid).2
          have h1 := Nat.div_add_mod (q - nrDzones - sb.nrIndirects) sb.nrIndirects
          have h2 := Nat.div_add_mod (r - nrDzones - sb.nrIndirects) sb.nrIndirects
          rw [hquot, hrem] at h1
          omega

end Slots

/-! ## The map of an inode -/

/-- The words of the zone map: the inode's own, and the blocks. -/
def store (st : Mfs) : Store := ⟨st.inode.zone, st.blocks⟩

/-- Every zone of a map is in use and a data zone, and none has two owners. -/
structure ZonesOk (sb : Super) (used : List Nat) (v : Slot → Nat) : Prop where
  distinct : Distinct (Mapped sb) v
  range : ∀ t, Mapped sb t → v t ≠ 0 → v t ∈ used ∧ sb.firstDataZone ≤ v t ∧ v t < sb.zones

/-- The zones of the inode's map are its own. -/
def MapOk (sb : Super) (st : Mfs) : Prop := ZonesOk sb st.used (val (store st))

/-- A zone that is in use but not in the map. -/
structure Spare (sb : Super) (st : Mfs) (z : Nat) : Prop where
  unused : Unused (Mapped sb) (store st) z
  mem : z ∈ st.used
  low : sb.firstDataZone ≤ z
  high : z < sb.zones

section Map

variable {sb : Super} {env : Env sb} {st : Mfs} {z : Nat}

/-- Another zone is entered in a map. -/
theorem ZonesOk.set {used used' : List Nat} {v : Slot → Nat} (h : ZonesOk sb used v)
    (hsub : used ⊆ used') (hz : ∀ t, Mapped sb t → v t ≠ z) (hmem : z ∈ used')
    (hlow : sb.firstDataZone ≤ z) (hhigh : z < sb.zones) (s : Slot) :
    ZonesOk sb used' (fun t => if t = s then z else v t) := by
  refine ⟨h.distinct.set hz s, fun t ht h0 => ?_⟩
  by_cases hts : t = s
  · simp only [if_pos hts]
    exact ⟨hmem, hlow, hhigh⟩
  · simp only [if_neg hts] at h0 ⊢
    have hr := h.range t ht h0
    exact ⟨hsub hr.1, hr.2⟩

theorem ZonesOk.congr {used : List Nat} {v v' : Slot → Nat} (h : ZonesOk sb used v)
    (hv : ∀ t, Mapped sb t → v' t = v t) : ZonesOk sb used v' := by
  refine ⟨h.distinct.congr hv, fun t ht h0 => ?_⟩
  rw [hv t ht] at h0 ⊢
  exact h.range t ht h0

theorem Spare.lt (h : Spare sb st z) : z < 4294967296 := lt_of_lt_of_le h.high sb.zones32

/-- The first block of a zone, when zones are blocks. -/
theorem zoneBlock_eq (hlog : sb.logZoneSize = 0) (hz : z < 4294967296) : zoneBlock sb z 0 = z := by
  rw [zoneBlock, hlog, Nat.pow_zero, Nat.mul_one, Nat.add_zero, u32_natCast hz]

theorem rdIndir_ok (sb : Super) (bp : Mem) (i : Nat)
    (h : word bp i ≠ 0 → sb.firstDataZone ≤ word bp i ∧ word bp i < sb.zones) :
    rdIndir sb bp i = .ok (word bp i) := by
  refine if_neg ?_
  rintro ⟨h0, hbad⟩
  have hgood := h h0
  omega

/-- Following a single indirect block. -/
theorem readSingle_slot (hlog : sb.logZoneSize = 0) (hmap : MapOk sb st) {s : Slot} {e : Nat}
    (hs : Mapped sb (.child s e)) :
    readSingle sb st.blocks (val (store st) s) e 0 = .ok (val (store st) (.child s e)) := by
  simp only [readSingle]
  by_cases h0 : val (store st) s = noZone
  · have hcut : val (store st) (.child s e) = 0 := val_child_cut h0 e
    rw [if_pos h0, hcut]
    rfl
  · have hword : val (store st) (.child s e) = word (st.blocks (val (store st) s)) e :=
      val_child h0 e
    have hrd : rdIndir sb (st.blocks (val (store st) s)) e =
        .ok (word (st.blocks (val (store st) s)) e) := by
      refine rdIndir_ok _ _ _ (fun hne => ?_)
      rw [← hword] at hne ⊢
      exact (hmap.range _ hs hne).2
    rw [if_neg h0, zoneBlock_eq hlog (val_lt _ _), hword]
    refine bind_ok.mpr ⟨_, hrd, ?_⟩
    by_cases hz : word (st.blocks (val (store st) s)) e = noZone
    · rw [if_pos hz, hz]
      rfl
    · rw [if_neg hz, zoneBlock_eq hlog (word_lt _ _)]

/-- **`read_map` READS THE SLOT** of the zone a position is in. -/
theorem readMap_slot (hlog : sb.logZoneSize = 0) (hmap : MapOk sb st) {p : Nat}
    (hq : p / sb.blockSize < capacity sb) : readMap sb st.inode st.blocks p =
      .ok (val (store st) (leafSlot sb (p / sb.blockSize))) := by
  have hleaf := leafSlot_mapped hq
  obtain ⟨q, hq'⟩ : ∃ q, q = p / sb.blockSize := ⟨_, rfl⟩
  rw [← hq'] at hq hleaf ⊢
  simp only [readMap]
  simp only [← hq', hlog, Nat.pow_zero, Nat.div_one, Nat.mul_one, Nat.sub_self]
  by_cases h : q < nrDzones
  · rw [if_pos h, leafSlot_direct h]
    show (if word st.inode.zone q = noZone then _ else _) = Except.ok (word st.inode.zone q)
    by_cases hz : word st.inode.zone q = noZone
    · rw [if_pos hz, hz]
      rfl
    · rw [if_neg hz, zoneBlock_eq hlog (word_lt _ _)]
  · rw [if_neg h]
    by_cases h' : q - nrDzones < sb.nrIndirects
    · rw [leafSlot_single h h'] at hleaf ⊢
      rw [if_pos h']
      exact readSingle_slot hlog hmap hleaf
    · rw [leafSlot_double h h'] at hleaf ⊢
      rw [if_neg h']
      have hmid := mapped_closed _ _ hleaf
      have hidx := double_index_lt hq h h'
      by_cases hz : word st.inode.zone (nrDzones + 1) = noZone
      · have hcut : val (store st) (.root (nrDzones + 1)) = 0 := hz
        rw [if_pos hz, val_child_cut (val_child_cut hcut _)]
        rfl
      · have hword : val (store st) (.child (.root (nrDzones + 1))
            ((q - nrDzones - sb.nrIndirects) / sb.nrIndirects)) =
            word (st.blocks (word st.inode.zone (nrDzones + 1)))
              ((q - nrDzones - sb.nrIndirects) / sb.nrIndirects) :=
          val_child (m := store st) (s := .root (nrDzones + 1)) hz _
        rw [if_neg hz, if_neg (by omega), zoneBlock_eq hlog (word_lt _ _)]
        refine bind_ok.mpr ⟨_, rdIndir_ok _ _ _ (fun hne => ?_), ?_⟩
        · rw [← hword] at hne ⊢
          exact (hmap.range _ hmid hne).2
        · rw [← hword]
          exact readSingle_slot hlog hmap hleaf

end Map

/-! ## Entering a zone -/

/-- The zones of the file and what is in them, the caller's grant and the
    error flag are as they were. -/
structure Quiet (sb : Super) (st st' : Mfs) : Prop where
  zone : ∀ r, r < capacity sb →
    val (store st') (leafSlot sb r) = val (store st) (leafSlot sb r)
  block : ∀ r, r < capacity sb → val (store st) (leafSlot sb r) ≠ 0 →
    st'.blocks (val (store st) (leafSlot sb r)) = st.blocks (val (store st) (leafSlot sb r))
  grant : st'.grant = st.grant
  rdwtErr : st'.rdwtErr = st.rdwtErr

/-- Zone `z` is now the `q`-th of the file, and all else is as it was. -/
structure Entered (sb : Super) (st st' : Mfs) (q z : Nat) : Prop where
  map : MapOk sb st'
  zone : ∀ r, r < capacity sb →
    val (store st') (leafSlot sb r) = if r = q then z else val (store st) (leafSlot sb r)
  block : ∀ r, r < capacity sb → val (store st) (leafSlot sb r) ≠ 0 →
    st'.blocks (val (store st) (leafSlot sb r)) = st.blocks (val (store st) (leafSlot sb r))
  grant : st'.grant = st.grant
  rdwtErr : st'.rdwtErr = st.rdwtErr

theorem Quiet.entered {sb : Super} {a b c : Mfs} {q z : Nat} (h : Quiet sb a b)
    (h' : Entered sb b c q z) : Entered sb a c q z where
  map := h'.map
  zone := by
    intro r hr
    rw [h'.zone r hr, h.zone r hr]
  block := by
    intro r hr h0
    have h1 := h'.block r hr (by rw [h.zone r hr]; exact h0)
    rw [h.zone r hr] at h1
    rw [h1, h.block r hr h0]
  grant := h'.grant.trans h.grant
  rdwtErr := h'.rdwtErr.trans h.rdwtErr

section Enter

variable {sb : Super} {env : Env sb} {st : Mfs} {z q : Nat}

/-- A word entered in the slot of the file's `q`-th zone. -/
theorem entered_leaf {st' : Mfs} (hmap : MapOk sb st) (hz : Spare sb st z) (hq : q < capacity sb)
    (hpar : ∀ s, (leafSlot sb q).Parent s → val (store st) s ≠ 0)
    (h0 : val (store st) (leafSlot sb q) = 0)
    (hst : store st' = (store st).enter (leafSlot sb q) z) (hused : st'.used = st.used)
    (hgrant : st'.grant = st.grant) (herr : st'.rdwtErr = st.rdwtErr) : Entered sb st st' q z := by
  have hleaf := leafSlot_mapped hq
  have hval := enter_val mapped_closed hmap.distinct hleaf hpar h0 hz.unused hz.lt
    (fun i hi => absurd hi (leafSlot_leaf q i))
  rw [← hst] at hval
  refine ⟨?_, fun r hr => ?_, fun r hr hr0 => ?_, hgrant, herr⟩
  · have hset : ZonesOk sb st'.used (fun t => if t = leafSlot sb q then z else val (store st) t) :=
      ZonesOk.set hmap (by rw [hused]; exact List.Subset.refl _) hz.unused
        (by rw [hused]; exact hz.mem) hz.low hz.high _
    exact hset.congr hval
  · rw [hval _ (leafSlot_mapped hr)]
    by_cases hrq : r = q
    · rw [if_pos hrq, if_pos (congrArg (leafSlot sb) hrq)]
    · rw [if_neg hrq, if_neg (fun h => hrq (leafSlot_inj h))]
  · have hpage := enter_page_leaf (z := z) mapped_closed hmap.distinct hleaf (leafSlot_mapped hr)
      (leafSlot_leaf r) hr0
    rw [← hst] at hpage
    exact hpage

/-- The bitmap has no zone, or hands out one that is not in use. -/
theorem allocZone_cases (env : Env sb) (st : Mfs) (near : Nat) :
    allocZone env st near = (noZone, { st with errCode := enospc, clock := st.clock + 1 }) ∨
    ∃ a, allocZone env st near = (a, { st with used := a :: st.used, clock := st.clock + 1 }) ∧
      a ∉ st.used ∧ sb.firstDataZone ≤ a ∧ a < sb.zones ∧ a ≠ noZone := by
  cases h : env.zoneFor st.clock st.used near with
  | none => exact Or.inl (allocZone_none h)
  | some a =>
      obtain ⟨hfresh, hlow, hhigh⟩ := env.zoneFor_fresh h
      exact Or.inr ⟨a, allocZone_some h, hfresh, hlow, hhigh, zone_ne_zero h⟩

theorem unused_of_fresh {a : Nat} (hmap : MapOk sb st) (ha : a ∉ st.used) (ha0 : a ≠ noZone) :
    Unused (Mapped sb) (store st) a := by
  intro t ht hta
  have h0 : val (store st) t ≠ 0 := by rw [hta]; exact ha0
  have hmem := (hmap.range t ht h0).1
  rw [hta] at hmem
  exact ha hmem

theorem enter_frame (st : Mfs) (h : Holder) (a : Nat) : (h.enter st a).used = st.used ∧
    (h.enter st a).grant = st.grant ∧ (h.enter st a).rdwtErr = st.rdwtErr ∧
    (h.enter st a).errCode = st.errCode := by
  cases h with
  | inode => exact ⟨rfl, rfl, rfl, rfl⟩
  | dindir bp indEx z2 => exact ⟨rfl, rfl, rfl, rfl⟩

/-- **ENTERING A ZONE IN A SINGLE INDIRECT BLOCK**, which is created when it
    is missing. -/
theorem enterZone_slot (hlog : sb.logZoneSize = 0) (hmap : MapOk sb st) (hz : Spare sb st z)
    (hq : q < capacity sb) {s : Slot} {ex z1 : Nat} (hs : leafSlot sb q = .child s ex) (h : Holder)
    (hent : ∀ st₁ a, store st₁ = store st → store (h.enter st₁ a) = (store st).enter s a)
    (hpar : ∀ p, s.Parent p → val (store st) p ≠ 0) (h0 : val (store st) (leafSlot sb q) = 0)
    (hz1 : z1 = val (store st) s) :
    ((enterZone env h st z1 ex z).1 = enospc ∧
        (enterZone env h st z1 ex z).2.rdwtErr = st.rdwtErr) ∨
      ((enterZone env h st z1 ex z).1 = ok ∧
        Entered sb st (enterZone env h st z1 ex z).2 q z) := by
  have hleaf := leafSlot_mapped hq
  simp only [enterZone]
  by_cases hcut : z1 = noZone
  · rw [if_pos hcut]
    rcases allocZone_cases env st (word st.inode.zone 0) with
      halloc | ⟨a, halloc, hfresh, hlow, hhigh, ha0⟩
    · rw [halloc]
      simp only [if_true]
      exact Or.inl ⟨(enter_frame _ h _).2.2.2, (enter_frame _ h _).2.2.1⟩
    · rw [halloc]
      simp only [if_neg ha0]
      refine Or.inr ⟨trivial, ?_⟩
      obtain ⟨st₁, hst₁⟩ : ∃ st₁ : Mfs, st₁ =
          { st with used := a :: st.used, clock := st.clock + 1 } := ⟨_, rfl⟩
      rw [← hst₁]
      have ha32 : a < 4294967296 := lt_of_lt_of_le hhigh sb.zones32
      have ha := unused_of_fresh hmap hfresh ha0
      have haz : a ≠ z := fun h => hfresh (h ▸ hz.mem)
      -- the store: a fresh page with one word, entered in the holder's slot
      have hstore : store ((h.enter st₁ a).putBlock (zoneBlock sb a 0)
          (wrIndir (fun _ => 0) ex z)) =
          ((store st).enter s a).putPage a (setWord (fun _ => 0) ex z) := by
        rw [zoneBlock_eq hlog ha32, ← hent st₁ a (by rw [hst₁]; rfl)]
        rfl
      have hval := enter_single mapped_closed hmap.distinct (hs ▸ hleaf) hpar
        (hz1.symm.trans hcut) ha ha0 ha32 hz.unused hz.lt haz
        (fun i => hs ▸ leafSlot_leaf q i)
      rw [← hstore] at hval
      obtain ⟨hused, hgrant, herr, -⟩ := enter_frame st₁ h a
      refine ⟨?_, fun r hr => ?_, fun r hr hr0 => ?_, ?_, ?_⟩
      · have hsub : st.used ⊆ (h.enter st₁ a).used := by
          rw [hused, hst₁]
          exact List.subset_cons_self a st.used
        have hset : ZonesOk sb (h.enter st₁ a).used
            (fun t => if t = s then a else val (store st) t) :=
          ZonesOk.set hmap hsub ha (by rw [hused, hst₁]; exact List.mem_cons_self) hlow hhigh s
        have hset' := hset.set (List.Subset.refl _) (z := z) (fun t ht => by
          by_cases hts : t = s
          · rw [if_pos hts]; exact haz
          · rw [if_neg hts]; exact hz.unused t ht) (hsub hz.mem) hz.low hz.high (.child s ex)
        exact hset'.congr hval
      · have hrs : leafSlot sb r ≠ s := fun h => leafSlot_leaf r ex (by rw [h, ← hs]; exact hleaf)
        rw [hval _ (leafSlot_mapped hr), if_neg hrs]
        by_cases hrq : r = q
        · rw [if_pos hrq, if_pos (by rw [hrq, hs])]
        · rw [if_neg hrq, if_neg (fun h => hrq (leafSlot_inj (h.trans hs.symm)))]
      · have hpage := enter_page_leaf (z := a) mapped_closed hmap.distinct
          (mapped_closed _ _ (hs ▸ hleaf)) (leafSlot_mapped hr) (leafSlot_leaf r) hr0
        have hne : val (store st) (leafSlot sb r) ≠ a := ha _ (leafSlot_mapped hr)
        refine (congrArg (fun m : Store => m.page (val (store st) (leafSlot sb r))) hstore).trans ?_
        rw [putPage_ne _ _ hne, hpage]
        rfl
      · exact hgrant.trans (by rw [hst₁])
      · exact herr.trans (by rw [hst₁])
  · rw [if_neg hcut]
    refine Or.inr ⟨rfl, ?_⟩
    have hz1lt : z1 < 4294967296 := by rw [hz1]; exact val_lt _ _
    rw [zoneBlock_eq hlog hz1lt]
    refine entered_leaf hmap hz hq ?_ h0 ?_ rfl rfl rfl
    · rw [hs]
      rintro p ⟨i, hp⟩
      obtain ⟨rfl, -⟩ := Slot.child.inj hp
      rw [← hz1]
      exact hcut
    · rw [hs, enter_child, ← hz1]
      rfl

/-- A new double indirect block, with nothing in it. -/
theorem double_quiet (st₁ : Mfs) {a : Nat} (hmap : MapOk sb st) (hz : Spare sb st z)
    (hcut : val (store st) (.root (nrDzones + 1)) = 0) (hfresh : a ∉ st.used)
    (hlow : sb.firstDataZone ≤ a) (hhigh : a < sb.zones) (ha0 : a ≠ noZone)
    (hst : store st₁ = ((store st).enter (.root (nrDzones + 1)) a).putPage a (fun _ => 0))
    (hused : st₁.used = a :: st.used) (hgrant : st₁.grant = st.grant)
    (herr : st₁.rdwtErr = st.rdwtErr) :
    (∀ t, Mapped sb t → val (store st₁) t =
      if t = .root (nrDzones + 1) then a else val (store st) t) ∧
    MapOk sb st₁ ∧ Spare sb st₁ z ∧ Quiet sb st st₁ := by
  have ha := unused_of_fresh hmap hfresh ha0
  have haz : a ≠ z := fun h => hfresh (h ▸ hz.mem)
  have hsub : st.used ⊆ st₁.used := by
    rw [hused]
    exact List.subset_cons_self a st.used
  have hval := enter_empty mapped_closed hmap.distinct Mapped.double
    (fun p hp => by obtain ⟨i, hi⟩ := hp; exact nomatch hi) hcut ha
    (lt_of_lt_of_le hhigh sb.zones32)
  rw [← hst] at hval
  have hset : ZonesOk sb st₁.used
      (fun t => if t = .root (nrDzones + 1) then a else val (store st) t) :=
    ZonesOk.set hmap hsub ha (by rw [hused]; exact List.mem_cons_self) hlow hhigh _
  refine ⟨hval, hset.congr hval, ⟨?_, hsub hz.mem, hz.low, hz.high⟩,
    fun r hr => ?_, fun r hr hr0 => ?_, hgrant, herr⟩
  · intro t ht
    rw [hval t ht]
    by_cases hts : t = .root (nrDzones + 1)
    · rw [if_pos hts]; exact haz
    · rw [if_neg hts]; exact hz.unused t ht
  · rw [hval _ (leafSlot_mapped hr), if_neg]
    intro h
    exact leafSlot_leaf r 0 (by rw [h]; exact .middle nrIndirects_pos)
  · have hpage := enter_page_leaf (z := a) mapped_closed hmap.distinct Mapped.double
      (leafSlot_mapped hr) (leafSlot_leaf r) hr0
    refine (congrArg (fun m : Store => m.page (val (store st) (leafSlot sb r))) hst).trans ?_
    rw [putPage_ne _ _ (ha _ (leafSlot_mapped hr)), hpage]
    rfl

/-- `write_map` enters zone `z` for a position, or finds no zone for an indirect
    block. -/
def Enters (env : Env sb) (st : Mfs) (p z : Nat) : Prop :=
  ∃ w, writeMap env st p z false = .ok w ∧
    ((w.1 = enospc ∧ w.2.rdwtErr = st.rdwtErr) ∨
      (w.1 = ok ∧ Entered sb st w.2 (p / sb.blockSize) z))

theorem zone_shift (hlog : sb.logZoneSize = 0) {p : Nat} (hp : p / sb.blockSize = q) :
    p / sb.blockSize / 2 ^ sb.logZoneSize = q := by
  rw [hlog, Nat.pow_zero, Nat.div_one, hp]

/-- Marking the inode dirty changes nothing that entering a zone is about. -/
theorem Entered.unmark {st' : Mfs} (h : Entered sb st.markDirty st' q z) : Entered sb st st' q z :=
  ⟨h.map, h.zone, h.block, h.grant, h.rdwtErr⟩

/-- A zone number in the inode. -/
theorem writeMap_inode (env : Env sb) (hlog : sb.logZoneSize = 0) (hmap : MapOk sb st)
    (hz : Spare sb st z) (hty : inodeType st.inode ≠ iImmediate) {p : Nat}
    (hp : p / sb.blockSize = q) (hq : q < capacity sb) (h0 : val (store st) (leafSlot sb q) = 0)
    (h : q < nrDzones) : Enters env st p z := by
  have hshift := zone_shift hlog hp
  refine ⟨_, writeMap_direct hty (by rw [hshift]; exact h), Or.inr ⟨rfl, ?_⟩⟩
  rw [hshift, hp]
  refine entered_leaf hmap hz hq ?_ h0 ?_ rfl rfl rfl
  · rintro s ⟨i, hi⟩
    rw [leafSlot_direct h] at hi
    exact nomatch hi
  · rw [leafSlot_direct h]
    rfl

/-- A zone number in the single indirect block. -/
theorem writeMap_single (env : Env sb) (hlog : sb.logZoneSize = 0) (hmap : MapOk sb st)
    (hz : Spare sb st z) (hty : inodeType st.inode ≠ iImmediate) {p : Nat}
    (hp : p / sb.blockSize = q) (hq : q < capacity sb) (h0 : val (store st) (leafSlot sb q) = 0)
    (h : ¬ q < nrDzones) (h' : q - nrDzones < sb.nrIndirects) : Enters env st p z := by
  have hmap' : MapOk sb st.markDirty := hmap
  have hz' : Spare sb st.markDirty z := ⟨hz.unused, hz.mem, hz.low, hz.high⟩
  have hrun : writeMap env st p z false = .ok (enterZone env .inode st.markDirty
      (word st.markDirty.inode.zone nrDzones) (q - nrDzones) z) := by
    rw [writeMap, if_neg hty]
    simp only [zone_shift hlog hp, if_neg h, if_pos h', Bool.false_eq_true, if_false]
  refine ⟨_, hrun, (enterZone_slot hlog hmap' hz' hq (leafSlot_single h h') .inode ?_ ?_ h0
    rfl).imp id fun hdone => ⟨hdone.1, by rw [hp]; exact hdone.2.unmark⟩⟩
  · intro st₁ a hst
    have hpage : st₁.blocks = st.markDirty.blocks := congrArg Store.page hst
    exact Store.ext (congrArg (fun m : Store => setWord m.root nrDzones a) hst) hpage
  · rintro p' ⟨i, hi⟩
    cases hi

/-- Where the double indirect block keeps the single indirect block of a zone. -/
def middleIndex (sb : Super) (q : Nat) : Nat := (q - nrDzones - sb.nrIndirects) / sb.nrIndirects

/-- A double indirect block that holds the single indirect block. -/
theorem dindir_enter {m : Store} {st₁ : Mfs} {b i a z2 : Nat} (hst : store st₁ = m)
    (hb : b = val m (.root (nrDzones + 1))) : store ((Holder.dindir b i z2).enter st₁ a) =
      m.enter (.child (.root (nrDzones + 1)) i) a := by
  rw [enter_child, ← hb, ← hst]
  rfl

/-- A zone number behind a double indirect block that is missing. -/
theorem writeMap_newDouble (env : Env sb) (hlog : sb.logZoneSize = 0) (hmap : MapOk sb st)
    (hz : Spare sb st z) (hty : inodeType st.inode ≠ iImmediate) {p : Nat}
    (hp : p / sb.blockSize = q) (hq : q < capacity sb) (h0 : val (store st) (leafSlot sb q) = 0)
    (h : ¬ q < nrDzones) (h' : ¬ q - nrDzones < sb.nrIndirects)
    (hcut : word st.markDirty.inode.zone (nrDzones + 1) = noZone) : Enters env st p z := by
  have hidx : middleIndex sb q < sb.nrIndirects := double_index_lt hq h h'
  have hslot := leafSlot_double h h'
  simp only [Enters, writeMap]
  rw [if_neg hty]
  simp only [zone_shift hlog hp, if_neg h, if_neg h', hcut, Bool.false_eq_true, not_false_eq_true,
    and_true, if_true]
  rcases allocZone_cases env st.markDirty (word st.markDirty.inode.zone 0) with
    halloc | ⟨a, halloc, hfresh, hlow, hhigh, ha0⟩
  · rw [halloc]
    simp only [if_true]
    exact ⟨_, rfl, Or.inl ⟨rfl, rfl⟩⟩
  · rw [halloc]
    have hroom : ¬ (q - nrDzones - sb.nrIndirects) / sb.nrIndirects ≥ sb.nrIndirects :=
      Nat.not_le.mpr hidx
    simp only [if_neg ha0, if_neg hroom]
    rw [zoneBlock_eq hlog (lt_of_lt_of_le hhigh sb.zones32)]
    obtain ⟨st₁, hst₁⟩ : ∃ st₁ : Mfs, st₁ =
        (Mfs.setZone { st.markDirty with
          used := a :: st.markDirty.used
          clock := st.markDirty.clock + 1 } (nrDzones + 1) a).putBlock a (fun _ => 0) :=
      ⟨_, rfl⟩
    rw [← hst₁]
    obtain ⟨hval, hmap₁, hz₁, hquiet⟩ := double_quiet st₁ hmap hz hcut hfresh hlow
      hhigh ha0 (by rw [hst₁]; rfl) (by rw [hst₁]; rfl) (by rw [hst₁]; rfl)
      (by rw [hst₁]; rfl)
    -- the new block is empty, so the single indirect block is missing too
    have hroot : val (store st₁) (.root (nrDzones + 1)) = a :=
      (hval _ .double).trans (if_pos rfl)
    have hmid : noZone = val (store st₁) (.child (.root (nrDzones + 1)) (middleIndex sb q)) := by
      rw [hval _ (.middle hidx), if_neg (by simp),
        val_child_cut (m := store st) (s := .root (nrDzones + 1)) hcut]
      rfl
    refine ⟨_, rfl, (enterZone_slot hlog hmap₁ hz₁ hq hslot _
      (fun st₂ b hst => dindir_enter hst hroot.symm) ?_ ?_ hmid).imp
      (fun hdone => ⟨hdone.1, hdone.2.trans hquiet.rdwtErr⟩)
      (fun hdone => ⟨hdone.1, by rw [hp]; exact hquiet.entered hdone.2⟩)⟩
    · rintro p' ⟨i, hi⟩
      obtain ⟨rfl, -⟩ := Slot.child.inj hi
      rw [hroot]
      exact ha0
    · rw [hquiet.zone q hq, h0]

/-- A zone number behind the double indirect block. -/
theorem writeMap_double (env : Env sb) (hlog : sb.logZoneSize = 0) (hmap : MapOk sb st)
    (hz : Spare sb st z) (hty : inodeType st.inode ≠ iImmediate) {p : Nat}
    (hp : p / sb.blockSize = q) (hq : q < capacity sb) (h0 : val (store st) (leafSlot sb q) = 0)
    (h : ¬ q < nrDzones) (h' : ¬ q - nrDzones < sb.nrIndirects)
    (hcut : ¬ word st.markDirty.inode.zone (nrDzones + 1) = noZone) : Enters env st p z := by
  have hidx : middleIndex sb q < sb.nrIndirects := double_index_lt hq h h'
  have hslot := leafSlot_double h h'
  have hmap' : MapOk sb st.markDirty := hmap
  have hz' : Spare sb st.markDirty z := ⟨hz.unused, hz.mem, hz.low, hz.high⟩
  have hroom : ¬ (q - nrDzones - sb.nrIndirects) / sb.nrIndirects ≥ sb.nrIndirects :=
    Nat.not_le.mpr hidx
  have hz2 : zoneBlock sb (word st.markDirty.inode.zone (nrDzones + 1)) 0 =
      val (store st.markDirty) (.root (nrDzones + 1)) := zoneBlock_eq hlog (word_lt _ _)
  have hword : val (store st.markDirty) (.child (.root (nrDzones + 1)) (middleIndex sb q)) =
      word (st.markDirty.blocks (val (store st.markDirty) (.root (nrDzones + 1))))
        (middleIndex sb q) :=
    val_child (m := store st.markDirty) (s := .root (nrDzones + 1)) hcut _
  have hrd := rdIndir_ok sb (st.markDirty.blocks
    (val (store st.markDirty) (.root (nrDzones + 1)))) (middleIndex sb q) (fun hne => by
      rw [← hword] at hne ⊢
      exact (hmap.range _ (.middle hidx) hne).2)
  simp only [Enters, writeMap]
  rw [if_neg hty]
  simp only [zone_shift hlog hp, if_neg h, if_neg h', if_neg hcut, if_neg hroom,
    Bool.false_eq_true, not_false_eq_true, and_true, if_false, hz2]
  refine ⟨_, bind_ok.mpr ⟨_, hrd, rfl⟩, (enterZone_slot hlog hmap' hz' hq hslot _
    (fun st₂ b hst => dindir_enter hst rfl) ?_ h0 hword.symm).imp id
    (fun hdone => ⟨hdone.1, by rw [hp]; exact hdone.2.unmark⟩)⟩
  rintro p' ⟨i, hi⟩
  obtain ⟨rfl, -⟩ := Slot.child.inj hi
  exact hcut

/-- **`write_map` ENTERS A ZONE** the file does not have yet, or finds no zone
    for an indirect block. -/
theorem writeMap_slot (env : Env sb) (hlog : sb.logZoneSize = 0) (hmap : MapOk sb st)
    (hz : Spare sb st z) (hty : inodeType st.inode ≠ iImmediate) {p : Nat}
    (hq : p / sb.blockSize < capacity sb)
    (h0 : val (store st) (leafSlot sb (p / sb.blockSize)) = 0) : Enters env st p z := by
  by_cases h : p / sb.blockSize < nrDzones
  · exact writeMap_inode env hlog hmap hz hty rfl hq h0 h
  by_cases h' : p / sb.blockSize - nrDzones < sb.nrIndirects
  · exact writeMap_single env hlog hmap hz hty rfl hq h0 h h'
  by_cases hcut : word st.markDirty.inode.zone (nrDzones + 1) = noZone
  · exact writeMap_newDouble env hlog hmap hz hty rfl hq h0 h h' hcut
  · exact writeMap_double env hlog hmap hz hty rfl hq h0 h h' hcut

/-- Filling a zone of the file leaves the map alone. -/
theorem putBlock_leaf {d : Mem} (hmap : MapOk sb st) (hq : q < capacity sb)
    (h0 : val (store st) (leafSlot sb q) ≠ 0) (t : Slot) (ht : Mapped sb t) :
    val (store (st.putBlock (val (store st) (leafSlot sb q)) d)) t = val (store st) t := by
  refine putPage_val (m := store st) mapped_closed (fun s i hs hval => ?_) t ht
  have hsame := hmap.distinct _ _ (leafSlot_mapped hq) (mapped_closed s i hs) h0 hval.symm
  exact leafSlot_leaf q i (hsame ▸ hs)

/-- The cache never runs into an I/O error. -/
def CacheWorks (env : Env sb) : Prop := ∀ t, env.cacheErr t = ok

theorem noteErr_works (hcache : CacheWorks env) :
    noteErr env st = { st with clock := st.clock + 1 } := by
  rw [noteErr, if_pos (hcache _)]

/-- What `new_block` does with a zone it was given. -/
theorem newBlock_alloc (hlog : sb.logZoneSize = 0) {p a : Nat} {st₁ : Mfs} {w : Int × Mfs}
    (hread : readMap sb st.inode st.blocks p = .ok noBlock)
    (halloc : allocZone env st (searchStart sb st.inode) = (a, st₁)) (ha0 : a ≠ noZone)
    (hw : writeMap env { st₁ with inode := { st₁.inode with zsearch := a } } p a false = .ok w) :
    newBlock env st p = if w.1 ≠ ok then .ok (none, { freeZone w.2 a with errCode := w.1 })
      else .ok (some (zoneBlock sb a (p % (sb.blockSize * 2 ^ sb.logZoneSize) / sb.blockSize)),
        noteErr env (w.2.putBlock (zoneBlock sb a
          (p % (sb.blockSize * 2 ^ sb.logZoneSize) / sb.blockSize)) (fun _ => 0))) := by
  have hclear : clearZone sb = .ok () := if_pos hlog
  by_cases hne : w.1 ≠ ok
  · rw [if_pos hne]
    refine bind_ok.mpr ⟨_, hread, ?_⟩
    rw [if_pos rfl, halloc]
    simp only [if_neg ha0]
    exact bind_ok.mpr ⟨w, hw, if_pos hne⟩
  · rw [if_neg hne]
    refine bind_ok.mpr ⟨_, hread, ?_⟩
    rw [if_pos rfl, halloc]
    simp only [if_neg ha0]
    refine bind_ok.mpr ⟨w, hw, ?_⟩
    rw [if_neg hne, hclear]
    by_cases hsz : (p : Int) ≠ w.2.inode.size
    · exact if_pos hsz
    · exact if_neg hsz

/-- **`new_block`** finds no zone, or gives the file a zeroed one. -/
theorem newBlock_slot (env : Env sb) (hlog : sb.logZoneSize = 0) (hmap : MapOk sb st)
    (hty : inodeType st.inode ≠ iImmediate) (hcache : CacheWorks env) {p : Nat}
    (hq : p / sb.blockSize < capacity sb)
    (h0 : val (store st) (leafSlot sb (p / sb.blockSize)) = 0) :
    ∃ n, newBlock env st p = .ok n ∧
      ((n.1 = none ∧ n.2.errCode = enospc ∧ n.2.rdwtErr = st.rdwtErr) ∨
      ∃ z, n.1 = some z ∧ z ≠ 0 ∧ Entered sb st n.2 (p / sb.blockSize) z ∧
        n.2.blocks z = fun _ => 0) := by
  have hmin := sb.minBlock
  have hread : readMap sb st.inode st.blocks p = .ok noBlock :=
    (readMap_slot hlog hmap hq).trans (congrArg Except.ok h0)
  rcases allocZone_cases env st (searchStart sb st.inode) with
    halloc | ⟨a, halloc, hfresh, hlow, hhigh, ha0⟩
  · refine ⟨(none, { st with errCode := enospc, clock := st.clock + 1 }),
      bind_ok.mpr ⟨_, hread, ?_⟩, Or.inl ⟨rfl, rfl, rfl⟩⟩
    rw [if_pos rfl, halloc]
    exact if_pos rfl
  · obtain ⟨st₁, hst₁⟩ : ∃ st₁ : Mfs, st₁ = { st with
        inode := { st.inode with zsearch := a }
        used := a :: st.used
        clock := st.clock + 1 } := ⟨_, rfl⟩
    have hstore : store st₁ = store st := by rw [hst₁]; rfl
    have hsub : st.used ⊆ st₁.used := by
      rw [hst₁]
      exact List.subset_cons_self a st.used
    have hunused := unused_of_fresh hmap hfresh ha0
    have hmap₁ : MapOk sb st₁ := by
      refine ⟨?_, fun t ht hne => ?_⟩
      · rw [hstore]
        exact hmap.distinct
      · rw [hstore] at hne ⊢
        exact (hmap.range t ht hne).imp (fun h => hsub h) id
    have hspare : Spare sb st₁ a := by
      refine ⟨?_, by rw [hst₁]; exact List.mem_cons_self, hlow, hhigh⟩
      rw [hstore]
      exact hunused
    have hty₁ : inodeType st₁.inode ≠ iImmediate := by rw [hst₁]; exact hty
    obtain ⟨w, hw, hout⟩ := writeMap_slot env hlog hmap₁ hspare hty₁ hq
      (by rw [hstore]; exact h0)
    have hrun := newBlock_alloc hlog hread halloc ha0 (hst₁ ▸ hw)
    have hb : zoneBlock sb a (p % (sb.blockSize * 2 ^ sb.logZoneSize) / sb.blockSize) = a := by
      rw [hlog, Nat.pow_zero, Nat.mul_one, Nat.div_eq_of_lt (Nat.mod_lt _ (by omega)),
        zoneBlock_eq hlog hspare.lt]
    rw [hb] at hrun
    rcases hout with ⟨hno, herr⟩ | ⟨hok, hent⟩
    · refine ⟨_, hrun.trans (if_pos (by rw [hno]; decide)), Or.inl ⟨rfl, hno, ?_⟩⟩
      exact herr.trans (by rw [hst₁])
    · refine ⟨_, hrun.trans (if_neg (not_not.mpr hok)), Or.inr ⟨a, rfl, ha0, ?_, ?_⟩⟩
      · have hleaf : val (store w.2) (leafSlot sb (p / sb.blockSize)) = a :=
          (hent.zone _ hq).trans (if_pos rfl)
        rw [noteErr_works hcache]
        have hput := putBlock_leaf (d := fun _ => 0) hent.map hq (by rw [hleaf]; exact ha0)
        rw [hleaf] at hput
        refine ⟨ZonesOk.congr hent.map hput, fun r hr => ?_, fun r hr hr0 => ?_, ?_, ?_⟩
        · refine (hput _ (leafSlot_mapped hr)).trans ?_
          rw [hent.zone r hr, hstore]
        · have hblock := hent.block r hr (by rw [hstore]; exact hr0)
          rw [hstore] at hblock
          refine (if_neg (hunused _ (leafSlot_mapped hr))).trans (hblock.trans ?_)
          rw [hst₁]
        · exact hent.grant.trans (by rw [hst₁])
        · exact hent.rdwtErr.trans (by rw [hst₁])
      · rw [noteErr_works hcache]
        exact if_pos rfl

end Enter

end MfsZoneMap
