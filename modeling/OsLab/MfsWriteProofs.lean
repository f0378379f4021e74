import OsLab.MfsChunkProofs

/-! # Writing across the change of representation

    A new file is immediate and empty.  Writes that end by byte 32 go into the
    inode; the first that ends behind it converts the file, and from then on
    bytes go through the zone map.  Either way the file is the sparse file that
    the writes amount to (`serve_represents`), after any run of writes for
    which there were zones (`writes_faithful`).

    What is assumed of the code outside: zones and blocks have one size, the
    maximum file size is one the zone map can address, kernel copies succeed
    and the cache reports no error. -/

namespace MfsWrite

open OsBytes OsLoop WordTree MfsModel MfsImmediate MfsConvert MfsZoneMap MfsChunk

/-- The inode stands for a sparse file: by its own bytes, or by its zones. -/
structure Represents (sb : Super) (st : Mfs) (f : Sparse) : Prop where
  size : st.inode.size = f.size
  max : f.size ≤ sb.maxSize
  layout : (inodeType st.inode = iImmediate ∧ f.size ≤ 32 ∧
      ∀ i, i < zoneBytes → st.inode.zone i = f.byte i) ∨
    (inodeType st.inode = iRegular ∧ MapOk sb st ∧ Holds sb st f.byte)

/-- A file that was just created. -/
structure NewFile (st : Mfs) : Prop where
  type : inodeType st.inode = iImmediate
  size : st.inode.size = 0
  zones : ∀ i, i < nrTzones → word st.inode.zone i = noZone

/-- A write served: the caller grants its bytes. -/
def serve {sb : Super} (env : Env sb) (st : Mfs) (w : Write) : Except Fault (Reply × Mfs) :=
  fsReadwrite env { st with grant := ⟨w.len, w.data⟩ } ⟨.writing, w.pos, w.len⟩

/-- What is assumed of the file system and of the code outside. -/
structure Sound {sb : Super} (env : Env sb) : Prop where
  scale : sb.logZoneSize = 0
  writable : sb.rdOnly = false
  reach : sb.maxSize ≤ sb.blockSize * capacity sb
  copies : CopiesSucceed env
  cache : CacheWorks env

section Serve

variable {sb : Super} {env : Env sb} {st : Mfs} {f : Sparse} {p k : Nat}

theorem new_represents (h : NewFile st) : Represents sb st Sparse.empty where
  size := h.size
  max := Nat.zero_le _
  layout := by
    refine Or.inl ⟨h.type, by decide, fun i hi => ?_⟩
    have hslot : i / 4 < nrTzones := by
      simp only [zoneBytes] at hi
      simp only [nrTzones]
      omega
    have hword := word_eq_zero.mp (h.zones (i / 4) hslot)
    have hbyte := hword (i % 4) (Nat.mod_lt i (by decide))
    rw [Nat.div_add_mod] at hbyte
    exact hbyte

/-- The zone map addresses every byte up to the maximum file size. -/
theorem Sound.mapped (hsound : Sound env) {i : Nat} (hi : i < sb.maxSize) :
    i / sb.blockSize < capacity sb := by
  have hreach := hsound.reach
  have hmin := sb.minBlock
  rw [Nat.div_lt_iff_lt_mul (by omega), Nat.mul_comm]
  omega

/-- An immediate inode has the bytes. -/
theorem Represents.in_inode (h : Represents sb st f) (himm : inodeType st.inode = iImmediate) :
    f.size ≤ 32 ∧ ∀ i, i < zoneBytes → st.inode.zone i = f.byte i := by
  rcases h.layout with ⟨-, hbytes⟩ | ⟨hreg, -⟩
  · exact hbytes
  · exact absurd himm (not_immediate hreg)

/-- The zones of a regular inode have them. -/
theorem Represents.in_zones (h : Represents sb st f) (hreg : inodeType st.inode = iRegular) :
    MapOk sb st ∧ Holds sb st f.byte := by
  rcases h.layout with ⟨himm, -⟩ | ⟨-, hzones⟩
  · exact absurd himm (not_immediate hreg)
  · exact hzones

theorem writeCheck_ok (hsound : Sound env) (hmax : p + k ≤ sb.maxSize) (fSize : Int) :
    writeCheck sb fSize ⟨.writing, p, k⟩ = .ok none := by
  have hpos : ¬ ((p : Int) > (u32 ((sb.maxSize : Int) - (k : Int)) : Int)) := by
    rw [u32_room (by omega)]
    omega
  rw [writeCheck, if_pos rfl, if_neg (by rw [hsound.writable]; decide)]
  simp only [if_neg hpos, clearZone, if_pos hsound.scale]
  split
  · rfl
  · rfl

/-- A write whose part before the chunk loop and chunk loop are known. -/
theorem fsReadwrite_writing (hsound : Sound env) (hmax : p + k ≤ sb.maxSize) {s t : Progress}
    (hty : inodeType st.inode = iRegular ∨ inodeType st.inode = iImmediate)
    (hentry : entry env st ⟨.writing, p, k⟩ = .ok (none, s))
    (hloop : loop .endless (chunkTurn env .writing st.inode.size) (s.nrbytes + 1) s = .ok t)
    (herr : t.mfs.rdwtErr = ok) :
    ∃ update dirty, fsReadwrite env st ⟨.writing, p, k⟩ = .ok (⟨t.r, t.position, t.cumIo⟩,
        { t.mfs with inode := { t.mfs.inode with
            size := if t.position > st.inode.size then t.position else t.mfs.inode.size
            noSeek := true
            update := update
            dirty := dirty } }) := by
  have hne : inodeType st.inode ≠ iBlockSpecial := by
    rcases hty with h | h
    · rw [h]; decide
    · rw [h]; decide
  obtain ⟨update, dirty, hfin⟩ := finish_writing sb (regular_flag hty) (inodeType s.mfs.inode)
    st.inode.size t
  refine ⟨update, dirty, fsReadwrite_ok.mpr ⟨hne, none, writeCheck_ok hsound hmax _, _, hentry, t,
    hloop, ?_⟩⟩
  refine Prod.ext ?_ hfin.symm
  show Reply.mk t.r t.position t.cumIo = ⟨if t.mfs.rdwtErr = ok then t.r else _, _, _⟩
  rw [if_pos herr]

/-- How a write that fits the inode enters the chunk loop. -/
theorem entry_fits (env : Env sb) (x : Int) (k : Nat) (hty : inodeType st.inode = iImmediate)
    (hsmall : x + k ≤ 32) :
    entry env st ⟨.writing, x, k⟩ = (do
      .ok (none, ← immediateTransfer env .writing st.inode.size (start st ⟨.writing, x, k⟩))) := by
  have hfit : ¬ (start st ⟨.writing, x, k⟩).position + (start st ⟨.writing, x, k⟩).nrbytes >
      immediateMax := by
    show ¬ (x + (k : Int) > 32)
    omega
  rw [entry, if_pos hty, immediateFile, if_pos rfl, if_neg hfit]

/-- Writing into the inode, when the bytes end by its own. -/
theorem immediateTransfer_writing {s : Progress} (fSize : Int) (hcopy : CopiesSucceed env)
    (hcum : s.cumIo = 0) (hpos : s.position = p) (hfit : s.nrbytes ≤ s.mfs.grant.size)
    (hend : p + s.nrbytes ≤ zoneBytes) : immediateTransfer env .writing fSize s =
      .ok ⟨{ s.mfs with
          inode := { s.mfs.inode with
            zone := overlay s.mfs.inode.zone p s.nrbytes s.mfs.grant.mem
            dirty := true }
          clock := s.mfs.clock + 1 }, ok, 0, s.nrbytes, (p + s.nrbytes : Nat)⟩ := by
  have hu : u32 (p : Int) = p := u32_natCast (by simp only [zoneBytes] at hend; omega)
  have hin : ¬ (0 < s.nrbytes ∧ zoneBytes < p + s.nrbytes) := by omega
  have hcode := safecopyfrom_ok s.mfs 0 s.nrbytes s.mfs.inode.zone p hcopy (by omega)
  simp only [immediateTransfer]
  simp only [hcum, hpos, hu, hcode, if_true, if_neg hin, Nat.zero_add,
    Int.natCast_add]

/-- **A WRITE INTO THE INODE** overlays its bytes. -/
theorem serve_inode (hsound : Sound env) (himm : inodeType st.inode = iImmediate) {n : Nat}
    (hsize : st.inode.size = n) {w : Write} (hmax : w.stop ≤ sb.maxSize) (hfit : w.stop ≤ 32) :
    ∃ st', serve env st w = .ok (⟨ok, w.stop, w.len⟩, st') ∧ inodeType st'.inode = iImmediate ∧
      st'.inode.size = max n w.stop ∧
      st'.inode.zone = overlay st.inode.zone w.pos w.len w.data := by
  have hend : w.pos + w.len ≤ 32 := hfit
  obtain ⟨st₀, hst₀⟩ : ∃ st₀ : Mfs, st₀ = { st with grant := ⟨w.len, w.data⟩ } := ⟨_, rfl⟩
  have hty : inodeType st₀.inode = iImmediate := by rw [hst₀]; exact himm
  have htransfer := immediateTransfer_writing (s := start st₀ ⟨.writing, w.pos, w.len⟩)
    (p := w.pos) st₀.inode.size hsound.copies rfl rfl
    (by rw [hst₀]; exact Nat.le_refl _) (by show w.pos + w.len ≤ 40; omega)
  have hentry := entry_fits env w.pos w.len hty (by omega)
  rw [htransfer] at hentry
  obtain ⟨update, dirty, hrun⟩ := fsReadwrite_writing hsound hmax (Or.inr hty) hentry
    (loop_done (chunkTurn_over (Or.inl rfl)) _) rfl
  subst hst₀
  refine ⟨_, hrun, hty, ?_, rfl⟩
  show (if ((w.pos + w.len : Nat) : Int) > st.inode.size then ((w.pos + w.len : Nat) : Int)
    else st.inode.size) = ((max n (w.pos + w.len) : Nat) : Int)
  rw [hsize]
  omega

/-- It leaves the bytes of the sparse file in the inode. -/
theorem serve_immediate (hsound : Sound env) (hrep : Represents sb st f)
    (himm : inodeType st.inode = iImmediate) {w : Write} (hmax : w.stop ≤ sb.maxSize)
    (hfit : w.stop ≤ 32) : ∃ st', serve env st w = .ok (⟨ok, w.stop, w.len⟩, st') ∧
      Represents sb st' (f.write w) ∧ inodeType st'.inode = iImmediate := by
  obtain ⟨hsize32, hbytes⟩ := hrep.in_inode himm
  obtain ⟨st', hrun, hty, hsize, hzone⟩ := serve_inode hsound himm hrep.size hmax hfit
  refine ⟨st', hrun, ⟨hsize, max_le hrep.max hmax, Or.inl ⟨hty, max_le hsize32 hfit, ?_⟩⟩, hty⟩
  intro i hi
  rw [hzone]
  show overlay st.inode.zone w.pos w.len w.data i = overlay f.byte w.pos w.len w.data i
  by_cases hin : w.pos ≤ i ∧ i < w.pos + w.len
  · rw [overlay_in hin.1 hin.2, overlay_in hin.1 hin.2]
  · rw [overlay_out (by omega), overlay_out (by omega)]
    exact hbytes i hi

/-- The outcome of a write: no zone for it, or all of it in the file and
    reported. -/
def Outcome (sb : Super) (f : Sparse) (w : Write) (x : Reply × Mfs) : Prop :=
  x.1.r = enospc ∨ (x.1 = ⟨ok, w.stop, w.len⟩ ∧ Represents sb x.2 (f.write w) ∧
    inodeType x.2.inode = iRegular)

/-- The outcome of a write through the zone map to a file of `n` bytes, which
    holds `g` and has the size `m` in its inode when the chunk loop starts. -/
def Landed (sb : Super) (n m : Int) (g : Mem) (w : Write) (x : Reply × Mfs) : Prop :=
  x.1.r = enospc ∨ (x.1 = ⟨ok, w.stop, w.len⟩ ∧ inodeType x.2.inode = iRegular ∧
    x.2.inode.size = (if (w.stop : Int) > n then (w.stop : Int) else m) ∧ MapOk sb x.2 ∧
    ∃ g', Holds sb x.2 g' ∧ Overlaid m g w.pos w.len w.data g')

/-- **A WRITE THROUGH THE ZONE MAP**, when the file is regular by the time the
    chunk loop starts. -/
theorem serve_chunks (st : Mfs) (hsound : Sound env) {w : Write} {st₁ : Mfs} {g : Mem}
    (hmax : w.stop ≤ sb.maxSize)
    (hty : inodeType st.inode = iRegular ∨ inodeType st.inode = iImmediate)
    (hentry : entry env st ⟨.writing, w.pos, w.len⟩ = .ok (none, ⟨st₁, ok, w.len, 0, w.pos⟩))
    (hreg : inodeType st₁.inode = iRegular) (hmap : MapOk sb st₁) (hg : Holds sb st₁ g)
    (hgrant : st₁.grant = ⟨w.len, w.data⟩) (herr : st₁.rdwtErr = ok) :
    ∃ x, fsReadwrite env st ⟨.writing, w.pos, w.len⟩ = .ok x ∧
      Landed sb st.inode.size st₁.inode.size g w x := by
  have hint := sb.maxInt
  have hreach := hsound.reach
  have hstop : w.stop = w.pos + w.len := rfl
  obtain ⟨t, hloop, herr', hout⟩ := chunkLoop_writing env st.inode.size
    hsound.scale hsound.copies hsound.cache (not_immediate hreg) hmap hg (p := w.pos) (k := w.len)
    (by rw [hgrant]) herr (by omega) (by omega)
  obtain ⟨update, dirty, hrun⟩ := fsReadwrite_writing hsound hmax hty hentry hloop herr'
  refine ⟨_, hrun, ?_⟩
  rcases hout with hno | ⟨hcum, hw⟩
  · exact Or.inl hno
  · have hpos : t.position = w.stop := by rw [hw.position, hcum]; rfl
    refine Or.inr ⟨?_, ?_, ?_, hw.map, ?_⟩
    · show Reply.mk t.r t.position t.cumIo = _
      rw [hw.good, hpos, hcum]
    · show t.mfs.inode.mode &&& iType = iRegular
      rw [hw.steady.mode]
      exact hreg
    · -- the size is set when the write ends behind the old end
      show (if t.position > st.inode.size then t.position else t.mfs.inode.size) = _
      rw [hpos, hw.steady.size]
    · have hholds := hw.holds
      rw [hcum, hgrant] at hholds
      exact hholds

/-- When the size in the inode is the file's, or zero and the write reaches
    beyond the file, the sparse file is written. -/
theorem Landed.outcome {m : Int} {w : Write} {x : Reply × Mfs}
    (h : Landed sb f.size m f.byte w x) (hmax : w.stop ≤ sb.maxSize) (hfile : f.size ≤ sb.maxSize)
    (hfield : m = f.size ∨ (m = 0 ∧ f.size < w.stop)) : Outcome sb f w x := by
  rcases h with hno | ⟨hreply, hreg, hsize, hmap, g', hg', hover⟩
  · exact Or.inl hno
  have hstop : w.stop = w.pos + w.len := rfl
  have hbytes : g' = (f.write w).byte := by
    refine hover.eq ?_
    rcases hfield with rfl | ⟨-, hlt⟩
    · exact Or.inl fun i hi => f.beyond i (Int.ofNat_le.mp hi)
    · exact Or.inr fun i hi => f.beyond i (by omega)
  refine Or.inr ⟨hreply, ⟨?_, max_le hfile hmax, Or.inr ⟨hreg, hmap, hbytes ▸ hg'⟩⟩, hreg⟩
  show x.2.inode.size = ((max f.size w.stop : Nat) : Int)
  rw [hsize]
  by_cases hgt : (w.stop : Int) > f.size
  · rw [if_pos hgt]
    omega
  · rw [if_neg hgt]
    omega

/-- A write to a regular file, whatever it holds behind its end. -/
theorem regular_lands (hsound : Sound env) (hreg : inodeType st.inode = iRegular)
    (hmap : MapOk sb st) {g : Mem} (hg : Holds sb st g) {w : Write}
    (hmax : w.stop ≤ sb.maxSize) :
    ∃ x, serve env st w = .ok x ∧ Landed sb st.inode.size st.inode.size g w x := by
  have hentry : entry env { st with grant := ⟨w.len, w.data⟩ } ⟨.writing, w.pos, w.len⟩ =
      .ok (none, ⟨{ st with grant := ⟨w.len, w.data⟩, rdwtErr := ok }, ok, w.len, 0, w.pos⟩) :=
    if_neg (not_immediate hreg)
  have hland := serve_chunks { st with grant := ⟨w.len, w.data⟩ } hsound hmax (Or.inl hreg) hentry
    hreg hmap hg rfl rfl
  exact hland

/-- A write to a regular file. -/
theorem serve_regular (hsound : Sound env) (hrep : Represents sb st f)
    (hreg : inodeType st.inode = iRegular) {w : Write} (hmax : w.stop ≤ sb.maxSize) :
    ∃ x, serve env st w = .ok x ∧ Outcome sb f w x := by
  obtain ⟨hmap, hg⟩ := hrep.in_zones hreg
  obtain ⟨x, hrun, hland⟩ := regular_lands hsound hreg hmap hg hmax
  rw [hrep.size] at hland
  exact ⟨x, hrun, hland.outcome hmax hrep.max (Or.inl rfl)⟩

/-- Without a zone number in the inode there is none in the map. -/
theorem unmapped (hroot : ∀ i, i < nrTzones → word st.inode.zone i = noZone) {t : Slot}
    (ht : Mapped sb t) : val (store st) t = 0 := by
  have hsingle : val (store st) (.root nrDzones) = 0 := hroot nrDzones (by decide)
  have hdouble : val (store st) (.root (nrDzones + 1)) = 0 := hroot (nrDzones + 1) (by decide)
  cases ht with
  | direct h => exact hroot _ (by simp only [nrDzones] at h; simp only [nrTzones]; omega)
  | single => exact hsingle
  | double => exact hdouble
  | inSingle h => exact val_child_cut hsingle _
  | middle h => exact val_child_cut hdouble _
  | inDouble hj he => exact val_child_cut (val_child_cut hdouble _) _

/-- The zone map of a file that was just converted: one zone, with the bytes
    the inode had. -/
theorem converted_holds (st : Mfs) (buffer : Mem) (hsound : Sound env) {z n : Nat} (hn : f.size = n)
    (hn40 : n ≤ 40) (hz : conversionZone env st = some z)
    (hbuf : ∀ i, i < n → buffer i = f.byte i) :
    MapOk sb (converted env st z n buffer) ∧ Holds sb (converted env st z n buffer) f.byte := by
  have hmin := sb.minBlock
  obtain ⟨-, hlow, hhigh⟩ := env.zoneFor_fresh hz
  have hz0 : z ≠ noBlock := zone_ne_zero hz
  have hz32 : z < 4294967296 := lt_of_lt_of_le hhigh sb.zones32
  -- nothing is left in the map of the cleared inode
  obtain ⟨st₁, hst₁⟩ : ∃ st₁ : Mfs, st₁ = { cleared st with
      inode := { (cleared st).inode with zsearch := z }
      used := z :: st.used
      clock := st.clock + 1 } := ⟨_, rfl⟩
  have hempty : ∀ t, Mapped sb t → val (store st₁) t = 0 :=
    fun t ht => unmapped (fun i hi => by rw [hst₁]; exact cleared_word st hi) ht
  have hmap₁ : MapOk sb st₁ :=
    ⟨fun t u ht _ h0 _ => absurd (hempty t ht) h0, fun t ht h0 => absurd (hempty t ht) h0⟩
  have hspare : Spare sb st₁ z := by
    refine ⟨fun t ht => ?_, by rw [hst₁]; exact List.mem_cons_self, hlow, hhigh⟩
    rw [hempty t ht]
    exact Ne.symm hz0
  have hcap : 0 < capacity sb := by simp only [capacity, nrDzones]; omega
  have hslot : leafSlot sb 0 = .root 0 := leafSlot_direct (by decide)
  -- its first zone is entered, zeroed and filled
  obtain ⟨st₂, hst₂⟩ : ∃ st₂, st₂ = st₁.markDirty.setZone 0 z := ⟨_, rfl⟩
  have hent : Entered sb st₁ st₂ 0 z := by
    refine entered_leaf hmap₁ hspare hcap ?_ (hempty _ (leafSlot_mapped hcap)) ?_ ?_ ?_ ?_
    · rintro s ⟨i, hi⟩
      rw [hslot] at hi
      cases hi
    · rw [hslot, hst₂]
      rfl
    · rw [hst₂]; rfl
    · rw [hst₂]; rfl
    · rw [hst₂]; rfl
  have hfirst : val (store st₂) (leafSlot sb 0) = z := (hent.zone 0 hcap).trans (if_pos rfl)
  have hput := putBlock_leaf (d := fun _ => 0) hent.map hcap (by rw [hfirst]; exact hz0)
  rw [hfirst] at hput
  obtain ⟨st₃, hst₃⟩ : ∃ st₃, st₃ = noteErr env (st₂.putBlock z (fun _ => 0)) := ⟨_, rfl⟩
  have hmap₃ : MapOk sb st₃ := by
    rw [hst₃, noteErr_works hsound.cache]
    exact ZonesOk.congr hent.map hput
  have hval₃ : ∀ r, r < capacity sb → val (store st₃) (leafSlot sb r) = if r = 0 then z else 0 := by
    intro r hr
    have hzone := hent.zone r hr
    rw [hempty _ (leafSlot_mapped hr)] at hzone
    rw [← hzone, ← hput _ (leafSlot_mapped hr), hst₃, noteErr_works hsound.cache]
    rfl
  have hconv : converted env st z n buffer =
      st₃.putBlock z (overlay (fun _ => 0) 0 n buffer) := by
    rw [hst₃, hst₂, hst₁, converted, zoneBlock_eq hsound.scale hz32]
  rw [hconv]
  refine putBlock_holds _ _ _ _ hmap₃ hcap ((hval₃ 0 hcap).trans (if_pos rfl)) hz0 ?_ ?_
  · intro i hi hne
    have hbeyond : f.byte i = 0 := by
      refine f.beyond i ?_
      by_contra hlt
      exact hne (Nat.div_eq_of_lt (by omega))
    rw [hbeyond, byteAt, hval₃ _ hi, if_neg hne]
    rfl
  · intro i hi
    have hlt : i < sb.blockSize := by
      by_contra hge
      have hpos := Nat.div_pos (Nat.le_of_not_lt hge) (show 0 < sb.blockSize by omega)
      omega
    rw [Nat.mod_eq_of_lt hlt]
    by_cases hin : i < n
    · rw [overlay_in (Nat.zero_le i) (by omega)]
      exact hbuf i hin
    · rw [overlay_out (by omega), f.beyond i (by omega)]

/-- **THE WRITE THAT CONVERTS THE FILE** takes over the bytes below the size,
    whatever is in the inode behind them. -/
theorem growing_lands (hsound : Sound env) (himm : inodeType st.inode = iImmediate) {n : Nat}
    (hsize : st.inode.size = n) (hn : n ≤ zoneBytes) {w : Write} (hmax : w.stop ≤ sb.maxSize)
    (hgrow : 32 < w.stop) :
    ∃ x, serve env st w = .ok x ∧ Landed sb n 0 (Sparse.ofMem st.inode.zone n).byte w x := by
  obtain ⟨st₀, hst₀⟩ : ∃ st₀ : Mfs, st₀ = { st with grant := ⟨w.len, w.data⟩ } := ⟨_, rfl⟩
  have hty : inodeType st₀.inode = iImmediate := by rw [hst₀]; exact himm
  have hsize₀ : st₀.inode.size = n := by rw [hst₀]; exact hsize
  obtain ⟨buffer, hbuf, hentry⟩ := entry_growing env hty hsize₀ hn
    (show 32 < (w.pos : Int) + w.len by simp only [Write.stop] at hgrow; omega)
  rw [serve, ← hst₀]
  cases hz : conversionZone env st₀ with
  | none =>
      rw [hz] at hentry
      have hne : inodeType st₀.inode ≠ iBlockSpecial := by rw [hty]; decide
      exact ⟨_, fsReadwrite_ok.mpr ⟨hne, none, writeCheck_ok hsound hmax _, _, hentry, rfl⟩,
        Or.inl rfl⟩
  | some z =>
      rw [hz] at hentry
      obtain ⟨hmap, hg⟩ := converted_holds (start st₀ ⟨.writing, w.pos, w.len⟩).mfs
        (f := .ofMem st.inode.zone n) buffer hsound rfl hn hz (fun i hi => by
          rw [hbuf i hi, hst₀]
          exact (if_pos hi).symm)
      have hland := serve_chunks st₀ hsound hmax (Or.inr hty) hentry (regular_type _) hmap hg
        (by
          rw [hst₀]
          simp only [converted, noteErr_works hsound.cache]
          rfl)
        (by
          simp only [converted, noteErr_works hsound.cache]
          rfl)
      rw [hsize₀] at hland
      exact hland

/-- It writes the sparse file when that fits the inode. -/
theorem serve_growing (hsound : Sound env) (himm : inodeType st.inode = iImmediate)
    (hfile : st.inode.size = f.size) (hsize32 : f.size ≤ 32) (hold : f.size ≤ sb.maxSize)
    (hbytes : ∀ i, i < f.size → st.inode.zone i = f.byte i) {w : Write}
    (hmax : w.stop ≤ sb.maxSize) (hgrow : 32 < w.stop) :
    ∃ x, serve env st w = .ok x ∧ Outcome sb f w x := by
  obtain ⟨x, hrun, hland⟩ := growing_lands hsound himm hfile (hsize32.trans (by decide)) hmax hgrow
  have hsame : (Sparse.ofMem st.inode.zone f.size).byte = f.byte := by
    funext i
    by_cases hi : i < f.size
    · exact (if_pos hi).trans (hbytes i hi)
    · exact (if_neg hi).trans (f.beyond i (Nat.le_of_not_lt hi)).symm
  rw [hsame] at hland
  exact ⟨x, hrun, hland.outcome hmax hold (Or.inr ⟨rfl, by omega⟩)⟩

/-- **ONE WRITE** finds no zone, or writes the sparse file; it stays in the inode
    when the file was there and the write ends by byte 32. -/
theorem serve_represents (hsound : Sound env) (hrep : Represents sb st f) {w : Write}
    (hmax : w.stop ≤ sb.maxSize) : ∃ x, serve env st w = .ok x ∧ (x.1.r = enospc ∨
      (x.1 = ⟨ok, w.stop, w.len⟩ ∧ Represents sb x.2 (f.write w) ∧
        (inodeType x.2.inode = iImmediate ↔ inodeType st.inode = iImmediate ∧ w.stop ≤ 32))) := by
  rcases hrep.layout with ⟨himm, -⟩ | ⟨hreg, -⟩
  · by_cases hfit : w.stop ≤ 32
    · obtain ⟨st', hrun, hrep', himm'⟩ := serve_immediate hsound hrep himm hmax hfit
      exact ⟨_, hrun, Or.inr ⟨rfl, hrep', iff_of_true himm' ⟨himm, hfit⟩⟩⟩
    · obtain ⟨hsize32, hbytes⟩ := hrep.in_inode himm
      obtain ⟨x, hrun, hout⟩ := serve_growing hsound himm hrep.size hsize32 hrep.max
        (fun i hi => hbytes i (by simp only [zoneBytes]; omega)) hmax (Nat.lt_of_not_le hfit)
      refine ⟨x, hrun, hout.imp id fun hdone => ⟨hdone.1, hdone.2.1, ?_⟩⟩
      exact iff_of_false (not_immediate hdone.2.2) (fun h => hfit h.2)
  · obtain ⟨x, hrun, hout⟩ := serve_regular hsound hrep hreg hmax
    refine ⟨x, hrun, hout.imp id fun hdone => ⟨hdone.1, hdone.2.1, ?_⟩⟩
    exact iff_of_false (not_immediate hdone.2.2) (fun h => not_immediate hreg h.1)

/-- Reading the bytes back where the inode says they are. -/
theorem represents_byte (hsound : Sound env) (hrep : Represents sb st f) {i : Nat}
    (hi : i < f.size) : fileByte sb st i = .ok (f.byte i) := by
  have hmax := hrep.max
  rcases hrep.layout with ⟨himm, hsize, hbytes⟩ | ⟨hreg, hmap, hg⟩
  · rw [fileByte, if_pos himm, hbytes i (by simp only [zoneBytes]; omega)]
  · have hq := hsound.mapped (Nat.lt_of_lt_of_le hi hmax)
    rw [fileByte, if_neg (not_immediate hreg), readMap_slot hsound.scale hmap hq, ← hg i hq]
    rfl

/-! ## Runs -/

/-- The replies to a run of writes for which there were zones, and the state
    after it. -/
inductive Wrote (env : Env sb) (st₀ : Mfs) : List Write → List Reply → Mfs → Prop where
  | new : Wrote env st₀ [] [] st₀
  | write {ws : List Write} {rs : List Reply} {st st' : Mfs} {w : Write} {reply : Reply}
      (hrun : Wrote env st₀ ws rs st) (hserve : serve env st w = .ok (reply, st'))
      (hzones : reply.r ≠ enospc) : Wrote env st₀ (ws ++ [w]) (rs ++ [reply]) st'

theorem wrote_represents (hsound : Sound env) {st₀ : Mfs} (hnew : NewFile st₀) {ws : List Write}
    {rs : List Reply} (hrun : Wrote env st₀ ws rs st) (hmax : ∀ w ∈ ws, w.stop ≤ sb.maxSize) :
    Represents sb st (Sparse.empty.writes ws) ∧ rs = ws.map (fun w => ⟨ok, w.stop, w.len⟩) ∧
      (inodeType st.inode = iImmediate ↔ ∀ w ∈ ws, w.stop ≤ 32) := by
  induction hrun with
  | new => exact ⟨new_represents hnew, rfl, iff_of_true hnew.type (by simp)⟩
  | write hrun hserve hzones ih =>
      rename_i ws rs st st' w reply
      obtain ⟨hrep, hreplies, htype⟩ := ih (fun w hw => hmax w (List.mem_append_left _ hw))
      obtain ⟨x, hx, hout⟩ := serve_represents hsound hrep (hmax w (by simp))
      obtain rfl : (reply, st') = x := Except.ok.inj (hserve.symm.trans hx)
      obtain ⟨hreply, hrep', htype'⟩ := hout.resolve_left hzones
      have hreply : reply = ⟨ok, w.stop, w.len⟩ := hreply
      refine ⟨?_, ?_, ?_⟩
      · rw [Sparse.writes_append]
        exact hrep'
      · rw [List.map_append, hreplies, hreply]
        rfl
      · rw [htype', htype]
        simp [or_imp, forall_and]

/-- **WRITES ARE FAITHFUL**: after any run of writes to a new file, each of
    which found zones, the size is the largest end of a write, the bytes are
    those of the sparse file that the writes overlay, the inode is immediate
    as long as no write has ended behind byte 32 and regular from then on, every
    write was reported in full with its new position, and the next one will be
    answered. -/
theorem writes_faithful (hsound : Sound env) {st₀ : Mfs} (hnew : NewFile st₀) {ws : List Write}
    {rs : List Reply} (hrun : Wrote env st₀ ws rs st) (hmax : ∀ w ∈ ws, w.stop ≤ sb.maxSize) :
    st.inode.size = maxStop ws ∧
    (∀ i, i < maxStop ws → fileByte sb st i = .ok ((Sparse.empty.writes ws).byte i)) ∧
    (inodeType st.inode = iImmediate ↔ ∀ w ∈ ws, w.stop ≤ 32) ∧
    (inodeType st.inode = iRegular ↔ ∃ w ∈ ws, 32 < w.stop) ∧
    rs = ws.map (fun w => ⟨ok, w.stop, w.len⟩) ∧
    ∀ w : Write, w.stop ≤ sb.maxSize → ∃ x, serve env st w = .ok x := by
  obtain ⟨hrep, hreplies, htype⟩ := wrote_represents hsound hnew hrun hmax
  have hsize : (Sparse.empty.writes ws).size = maxStop ws := by
    rw [Sparse.writes_size]
    exact Nat.zero_max _
  refine ⟨?_, fun i hi => ?_, htype, ?_, hreplies, fun w hw => ?_⟩
  · rw [hrep.size, hsize]
  · exact represents_byte hsound hrep (by rw [hsize]; exact hi)
  · rcases hrep.layout with ⟨himm, -⟩ | ⟨hreg, -⟩
    · refine iff_of_false (by rw [himm]; decide) ?_
      rintro ⟨w, hw, hgt⟩
      exact absurd (htype.mp himm w hw) (by omega)
    · refine iff_of_true hreg ?_
      by_contra hnone
      have himm := htype.mpr (fun w hw => Nat.le_of_not_lt (fun hgt => hnone ⟨w, hw, hgt⟩))
      rw [hreg] at himm
      exact absurd himm (by decide)
  · obtain ⟨x, hx, -⟩ := serve_represents hsound hrep hw
    exact ⟨x, hx⟩

end Serve

theorem calm_sound : Sound (calm smallDisk) where
  scale := rfl
  writable := rfl
  reach := by decide
  copies := fun _ _ _ => rfl
  cache := fun _ => rfl

theorem newFile_new : NewFile newFile where
  type := by decide
  size := rfl
  zones := fun i _ => word_eq_zero.mpr (fun _ _ => rfl)

/-- Two bytes at the start, then five across byte 32. -/
theorem writes_faithful_run : ∃ st, Wrote (calm smallDisk) newFile
    [⟨0, 2, fun _ => 97⟩, ⟨30, 5, fun _ => 98⟩] [⟨ok, 2, 2⟩, ⟨ok, 35, 5⟩] st ∧
    st.inode.size = 35 ∧ inodeType st.inode = iRegular ∧
    fileByte smallDisk st 1 = .ok 97 ∧ fileByte smallDisk st 20 = .ok 0 := by
  have h1 : (serve (calm smallDisk) newFile ⟨0, 2, fun _ => 97⟩).toOption.map Prod.fst =
      some ⟨ok, 2, 2⟩ := by decide
  have h2 : (do
      let x ← serve (calm smallDisk) newFile ⟨0, 2, fun _ => 97⟩
      serve (calm smallDisk) x.2 ⟨30, 5, fun _ => 98⟩).toOption.map Prod.fst =
      some ⟨ok, 35, 5⟩ := by decide
  obtain ⟨⟨r₁, st₁⟩, hs₁, hr₁⟩ := Option.map_eq_some_iff.mp h1
  obtain ⟨⟨r₂, st₂⟩, hs₂, hr₂⟩ := Option.map_eq_some_iff.mp h2
  obtain rfl : r₁ = ⟨ok, 2, 2⟩ := hr₁
  obtain rfl : r₂ = ⟨ok, 35, 5⟩ := hr₂
  have hs₁ := mem_toOption.mp hs₁
  obtain ⟨x, hx, hs₂⟩ := bind_ok.mp (mem_toOption.mp hs₂)
  obtain rfl : (⟨ok, 2, 2⟩, st₁) = x := Except.ok.inj (hs₁.symm.trans hx)
  have hrun : Wrote (calm smallDisk) newFile [⟨0, 2, fun _ => 97⟩, ⟨30, 5, fun _ => 98⟩]
      [⟨ok, 2, 2⟩, ⟨ok, 35, 5⟩] st₂ :=
    .write (.write .new hs₁ (by decide)) hs₂ (by decide)
  obtain ⟨hsize, hbytes, -, hregular, -⟩ := writes_faithful calm_sound newFile_new hrun (by
    intro w hw
    rcases List.mem_cons.mp hw with rfl | hw
    · decide
    · rw [List.mem_singleton.mp hw]
      decide)
  exact ⟨st₂, hrun, hsize, hregular.mpr ⟨_, List.mem_cons_of_mem _ (List.mem_singleton_self _),
    by decide⟩, hbytes 1 (by decide), hbytes 20 (by decide)⟩

end MfsWrite
