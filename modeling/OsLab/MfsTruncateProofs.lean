import OsLab.MfsFreeProofs
import OsLab.MfsWriteProofs

/-! # Bytes behind a truncation

    Truncating a file to nothing frees its data through `write_map`, which
    leaves immediate files alone: their bytes stay in `i_zone`, behind a size
    of zero.  They are part of the file again when a later write in the inode
    starts behind them, or when the file is truncated to a larger size.

    Regular files lose their bytes with their zones, and a conversion copies
    only those below the size.  One that was lengthened in the inode may be left
    with the size 0 by it, and bytes behind.  So in a run of writes and
    truncations every byte that was not written since it was cut off reads as
    zero exactly when no step moves the end over a stored byte that is none, or
    out of `i_zone` (`cut_bytes_exact`). -/

namespace MfsTruncate

open OsBytes OsLoop WordTree MfsModel MfsImmediate MfsConvert MfsZoneMap MfsChunk MfsFree MfsWrite

/-! ## Truncation -/

/-- Set the size, and the marks of a change. -/
def resize (st : Mfs) (length : Nat) : Mfs :=
  { st with inode := { st.inode with
      size := length
      dirty := true
      update := { st.inode.update with ctime := true, mtime := true } } }

/-- What MFS's truncation does when it succeeds.  To nothing, it frees data
    only through `write_map`, at positions in every block below the size, and
    sets the size.  To a length, it sets the size of an immediate file and
    knows nothing of bytes in the inode; a regular file keeps its bytes up to
    the length, and has zeros where it had none. -/
structure Truncation {sb : Super} (env : Env sb) where
  run : Mfs → Nat → Except Fault Mfs
  positions : Mfs → List Nat
  below : ∀ st p, p ∈ positions st → (p : Int) < st.inode.size
  covers : ∀ st (i : Nat), (i : Int) < st.inode.size →
    ∃ p ∈ positions st, i / sb.blockSize = p / sb.blockSize
  zero : ∀ {st st'}, run st 0 = .ok st' →
    ∃ st₁, freeAll env st (positions st) = .ok st₁ ∧ st' = resize st₁ 0
  immediate : ∀ {st st' length}, run st length = .ok st' → 0 < length →
    inodeType st.inode = iImmediate → st'.inode = (resize st length).inode
  regular : ∀ {st st' length f}, run st length = .ok st' → 0 < length → length ≤ sb.maxSize →
    inodeType st.inode = iRegular → Represents sb st f →
    Represents sb st' (f.truncate length) ∧ inodeType st'.inode = iRegular

/-- One that keeps the bytes of a regular file up to the length also when it
    has some behind its end. -/
structure Keeping {sb : Super} (env : Env sb) extends Truncation env where
  keeps : ∀ {st st' length n g}, run st length = .ok st' → 0 < length → length ≤ sb.maxSize →
    inodeType st.inode = iRegular → st.inode.size = (n : Nat) → n ≤ sb.maxSize → MapOk sb st →
    Holds sb st g → inodeType st'.inode = iRegular ∧ st'.inode.size = length ∧ MapOk sb st' ∧
      ∃ g', Holds sb st' g' ∧ ∀ i, i < length → g' i = g i

/-! ## Runs -/

/-- The server, and the offsets that were written since the file was last
    truncated to them or below. -/
structure Traced where
  mfs : Mfs
  written : Nat → Prop

inductive Op where
  | write (w : Write)
  | truncate (length : Nat)

/-- An operation that succeeds.  A single write asks for no more than the
    largest file, and no truncation does. -/
def Does {sb : Super} (env : Env sb) (tr : Truncation env) (s : Traced) :
    Op → Traced → Prop
  | .write w, s' => w.len ≤ sb.maxSize ∧
      (∃ reply, serve env s.mfs w = .ok (reply, s'.mfs) ∧ reply.r = ok) ∧
      ∀ x, s'.written x ↔ s.written x ∨ (w.pos ≤ x ∧ x < w.stop)
  | .truncate length, s' => length ≤ sb.maxSize ∧ tr.run s.mfs length = .ok s'.mfs ∧
      ∀ x, s'.written x ↔ s.written x ∧ x < length

/-- The byte that a read finds: a file in the inode is copied out of the 40
    bytes of `i_zone`, into a buffer of as many. -/
def storedByte (sb : Super) (st : Mfs) (i : Nat) : Except Fault UInt8 :=
  if inodeType st.inode = iImmediate ∧ zoneBytes ≤ i then .error .overrun
  else fileByte sb st i

/-- Every byte of the file that was not written reads as zero. -/
def CutReadsZero (sb : Super) (s : Traced) : Prop :=
  ∀ x : Nat, (x : Int) < s.mfs.inode.size → ¬ s.written x → storedByte sb s.mfs x = .ok 0

/-- The bytes behind the end and before `stop` that were not written are
    stored as zeros. -/
def ZeroUpTo (sb : Super) (s : Traced) (stop : Nat) : Prop :=
  ∀ x : Nat, s.mfs.inode.size ≤ x → x < stop → ¬ s.written x → storedByte sb s.mfs x = .ok 0

/-- The operation does not move the end of the file over a stored byte that is
    not zero.  A conversion takes no such byte along. -/
def Unexposed (sb : Super) (s : Traced) : Op → Prop
  | .write w => ¬ (inodeType s.mfs.inode = iImmediate ∧ 32 < w.stop) → ZeroUpTo sb s w.pos
  | .truncate length => ZeroUpTo sb s length

/-- The file is immediate, with nothing written behind byte 32, or regular with
    its bytes in its zones. -/
structure Sized (sb : Super) (s : Traced) : Prop where
  size : ∃ n : Nat, s.mfs.inode.size = n ∧ n ≤ sb.maxSize
  file : (inodeType s.mfs.inode = iImmediate ∧ ∀ x, s.written x → x < 32) ∨
    (inodeType s.mfs.inode = iRegular ∧ MapOk sb s.mfs ∧ ∃ g, Holds sb s.mfs g)

section Step

variable {sb : Super} {env : Env sb} {tr : Keeping env} {s s' : Traced} {n x : Nat} {g g' : Mem}

/-- The bytes of an immediate file. -/
theorem stored_immediate {st : Mfs} (himm : inodeType st.inode = iImmediate) (hx : x < zoneBytes) :
    storedByte sb st x = .ok (st.inode.zone x) := by
  rw [storedByte, if_neg (by omega), fileByte, if_pos himm]

/-- The bytes of a regular file. -/
theorem stored_regular {st : Mfs} (hsound : Sound env) (hreg : inodeType st.inode = iRegular)
    (hmap : MapOk sb st) (hg : Holds sb st g) (hx : x < sb.maxSize) :
    storedByte sb st x = .ok (g x) := by
  have hq := hsound.mapped hx
  rw [storedByte, if_neg (fun h => not_immediate hreg h.1), fileByte, if_neg (not_immediate hreg),
    readMap_slot hsound.scale hmap hq, ← hg x hq]
  rfl

/-- An immediate file that reads right has room for its bytes. -/
theorem fits_zone (himm : inodeType s.mfs.inode = iImmediate) (hsize : s.mfs.inode.size = n)
    (hold : ∀ x, s.written x → x < 32) (hzero : CutReadsZero sb s) : n ≤ zoneBytes := by
  by_contra hbig
  have hnot : ¬ s.written zoneBytes := by
    intro hw
    have hlt := hold zoneBytes hw
    simp only [zoneBytes] at hlt
    omega
  have hread := hzero zoneBytes (by omega) hnot
  rw [storedByte, if_pos ⟨himm, le_refl zoneBytes⟩] at hread
  cases hread

/-! ## Writes -/

/-- A write that succeeds ends within the maximum file size. -/
theorem serve_stop (hsound : Sound env) {st st' : Mfs} {w : Write} {reply : Reply}
    (hlen : w.len ≤ sb.maxSize) (hrun : serve env st w = .ok (reply, st')) (hok : reply.r = ok) :
    w.stop ≤ sb.maxSize := by
  by_contra hbig
  obtain ⟨-, early, hearly, h⟩ := fsReadwrite_ok.mp hrun
  have hpos : (w.pos : Int) > (u32 ((sb.maxSize : Int) - (w.len : Int)) : Int) := by
    rw [u32_room hlen]
    simp only [Write.stop] at hbig
    omega
  have hrefused : early = some efbig := by
    rw [writeCheck, if_pos rfl, if_neg (by rw [hsound.writable]; decide)] at hearly
    rw [if_pos hpos] at hearly
    exact (Except.ok.inj hearly).symm
  rw [hrefused] at h
  obtain ⟨rfl, -⟩ := Prod.mk.inj h
  exact absurd hok (by decide)

/-- Writing into the inode overlays its bytes, and moves the end. -/
theorem write_inode_step (hsound : Sound env) {w : Write} {reply : Reply}
    (himm : inodeType s.mfs.inode = iImmediate) (hsize : s.mfs.inode.size = n)
    (hmaxn : n ≤ sb.maxSize) (hold : ∀ x, s.written x → x < 32) (hzero : CutReadsZero sb s)
    (hmax : w.stop ≤ sb.maxSize) (hfit : w.stop ≤ 32)
    (hrun : serve env s.mfs w = .ok (reply, s'.mfs))
    (hwritten : ∀ x, s'.written x ↔ s.written x ∨ (w.pos ≤ x ∧ x < w.stop)) :
    Sized sb s' ∧ (CutReadsZero sb s' ↔ ZeroUpTo sb s w.pos) := by
  obtain ⟨st', hserve, himm', hsize', hzone⟩ := serve_inode hsound himm hsize hmax hfit
  obtain rfl : s'.mfs = st' := congrArg Prod.snd (Except.ok.inj (hrun.symm.trans hserve))
  have hroom := fits_zone himm hsize hold hzero
  have hstop : w.stop = w.pos + w.len := rfl
  -- a byte outside the write is the one that was there
  have hkept : ∀ x, x < zoneBytes → x < w.pos ∨ w.stop ≤ x →
      storedByte sb s'.mfs x = storedByte sb s.mfs x := by
    intro x hx hout
    rw [stored_immediate himm' hx, stored_immediate himm hx, hzone, overlay_out (by omega)]
  refine ⟨⟨⟨max n w.stop, hsize', by omega⟩, Or.inl ⟨himm', fun x hx => ?_⟩⟩, ?_⟩
  · rcases (hwritten x).mp hx with hx | ⟨-, hx⟩
    · exact hold x hx
    · omega
  rw [CutReadsZero, hsize']
  simp only [zoneBytes] at hroom hkept
  constructor
  · intro hall x hx hlt hnot
    rw [← hkept x (by omega) (Or.inl hlt)]
    refine hall x (by omega) fun hw => ?_
    rcases (hwritten x).mp hw with hw | ⟨hge, -⟩
    · exact hnot hw
    · omega
  · intro hup x hx hnot
    rw [hwritten, not_or] at hnot
    rw [hkept x (by omega) (by omega)]
    by_cases hlt : x < n
    · exact hzero x (by omega) hnot.1
    · exact hup x (by omega) (by omega) hnot.1

/-- A conversion brings nothing up. -/
theorem write_growing_step (hsound : Sound env) {w : Write} {reply : Reply}
    (himm : inodeType s.mfs.inode = iImmediate) (hsize : s.mfs.inode.size = n)
    (hold : ∀ x, s.written x → x < 32) (hzero : CutReadsZero sb s)
    (hmax : w.stop ≤ sb.maxSize) (hgrow : 32 < w.stop)
    (hrun : serve env s.mfs w = .ok (reply, s'.mfs)) (hok : reply.r = ok)
    (hwritten : ∀ x, s'.written x ↔ s.written x ∨ (w.pos ≤ x ∧ x < w.stop)) :
    Sized sb s' ∧ CutReadsZero sb s' := by
  have hroom := fits_zone himm hsize hold hzero
  obtain ⟨y, hy, hland⟩ := growing_lands hsound himm hsize hroom hmax hgrow
  obtain rfl : (reply, s'.mfs) = y := Except.ok.inj (hrun.symm.trans hy)
  rcases hland with hno | ⟨-, hreg, hsize', hmap, g, hg, hover⟩
  · exact absurd (hok.symm.trans hno) (by decide)
  dsimp only at hreg hsize' hmap hg
  have hend : s'.mfs.inode.size = (if w.stop > n then w.stop else 0 : Nat) := by
    rw [hsize']
    split <;> split <;> omega
  refine ⟨⟨⟨_, hend, by split <;> omega⟩, Or.inr ⟨hreg, hmap, g, hg⟩⟩, fun x hx hnot => ?_⟩
  rw [hwritten, not_or] at hnot
  rw [hend] at hx
  have hstop : x < w.stop ∧ n < w.stop := by
    split at hx
    · omega
    · omega
  rw [stored_regular hsound hreg hmap hg (by omega), hover.before x (by omega)]
  refine congrArg Except.ok ?_
  by_cases hlt : x < n
  · have hread := hzero x (by omega) hnot.1
    rw [stored_immediate himm (by omega)] at hread
    exact (if_pos hlt).trans (Except.ok.inj hread)
  · exact if_neg hlt

/-- A write to a regular file overlays its bytes, and moves the end. -/
theorem write_regular_step (hsound : Sound env) {w : Write} {reply : Reply}
    (hreg : inodeType s.mfs.inode = iRegular) (hmap : MapOk sb s.mfs) (hg : Holds sb s.mfs g)
    (hsize : s.mfs.inode.size = n) (hmaxn : n ≤ sb.maxSize) (hzero : CutReadsZero sb s)
    (hmax : w.stop ≤ sb.maxSize) (hrun : serve env s.mfs w = .ok (reply, s'.mfs))
    (hok : reply.r = ok)
    (hwritten : ∀ x, s'.written x ↔ s.written x ∨ (w.pos ≤ x ∧ x < w.stop)) :
    Sized sb s' ∧ (CutReadsZero sb s' ↔ ZeroUpTo sb s w.pos) := by
  obtain ⟨y, hy, hland⟩ := regular_lands hsound hreg hmap hg hmax
  obtain rfl : (reply, s'.mfs) = y := Except.ok.inj (hrun.symm.trans hy)
  rcases hland with hno | ⟨-, hreg', hsize', hmap', g', hg', hover⟩
  · exact absurd (hok.symm.trans hno) (by decide)
  dsimp only at hreg' hsize' hmap' hg'
  have hend : s'.mfs.inode.size = (max n w.stop : Nat) := by
    rw [hsize', hsize]
    split <;> omega
  have hstop : w.stop = w.pos + w.len := rfl
  refine ⟨⟨⟨_, hend, by omega⟩, Or.inr ⟨hreg', hmap', g', hg'⟩⟩, ?_⟩
  rw [CutReadsZero, hend]
  constructor
  · intro hall x hx hlt hnot
    have hread := hall x (by omega) (fun hw => by
      rcases (hwritten x).mp hw with hw | ⟨hge, -⟩
      · exact hnot hw
      · omega)
    rw [stored_regular hsound hreg' hmap' hg' (by omega), hover.before x hlt] at hread
    rw [stored_regular hsound hreg hmap hg (by omega)]
    exact hread
  · intro hup x hx hnot
    rw [hwritten, not_or] at hnot
    have hold : x < n ∨ x < w.pos → g x = 0 := by
      intro hin
      have hread : storedByte sb s.mfs x = .ok 0 := by
        by_cases hlt : x < n
        · exact hzero x (by omega) hnot.1
        · exact hup x (by omega) (by omega) hnot.1
      rw [stored_regular hsound hreg hmap hg (by omega)] at hread
      exact Except.ok.inj hread
    rw [stored_regular hsound hreg' hmap' hg' (by omega)]
    refine congrArg Except.ok ?_
    by_cases hlt : x < w.pos
    · rw [hover.before x hlt]
      exact hold (Or.inr hlt)
    · -- behind the write, and so below the old end
      rcases hover.behind x (by omega) with hsame | ⟨hgone, -⟩
      · rw [hsame]
        exact hold (Or.inl (by omega))
      · exact hgone

theorem unexposed_write {w : Write} (h : ¬ (inodeType s.mfs.inode = iImmediate ∧ 32 < w.stop)) :
    Unexposed sb s (.write w) ↔ ZeroUpTo sb s w.pos :=
  ⟨fun hun => hun h, fun hup _ => hup⟩

/-- **A WRITE** brings up nothing that was cut off exactly when it is not behind
    a byte left there. -/
theorem write_step (hsound : Sound env) {w : Write} (hsized : Sized sb s)
    (hzero : CutReadsZero sb s) (hdoes : Does env tr.toTruncation s (.write w) s') :
    Sized sb s' ∧ (CutReadsZero sb s' ↔ Unexposed sb s (.write w)) := by
  obtain ⟨hlen, ⟨reply, hrun, hok⟩, hwritten⟩ := hdoes
  have hmax := serve_stop hsound hlen hrun hok
  obtain ⟨n, hsize, hmaxn⟩ := hsized.size
  rcases hsized.file with ⟨himm, hold⟩ | ⟨hreg, hmap, g, hg⟩
  · by_cases hfit : w.stop ≤ 32
    · obtain ⟨hsized', hiff⟩ := write_inode_step hsound himm hsize hmaxn hold hzero hmax hfit hrun
        hwritten
      exact ⟨hsized', hiff.trans (unexposed_write fun h => absurd h.2 (by omega)).symm⟩
    · obtain ⟨hsized', hzero'⟩ := write_growing_step hsound himm hsize hold hzero hmax
        (Nat.lt_of_not_le hfit) hrun hok hwritten
      exact ⟨hsized', iff_of_true hzero' fun h => absurd ⟨himm, Nat.lt_of_not_le hfit⟩ h⟩
  · obtain ⟨hsized', hiff⟩ := write_regular_step hsound hreg hmap hg hsize hmaxn hzero hmax hrun hok
      hwritten
    exact ⟨hsized', hiff.trans (unexposed_write fun h => not_immediate hreg h.1).symm⟩

/-! ## Truncations -/

/-- Where the bytes below the new end are what they were, those brought up were
    behind the old one. -/
theorem resized_step {length : Nat} (hsize' : s'.mfs.inode.size = length)
    (hkept : ∀ x, x < length → storedByte sb s'.mfs x = storedByte sb s.mfs x)
    (hzero : CutReadsZero sb s) (hwritten : ∀ x, s'.written x ↔ s.written x ∧ x < length) :
    CutReadsZero sb s' ↔ Unexposed sb s (.truncate length) := by
  rw [CutReadsZero, hsize']
  constructor
  · intro hall x _ hlt hnot
    rw [← hkept x hlt]
    exact hall x (by omega) fun hw => hnot ((hwritten x).mp hw).1
  · intro hup x hx hnot
    have hlt : x < length := by omega
    have hnot₀ : ¬ s.written x := fun hw => hnot ((hwritten x).mpr ⟨hw, hlt⟩)
    rw [hkept x hlt]
    by_cases hin : (x : Int) < s.mfs.inode.size
    · exact hzero x hin hnot₀
    · exact hup x (by omega) hlt hnot₀

/-- Truncating an immediate file moves its end, over what is in `i_zone`. -/
theorem truncate_immediate {st st' : Mfs} {length : Nat} (himm : inodeType st.inode = iImmediate)
    (hrun : tr.run st length = .ok st') : st'.inode = (resize st length).inode := by
  rcases Nat.eq_zero_or_pos length with rfl | hlen
  · -- `write_map` reports success and frees nothing
    obtain ⟨st₁, hfree, heq⟩ := tr.zero hrun
    rw [freeAll_immediate env himm] at hfree
    cases hfree
    rw [heq]
  · exact tr.immediate hrun hlen himm

/-- Truncating a regular file to nothing frees its zones. -/
theorem zero_frees (hsound : Sound env) {cut : Truncation env} {st st' : Mfs}
    (hreg : inodeType st.inode = iRegular) (hmap : MapOk sb st) (hg : Holds sb st g)
    (hsize : st.inode.size = n) (hmaxn : n ≤ sb.maxSize) (hrun : cut.run st 0 = .ok st') :
    inodeType st'.inode = iRegular ∧ st'.inode.size = 0 ∧ MapOk sb st' ∧ Holds sb st'
      (fun i => if ∃ p ∈ cut.positions st, i / sb.blockSize = p / sb.blockSize then 0 else g i) := by
  obtain ⟨st₁, hfree, rfl⟩ := cut.zero hrun
  have hmapped : ∀ p ∈ cut.positions st, p / sb.blockSize < capacity sb := by
    intro p hp
    have hlt := cut.below st p hp
    rw [hsize] at hlt
    exact hsound.mapped (by omega)
  obtain ⟨st₂, hfree', hmap', hsteady, hholds'⟩ :=
    freeAll_holds env hsound.scale hmap hg (not_immediate hreg) hmapped
  obtain rfl : st₁ = st₂ := Except.ok.inj (hfree.symm.trans hfree')
  have hreg' : inodeType st₁.inode = iRegular := by
    rw [inodeType, hsteady.mode]
    exact hreg
  exact ⟨hreg', rfl, hmap', hholds'⟩

/-- The sparse file holds no byte then. -/
theorem truncate_zero (hsound : Sound env) {cut : Truncation env} {f : Sparse} {st st' : Mfs}
    (hreg : inodeType st.inode = iRegular) (hrep : Represents sb st f)
    (hrun : cut.run st 0 = .ok st') :
    Represents sb st' (f.truncate 0) ∧ inodeType st'.inode = iRegular := by
  obtain ⟨hmap, hg⟩ := hrep.in_zones hreg
  obtain ⟨hreg', hsize', hmap', hg'⟩ := zero_frees hsound hreg hmap hg hrep.size hrep.max hrun
  refine ⟨⟨hsize', Nat.zero_le _, Or.inr ⟨hreg', hmap', fun i hi => (hg' i hi).trans ?_⟩⟩, hreg'⟩
  show (if ∃ p ∈ cut.positions st, i / sb.blockSize = p / sb.blockSize then 0 else f.byte i) = 0
  by_cases hgone : ∃ p ∈ cut.positions st, i / sb.blockSize = p / sb.blockSize
  · exact if_pos hgone
  · -- nothing was freed there, because it is behind the end
    rw [if_neg hgone]
    refine f.beyond i ?_
    by_contra hlt
    exact hgone (cut.covers st i (by rw [hrep.size]; omega))

/-- A regular file keeps the bytes below the length. -/
theorem truncate_regular (hsound : Sound env) {st st' : Mfs} {length : Nat}
    (hreg : inodeType st.inode = iRegular) (hmap : MapOk sb st) (hg : Holds sb st g)
    (hsize : st.inode.size = n) (hmaxn : n ≤ sb.maxSize) (hlen : length ≤ sb.maxSize)
    (hrun : tr.run st length = .ok st') : inodeType st'.inode = iRegular ∧
      st'.inode.size = length ∧ MapOk sb st' ∧ ∃ g', Holds sb st' g' ∧
        ∀ i, i < length → g' i = g i := by
  rcases Nat.eq_zero_or_pos length with rfl | hpos
  · obtain ⟨hreg', hsize', hmap', hg'⟩ := zero_frees hsound hreg hmap hg hsize hmaxn hrun
    exact ⟨hreg', hsize', hmap', _, hg', fun i hi => absurd hi (Nat.not_lt_zero i)⟩
  · exact tr.keeps hrun hpos hlen hreg hsize hmaxn hmap hg

/-- **A TRUNCATION** brings up nothing that was cut off exactly when it does not
    lengthen the file over a byte left there. -/
theorem truncate_step (hsound : Sound env) {length : Nat} (hsized : Sized sb s)
    (hzero : CutReadsZero sb s) (hdoes : Does env tr.toTruncation s (.truncate length) s') :
    Sized sb s' ∧ (CutReadsZero sb s' ↔ Unexposed sb s (.truncate length)) := by
  obtain ⟨hmax, hrun, hwritten⟩ := hdoes
  obtain ⟨n, hsize, hmaxn⟩ := hsized.size
  rcases hsized.file with ⟨himm, hold⟩ | ⟨hreg, hmap, g, hg⟩
  · have hinode := truncate_immediate himm hrun
    have himm' : inodeType s'.mfs.inode = iImmediate := by rw [hinode]; exact himm
    have hsize' : s'.mfs.inode.size = length := by rw [hinode]; rfl
    refine ⟨⟨⟨length, hsize', hmax⟩, Or.inl ⟨himm', fun x hx => hold x ((hwritten x).mp hx).1⟩⟩,
      resized_step hsize' (fun x _ => ?_) hzero hwritten⟩
    have hzone : s'.mfs.inode.zone = s.mfs.inode.zone := by rw [hinode]; rfl
    simp only [storedByte, fileByte, himm, himm', hzone, if_true]
  · obtain ⟨hreg', hsize', hmap', g', hg', hkept⟩ :=
      truncate_regular hsound hreg hmap hg hsize hmaxn hmax hrun
    refine ⟨⟨⟨length, hsize', hmax⟩, Or.inr ⟨hreg', hmap', g', hg'⟩⟩,
      resized_step hsize' (fun x hx => ?_) hzero hwritten⟩
    rw [stored_regular hsound hreg' hmap' hg' (by omega),
      stored_regular hsound hreg hmap hg (by omega), hkept x hx]

end Step

/-! ## A truncation zone by zone -/

/-- Where the zones start that lie from `start` to `stop`. -/
def zoneStarts (sb : Super) (start stop : Nat) : List Nat :=
  ((List.range (stop / sb.blockSize + 1)).map (fun k => k * sb.blockSize)).filter
    (fun p => start ≤ p ∧ p < stop)

/-- Zero the rest of the block of `length`. -/
def zeroHalf (sb : Super) (st : Mfs) (length : Nat) : Except Fault Mfs := do
  let b ← readMap sb st.inode st.blocks length
  .ok (if b = noBlock then st
    else st.putBlock b (overlay (st.blocks b) (length % sb.blockSize)
      (sb.blockSize - length % sb.blockSize) (fun _ => 0)))

/-- Zero what is left of a zone that the new end is in. -/
def zeroEnd (sb : Super) (st : Mfs) (length : Nat) : Except Fault Mfs :=
  if length % sb.blockSize = 0 then .ok st else zeroHalf sb st length

/-- Shorten a file to `length`. -/
def freeSpace {sb : Super} (env : Env sb) (st : Mfs) (length : Nat) : Except Fault Mfs := do
  freeAll env (← zeroEnd sb st length) (zoneStarts sb length st.inode.size.toNat)

/-- A truncation that frees and zeroes what is behind the new end. -/
def truncateInode {sb : Super} (env : Env sb) (st : Mfs) (length : Nat) : Except Fault Mfs :=
  if st.inode.size ≤ length ∨ (inodeType st.inode = iImmediate ∧ 0 < length) then
    .ok (resize st length)
  else do
    .ok (resize (← freeSpace env st length) length)

section Truncate

variable {sb : Super} {env : Env sb} {st : Mfs} {f : Sparse} {g : Mem} {n : Nat}

theorem mem_zoneStarts {start stop p : Nat} : p ∈ zoneStarts sb start stop ↔
    ∃ k, p = k * sb.blockSize ∧ start ≤ p ∧ p < stop := by
  have hmin := sb.minBlock
  simp only [zoneStarts, List.mem_filter, List.mem_map, List.mem_range, decide_eq_true_eq]
  constructor
  · rintro ⟨⟨k, -, rfl⟩, hp⟩
    exact ⟨k, rfl, hp⟩
  · rintro ⟨k, rfl, hstart, hstop⟩
    refine ⟨⟨k, ?_, rfl⟩, hstart, hstop⟩
    have hk : k ≤ stop / sb.blockSize := (Nat.le_div_iff_mul_le (by omega)).mpr (by omega)
    omega

/-- The byte at `i` is in one of the zones. -/
theorem start_mem {start stop i : Nat} (hstart : start ≤ i / sb.blockSize * sb.blockSize)
    (hi : i < stop) : ∃ p ∈ zoneStarts sb start stop, i / sb.blockSize = p / sb.blockSize := by
  have hmin := sb.minBlock
  have hle := Nat.div_mul_le_self i sb.blockSize
  refine ⟨i / sb.blockSize * sb.blockSize, mem_zoneStarts.mpr ⟨_, rfl, hstart, by omega⟩, ?_⟩
  rw [Nat.mul_div_cancel _ (by omega)]

/-- Bytes before the first of them are in none. -/
theorem start_le {start stop i p : Nat} (hp : p ∈ zoneStarts sb start stop)
    (hsame : i / sb.blockSize = p / sb.blockSize) : start ≤ i := by
  have hmin := sb.minBlock
  obtain ⟨k, rfl, hstart, -⟩ := mem_zoneStarts.mp hp
  rw [Nat.mul_div_cancel _ (by omega)] at hsame
  have hle := Nat.div_mul_le_self i sb.blockSize
  rw [hsame] at hle
  omega

/-- The rest of a block is zeroed. -/
theorem zeroHalf_holds (hsound : Sound env) {length : Nat} (hmap : MapOk sb st)
    (hg : Holds sb st g) (hq : length / sb.blockSize < capacity sb) :
    ∃ st', zeroHalf sb st length = .ok st' ∧ MapOk sb st' ∧ st'.inode = st.inode ∧
      Holds sb st' (fun i =>
        if i / sb.blockSize = length / sb.blockSize ∧ length ≤ i then 0 else g i) := by
  have hmin := sb.minBlock
  have hread := readMap_slot hsound.scale hmap hq
  obtain ⟨b, hb⟩ : ∃ b, val (store st) (leafSlot sb (length / sb.blockSize)) = b := ⟨_, rfl⟩
  rw [hb] at hread
  have hrun : zeroHalf sb st length = .ok (if b = noBlock then st
      else st.putBlock b (overlay (st.blocks b) (length % sb.blockSize)
        (sb.blockSize - length % sb.blockSize) (fun _ => 0))) := by
    simp only [zeroHalf, hread]
    rfl
  by_cases hb0 : b = noBlock
  · rw [if_pos hb0] at hrun
    refine ⟨st, hrun, hmap, rfl, fun i hi => ?_⟩
    by_cases hin : i / sb.blockSize = length / sb.blockSize ∧ length ≤ i
    · refine Eq.trans ?_ (if_pos hin).symm
      rw [byteAt, hin.1, hb, hb0]
      rfl
    · exact (hg i hi).trans (if_neg hin).symm
  · rw [if_neg hb0] at hrun
    obtain ⟨hmap', hholds⟩ := putBlock_holds st b (overlay (st.blocks b) (length % sb.blockSize)
        (sb.blockSize - length % sb.blockSize) (fun _ => 0)) (fun i =>
        if i / sb.blockSize = length / sb.blockSize ∧ length ≤ i then 0 else g i) hmap hq hb hb0
      (fun i hi hne => by rw [if_neg (fun h => hne h.1)]; exact hg i hi)
      (fun i hiq => by
        have hi := Nat.div_add_mod i sb.blockSize
        have hl := Nat.div_add_mod length sb.blockSize
        have hlt := Nat.mod_lt i (show 0 < sb.blockSize by omega)
        rw [hiq] at hi
        by_cases hin : length ≤ i
        · rw [if_pos ⟨hiq, hin⟩]
          exact overlay_in (by omega) (by omega)
        · rw [if_neg (fun h => hin h.2), overlay_out (by omega), ← hg i (by rw [hiq]; exact hq),
            byteAt, hiq, hb]
          exact (if_neg hb0).symm)
    exact ⟨_, hrun, hmap', rfl, hholds⟩

/-- What is left in the zone of the new end. -/
theorem zeroEnd_holds (hsound : Sound env) {length : Nat} (hmap : MapOk sb st)
    (hg : Holds sb st g) (hlen : length < sb.maxSize) : ∃ st' g',
      zeroEnd sb st length = .ok st' ∧ MapOk sb st' ∧ st'.inode = st.inode ∧ Holds sb st' g' ∧
      (∀ i, i < length → g' i = g i) ∧
      ∀ i, length ≤ i → i / sb.blockSize * sb.blockSize < length ∨ g i = 0 → g' i = 0 := by
  have hmin := sb.minBlock
  rw [zeroEnd]
  by_cases hedge : length % sb.blockSize = 0
  · -- the end is the end of a zone
    rw [if_pos hedge]
    refine ⟨st, g, rfl, hmap, rfl, hg, fun _ _ => rfl, fun i hi hcase => ?_⟩
    have hmul := Nat.mul_le_mul_right sb.blockSize (Nat.div_le_div_right (c := sb.blockSize) hi)
    rw [Nat.div_mul_cancel (Nat.dvd_of_mod_eq_zero hedge)] at hmul
    exact hcase.resolve_left (by omega)
  · rw [if_neg hedge]
    obtain ⟨st', hhalf, hmap', hinode, hg'⟩ := zeroHalf_holds hsound hmap hg (hsound.mapped hlen)
    refine ⟨st', _, hhalf, hmap', hinode, hg', fun i hi => if_neg (by omega), fun i hi hcase => ?_⟩
    by_cases hin : i / sb.blockSize = length / sb.blockSize
    · exact if_pos ⟨hin, hi⟩
    · refine (if_neg (fun h => hin h.1)).trans (hcase.resolve_left ?_)
      -- a later zone starts behind the end
      have hdiv := Nat.div_le_div_right (c := sb.blockSize) hi
      have hnext := Nat.mul_le_mul_right sb.blockSize
        (show length / sb.blockSize + 1 ≤ i / sb.blockSize by omega)
      have hmod := Nat.div_add_mod' length sb.blockSize
      have hltb := Nat.mod_lt length (show 0 < sb.blockSize by omega)
      rw [Nat.add_mul] at hnext
      omega

/-- **SHORTENING A REGULAR FILE** leaves the bytes below the new end, and zeros
    up to the old one. -/
theorem freeSpace_keeps (hsound : Sound env) {length : Nat} (hmap : MapOk sb st)
    (hg : Holds sb st g) (hreg : inodeType st.inode = iRegular) (hsize : st.inode.size = n)
    (hmax : n ≤ sb.maxSize) (hlt : length < n) :
    ∃ st' g', freeSpace env st length = .ok st' ∧ MapOk sb st' ∧ Steady st st' ∧
      Holds sb st' g' ∧ (∀ i, i < length → g' i = g i) ∧
      ∀ i, length ≤ i → i < n ∨ g i = 0 → g' i = 0 := by
  obtain ⟨st₁, g₁, hhalf, hmap₁, hinode, hg₁, hbelow, hrest⟩ :=
    zeroEnd_holds hsound hmap hg (show length < sb.maxSize by omega)
  -- the zones behind it
  have hpos : ∀ p ∈ zoneStarts sb length n, p / sb.blockSize < capacity sb := by
    intro p hp
    obtain ⟨-, -, -, hstop⟩ := mem_zoneStarts.mp hp
    exact hsound.mapped (by omega)
  obtain ⟨st', hrun, hmap', hsteady, hg'⟩ := freeAll_holds env hsound.scale hmap₁ hg₁
    (by rw [hinode]; exact not_immediate hreg) hpos
  have hfree : freeSpace env st length = .ok st' := by
    rw [freeSpace, hhalf, show st.inode.size.toNat = n by rw [hsize]; rfl]
    exact hrun
  have hsteady' : Steady st st' := ⟨by rw [hsteady.size, hinode], by rw [hsteady.mode, hinode]⟩
  refine ⟨st', _, hfree, hmap', hsteady', hg', fun i hi => ?_, fun i hi hcase => ?_⟩
  · refine (if_neg ?_).trans (hbelow i hi)
    rintro ⟨p, hp, hsame⟩
    exact absurd (start_le hp hsame) (Nat.not_le.mpr hi)
  · by_cases hgone : ∃ p ∈ zoneStarts sb length n, i / sb.blockSize = p / sb.blockSize
    · exact if_pos hgone
    · refine (if_neg hgone).trans (hrest i hi ?_)
      by_contra hbehind
      rw [not_or] at hbehind
      exact hgone (start_mem (by omega) (hcase.resolve_right hbehind.2))

/-- Truncating a regular file keeps its bytes up to the length, and leaves zeros
    behind where there were none. -/
theorem truncateInode_keeps (hsound : Sound env) {st' : Mfs} {length : Nat}
    (hrun : truncateInode env st length = .ok st') (hmap : MapOk sb st) (hg : Holds sb st g)
    (hreg : inodeType st.inode = iRegular) (hsize : st.inode.size = n) (hmax : n ≤ sb.maxSize) :
    inodeType st'.inode = iRegular ∧ st'.inode.size = length ∧ MapOk sb st' ∧
      ∃ g', Holds sb st' g' ∧ (∀ i, i < length → g' i = g i) ∧
        ∀ i, length ≤ i → i < n ∨ g i = 0 → g' i = 0 := by
  rw [truncateInode] at hrun
  by_cases hcase : st.inode.size ≤ length ∨ (inodeType st.inode = iImmediate ∧ 0 < length)
  · rw [if_pos hcase] at hrun
    cases hrun
    have hle : n ≤ length := by
      rcases hcase with hle | ⟨himm, -⟩
      · omega
      · exact absurd himm (not_immediate hreg)
    exact ⟨hreg, rfl, hmap, g, hg, fun _ _ => rfl, fun i hi h => h.resolve_left (by omega)⟩
  · rw [if_neg hcase] at hrun
    obtain ⟨st₁, hfree, hrun⟩ := bind_ok.mp hrun
    cases hrun
    obtain ⟨st₂, g', hfree', hmap', hsteady, hg', hbelow, hbehind⟩ :=
      freeSpace_keeps hsound hmap hg hreg hsize hmax (show length < n by omega)
    obtain rfl : st₁ = st₂ := Except.ok.inj (hfree.symm.trans hfree')
    have hreg' : inodeType st₁.inode = iRegular := by
      rw [inodeType, hsteady.mode]
      exact hreg
    exact ⟨hreg', rfl, hmap', g', hg', hbelow, hbehind⟩

/-- It truncates the sparse file. -/
theorem truncateInode_regular (hsound : Sound env) {st' : Mfs} {length : Nat}
    (hrun : truncateInode env st length = .ok st') (hlen : length ≤ sb.maxSize)
    (hreg : inodeType st.inode = iRegular) (hrep : Represents sb st f) :
    Represents sb st' (f.truncate length) ∧ inodeType st'.inode = iRegular := by
  obtain ⟨hmap, hg⟩ := hrep.in_zones hreg
  obtain ⟨hreg', hsize', hmap', g', hg', hbelow, hbehind⟩ :=
    truncateInode_keeps hsound hrun hmap hg hreg hrep.size hrep.max
  refine ⟨⟨hsize', hlen, Or.inr ⟨hreg', hmap', fun i hi => (hg' i hi).trans ?_⟩⟩, hreg'⟩
  show g' i = if i < length then f.byte i else 0
  by_cases hin : i < length
  · rw [if_pos hin, hbelow i hin]
  · rw [if_neg hin]
    refine hbehind i (by omega) ?_
    by_cases hold : i < f.size
    · exact Or.inl hold
    · exact Or.inr (f.beyond i (by omega))

end Truncate

/-- It is a truncation. -/
def byZones {sb : Super} {env : Env sb} (hsound : Sound env) : Truncation env where
  run := truncateInode env
  positions := fun st => zoneStarts sb 0 st.inode.size.toNat
  below := by
    intro st p hp
    obtain ⟨-, -, -, hstop⟩ := mem_zoneStarts.mp hp
    omega
  covers := fun st i hi => start_mem (Nat.zero_le _) (by omega)
  zero := by
    intro st st' hrun
    rw [truncateInode] at hrun
    by_cases hcase : st.inode.size ≤ (0 : Nat) ∨ (inodeType st.inode = iImmediate ∧ 0 < 0)
    · rw [if_pos hcase] at hrun
      cases hrun
      have hnone : zoneStarts sb 0 st.inode.size.toNat = [] := by
        refine List.eq_nil_iff_forall_not_mem.mpr (fun p hp => ?_)
        obtain ⟨-, -, -, hstop⟩ := mem_zoneStarts.mp hp
        omega
      exact ⟨st, by rw [hnone]; rfl, rfl⟩
    · rw [if_neg hcase] at hrun
      obtain ⟨st₁, hfree, hrun⟩ := bind_ok.mp hrun
      cases hrun
      rw [freeSpace, zeroEnd, if_pos (Nat.zero_mod _)] at hfree
      exact ⟨st₁, hfree, rfl⟩
  immediate := by
    intro st st' length hrun hlen himm
    rw [truncateInode, if_pos (Or.inr ⟨himm, hlen⟩)] at hrun
    cases hrun
    rfl
  regular := fun hrun _ hlen hreg hrep => truncateInode_regular hsound hrun hlen hreg hrep

/-- It keeps what it should. -/
def byZonesKeeping {sb : Super} {env : Env sb} (hsound : Sound env) : Keeping env :=
  { byZones hsound with
    keeps := by
      intro st st' length n g hrun _ _ hreg hsize hmax hmap hg
      obtain ⟨hreg', hsize', hmap', g', hg', hbelow, -⟩ :=
        truncateInode_keeps hsound hrun hmap hg hreg hsize hmax
      exact ⟨hreg', hsize', hmap', g', hg', hbelow⟩ }

/-! ## Runs of writes and truncations -/

/-- **BYTES THAT WERE CUT OFF** stay away throughout a run from an immediate file
    exactly when none of its steps moves the end over a byte left behind it, or
    out of `i_zone`.  The bytes that the file has to begin with count as
    written. -/
theorem cut_bytes_exact {sb : Super} {env : Env sb} (hsound : Sound env) (tr : Keeping env)
    {st₀ : Mfs} {n : Nat} {hist : List (Traced × Op)} {s : Traced}
    (himm : inodeType st₀.inode = iImmediate) (hsize : st₀.inode.size = n) (hn32 : n ≤ 32)
    (hmax : n ≤ sb.maxSize) (hrun : Steps (Does env tr.toTruncation) ⟨st₀, (· < n)⟩ hist s) :
    ((∀ x ∈ hist, CutReadsZero sb x.1) ∧ CutReadsZero sb s) ↔
      ∀ x ∈ hist, Unexposed sb x.1 x.2 := by
  have hstart : Sized sb ⟨st₀, (· < n)⟩ :=
    ⟨⟨n, hsize, hmax⟩, Or.inl ⟨himm, fun x hx => Nat.lt_of_lt_of_le hx hn32⟩⟩
  have hzero : CutReadsZero sb ⟨st₀, (· < n)⟩ := by
    intro x hx hnot
    rw [hsize] at hx
    exact absurd (Int.ofNat_lt.mp hx) hnot
  refine (Steps.exact (fun {s s' q} hI hP hdoes (_ : True) => ?_) hrun (fun _ _ => trivial) hstart
    hzero).1
  cases q with
  | write w => exact write_step hsound hI hP hdoes
  | truncate length => exact truncate_step hsound hI hP hdoes

/-- Five bytes are written to a new file, it is truncated to nothing, and then
    one byte is written at offset 10. -/
theorem cut_and_grown : ∃ s₁ s₂ s₃ : Traced,
    Does (calm smallDisk) (byZones calm_sound) ⟨newFile, (· < 0)⟩ (.write ⟨0, 5, fun _ => 97⟩) s₁ ∧
    Does (calm smallDisk) (byZones calm_sound) s₁ (.truncate 0) s₂ ∧
    Does (calm smallDisk) (byZones calm_sound) s₂ (.write ⟨10, 1, fun _ => 98⟩) s₃ ∧
    s₃.mfs.inode.size = 11 ∧ ¬ s₃.written 3 ∧
    fileByte smallDisk s₃.mfs 3 = .ok 97 := by
  have heval : (do
      let x ← serve (calm smallDisk) newFile ⟨0, 5, fun _ => 97⟩
      let st₂ ← truncateInode (calm smallDisk) x.2 0
      let y ← serve (calm smallDisk) st₂ ⟨10, 1, fun _ => 98⟩
      let b ← fileByte smallDisk y.2 3
      .ok (x.1.r, y.1.r, y.2.inode.size, b)).toOption = some (ok, ok, 11, 97) := by decide
  obtain ⟨x, hx, heval⟩ := bind_ok.mp (mem_toOption.mp heval)
  obtain ⟨st₂, hcut, heval⟩ := bind_ok.mp heval
  obtain ⟨y, hy, heval⟩ := bind_ok.mp heval
  obtain ⟨b, hb, heval⟩ := bind_ok.mp heval
  obtain ⟨hxr, hyr, hsize, rfl⟩ : x.1.r = ok ∧ y.1.r = ok ∧ y.2.inode.size = 11 ∧ b = 97 := by
    simpa using heval
  have hnot : ¬ ((((3 : Nat) < 0 ∨ (0 ≤ 3 ∧ 3 < 5)) ∧ 3 < 0) ∨ (10 ≤ 3 ∧ 3 < 11)) := by decide
  refine ⟨⟨x.2, fun i => i < 0 ∨ (0 ≤ i ∧ i < 5)⟩, ⟨st₂, fun i => (i < 0 ∨ (0 ≤ i ∧ i < 5)) ∧ i < 0⟩,
    ⟨y.2, fun i => ((i < 0 ∨ (0 ≤ i ∧ i < 5)) ∧ i < 0) ∨ (10 ≤ i ∧ i < 11)⟩,
    ⟨by decide, ⟨x.1, hx, hxr⟩, fun _ => Iff.rfl⟩, ⟨by decide, hcut, fun _ => Iff.rfl⟩,
    ⟨by decide, ⟨y.1, hy, hyr⟩, fun _ => Iff.rfl⟩, hsize, hnot, hb⟩

theorem cut_bytes_exact_run : ∃ hist s,
    Steps (Does (calm smallDisk) (byZonesKeeping calm_sound).toTruncation) ⟨newFile, (· < 0)⟩
      hist s ∧
    hist.map Prod.snd = [.write ⟨0, 5, fun _ => 97⟩, .truncate 0] ∧
    (((∀ x ∈ hist, CutReadsZero smallDisk x.1) ∧ CutReadsZero smallDisk s) ↔
      ∀ x ∈ hist, Unexposed smallDisk x.1 x.2) := by
  obtain ⟨s₁, s₂, -, hwrite, hcut, -⟩ := cut_and_grown
  have hrun : Steps (Does (calm smallDisk) (byZonesKeeping calm_sound).toTruncation)
      ⟨newFile, (· < 0)⟩ _ s₂ := Steps.next (.next .start hwrite) hcut
  exact ⟨_, s₂, hrun, rfl, cut_bytes_exact calm_sound (byZonesKeeping calm_sound) (n := 0)
    (by decide) rfl (by decide) (by decide) hrun⟩

/-- The byte at offset 3 is back, though it was cut off and not written since. -/
theorem cut_byte_back : ∃ hist s,
    Steps (Does (calm smallDisk) (byZones calm_sound)) ⟨newFile, (· < 0)⟩ hist s ∧
    hist.map Prod.snd = [.write ⟨0, 5, fun _ => 97⟩, .truncate 0, .write ⟨10, 1, fun _ => 98⟩] ∧
    ¬ CutReadsZero smallDisk s := by
  obtain ⟨s₁, s₂, s₃, hwrite, hcut, hgrow, hsize, hnot, hbyte⟩ := cut_and_grown
  refine ⟨_, s₃, .next (.next (.next .start hwrite) hcut) hgrow, rfl, fun h => ?_⟩
  have hzero := h 3 (by rw [hsize]; decide) hnot
  rw [storedByte, if_neg (fun h => absurd h.2 (by decide)), hbyte] at hzero
  exact absurd (Except.ok.inj hzero) (by decide)

end MfsTruncate
