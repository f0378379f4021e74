import OsLab.FillProofs
import OsLab.MfsGetdentsModelProofs

/-! # What a listing request delivers

    The entries in use from the position on fill the caller's buffer, as
    records one behind the other, up to the first that does not fit
    (`getdents_fills`).  That they go through `getdents_buf` on the way does
    not show, unless a kernel copy fails: then the request ends with its code,
    and when it was not the last copy, the directory block stays acquired
    (`getdents_releases`).

    Both follow from one account of the scan, `scanEntries_spec` for the
    entries of a block and `blockLoop_spec` for the blocks. -/

namespace MfsGetdents

open OsLoop OsFill MfsGetdentsModel
open MfsModel (ok eperm u32)

variable {L : Layout}

/-! ## Entries and records -/

/-- The entry of a slot of the directory. -/
def slot (dir : Dir L) (i : Nat) : Option (Direct L) :=
  (dir.block (i / L.perBlock)).map (fun b => b (i % L.perBlock))

/-- The entries of the slots from `lo` up to `hi`, with their positions. -/
def dirEntries (dir : Dir L) (lo hi : Nat) : List (Nat × Direct L) :=
  (List.range' lo (hi - lo)).filterMap
    (fun i => (slot dir i).map (fun dp => (i * L.entrySize, dp)))

/-- Those in use. -/
def inUse (es : List (Nat × Direct L)) : List (Nat × Direct L) :=
  es.filter (fun e => e.2.ino ≠ 0)

/-- The length of the record of an entry. -/
def entryLen (e : Nat × Direct L) : Nat := L.reclen (nameLen e.2)

/-- The records of entries. -/
def Records (env : Env) (es : List (Nat × Direct L)) (recs : List Dirent) : Prop :=
  List.Forall₂ (fun e r => record env e.2 = .ok r) es recs

/-- The first slot behind the blocks that a directory has. -/
def lastSlot (dir : Dir L) : Nat := (dir.size + (L.blockSize - 1)) / L.blockSize * L.perBlock

section Entries

variable {env : Env} {dp : Direct L} {es : List (Nat × Direct L)} {recs : List Dirent}

theorem nameLen_le (dp : Direct L) : nameLen dp ≤ L.nameSize := by
  rw [← dp.size]
  exact (List.takeWhile_sublist _).length_le

theorem entryLen_pos (e : Nat × Direct L) : 0 < entryLen e :=
  Nat.lt_of_le_of_lt (Nat.zero_le _) (L.holds_name _ (nameLen_le e.2))

theorem entryLen_le (e : Nat × Direct L) : entryLen e ≤ L.bufSize :=
  L.reclen_le _ (nameLen_le e.2)

theorem record_ok {r : Dirent} (h : record env dp = .ok r) :
    ∃ type, entryType env dp.ino = .ok type ∧
      r = ⟨dp.ino, L.reclen (nameLen dp), nameLen dp, type, dp.name.take (nameLen dp)⟩ := by
  obtain ⟨type, htype, h⟩ := bind_ok.mp h
  have hle := L.reclen_le _ (nameLen_le dp)
  have hshort := L.bufSize_short
  rw [Nat.mod_eq_of_lt (by omega)] at h
  exact ⟨type, htype, (Except.ok.inj h).symm⟩

/-- A record links to the next one by its length. -/
theorem Records.total (h : Records env es recs) : total Dirent.reclen recs = total entryLen es := by
  induction h with
  | nil => rfl
  | @cons e r es recs hr _ ih =>
      obtain ⟨type, -, rfl⟩ := record_ok hr
      rw [total_cons, total_cons, ih]
      rfl

theorem Records.append {es' : List (Nat × Direct L)} {recs' : List Dirent}
    (h : Records env es recs) (h' : Records env es' recs') :
    Records env (es ++ es') (recs ++ recs') := List.rel_append h h'

/-- Slots in two parts. -/
theorem dirEntries_append (dir : Dir L) {lo hi : Nat} (mid : Nat) (h : lo ≤ mid) (h' : mid ≤ hi) :
    dirEntries dir lo hi = dirEntries dir lo mid ++ dirEntries dir mid hi := by
  rw [dirEntries, dirEntries, dirEntries, ← List.filterMap_append]
  congr 1
  rw [show hi - lo = (mid - lo) + (hi - mid) by omega, ← List.range'_append_1,
    show lo + (mid - lo) = mid by omega]

/-- The slots of one block. -/
theorem blockEntries_eq {dir : Dir L} {b first : Nat} {block : Nat → Direct L}
    (hblock : dir.block b = some block) (hfirst : first ≤ L.perBlock) :
    blockEntries block (b * L.blockSize) first =
      dirEntries dir (b * L.perBlock + first) ((b + 1) * L.perBlock) := by
  have hpos := L.perBlock_pos
  rw [blockEntries, dirEntries, show (b + 1) * L.perBlock - (b * L.perBlock + first) =
    L.perBlock - first by rw [Nat.succ_mul]; omega, List.range'_eq_map_range,
    List.range'_eq_map_range, List.map_map, List.filterMap_map, ← List.filterMap_eq_map]
  refine List.filterMap_congr fun j hj => ?_
  have hlt : first + j < L.perBlock := by
    have hj' := List.mem_range.mp hj
    omega
  have hdiv : (b * L.perBlock + first + j) / L.perBlock = b := by
    rw [Nat.add_assoc, Nat.mul_comm, Nat.mul_add_div hpos, Nat.div_eq_of_lt hlt, Nat.add_zero]
  have hmod : (b * L.perBlock + first + j) % L.perBlock = first + j := by
    rw [Nat.add_assoc, Nat.mul_comm, Nat.mul_add_mod, Nat.mod_eq_of_lt hlt]
  have hposn : b * L.blockSize + (first + j) * L.entrySize =
      (b * L.perBlock + first + j) * L.entrySize := by
    rw [Layout.blockSize]
    ring
  simp only [Function.comp_apply, slot, hdiv, hmod, hblock, Option.map_some, hposn]

theorem inUse_append (es es' : List (Nat × Direct L)) :
    inUse (es ++ es') = inUse es ++ inUse es' := List.filter_append ..

end Entries

/-! ## Copies -/

/-- The first of some copies that fails, by what has to be copied behind it,
    and its code. -/
def firstFailure (env : Env) (size : Nat) : Nat → Nat → List Nat → Option (List Nat × Int)
  | _, _, [] => none
  | clock, off, n :: ns =>
      if safecopyto env size clock off n ≠ ok then some (ns, safecopyto env size clock off n)
      else firstFailure env size (clock + 1) (off + n) ns

/-- The copies still to come, when entries of some lengths are put into the
    buffer yet. -/
def ahead (L : Layout) (env : Env) (size : Nat) (s : Scan) (lens : List Nat) :
    Option (List Nat × Int) :=
  firstFailure env size s.clock s.userbufOff (batches L.capacity s.tmpbufOff lens)

section Copies

variable {env : Env} {size : Nat}

/-- Copies within the grant succeed when the kernel does. -/
theorem firstFailure_none (hcopy : ∀ t off len, env.copyCode t off len = ok) (clock off : Nat)
    (ns : List Nat) (hfit : off + ns.sum ≤ size) : firstFailure env size clock off ns = none := by
  induction ns generalizing clock off with
  | nil => rfl
  | cons n ns ih =>
      rw [List.sum_cons] at hfit
      have hcode : safecopyto env size clock off n = ok := by
        rw [safecopyto, if_neg (by omega), hcopy]
      rw [firstFailure, hcode, if_neg (not_not.mpr rfl)]
      exact ih _ _ (by omega)

end Copies

/-! ## The loop over the entries of a block -/

/-- The records that will be with the caller, and those that are. -/
def view (s : Scan) : List (Nat × Dirent) :=
  s.userbuf ++ s.tmpbuf.map (fun p => (s.userbufOff + p.1, p.2))

/-- The bytes of these records. -/
def used (s : Scan) : Nat := s.userbufOff + s.tmpbufOff

/-- `getdents_buf` has room, and holds records when it holds bytes; the records
    are no more than the caller has space for. -/
structure Good (L : Layout) (size : Nat) (s : Scan) : Prop where
  room : s.tmpbufOff < L.capacity
  empty : s.tmpbufOff = 0 → s.tmpbuf = []
  fits : used s ≤ size

/-- The records of `es` have come behind those that were there, and nothing
    else has changed; the copies ahead are what they were. -/
structure Extends (env : Env) (size : Nat) (s s' : Scan) (es : List (Nat × Direct L)) : Prop where
  good : Good L size s'
  view : ∃ recs, Records env es recs ∧ view s' = view s ++ place Dirent.reclen (used s) recs
  used : used s' = used s + total entryLen es
  inodes : s'.inodes = s.inodes
  blocks : s'.blocks = s.blocks
  copies : ∀ more, ahead L env size s (es.map entryLen ++ more) = ahead L env size s' more

/-- What the scan of entries comes to: all of those in use fit, or one does not,
    or a copy fails while they are moved. -/
def Scanned (env : Env) (size : Nat) (s : Scan) (es : List (Nat × Direct L)) : Step → Prop
  | .next s' => (fill entryLen size (used s) (inUse es)).2 = [] ∧
      Extends env size s s' (inUse es)
  | .full s' entPos => (∃ dp rest, (fill entryLen size (used s) (inUse es)).2 = (entPos, dp) :: rest) ∧
      Extends env size s s' (fill entryLen size (used s) (inUse es)).1
  | .failed s' r => s'.inodes = s.inodes - 1 ∧ s'.blocks = s.blocks ∧
      ∀ more, ∃ rest, rest ≠ [] ∧ ahead L env size s
        ((fill entryLen size (used s) (inUse es)).1.map entryLen ++ more) = some (rest, r)

section Scan

variable {env : Env} {size : Nat} {s s' s'' : Scan} {es es' : List (Nat × Direct L)}

theorem Extends.refl (h : Good L size s) : Extends (L := L) env size s s [] where
  good := h
  view := ⟨[], .nil, (List.append_nil _).symm⟩
  used := rfl
  inodes := rfl
  blocks := rfl
  copies := fun _ => rfl

theorem Extends.trans (h : Extends env size s s' es) (h' : Extends env size s' s'' es') :
    Extends env size s s'' (es ++ es') where
  good := h'.good
  view := by
    obtain ⟨recs, hrecs, hview⟩ := h.view
    obtain ⟨recs', hrecs', hview'⟩ := h'.view
    refine ⟨recs ++ recs', hrecs.append hrecs', ?_⟩
    rw [hview', hview, place_append, hrecs.total, h.used, List.append_assoc]
  used := by rw [h'.used, h.used, total_append, Nat.add_assoc]
  inodes := h'.inodes.trans h.inodes
  blocks := h'.blocks.trans h.blocks
  copies := by
    intro more
    rw [List.map_append, List.append_assoc, h.copies, h'.copies]

/-- Copying `getdents_buf` to the caller moves records, and the copies ahead are
    those behind it. -/
theorem flush_ok (hok : (flush env size s).1 = ok) :
    flush env size s = (ok, { s with
      userbuf := view s
      userbufOff := used s
      tmpbuf := []
      tmpbufOff := 0
      clock := s.clock + 1 }) := by
  have hcode : safecopyto env size s.clock s.userbufOff s.tmpbufOff = ok := hok
  rw [flush, hcode, if_neg (not_not.mpr rfl)]
  rfl

theorem flush_failed (hno : (flush env size s).1 ≠ ok) :
    flush env size s = (safecopyto env size s.clock s.userbufOff s.tmpbufOff,
      { s with clock := s.clock + 1 }) := by
  have hcode : safecopyto env size s.clock s.userbufOff s.tmpbufOff ≠ ok := hno
  rw [flush, if_pos hcode]

/-- With room, the record goes behind the others. -/
theorem makeRoom_ok {e : Nat × Direct L} {c : Int × Scan} {dep : Dirent}
    (hrec : record env e.2 = .ok dep) (hroom : ¬ used s + entryLen e ≥ size)
    (hc : c = makeRoom env L size s (entryLen e)) (hok : c.1 = ok) :
    c.2.tmpbufOff + entryLen e < L.capacity ∧ Extends env size s { c.2 with
      tmpbuf := c.2.tmpbuf ++ [(c.2.tmpbufOff, dep)]
      tmpbufOff := c.2.tmpbufOff + entryLen e } [e] := by
  have hpos := entryLen_pos e
  have hle := entryLen_le e
  have hrecs : Records env [e] [dep] := .cons hrec .nil
  rw [used] at hroom
  by_cases hfull : s.tmpbufOff + entryLen e ≥ L.capacity
  · rw [makeRoom, if_pos hfull] at hc
    rw [hc] at hok
    have hcode : safecopyto env size s.clock s.userbufOff s.tmpbufOff = ok := hok
    rw [flush_ok hok] at hc
    subst hc
    refine ⟨?_, ⟨?_, ?_, ?_⟩, ⟨[dep], hrecs, rfl⟩, ?_, rfl, rfl, ?_⟩
    · simp only [Layout.capacity]
      omega
    · simp only [Layout.capacity]
      omega
    · intro h0
      simp only at h0
      omega
    · simp only [used]
      omega
    · simp only [used, total_cons, total_nil]
      omega
    · intro more
      rw [ahead, List.map_cons, List.map_nil, List.cons_append, List.nil_append, batches,
        if_pos hfull, firstFailure, hcode, if_neg (not_not.mpr rfl), ahead]
      simp only [used, Nat.zero_add]
  · rw [makeRoom, if_neg hfull] at hc
    subst hc
    refine ⟨Nat.lt_of_not_le hfull, ⟨Nat.lt_of_not_le hfull, ?_, ?_⟩, ⟨[dep], hrecs, ?_⟩, ?_, rfl,
      rfl, ?_⟩
    · intro h0
      simp only at h0
      omega
    · simp only [used]
      omega
    · simp only [view, used, List.map_append, List.map_cons, List.map_nil, place,
        List.append_assoc]
    · simp only [used, total_cons, total_nil]
      omega
    · intro more
      rw [ahead, List.map_cons, List.map_nil, List.cons_append, List.nil_append, batches,
        if_neg hfull, ahead]

/-- A copy that was to make room was made because `getdents_buf` was full. -/
theorem makeRoom_failed {n : Nat} {c : Int × Scan} (hc : c = makeRoom env L size s n)
    (hno : c.1 ≠ ok) : s.tmpbufOff + n ≥ L.capacity ∧
      c = (safecopyto env size s.clock s.userbufOff s.tmpbufOff, { s with clock := s.clock + 1 }) := by
  by_cases hfull : s.tmpbufOff + n ≥ L.capacity
  · rw [makeRoom, if_pos hfull] at hc
    rw [hc] at hno
    exact ⟨hfull, hc.trans (flush_failed hno)⟩
  · rw [makeRoom, if_neg hfull] at hc
    rw [hc] at hno
    exact absurd rfl hno

/-- **ONE ENTRY** of the scan. -/
theorem scanEntry_spec (hsize : size ≤ 2147483647) (hgood : Good L size s) {e : Nat × Direct L}
    {step : Step} (hrun : scanEntry env size s e.1 e.2 = .ok step) :
    Scanned env size s [e] step := by
  have hlen : L.reclen (nameLen e.2) = entryLen e := rfl
  have hpos := entryLen_pos e
  have hle := entryLen_le e
  have hshort := L.bufSize_short
  have hfits := hgood.fits
  rw [scanEntry] at hrun
  by_cases h0 : e.2.ino = 0
  · rw [if_pos h0] at hrun
    obtain rfl := Except.ok.inj hrun
    have hnone : inUse [e] = [] := by simp [inUse, h0]
    rw [Scanned, hnone]
    exact ⟨rfl, .refl hgood⟩
  have hone : inUse [e] = [e] := by simp [inUse, h0]
  have hu : u32 ((s.userbufOff + s.tmpbufOff + L.reclen (nameLen e.2) : Nat) : Int) =
      used s + entryLen e := by
    rw [u32, hlen, used]
    rw [used] at hfits
    omega
  rw [if_neg h0, hu] at hrun
  by_cases hfull : used s + entryLen e ≥ size
  · rw [if_pos hfull] at hrun
    obtain rfl := Except.ok.inj hrun
    rw [Scanned, hone, fill_cons_full hfull]
    exact ⟨⟨e.2, [], rfl⟩, .refl hgood⟩
  rw [if_neg hfull] at hrun
  have hfill : fill entryLen size (used s) (inUse [e]) = ([e], []) := by
    rw [hone, fill_cons_fits hfull]
    rfl
  obtain ⟨c, hc⟩ : ∃ c, c = makeRoom env L size s (entryLen e) := ⟨_, rfl⟩
  rw [hlen, ← hc, MfsGetdentsModel.store] at hrun
  by_cases hok : c.1 = ok
  · -- the record goes into `getdents_buf`
    rw [if_neg (not_not.mpr hok)] at hrun
    split at hrun
    · cases hrun
    · obtain ⟨dep, hrec, hrun⟩ := bind_ok.mp hrun
      obtain rfl := Except.ok.inj hrun
      obtain ⟨-, hext⟩ := makeRoom_ok hrec hfull hc hok
      rw [Scanned, hfill, hone]
      exact ⟨rfl, hext⟩
  · -- the copy before it has failed
    rw [if_pos hok] at hrun
    obtain rfl := Except.ok.inj hrun
    obtain ⟨hmid, hc'⟩ := makeRoom_failed hc hok
    subst hc'
    rw [Scanned, hfill]
    refine ⟨rfl, rfl, fun more => ⟨_, batches_ne_nil L.capacity hpos more, ?_⟩⟩
    rw [ahead, List.map_cons, List.map_nil, List.cons_append, List.nil_append, batches, if_pos hmid,
      firstFailure, if_pos hok]

/-- A scan goes on behind entries that fit. -/
theorem Scanned.trans {step : Step} (h : Scanned env size s es (.next s'))
    (h' : Scanned env size s' es' step) : Scanned env size s (es ++ es') step := by
  obtain ⟨hnil, hext⟩ := h
  have hover := fill_over hnil (inUse es')
  rw [← hext.used, ← inUse_append] at hover
  cases step with
  | next s'' =>
      obtain ⟨hnil', hext'⟩ := h'
      rw [Scanned, hover, inUse_append]
      exact ⟨hnil', hext.trans hext'⟩
  | full s'' entPos =>
      obtain ⟨hstop, hext'⟩ := h'
      rw [Scanned, hover]
      exact ⟨hstop, hext.trans hext'⟩
  | failed s'' r =>
      obtain ⟨hinodes, hblocks, hfail⟩ := h'
      rw [Scanned, hover]
      refine ⟨hinodes.trans (by rw [hext.inodes]), hblocks.trans hext.blocks, fun more => ?_⟩
      obtain ⟨rest, hrest, hahead⟩ := hfail more
      exact ⟨rest, hrest, by rw [List.map_append, List.append_assoc, hext.copies, hahead]⟩

/-- A scan that stopped has nothing to do with the entries behind. -/
theorem Scanned.stop {step : Step} (h : Scanned env size s es step)
    (hstop : ∀ s', step ≠ .next s') (es' : List (Nat × Direct L)) :
    Scanned env size s (es ++ es') step := by
  cases step with
  | next s' => exact absurd rfl (hstop s')
  | full s' entPos =>
      obtain ⟨⟨dp, rest, hrest⟩, hext⟩ := h
      have hwithin := fill_within (show _ ≠ [] by rw [hrest]; simp) (inUse es')
      rw [Scanned, inUse_append, hwithin]
      exact ⟨⟨dp, rest ++ inUse es', by rw [hrest]; rfl⟩, hext⟩
  | failed s' r =>
      obtain ⟨hinodes, hblocks, hfail⟩ := h
      refine ⟨hinodes, hblocks, fun more => ?_⟩
      rw [inUse_append]
      by_cases hnil : (fill entryLen size (used s) (inUse es)).2 = []
      · obtain ⟨rest, hrest, hahead⟩ := hfail ((fill entryLen size (used s + total entryLen (inUse es))
          (inUse es')).1.map entryLen ++ more)
        rw [fill_all hnil] at hahead
        exact ⟨rest, hrest, by rw [fill_over hnil, List.map_append, List.append_assoc, hahead]⟩
      · rw [fill_within hnil]
        exact hfail more

/-- **THE ENTRIES OF A BLOCK**. -/
theorem scanEntries_spec (hsize : size ≤ 2147483647) {step : Step} (hgood : Good L size s)
    (hrun : scanEntries env size es s = .ok step) : Scanned env size s es step := by
  induction es generalizing s with
  | nil =>
      obtain rfl := Except.ok.inj hrun
      exact ⟨rfl, .refl hgood⟩
  | cons e es ih =>
      obtain ⟨first, hfirst, hrun⟩ := bind_ok.mp hrun
      have hone := scanEntry_spec hsize hgood hfirst
      cases first with
      | next s₁ =>
          have hboth := Scanned.trans hone (ih hone.2.good hrun)
          exact hboth
      | full s₁ entPos =>
          obtain rfl := Except.ok.inj hrun
          have hboth := Scanned.stop hone (by simp) es
          exact hboth
      | failed s₁ r =>
          obtain rfl := Except.ok.inj hrun
          have hboth := Scanned.stop hone (by simp) es
          exact hboth

end Scan

/-! ## The loop over the blocks -/

/-- What the loop over blocks comes to, as a scan. -/
def outcome (x : Progress × Option Int) : Step :=
  match x.2 with
  | some r => .failed { x.1.scan with blocks := x.1.scan.blocks - 1 } r
  | none => if x.1.done then .full x.1.scan x.1.newPos else .next x.1.scan

section Blocks

variable {env : Env} {size pos b : Nat} {dir : Dir L} {s s' : Scan} {es : List (Nat × Direct L)}

theorem entrySize_pos (L : Layout) : 0 < L.entrySize :=
  Nat.pos_of_dvd_of_pos L.entry_dvd (by decide)

theorem blockSize_pos (L : Layout) : 0 < L.blockSize :=
  Nat.mul_pos L.perBlock_pos (entrySize_pos L)

/-- The block that was acquired for a scan is released. -/
theorem Extends.release (h : Extends env size { s with blocks := s.blocks + 1 } s' es) :
    Extends env size s { s' with blocks := s'.blocks - 1 } es where
  good := ⟨h.good.room, h.good.empty, h.good.fits⟩
  view := h.view
  used := h.used
  inodes := h.inodes
  blocks := by
    have hblocks : s'.blocks = s.blocks + 1 := h.blocks
    show s'.blocks - 1 = s.blocks
    omega
  copies := h.copies

/-- Behind the last block there is no entry. -/
theorem dirEntries_behind (h : dir.size ≤ b * L.blockSize) :
    dirEntries dir (max (pos / L.entrySize) (b * L.perBlock)) (lastSlot dir) = [] := by
  have hpos := blockSize_pos L
  have hlast : (dir.size + (L.blockSize - 1)) / L.blockSize ≤ b := by
    refine Nat.lt_succ_iff.mp ((Nat.div_lt_iff_lt_mul hpos).mpr ?_)
    rw [Nat.succ_mul]
    omega
  have hle : lastSlot dir ≤ b * L.perBlock := Nat.mul_le_mul_right _ hlast
  rw [dirEntries, Nat.sub_eq_zero_of_le (le_trans hle (le_max_right _ _))]
  rfl

/-- Where the scan of a block starts. -/
theorem firstEntry_slot (hb : pos / L.blockSize ≤ b) :
    firstEntry L pos (b * L.blockSize) < L.perBlock ∧
      b * L.perBlock + firstEntry L pos (b * L.blockSize) =
        max (pos / L.entrySize) (b * L.perBlock) := by
  have hes := entrySize_pos L
  have hbs := blockSize_pos L
  have hmul : b * L.blockSize = L.entrySize * (b * L.perBlock) := by
    rw [Layout.blockSize]
    ring
  rw [firstEntry]
  by_cases hlt : b * L.blockSize < pos
  · rw [if_pos hlt]
    have hb' : b = pos / L.blockSize :=
      Nat.le_antisymm ((Nat.le_div_iff_mul_le hbs).mpr hlt.le) hb
    have hsplit := Nat.div_add_mod pos L.blockSize
    rw [← hb', Nat.mul_comm, hmul] at hsplit
    have hdiv : pos / L.entrySize = b * L.perBlock + pos % L.blockSize / L.entrySize := by
      conv_lhs => rw [← hsplit]
      exact Nat.mul_add_div hes _ _
    refine ⟨?_, ?_⟩
    · rw [Nat.div_lt_iff_lt_mul hes]
      exact Nat.mod_lt pos hbs
    · rw [hdiv]
      exact (Nat.max_eq_left (Nat.le_add_right _ _)).symm
  · rw [if_neg hlt]
    have hle : pos / L.entrySize ≤ b * L.perBlock := by
      have hdiv := Nat.div_le_div_right (c := L.entrySize) (Nat.le_of_not_lt hlt)
      rw [hmul, Nat.mul_div_cancel_left _ hes] at hdiv
      exact hdiv
    exact ⟨L.perBlock_pos, by omega⟩

/-- The blocks before the end of the directory. -/
theorem lastSlot_le (h : b * L.blockSize < dir.size) : (b + 1) * L.perBlock ≤ lastSlot dir := by
  refine Nat.mul_le_mul_right _ ((Nat.le_div_iff_mul_le (blockSize_pos L)).mpr ?_)
  have hpos := blockSize_pos L
  rw [Nat.succ_mul]
  omega

/-- **ONE BLOCK** of a directory. -/
theorem blockTurn_spec (hsize : size ≤ 2147483647) {p : Progress}
    {turn : Turn Progress (Progress × Option Int)} (hblock : p.blockPos = b * L.blockSize)
    (hb : pos / L.blockSize ≤ b) (hgood : Good L size p.scan)
    (hend : b * L.blockSize < dir.size) (hrun : blockTurn env size dir pos p = .ok turn) :
    ∃ step, turn = afterBlock L p step ∧ Scanned env size { p.scan with blocks := p.scan.blocks + 1 }
      (dirEntries dir (max (pos / L.entrySize) (b * L.perBlock)) ((b + 1) * L.perBlock)) step := by
  obtain ⟨hfirst, hlow⟩ := firstEntry_slot (L := L) hb
  rw [blockTurn, hblock, if_neg (not_not.mpr hend), Nat.mul_div_cancel _ (blockSize_pos L)] at hrun
  cases hdir : dir.block b with
  | none =>
      rw [hdir] at hrun
      cases hrun
  | some block =>
      rw [hdir] at hrun
      obtain ⟨step, hscan, hrun⟩ := bind_ok.mp hrun
      rw [blockEntries_eq hdir hfirst.le, hlow] at hscan
      refine ⟨step, (Except.ok.inj hrun).symm, scanEntries_spec hsize ?_ hscan⟩
      exact ⟨hgood.room, hgood.empty, hgood.fits⟩

/-- **THE BLOCKS OF A DIRECTORY**, from one on. -/
theorem blockLoop_spec (hsize : size ≤ 2147483647) (n : Nat) {p : Progress}
    {x : Progress × Option Int} (hblock : p.blockPos = b * L.blockSize)
    (hb : pos / L.blockSize ≤ b) (hdone : p.done = false) (hgood : Good L size p.scan)
    (hrun : loop .endless (blockTurn env size dir pos) n p = .ok x) :
    Scanned env size p.scan
        (dirEntries dir (max (pos / L.entrySize) (b * L.perBlock)) (lastSlot dir)) (outcome x) ∧
      (x.1.done = false → x.1.newPos = p.newPos) := by
  induction n generalizing p b with
  | zero => cases hrun
  | succ n ih =>
      by_cases hend : b * L.blockSize < dir.size
      · cases hturn : blockTurn env size dir pos p with
        | error e =>
            rw [loop_fail hturn] at hrun
            cases hrun
        | ok turn =>
            obtain ⟨step, rfl, hscan⟩ := blockTurn_spec hsize hblock hb hgood hend hturn
            obtain ⟨hfirst, hlow⟩ := firstEntry_slot (L := L) hb
            have hsucc : (b + 1) * L.perBlock = b * L.perBlock + L.perBlock := Nat.succ_mul _ _
            rw [dirEntries_append dir ((b + 1) * L.perBlock) (by omega) (lastSlot_le hend)]
            cases step with
            | next s =>
                obtain ⟨hnil, hext⟩ := hscan
                rw [loop_again hturn] at hrun
                obtain ⟨hrest, hpos⟩ := ih (b := b + 1) (p := { p with
                    blockPos := p.blockPos + L.blockSize
                    scan := { s with blocks := s.blocks - 1 } })
                  (by rw [hblock, Nat.succ_mul]) (Nat.le_succ_of_le hb) hdone hext.release.good hrun
                rw [show max (pos / L.entrySize) ((b + 1) * L.perBlock) = (b + 1) * L.perBlock by
                  omega] at hrest
                exact ⟨Scanned.trans ⟨hnil, hext.release⟩ hrest, hpos⟩
            | full s entPos =>
                rw [loop_done hturn] at hrun
                obtain rfl := Except.ok.inj hrun
                have hfull : Scanned env size p.scan _
                    (.full { s with blocks := s.blocks - 1 } entPos) :=
                  ⟨hscan.1, hscan.2.release⟩
                refine ⟨hfull.stop (by simp) _, ?_⟩
                intro hno
                cases hno
            | failed s r =>
                rw [loop_done hturn] at hrun
                obtain rfl := Except.ok.inj hrun
                obtain ⟨hinodes, hblocks, hfail⟩ := hscan
                have hblocks' : s.blocks - 1 = p.scan.blocks := by
                  have hblocks : s.blocks = p.scan.blocks + 1 := hblocks
                  omega
                have hfailed : Scanned env size p.scan _
                    (.failed { s with blocks := s.blocks - 1 } r) :=
                  ⟨hinodes, hblocks', hfail⟩
                exact ⟨hfailed.stop (by simp) _, fun _ => rfl⟩
      · rw [loop_done (by rw [blockTurn, hblock, if_pos hend])] at hrun
        obtain rfl := Except.ok.inj hrun
        rw [dirEntries_behind (Nat.le_of_not_lt hend), outcome, hdone]
        exact ⟨⟨rfl, .refl hgood⟩, fun _ => rfl⟩

end Blocks

/-! ## The request -/

/-- The entries in use from a position on, as far as their records fit into a
    buffer of `size` bytes, and the others. -/
def listing (dir : Dir L) (size pos : Nat) : List (Nat × Direct L) × List (Nat × Direct L) :=
  fill entryLen size 0 (inUse (dirEntries dir (pos / L.entrySize) (lastSlot dir)))

/-- The bytes of each copy to the caller. -/
def copies (dir : Dir L) (size pos : Nat) : List Nat :=
  batches L.capacity 0 ((listing dir size pos).1.map entryLen)

/-- Where the next request starts. -/
def nextPos (dir : Dir L) : List (Nat × Direct L) → Nat
  | [] => dir.size
  | e :: _ => e.1

/-- The answer when no copy fails. -/
def Delivered (env : Env) (dir : Dir L) (size pos : Nat) (res : Result) : Prop :=
  if (listing dir size pos).1 = [] ∧ (listing dir size pos).2 ≠ [] then
    res.r = einval ∧ res.scan.userbuf = [] ∧ res.atime = false
  else
    res.r = ok ∧ res.nbytes = total entryLen (listing dir size pos).1 ∧
    res.seekPos = nextPos dir (listing dir size pos).2 ∧ res.atime = !dir.rdOnly ∧
    ∃ recs, Records env (listing dir size pos).1 recs ∧
      res.scan.userbuf = place Dirent.reclen 0 recs

/-- The answer and what is left acquired. -/
def Answered (env : Env) (dir : Dir L) (size pos : Nat) (res : Result) : Prop :=
  match firstFailure env size 0 0 (copies dir size pos) with
  | some (rest, code) => code ≠ ok ∧ res.r = code ∧ res.atime = false ∧
      res.scan.blocks = (if rest = [] then 0 else 1)
  | none => res.scan.blocks = 0 ∧ Delivered env dir size pos res

section Request

variable {env : Env} {size pos : Nat} {dir : Dir L} {s : Scan}

theorem firstFailure_code {clock off : Nat} {ns rest : List Nat} {r : Int}
    (h : firstFailure env size clock off ns = some (rest, r)) : r ≠ ok := by
  induction ns generalizing clock off with
  | nil => cases h
  | cons n ns ih =>
      rw [firstFailure] at h
      split at h
      · next hcode =>
        obtain ⟨-, rfl⟩ := Prod.mk.inj (Option.some.inj h)
        exact hcode
      · exact ih h

/-- The last copy, when there is something to copy. -/
def lastCopy (env : Env) (size : Nat) (s : Scan) : Int × Scan :=
  if s.tmpbufOff ≠ 0 then flush env size s else (ok, s)

theorem lastCopy_spec {c : Int × Scan} (hgood : Good L size s) (hc : c = lastCopy env size s) :
    c.2.inodes = s.inodes ∧ c.2.blocks = s.blocks ∧
      ((c.1 = ok ∧ ahead L env size s [] = none ∧ c.2.userbuf = view s ∧
          c.2.userbufOff = used s) ∨
        (c.1 ≠ ok ∧ ahead L env size s [] = some ([], c.1))) := by
  by_cases h0 : s.tmpbufOff = 0
  · rw [lastCopy, if_neg (not_not.mpr h0)] at hc
    subst hc
    refine ⟨rfl, rfl, Or.inl ⟨rfl, ?_, ?_, ?_⟩⟩
    · rw [ahead, batches, if_pos h0]
      rfl
    · rw [view, hgood.empty h0, List.map_nil, List.append_nil]
    · rw [used, h0]
      rfl
  · rw [lastCopy, if_pos h0] at hc
    by_cases hok : (flush env size s).1 = ok
    · have hcode : safecopyto env size s.clock s.userbufOff s.tmpbufOff = ok := hok
      rw [flush_ok hok] at hc
      subst hc
      refine ⟨rfl, rfl, Or.inl ⟨rfl, ?_, rfl, rfl⟩⟩
      rw [ahead, batches, if_neg h0, firstFailure, hcode, if_neg (not_not.mpr rfl), firstFailure]
    · have hcode : safecopyto env size s.clock s.userbufOff s.tmpbufOff ≠ ok := hok
      rw [flush_failed hok] at hc
      subst hc
      refine ⟨rfl, rfl, Or.inr ⟨hcode, ?_⟩⟩
      rw [ahead, batches, if_neg h0, firstFailure, if_pos hcode]

/-- The variables before the loop over blocks. -/
def begin (L : Layout) (dir : Dir L) (pos : Nat) : Progress :=
  ⟨pos - pos % L.blockSize, { Scan.start with inodes := 1 }, false, dir.size⟩

theorem begin_good : Good L size (begin L dir pos).scan where
  room := by
    have hpos := L.holds_name 0 (Nat.zero_le _)
    have hle := L.reclen_le 0 (Nat.zero_le _)
    show 0 < L.bufSize * 8
    omega
  empty := fun _ => rfl
  fits := Nat.zero_le _

/-- The loop over the blocks of a request. -/
theorem request_scanned (hsize : size ≤ 2147483647) {n : Nat} {x : Progress × Option Int}
    (hrun : loop .endless (blockTurn env size dir pos) n (begin L dir pos) = .ok x) :
    Scanned env size (begin L dir pos).scan
        (dirEntries dir (pos / L.entrySize) (lastSlot dir)) (outcome x) ∧
      (x.1.done = false → x.1.newPos = dir.size) := by
  have hblock : (begin L dir pos).blockPos = pos / L.blockSize * L.blockSize := by
    have hsplit := Nat.div_add_mod pos L.blockSize
    rw [Nat.mul_comm] at hsplit
    show pos - pos % L.blockSize = _
    omega
  have hspec := blockLoop_spec hsize n hblock (Nat.le_refl _) rfl begin_good hrun
  have hle : pos / L.blockSize * L.perBlock ≤ pos / L.entrySize := by
    rw [Nat.le_div_iff_mul_le (entrySize_pos L), Nat.mul_assoc]
    exact Nat.div_mul_le_self pos L.blockSize
  rw [Nat.max_eq_left hle] at hspec
  exact hspec

/-- The end of a request whose scan is over. -/
theorem finish_answered {p : Progress} {env : Env}
    (hext : Extends env size (begin L dir pos).scan p.scan (listing dir size pos).1)
    (hdone : p.done = true ↔ (listing dir size pos).2 ≠ [])
    (hpos : p.newPos = nextPos dir (listing dir size pos).2) :
    (finish env size dir.rdOnly p).scan.inodes = 0 ∧
      Answered env dir size pos (finish env size dir.rdOnly p) := by
  have hahead := hext.copies []
  rw [List.append_nil] at hahead
  have hused : used p.scan = total entryLen (listing dir size pos).1 :=
    hext.used.trans (Nat.zero_add _)
  obtain ⟨c, hc⟩ : ∃ c, c = lastCopy env size p.scan := ⟨_, rfl⟩
  obtain ⟨hinodes, hblocks, hcopy⟩ := lastCopy_spec hext.good hc
  have hinodes' : c.2.inodes - 1 = 0 := by
    rw [hinodes, hext.inodes]
    rfl
  have hblocks' : c.2.blocks = 0 := by
    rw [hblocks, hext.blocks]
    rfl
  have hfinish : finish env size dir.rdOnly p = if c.1 ≠ ok then failure c.2 c.1
      else if p.done ∧ c.2.userbufOff = 0 then failure c.2 einval
      else ⟨ok, c.2.userbufOff, p.newPos, { c.2 with inodes := c.2.inodes - 1 }, !dir.rdOnly⟩ := by
    rw [hc]
    rfl
  rw [hfinish]
  rcases hcopy with ⟨hok, hnone, huser, hoff⟩ | ⟨hno, hsome⟩
  · have hcopies : firstFailure env size 0 0 (copies dir size pos) = none := hahead.trans hnone
    have hzero : c.2.userbufOff = 0 ↔ (listing dir size pos).1 = [] := by
      rw [hoff, hused]
      exact total_eq_zero entryLen_pos
    have hiff := and_congr hdone hzero
    rw [if_neg (not_not.mpr hok), Answered, hcopies]
    obtain ⟨recs, hrecs, hview⟩ := hext.view
    by_cases hfull : p.done = true ∧ c.2.userbufOff = 0
    · obtain ⟨hstop, hnil⟩ := hiff.mp hfull
      rw [if_pos hfull]
      refine ⟨hinodes', hblocks', ?_⟩
      rw [Delivered, if_pos ⟨hnil, hstop⟩]
      refine ⟨rfl, ?_, rfl⟩
      show c.2.userbuf = []
      rw [hnil] at hrecs
      cases hrecs
      rw [huser, hview]
      rfl
    · rw [if_neg hfull]
      refine ⟨hinodes', hblocks', ?_⟩
      rw [Delivered, if_neg (fun h => hfull (hiff.mpr h.symm))]
      exact ⟨rfl, hoff.trans hused, hpos, rfl, recs, hrecs, huser.trans hview⟩
  · have hcopies : firstFailure env size 0 0 (copies dir size pos) = some ([], c.1) :=
      hahead.trans hsome
    rw [if_pos hno, Answered, hcopies]
    exact ⟨hinodes', hno, rfl, rfl, hblocks'⟩

/-- The position is checked for its low 32 bits. -/
theorem u32_mod (L : Layout) (pos : Nat) : u32 pos % L.entrySize = pos % L.entrySize := by
  have hu : u32 pos = pos % 4294967296 := by
    rw [u32]
    omega
  rw [hu, Nat.mod_mod_of_dvd _ L.entry_dvd]

/-- **A LISTING REQUEST** that returns. -/
theorem getdents_spec (hsize : size ≤ 2147483647) (hpos : L.entrySize ∣ pos) {res : Result}
    (hrun : fsGetdents env (some dir) size pos = .ok res) :
    res.scan.inodes = 0 ∧ Answered env dir size pos res := by
  have haligned : u32 pos % L.entrySize = 0 := by
    rw [u32_mod]
    exact Nat.mod_eq_zero_of_dvd hpos
  rw [fsGetdents, if_neg (not_not.mpr haligned)] at hrun
  obtain ⟨x, hloop, hrun⟩ := bind_ok.mp hrun
  obtain ⟨hscan, hnew⟩ := request_scanned hsize hloop
  obtain ⟨p, early⟩ := x
  cases early with
  | some r =>
      obtain rfl := Except.ok.inj hrun
      obtain ⟨hinodes, hblocks, hfail⟩ := hscan
      obtain ⟨rest, hrest, hahead⟩ := hfail []
      rw [List.append_nil] at hahead
      have hcopies : firstFailure env size 0 0 (copies dir size pos) = some (rest, r) := hahead
      have hinodes' : p.scan.inodes = 0 := hinodes
      have hblocks' : p.scan.blocks = 1 := by
        have hblocks : p.scan.blocks - 1 = 0 := hblocks
        omega
      rw [Answered, hcopies]
      exact ⟨hinodes', firstFailure_code hcopies, rfl, rfl, by rw [if_neg hrest]; exact hblocks'⟩
  | none =>
      obtain rfl := Except.ok.inj hrun
      rw [outcome] at hscan
      cases hdone : p.done with
      | false =>
          simp only [hdone] at hscan
          obtain ⟨hnil, hext⟩ := hscan
          have hnil : (listing dir size pos).2 = [] := hnil
          have hall : (listing dir size pos).1 = inUse _ := fill_all hnil
          refine finish_answered ?_ ?_ ?_
          · rw [hall]
            exact hext
          · simp [hdone, hnil]
          · rw [hnil]
            exact hnew hdone
      | true =>
          simp only [hdone] at hscan
          obtain ⟨⟨dp, rest, hstop⟩, hext⟩ := hscan
          have hstop : (listing dir size pos).2 = (p.newPos, dp) :: rest := hstop
          refine finish_answered hext ?_ ?_
          · simp [hdone, hstop]
          · rw [hstop]
            rfl

end Request

/-! ## Requests that return -/

/-- The blocks below the end of the directory are there, and the entries in use
    from the position on have inodes of a known type. -/
structure Sane (env : Env) (dir : Dir L) (pos : Nat) : Prop where
  mapped : ∀ b, b * L.blockSize < dir.size → ∃ block, dir.block b = some block
  typed : ∀ e ∈ inUse (dirEntries dir (pos / L.entrySize) (lastSlot dir)),
    ∃ type, entryType env e.2.ino = .ok type

section Total

variable {env : Env} {size pos b : Nat} {dir : Dir L} {s : Scan} {es : List (Nat × Direct L)}

theorem scanEntry_ok (env : Env) (hsize : size ≤ 2147483647) (hgood : Good L size s)
    {e : Nat × Direct L}
    (htyped : e ∈ inUse [e] → ∃ type, entryType env e.2.ino = .ok type) :
    ∃ step, scanEntry env size s e.1 e.2 = .ok step := by
  have hfits := hgood.fits
  have hle := entryLen_le e
  have hshort := L.bufSize_short
  rw [scanEntry]
  by_cases h0 : e.2.ino = 0
  · exact ⟨_, if_pos h0⟩
  have hu : u32 ((s.userbufOff + s.tmpbufOff + L.reclen (nameLen e.2) : Nat) : Int) =
      used s + entryLen e := by
    rw [u32, used, entryLen]
    rw [used] at hfits
    rw [entryLen] at hle
    omega
  rw [if_neg h0, hu]
  by_cases hfull : used s + entryLen e ≥ size
  · exact ⟨_, if_pos hfull⟩
  rw [if_neg hfull, MfsGetdentsModel.store]
  obtain ⟨c, hc⟩ : ∃ c, c = makeRoom env L size s (entryLen e) := ⟨_, rfl⟩
  rw [show makeRoom env L size s (L.reclen (nameLen e.2)) = c from hc.symm]
  by_cases hok : c.1 = ok
  · obtain ⟨type, htype⟩ := htyped (by simp [inUse, h0])
    have hrec : record env e.2 = .ok ⟨e.2.ino, L.reclen (nameLen e.2) % 65536, nameLen e.2, type,
        e.2.name.take (nameLen e.2)⟩ := bind_ok.mpr ⟨type, htype, rfl⟩
    have hroom : c.2.tmpbufOff + L.reclen (nameLen e.2) < L.capacity :=
      (makeRoom_ok hrec hfull hc hok).1
    rw [if_neg (not_not.mpr hok), if_neg (Nat.not_lt.mpr hroom.le)]
    exact ⟨_, bind_ok.mpr ⟨_, hrec, rfl⟩⟩
  · exact ⟨_, if_pos hok⟩

theorem scanEntries_ok (hsize : size ≤ 2147483647) (hgood : Good L size s)
    (htyped : ∀ e ∈ inUse es, ∃ type, entryType env e.2.ino = .ok type) :
    ∃ step, scanEntries env size es s = .ok step := by
  induction es generalizing s with
  | nil => exact ⟨_, rfl⟩
  | cons e es ih =>
      have hsplit : inUse (e :: es) = inUse [e] ++ inUse es := inUse_append [e] es
      rw [hsplit] at htyped
      obtain ⟨first, hfirst⟩ := scanEntry_ok env hsize hgood
        (fun he => htyped e (List.mem_append_left _ he))
      have hone := scanEntry_spec hsize hgood hfirst
      cases first with
      | next s₁ =>
          obtain ⟨step, hstep⟩ := ih hone.2.good (fun x hx => htyped x (List.mem_append_right _ hx))
          exact ⟨step, bind_ok.mpr ⟨_, hfirst, hstep⟩⟩
      | full s₁ entPos => exact ⟨_, bind_ok.mpr ⟨_, hfirst, rfl⟩⟩
      | failed s₁ r => exact ⟨_, bind_ok.mpr ⟨_, hfirst, rfl⟩⟩

/-- The loop is before a block, and has not stopped. -/
structure AtBlock (L : Layout) (size pos : Nat) (p : Progress) : Prop where
  block : ∃ b, p.blockPos = b * L.blockSize ∧ pos / L.blockSize ≤ b
  going : p.done = false
  good : Good L size p.scan

/-- A turn of the loop over a directory that is in order. -/
theorem blockTurn_ok (hsize : size ≤ 2147483647) (hsane : Sane env dir pos) {p : Progress}
    (h : AtBlock L size pos p) :
    (∃ x, blockTurn env size dir pos p = .ok (.done x) ∧ True) ∨
      ∃ p', blockTurn env size dir pos p = .ok (.again p') ∧ AtBlock L size pos p' ∧
        dir.size - p'.blockPos < dir.size - p.blockPos := by
  obtain ⟨b, hblock, hb⟩ := h.block
  have hbs := blockSize_pos L
  by_cases hend : b * L.blockSize < dir.size
  · obtain ⟨block, hdir⟩ := hsane.mapped b hend
    obtain ⟨hfirst, hlow⟩ := firstEntry_slot (L := L) hb
    have hentries := blockEntries_eq hdir hfirst.le
    rw [hlow] at hentries
    have hgood : Good L size { p.scan with blocks := p.scan.blocks + 1 } :=
      ⟨h.good.room, h.good.empty, h.good.fits⟩
    have hsucc : (b + 1) * L.perBlock = b * L.perBlock + L.perBlock := Nat.succ_mul _ _
    -- the entries of the block are among those from the position on
    have htyped : ∀ e ∈ inUse (dirEntries dir (max (pos / L.entrySize) (b * L.perBlock))
        ((b + 1) * L.perBlock)), ∃ type, entryType env e.2.ino = .ok type := by
      intro e he
      refine hsane.typed e ?_
      rw [dirEntries_append dir (max (pos / L.entrySize) (b * L.perBlock))
        (Nat.le_max_left _ _) (le_trans (by omega) (lastSlot_le hend)), inUse_append,
        dirEntries_append dir ((b + 1) * L.perBlock) (by omega) (lastSlot_le hend),
        inUse_append]
      exact List.mem_append_right _ (List.mem_append_left _ he)
    obtain ⟨step, hscan⟩ := scanEntries_ok hsize hgood htyped
    have hturn : blockTurn env size dir pos p = .ok (afterBlock L p step) := by
      rw [blockTurn, hblock, if_neg (not_not.mpr hend), Nat.mul_div_cancel _ hbs, hdir]
      exact bind_ok.mpr ⟨step, by rw [hentries]; exact hscan, rfl⟩
    have hspec := scanEntries_spec hsize hgood hscan
    cases step with
    | next s =>
        refine Or.inr ⟨_, hturn, ⟨⟨b + 1, ?_, Nat.le_succ_of_le hb⟩, h.going,
          hspec.2.release.good⟩, ?_⟩
        · rw [hblock, Nat.succ_mul]
        · simp only
          omega
    | full s entPos => exact Or.inl ⟨_, hturn, trivial⟩
    | failed s r => exact Or.inl ⟨_, hturn, trivial⟩
  · exact Or.inl ⟨_, by rw [blockTurn, hblock, if_pos hend], trivial⟩

/-- A request for a directory that is in order returns. -/
theorem getdents_returns (hsize : size ≤ 2147483647) (hsane : Sane env dir pos) :
    ∃ res, fsGetdents env (some dir) size pos = .ok res := by
  rw [fsGetdents]
  by_cases haligned : u32 pos % L.entrySize ≠ 0
  · exact ⟨_, if_pos haligned⟩
  rw [if_neg haligned]
  have hstart : AtBlock L size pos (begin L dir pos) := by
    refine ⟨⟨pos / L.blockSize, ?_, Nat.le_refl _⟩, rfl, begin_good⟩
    have hsplit := Nat.div_add_mod pos L.blockSize
    rw [Nat.mul_comm] at hsplit
    show pos - pos % L.blockSize = _
    omega
  have hloop : ∃ x, loop .endless (blockTurn env size dir pos) (dir.size + 1) (begin L dir pos) =
      .ok x ∧ True :=
    loop_total (I := AtBlock L size pos) (Q := fun _ => True) (fun p => dir.size - p.blockPos)
      (fun p hp => blockTurn_ok hsize hsane hp) hstart (by omega)
  obtain ⟨x, hloop, -⟩ := hloop
  obtain ⟨p, early⟩ := x
  cases early with
  | some r => exact ⟨_, bind_ok.mpr ⟨_, hloop, rfl⟩⟩
  | none => exact ⟨_, bind_ok.mpr ⟨_, hloop, rfl⟩⟩

end Total

/-! ## Main results -/

section Results

variable {env : Env} {size pos : Nat} {dir : Dir L}

/-- The entries that fit stay strictly below the end of the buffer. -/
theorem listing_room (dir : Dir L) (size pos : Nat) :
    (listing dir size pos).1 = [] ∨ total entryLen (listing dir size pos).1 < size := by
  by_cases hnil : (listing dir size pos).1 = []
  · exact Or.inl hnil
  · have hroom := fill_room hnil
    exact Or.inr (by rw [Nat.zero_add] at hroom; exact hroom)

/-- Within the buffer no copy is refused. -/
theorem copies_succeed (hcopy : ∀ t off len, env.copyCode t off len = ok) :
    firstFailure env size 0 0 (copies dir size pos) = none := by
  refine firstFailure_none hcopy 0 0 _ ?_
  have hsum : (copies dir size pos).sum = total entryLen (listing dir size pos).1 := by
    rw [copies, batches_sum, Nat.zero_add]
    rfl
  rw [Nat.zero_add, hsum]
  rcases listing_room dir size pos with hnil | hlt
  · rw [hnil]
    exact Nat.zero_le _
  · exact hlt.le

/-- **A LISTING FILLS THE BUFFER**: when the kernel copies, a request for a
    directory that is in order delivers the records of the entries in use from
    the position on, in order and one behind the other, for as long as they
    stay below the end of the buffer; it answers with their bytes and the
    position of the first entry that did not fit, or the end of the directory.
    It is refused with `EINVAL` exactly when already the first does not fit, and
    leaves nothing acquired. -/
theorem getdents_fills (hsize : size ≤ 2147483647) (hpos : L.entrySize ∣ pos)
    (hcopy : ∀ t off len, env.copyCode t off len = ok) (hsane : Sane env dir pos) :
    ∃ res taken rest, fsGetdents env (some dir) size pos = .ok res ∧
      taken ++ rest = inUse (dirEntries dir (pos / L.entrySize) (lastSlot dir)) ∧
      (taken = [] ∨ total entryLen taken < size) ∧
      (∀ e ∈ rest.head?, size ≤ total entryLen taken + entryLen e) ∧
      (taken = [] ∧ rest ≠ [] → res.r = einval ∧ res.scan.userbuf = []) ∧
      (¬ (taken = [] ∧ rest ≠ []) → res.r = ok ∧ res.nbytes = total entryLen taken ∧
        res.seekPos = nextPos dir rest ∧
        ∃ recs, Records env taken recs ∧ res.scan.userbuf = place Dirent.reclen 0 recs) ∧
      res.scan.inodes = 0 ∧ res.scan.blocks = 0 := by
  obtain ⟨res, hrun⟩ := getdents_returns hsize hsane
  obtain ⟨hinodes, hans⟩ := getdents_spec hsize hpos hrun
  rw [Answered, copies_succeed hcopy] at hans
  obtain ⟨hblocks, hdel⟩ := hans
  refine ⟨res, (listing dir size pos).1, (listing dir size pos).2, hrun, fill_append _ _ _ _,
    listing_room dir size pos, ?_, ?_, ?_, hinodes, hblocks⟩
  · intro e he
    cases hrest : (listing dir size pos).2 with
    | nil =>
        rw [hrest] at he
        cases he
    | cons x xs =>
        rw [hrest] at he
        obtain rfl : x = e := Option.some.inj he
        have hstop := fill_stop hrest
        rw [Nat.zero_add] at hstop
        exact hstop
  · intro hfull
    rw [Delivered, if_pos hfull] at hdel
    exact ⟨hdel.1, hdel.2.1⟩
  · intro hfull
    rw [Delivered, if_neg hfull] at hdel
    exact ⟨hdel.1, hdel.2.1, hdel.2.2.1, hdel.2.2.2.2⟩

/-- An entry of inode 5 with the name `a`, and a free one. -/
def entryA : Direct smallLayout := ⟨5, 97 :: List.replicate 59 0, rfl⟩

def entryFree : Direct smallLayout := ⟨0, List.replicate 60 0, rfl⟩

/-- Three slots in two blocks, the middle one free. -/
def smallDir : Dir smallLayout where
  size := 192
  block := fun b => if b < 2 then some (fun i => if i = 0 then entryA else entryFree) else none
  rdOnly := false

/-- Every inode is a regular file, and kernel copies have one answer. -/
def plainEnv (code : Int) : Env where
  mode := fun _ => some 0o100644
  copyCode := fun _ _ _ => code

theorem plainEnv_sane {dir : Dir L} (code : Int) (pos : Nat)
    (hblock : ∀ b, b * L.blockSize < dir.size → ∃ block, dir.block b = some block) :
    Sane (plainEnv code) dir pos where
  mapped := hblock
  typed := fun _ _ => ⟨.reg, rfl⟩

theorem smallDir_mapped (b : Nat) (hb : b * smallLayout.blockSize < smallDir.size) :
    ∃ block, smallDir.block b = some block := by
  have hb' : b * 128 < 192 := hb
  exact ⟨_, if_pos (by omega)⟩

/-- In 30 bytes there is room for one record of 24. -/
theorem getdents_fills_small : ∃ res, fsGetdents (plainEnv ok) (some smallDir) 30 0 = .ok res ∧
    res.r = ok ∧ res.scan.blocks = 0 := by
  have hroom : 30 ≤ 2147483647 := by decide
  have hcopy : ∀ t off len, (plainEnv ok).copyCode t off len = ok := fun _ _ _ => rfl
  obtain ⟨res, taken, rest, hrun, happend, -, hstop, -, hok, -, hblocks⟩ :=
    getdents_fills hroom (dvd_zero _) hcopy (plainEnv_sane ok 0 smallDir_mapped)
  refine ⟨res, hrun, (hok ?_).1, hblocks⟩
  rintro ⟨rfl, -⟩
  have hall : inUse (dirEntries smallDir 0 (lastSlot smallDir)) = [(0, entryA), (128, entryA)] := rfl
  have hrest : rest = [(0, entryA), (128, entryA)] := happend.trans hall
  have hfull := hstop (0, entryA) (by rw [hrest]; rfl)
  exact absurd hfull (by decide)

/-- **WHAT STAYS ACQUIRED**: whatever the kernel answers, a request that returns
    has released the inode of the directory.  It has released the blocks, too,
    unless a copy failed that was not the last: then the block it was at stays
    acquired. -/
theorem getdents_releases (hsize : size ≤ 2147483647) {odir : Option (Dir L)} {res : Result}
    (hrun : fsGetdents env odir size pos = .ok res) :
    res.scan.inodes = 0 ∧ (res.scan.blocks = 0 ∨ res.scan.blocks = 1) ∧
      (res.scan.blocks = 1 ↔ L.entrySize ∣ pos ∧ ∃ dir ∈ odir, ∃ rest code,
        firstFailure env size 0 0 (copies dir size pos) = some (rest, code) ∧ rest ≠ []) := by
  by_cases hpos : L.entrySize ∣ pos
  · cases odir with
    | none =>
        have hres : res.scan = .start := by
          simp only [fsGetdents] at hrun
          split at hrun
          · rw [← Except.ok.inj hrun]
          · rw [← Except.ok.inj hrun]
        rw [hres]
        refine ⟨rfl, Or.inl rfl, iff_of_false (by decide) ?_⟩
        rintro ⟨-, dir, hdir, -⟩
        cases hdir
    | some dir =>
        obtain ⟨hinodes, hans⟩ := getdents_spec hsize hpos hrun
        refine ⟨hinodes, ?_⟩
        simp only [Option.mem_some_iff, exists_eq_left', hpos, true_and]
        rw [Answered] at hans
        cases hcopies : firstFailure env size 0 0 (copies dir size pos) with
        | none =>
            rw [hcopies] at hans
            rw [hans.1]
            simp
        | some failure =>
            obtain ⟨rest, code⟩ := failure
            rw [hcopies] at hans
            obtain ⟨-, -, -, hblocks⟩ := hans
            by_cases hrest : rest = []
            · rw [hblocks, if_pos hrest]
              simp [hrest]
            · rw [hblocks, if_neg hrest]
              simp [hrest]
  · have haligned : u32 pos % L.entrySize ≠ 0 := by
      rw [u32_mod]
      exact fun h0 => hpos (Nat.dvd_of_mod_eq_zero h0)
    have hres : res = ⟨enoent, 0, 0, .start, false⟩ := by
      cases odir with
      | none => exact (Except.ok.inj ((if_pos haligned).symm.trans hrun)).symm
      | some dir => exact (Except.ok.inj ((if_pos haligned).symm.trans hrun)).symm
    rw [hres]
    exact ⟨rfl, Or.inl rfl, iff_of_false (by decide) (fun h => hpos h.1)⟩

/-- Fifty entries. -/
def fullDir : Dir smallLayout where
  size := 3200
  block := fun _ => some (fun _ => entryA)
  rdOnly := false

/-- The first copy of two fails with `EFAULT`. -/
theorem getdents_releases_held : ∃ res, fsGetdents (plainEnv (-14)) (some fullDir) 2000 0 = .ok res ∧
    res.scan.inodes = 0 ∧ res.scan.blocks = 1 := by
  have hroom : 2000 ≤ 2147483647 := by decide
  have hsane : Sane (plainEnv (-14)) fullDir 0 := plainEnv_sane (-14) 0 (fun _ _ => ⟨_, rfl⟩)
  obtain ⟨res, hrun⟩ := getdents_returns hroom hsane
  obtain ⟨hinodes, -, hblocks⟩ := getdents_releases (by decide) hrun
  refine ⟨res, hrun, hinodes, hblocks.mpr ⟨dvd_zero _, fullDir, rfl, [192], -14, ?_, by simp⟩⟩
  decide

end Results

end MfsGetdents
