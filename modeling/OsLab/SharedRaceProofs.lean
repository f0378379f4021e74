import OsLab.PipesProofs
import OsLab.SharedModelProofs
import OsLab.ThreadsRaceProofs

/-! # When the shared segment gets the file of the sequential program

    The children are an in-place map beside a stencil over the indices of
    the segment (`step_follows`).  The stencil computes its values from
    `globalImage`, which nobody converts, and the segment starts without the
    first row and the first column of the image, so that each finished
    schedule leaves what is known of it (`run_segment`).

    The file is that of `part1.cpp` exactly when the pixels of the first row
    and of the first column convert as black does, the magnitudes happen to
    agree, and every index of the image is an `int` (`shared_exact`). -/

namespace SharedRace

open OsLoop OsScan OsStencil ImageModel ImagePasses PpmModel PpmRead SharedModel
open PipesModel (Junk scanHeader)
open ThreadsModel (gateOpen)
open ThreadsRace (toGrey edges framed part1_ok luminosity)

/-! ## Indices -/

/-- `y * width + x`, for `(y, x)`. -/
def flat (w : Nat) (p : Nat × Nat) : Nat := p.1 * w + p.2

def unflat (w i : Nat) : Nat × Nat := (i / w, i % w)

section Indices

variable {h w i : Nat} {p q : Nat × Nat}

theorem flat_lt (hp : p.1 < h ∧ p.2 < w) : flat w p < h * w := by
  have hrow : (p.1 + 1) * w ≤ h * w := Nat.mul_le_mul_right w hp.1
  rw [Nat.add_mul, Nat.one_mul] at hrow
  rw [flat]
  omega

theorem flat_unflat (w i : Nat) : flat w (unflat w i) = i := Nat.div_add_mod' i w

theorem unflat_flat (hp : p.2 < w) : unflat w (flat w p) = p := by
  have hpos : 0 < w := Nat.zero_lt_of_lt hp
  rw [unflat, flat, Nat.mul_comm, Nat.mul_add_div hpos, Nat.div_eq_of_lt hp, Nat.mul_add_mod,
    Nat.mod_eq_of_lt hp]
  rfl

theorem flat_inj (hp : p.2 < w) (hq : q.2 < w) (heq : flat w p = flat w q) : p = q := by
  rw [← unflat_flat hp, heq, unflat_flat hq]

/-- Whether a pixel of a list comes first is told by its index. -/
theorem mem_map_flat {L : List (Nat × Nat)} (hL : ∀ q ∈ L, q.2 < w) (hp : p.2 < w) :
    flat w p ∈ L.map (flat w) ↔ p ∈ L := by
  constructor
  · intro hin
    obtain ⟨q, hq, heq⟩ := List.mem_map.mp hin
    rwa [← flat_inj (hL q hq) hp heq]
  · exact List.mem_map_of_mem

theorem nodup_map_flat {L : List (Nat × Nat)} (hL : ∀ q ∈ L, q.2 < w) (hnodup : L.Nodup) :
    (L.map (flat w)).Nodup :=
  hnodup.map_on fun p hp q hq heq => flat_inj (hL p hp) (hL q hq) heq

theorem map_unflat {L : List (Nat × Nat)} (hL : ∀ q ∈ L, q.2 < w) :
    (L.map (flat w)).map (unflat w) = L := by
  rw [List.map_map]
  exact (List.map_congr_left fun q hq => unflat_flat (hL q hq)).trans L.map_id

end Indices

/-! ## The segment -/

/-- The segment of an image of `h` by `w`. -/
def segment (h w : Nat) (pix : Nat → Pixel) : Segment where
  size := h * w
  pix := pix

section Segments

variable {h w i : Nat} {pix : Nat → Pixel} {p : Nat × Nat}

theorem index_ok (hfit : h * w ≤ 2 ^ 31) (hi : flat w p < h * w) :
    (segment h w pix).index w p = .ok (flat w p) :=
  if_pos ⟨hi, Nat.lt_of_lt_of_le hi hfit⟩

theorem read_ok (hfit : h * w ≤ 2 ^ 31) (hi : flat w p < h * w) :
    (segment h w pix).read w p = .ok (pix (flat w p)) :=
  bind_ok.mpr ⟨_, index_ok hfit hi, rfl⟩

theorem write_ok (hfit : h * w ≤ 2 ^ 31) (hi : flat w p < h * w) (v : Pixel) :
    (segment h w pix).write w p v = .ok (segment h w (Function.update pix (flat w p) v)) :=
  bind_ok.mpr ⟨_, index_ok hfit hi, rfl⟩

/-- An access has an index that is an `int`. -/
theorem lt_of_index {shared : Segment} (hindex : shared.index w p = .ok i) :
    p.1 * w + p.2 < 2 ^ 31 := by
  rw [Segment.index] at hindex
  split at hindex
  · next hin => exact hin.2
  · exact nomatch hindex

end Segments

/-! ## Loading -/

/-- The pixels that are loaded: all but those of row 0 and column 0. -/
def loadList (h w : Nat) : List (Nat × Nat) :=
  (List.range' 1 (h - 1)).reverse.flatMap fun i => (List.range' 1 (w - 1)).map (Prod.mk i)

/-- What the segment holds after the load. -/
def loadedPix (image : Image) (h w i : Nat) : Pixel :=
  if i ∈ (loadList h w).map (flat w) then image.pix (unflat w i) else .grey 0

section Load

variable {image : Image} {h w : Nat} {p : Nat × Nat}

theorem mem_loadList : p ∈ loadList h w ↔ (1 ≤ p.1 ∧ p.1 < h) ∧ 1 ≤ p.2 ∧ p.2 < w := by
  rw [loadList, List.mem_flatMap]
  constructor
  · rintro ⟨i, hi, hp⟩
    obtain ⟨j, hj, rfl⟩ := List.mem_map.mp hp
    rw [List.mem_reverse, List.mem_range'_1] at hi
    rw [List.mem_range'_1] at hj
    dsimp only
    omega
  · rintro ⟨hi, hj⟩
    refine ⟨p.1, ?_, List.mem_map.mpr ⟨p.2, ?_, rfl⟩⟩
    · rw [List.mem_reverse, List.mem_range'_1]
      omega
    · rw [List.mem_range'_1]
      omega

theorem loadPixels_ok (hs : Sized image h w) (hfit : h * w ≤ 2 ^ 31) :
    loadPixels image h w (segment h w fun _ => .grey 0) =
      .ok (segment h w (loadedPix image h w)) := by
  have hstep : ∀ pix, ∀ p ∈ loadList h w, loadPixel image w (segment h w pix) p =
      .ok (segment h w (Function.update pix (flat w p) (image.pix (unflat w (flat w p))))) := by
    intro pix p hp
    obtain ⟨hrow, hcol⟩ := mem_loadList.mp hp
    have hframe : p.1 < h ∧ p.2 < w := ⟨hrow.2, hcol.2⟩
    rw [unflat_flat hframe.2]
    exact bind_ok.mpr ⟨_, ImagePasses.read_ok hs hframe, write_ok hfit (flat_lt hframe) _⟩
  have hrun := runAll_image (segment h w) hstep fun _ => .grey 0
  rw [loadPixels, runAll_grid (loadPixel image w)]
  refine hrun.trans (congrArg (fun pix => Except.ok (segment h w pix)) ?_)
  have hfold := foldl_fill_cell (fun i => image.pix (unflat w i)) ((loadList h w).map (flat w))
    (fun _ => Pixel.grey 0)
  rw [List.foldl_map] at hfold
  exact hfold

/-- The last index of an image that is loaded is an `int`. -/
theorem fits_of_load {shared shared' : Segment} (hh : 2 ≤ h) (hw : 2 ≤ w)
    (hload : loadPixels image h w shared = .ok shared') : h * w ≤ 2 ^ 31 := by
  have hlast : (h - 1, w - 1) ∈ loadList h w :=
    mem_loadList.mpr ⟨by dsimp only; omega, by dsimp only; omega⟩
  rw [loadPixels, runAll_grid (loadPixel image w)] at hload
  obtain ⟨s₁, s₂, hstep⟩ := runAll_mem hload hlast
  obtain ⟨q, -, hwrite⟩ := bind_ok.mp hstep
  obtain ⟨i, hindex, -⟩ := bind_ok.mp hwrite
  have hlt := lt_of_index hindex
  have hrow : h * w = (h - 1) * w + w := by
    rw [← Nat.succ_mul, Nat.succ_eq_add_one, Nat.sub_add_cancel (by omega)]
  dsimp only at hlt
  omega

theorem loadedPix_flat (hp : p.1 < h ∧ p.2 < w) : loadedPix image h w (flat w p) =
    if 1 ≤ p.1 ∧ 1 ≤ p.2 then image.pix p else .grey 0 := by
  have hcols : ∀ q ∈ loadList h w, q.2 < w := fun q hq => (mem_loadList.mp hq).2.2
  rw [loadedPix, unflat_flat hp.2]
  refine if_congr ((mem_map_flat hcols hp.2).trans (mem_loadList.trans ?_)) rfl rfl
  exact ⟨fun hin => ⟨hin.1.1, hin.2.1⟩, fun hin => ⟨⟨hin.1, hp.1⟩, hin.2, hp.2⟩⟩

end Load

/-! ## The children -/

/-- Who of the two writers a child is. -/
def writer : Child → Writer
  | .t1 => .mapper
  | .t3 => .stencil

/-- `position` after the last conversion. -/
def positionOf (w : Nat) : Option Nat → Nat × Nat
  | none => (0, 0)
  | some i => (i % w + 1, i / w + 1)

/-- The gate, on the last conversion. -/
def gate (w : Nat) (last : Option Nat) (i : Nat) : Bool :=
  gateOpen (positionOf w last) (unflat w i)

/-- What `T3` writes: the magnitudes of `globalImage`. -/
def fill (globalImage : Image) (w : Nat) (_ : Nat → Pixel) (i : Nat) : Pixel :=
  sobelAt gxRight globalImage.pix (unflat w i)

/-- The children before their first steps, on an image of `h` by `w`. -/
def fresh (h w : Nat) : Progress Nat where
  toMap := (allPixels h w).map (flat w)
  last := none
  copied := true
  toFill := (interior h w).map (flat w)

/-- What the children have left after a schedule. -/
def progress (h w : Nat) (sched : List Child) : Progress Nat :=
  (sched.map writer).foldl (Progress.step (gate w)) (fresh h w)

/-- The pixel is still to be converted when `T3` writes it. -/
def Early (h w : Nat) (sched : List Child) (p : Nat × Nat) : Prop :=
  early (gate w) (flat w p) (fresh h w) (sched.map writer) = true

instance (h w : Nat) (sched : List Child) (p : Nat × Nat) : Decidable (Early h w sched p) :=
  inferInstanceAs (Decidable (_ = _))

/-- The state of the program at a state of the two writers. -/
def stateOf (h w : Nat) (s : Progress Nat × Memory Nat Pixel) : State where
  shared := segment h w s.2.cell
  position := positionOf w s.1.last
  gray := s.1.toMap.map (unflat w)
  edge := s.1.toFill.map (unflat w)

/-- The writers have only indices of their loops left. -/
structure Within (h w : Nat) (pr : Progress Nat) : Prop where
  copied : pr.copied = true
  map : ∀ i ∈ pr.toMap, i < h * w
  fill : ∀ i ∈ pr.toFill, unflat w i ∈ interior h w

section Follow

variable {globalImage : Image} {h w : Nat} {sched : List Child}
  {s : Progress Nat × Memory Nat Pixel}

/-- **A STEP OF A CHILD** is a step of its writer. -/
theorem step_follows (gray : Pixel → UInt8) (hs : Sized globalImage h w) (hh : 1 ≤ h)
    (hw : 1 ≤ w) (hfit : h * w ≤ 2 ^ 31) (hin : Within h w s.1) (c : Child) :
    SharedModel.step gray globalImage w (stateOf h w s) c = .ok (stateOf h w
        (OsStencil.step (gate w) (toGrey gray) (fill globalImage w) s (writer c))) ∧
      Within h w (OsStencil.step (gate w) (toGrey gray) (fill globalImage w) s (writer c)).1 := by
  obtain ⟨pr, m⟩ := s
  cases c with
  | t1 =>
      have hmove := move_step (gate w) (toGrey gray) (fill globalImage w) pr m .mapper
      rw [writer]
      generalize OsStencil.step (gate w) (toGrey gray) (fill globalImage w) (pr, m) .mapper = s'
        at hmove ⊢
      cases hmove with
      | idle hmap =>
          refine ⟨?_, hin⟩
          rw [SharedModel.step, t1Step, stateOf, hmap]
          rfl
      | @map i rest hmap =>
          have hi : flat w (unflat w i) < h * w := by
            rw [flat_unflat]
            exact hin.map i (hmap ▸ List.mem_cons_self)
          refine ⟨?_, hin.copied, fun j hj => ?_, hin.fill⟩
          swap
          · exact hin.map j (hmap ▸ List.mem_cons_of_mem _ hj)
          rw [SharedModel.step, t1Step]
          simp only [stateOf, hmap, List.map_cons]
          rw [read_ok hfit hi, flat_unflat]
          refine bind_ok.mpr ⟨_, rfl, bind_ok.mpr ⟨_, write_ok hfit hi _, ?_⟩⟩
          rw [flat_unflat]
          rfl
  | t3 =>
      have hmove := move_step (gate w) (toGrey gray) (fill globalImage w) pr m .stencil
      rw [writer]
      generalize OsStencil.step (gate w) (toGrey gray) (fill globalImage w) (pr, m) .stencil = s'
        at hmove ⊢
      cases hmove with
      -- the `globalImage` of the fork is there from the start
      | copy hcopied => cases hin.copied.symm.trans hcopied
      | wait hcopied hnone =>
          refine ⟨?_, hin⟩
          rw [SharedModel.step, t3Step]
          simp only [stateOf]
          obtain hfill | ⟨i, rest, hfill, hclosed⟩ := wait_cases hcopied hnone
          · simp only [hfill, List.map_nil]
          · have hgate : ¬ gateOpen (positionOf w pr.last) (unflat w i) = true := by
              rw [show gateOpen (positionOf w pr.last) (unflat w i) = gate w pr.last i from rfl,
                hclosed]
              exact Bool.false_ne_true
            simp only [hfill, List.map_cons, if_neg hgate]
      | @fill i rest hcopied hsome hfill =>
          have hp : unflat w i ∈ interior h w := hin.fill i (hfill ▸ List.mem_cons_self)
          have hi : flat w (unflat w i) < h * w := flat_lt (interior_lt hs hh hw hp)
          refine ⟨?_, hin.copied, hin.map, fun j hj => ?_⟩
          swap
          · exact hin.fill j (hfill ▸ List.mem_cons_of_mem _ hj)
          rw [SharedModel.step, t3Step]
          simp only [stateOf, hfill, List.map_cons]
          have hopen : gateOpen (positionOf w pr.last) (unflat w i) = true :=
            (fills_some hsome).2.1
          rw [if_pos hopen, sobelSums_ok hs hh hw hp]
          refine bind_ok.mpr ⟨_, rfl, bind_ok.mpr ⟨_, write_ok hfit hi _, ?_⟩⟩
          rw [flat_unflat]
          rfl

/-- The memory of the writers on a segment. -/
def memory (pix : Nat → Pixel) : Memory Nat Pixel where
  cell := pix
  copy := pix

theorem start_eq (hs : Sized globalImage h w) (hh : 1 ≤ h) (hw : 1 ≤ w) (pix : Nat → Pixel) :
    start (segment h w pix) h w = stateOf h w (fresh h w, memory pix) := by
  have hbound : ∀ n, 1 ≤ n → n < 2 ^ 31 → List.range' 1 (n - 2) = upTo n := by
    intro n hpos hn
    have hlength : (2 ^ 64 - 1 + n) % 2 ^ 64 - 1 = n - 2 := by omega
    rw [upTo, hlength]
  have hgray : ((allPixels h w).map (flat w)).map (unflat w) = allPixels h w :=
    map_unflat fun q hq => (mem_allPixels.mp hq).2
  have hedge : ((interior h w).map (flat w)).map (unflat w) = interior h w :=
    map_unflat fun q hq => (interior_lt hs hh hw hq).2
  rw [start, hbound h hh hs.height, hbound w hw hs.width, stateOf]
  simp only [fresh, hgray, hedge]
  rfl

theorem within_fresh (hs : Sized globalImage h w) (hh : 1 ≤ h) (hw : 1 ≤ w) :
    Within h w (fresh h w) where
  copied := rfl
  map i hi := by
    obtain ⟨p, hp, rfl⟩ := List.mem_map.mp hi
    exact flat_lt (mem_allPixels.mp hp)
  fill i hi := by
    obtain ⟨p, hp, rfl⟩ := List.mem_map.mp hi
    rwa [unflat_flat (interior_lt hs hh hw hp).2]

theorem run_follows (gray : Pixel → UInt8) (hs : Sized globalImage h w) (hh : 1 ≤ h) (hw : 1 ≤ w)
    (hfit : h * w ≤ 2 ^ 31) (pix : Nat → Pixel) (sched : List Child) :
    runAll (SharedModel.step gray globalImage w) (start (segment h w pix) h w) sched =
      .ok (stateOf h w ((sched.map writer).foldl
        (OsStencil.step (gate w) (toGrey gray) (fill globalImage w)) (fresh h w, memory pix))) := by
  rw [List.foldl_map, start_eq hs hh hw pix]
  exact runAll_image_inv (I := fun s => Within h w s.1) (stateOf h w)
    (fun _ c _ hin => step_follows gray hs hh hw hfit hin c) (within_fresh hs hh hw)

theorem once_fresh (hs : Sized globalImage h w) (hh : 1 ≤ h) (hw : 1 ≤ w) : (fresh h w).Once where
  map := nodup_map_flat (fun _ hq => (mem_allPixels.mp hq).2) (nodup_allPixels h w)
  fill := nodup_map_flat (fun _ hq => (interior_lt hs hh hw hq).2) (nodup_interior h w)

end Follow

/-! ## The segment of a finished run -/

/-- What the children leave at an inner pixel. -/
def inner (gray : Pixel → UInt8) (image : Image) (h w : Nat) (sched : List Child)
    (p : Nat × Nat) : Pixel :=
  if Early h w sched p then toGrey gray (sobelAt gxRight image.pix p)
  else sobelAt gxRight image.pix p

/-- What they leave at a pixel. -/
def left (gray : Pixel → UInt8) (image : Image) (h w : Nat) (sched : List Child)
    (p : Nat × Nat) : Pixel :=
  if Inside h w p then inner gray image h w sched p
  else toGrey gray (if 1 ≤ p.1 ∧ 1 ≤ p.2 then image.pix p else .grey 0)

/-- For this image and conversion, the borders and the magnitudes agree. -/
structure Agrees (gray : Pixel → UInt8) (image : Image) (h w : Nat) (sched : List Child) :
    Prop where
  border : ∀ p, p.1 < h ∧ p.2 < w → p.1 = 0 ∨ p.2 = 0 → gray (image.pix p) = gray (.grey 0)
  inside : ∀ p, Inside h w p → inner gray image h w sched p = edges gray image p

section Final

variable {image : Image} {h w : Nat} {gray : Pixel → UInt8} {sched : List Child}

/-- **THE SEGMENT OF A FINISHED RUN**. -/
theorem run_segment (gray : Pixel → UInt8) (hs : Sized image h w) (hh : 1 ≤ h) (hw : 1 ≤ w)
    (hfit : h * w ≤ 2 ^ 31) (hdone : (progress h w sched).Finished) :
    ∃ st pix, runAll (SharedModel.step gray image w)
        (start (segment h w (loadedPix image h w)) h w) sched = .ok st ∧
      (st.gray = [] ∧ st.edge = []) ∧ st.shared = segment h w pix ∧
      ∀ p, p.1 < h ∧ p.2 < w → pix (flat w p) = left gray image h w sched p := by
  have hrun := run_follows gray hs hh hw hfit (loadedPix image h w) sched
  have hpr := run_progress (gate w) (toGrey gray) (fill image w) (sched.map writer) (fresh h w)
    (memory (loadedPix image h w))
  have hdone' := hdone
  rw [progress, ← hpr] at hdone'
  refine ⟨_, _, hrun, ⟨?_, ?_⟩, rfl, ?_⟩
  · simp only [stateOf, hdone'.1, List.map_nil]
  · simp only [stateOf, hdone'.2.2, List.map_nil]
  · intro p hp
    -- what the library says of the index is read back at the pixel
    have hcell := congrFun (run_cell (once_fresh hs hh hw) hdone') (flat w p)
    have hfill : flat w p ∈ (fresh h w).toFill ↔ Inside h w p :=
      (mem_map_flat (fun q hq => (interior_lt hs hh hw hq).2) hp.2).trans
        (mem_interior hh hw hs.height hs.width)
    have hmap : flat w p ∈ (fresh h w).toMap := List.mem_map_of_mem (mem_allPixels.mpr hp)
    refine hcell.trans ?_
    rw [outcome, left]
    by_cases hinside : Inside h w p
    · rw [if_pos (hfill.mpr hinside), if_pos hinside, inner, fill, unflat_flat hp.2]
      rfl
    · rw [if_neg (fun hin => hinside (hfill.mp hin)), if_neg hinside, if_pos hmap]
      exact congrArg (toGrey gray) (loadedPix_flat hp)

/-- The children leave the pixels of the sequential program when they
    agree. -/
theorem left_iff :
    (∀ p, p.1 < h ∧ p.2 < w →
      left gray image h w sched p = (framed gray image h w (edges gray image)).pix p) ↔
      Agrees gray image h w sched := by
  constructor
  · intro hall
    refine ⟨fun p hp hedge => ?_, fun p hinside => ?_⟩
    · have hout : ¬ Inside h w p := by
        rintro ⟨hy, hx⟩
        omega
      have hblack : ¬ (1 ≤ p.1 ∧ 1 ≤ p.2) := by omega
      have heq := hall p hp
      simp only [left, framed, if_neg hout, if_neg hblack, if_pos hp] at heq
      exact (congrArg Pixel.r heq).symm
    · have heq := hall p ⟨by have := hinside.1; omega, by have := hinside.2; omega⟩
      simpa only [left, framed, if_pos hinside] using heq
  · rintro hagrees p hp
    by_cases hinside : Inside h w p
    · simp only [left, framed, if_pos hinside]
      exact hagrees.inside p hinside
    · simp only [left, framed, if_neg hinside, if_pos hp]
      by_cases hloaded : 1 ≤ p.1 ∧ 1 ≤ p.2
      · rw [if_pos hloaded]
      · rw [if_neg hloaded, toGrey, toGrey, hagrees.border p hp (by omega)]

end Final

/-! ## The file -/

theorem writeShared_eq (shared : Segment) (width height : Int) :
    writeShared shared width height = runAll (writePixel (shared.read width.toNat))
      (header width height) (allPixels height.toNat width.toNat) :=
  runAll_grid (writePixel (shared.read width.toNat)) _ _ _

theorem writeShared_ok {h w : Nat} (hfit : h * w ≤ 2 ^ 31) (pix : Nat → Pixel) :
    writeShared (segment h w pix) w h =
      .ok (header w h ++ body (fun p => pix (flat w p)) h w) := by
  rw [writeShared_eq]
  exact writePixels_ok (fun p hp => read_ok hfit (flat_lt (mem_allPixels.mp hp))) (header w h)

section File

variable {bytes : Bytes} {size : Bytes × Stream} {image : Image} {w h : Int}
  {gray : Pixel → UInt8} {junk : Junk} {sched : List Child}

/-- `readPPM` gets past its checks in an accepted file. -/
theorem readPPM_eq (hr : Read bytes size image w h) (width height : Int) :
    SharedModel.readPPM bytes width height = (do
      let cols ← vectorLength width
      let rows ← vectorLength height
      let globalImage ← readPixels rows cols (getline size.2 size.1).2
      let shared ← loadPixels globalImage rows cols (unloaded width height).shared
      .ok { globalImage := globalImage, shared := shared }) := by
  rw [SharedModel.readPPM]
  dsimp only
  rw [if_neg (not_not.mpr hr.first), hr.skipped]
  show (stoi (getline size.2 size.1).1 >>= _) = _
  rw [hr.maxVal]
  rfl

/-- A file that is written starts with the sizes of `fscanf`. -/
theorem header_of_ok (hr : Read bytes size image w h) {out : Bytes}
    (hout : part22File gray junk sched bytes = .ok out) :
    0 ≤ (scanHeader junk bytes).width ∧ 0 ≤ (scanHeader junk bytes).height ∧
      ∃ rest, out =
        header (scanHeader junk bytes).width (scanHeader junk bytes).height ++ rest := by
  obtain ⟨loaded, hread, hout⟩ := bind_ok.mp hout
  obtain ⟨st, -, hout⟩ := bind_ok.mp hout
  rw [readPPM_eq hr] at hread
  obtain ⟨cols, hcols, hread⟩ := bind_ok.mp hread
  obtain ⟨rows, hrows, -⟩ := bind_ok.mp hread
  refine ⟨(vectorLength_ok hcols).1, (vectorLength_ok hrows).1, ?_⟩
  split at hout
  · rw [writeShared_eq] at hout
    exact writePixels_start hout
  · exact nomatch hout

/-- With the sizes of the image, `main` loads it and runs the children. -/
theorem part22File_sizes (hr : Read bytes size image w h) (hw : (scanHeader junk bytes).width = w)
    (hh : (scanHeader junk bytes).height = h) : part22File gray junk sched bytes = (do
      let shared ← loadPixels image h.toNat w.toNat (segment h.toNat w.toNat fun _ => .grey 0)
      let st ← runAll (SharedModel.step gray image w.toNat) (start shared h.toNat w.toNat) sched
      if st.gray = [] ∧ st.edge = [] then writeShared st.shared w h else .error .noEnd) := by
  rw [part22File, readPPM_eq hr, hw, hh, hr.cols]
  show ((vectorLength h >>= _) >>= _) = _
  rw [hr.rows]
  show ((readPixels h.toNat w.toNat (getline size.2 size.1).2 >>= _) >>= _) = _
  rw [hr.pixels]
  have hsegment : (unloaded w h).shared = segment h.toNat w.toNat fun _ => .grey 0 := rfl
  show ((loadPixels image h.toNat w.toNat (unloaded w h).shared >>= _) >>= _) = _
  rw [hsegment]
  cases loadPixels image h.toNat w.toNat (segment h.toNat w.toNat fun _ => .grey 0) with
  | error e => rfl
  | ok shared => rfl

/-- A finished run writes what the children leave. -/
theorem part22File_ok (gray : Pixel → UInt8) (junk : Junk) (hr : Read bytes size image w h)
    (hs : Sized image h.toNat w.toNat) (hw : 0 < w) (hh : 0 < h)
    (hwidth : (scanHeader junk bytes).width = w) (hheight : (scanHeader junk bytes).height = h)
    (hfit : h.toNat * w.toNat ≤ 2 ^ 31) (hdone : (progress h.toNat w.toNat sched).Finished) :
    part22File gray junk sched bytes = .ok (header w h ++
      body (left gray image h.toNat w.toNat sched) h.toNat w.toNat) := by
  obtain ⟨st, pix, hrun, hfin, hshared, hpix⟩ :=
    run_segment gray hs (by omega) (by omega) hfit hdone
  have hwrite := writeShared_ok hfit pix
  rw [Int.toNat_of_nonneg hw.le, Int.toNat_of_nonneg hh.le, body_inj.mpr hpix] at hwrite
  rw [part22File_sizes hr hwidth hheight, loadPixels_ok hs hfit]
  refine bind_ok.mpr ⟨_, rfl, bind_ok.mpr ⟨_, hrun, ?_⟩⟩
  rw [if_pos hfin, hshared]
  exact hwrite

/-- **THE CHILDREN AGREE** with the sequential program, for an accepted file
    without a comment, exactly when each index is an `int` and the borders
    and the magnitudes agree. -/
theorem shared_exact (gray : Pixel → UInt8) (junk : Junk)
    (hread : PpmModel.readPPM (some bytes) none none = .ok ⟨true, image, some w, some h⟩)
    (hw : 3 ≤ w) (hh : 3 ≤ h) (hcomment : ¬ HasComment bytes)
    (hdone : (progress h.toNat w.toNat sched).Finished) :
    ∃ out, part1File gray (some bytes) = .ok out ∧
      (part22File gray junk sched bytes = .ok out ↔
        h.toNat * w.toNat ≤ 2 ^ 31 ∧ Agrees gray image h.toNat w.toNat sched) := by
  obtain ⟨size, hr⟩ := read_of_ok hread
  have ha := accepted hread (by omega)
  have hpos : 0 < w ∧ 0 < h := ⟨by omega, by omega⟩
  have hpart1 := part1_ok gray ha.sized (by omega) (by omega)
  refine ⟨_, part1File_ok ha hpos.1.le hpos.2.le hpart1 (ha.sized.with_pix _), ?_⟩
  have hfile := fun hwidth hheight hfit =>
    part22File_ok gray junk hr ha.sized hpos.1 hpos.2 hwidth hheight hfit hdone
  constructor
  · intro hout
    obtain ⟨hwidth', hheight', rest, hrest⟩ := header_of_ok hr hout
    obtain ⟨hwidth, hheight⟩ :=
      header_inj_of_nonneg hpos.1.le hpos.2.le hwidth' hheight' hrest
    have hfit : h.toNat * w.toNat ≤ 2 ^ 31 := by
      rw [part22File_sizes hr hwidth.symm hheight.symm] at hout
      obtain ⟨shared, hload, -⟩ := bind_ok.mp hout
      exact fits_of_load (by omega) (by omega) hload
    have heq := Except.ok.inj ((hfile hwidth.symm hheight.symm hfit).symm.trans hout)
    exact ⟨hfit, left_iff.mp (body_inj.mp (List.append_cancel_left heq))⟩
  · rintro ⟨hfit, hagrees⟩
    obtain ⟨hwidth, hheight⟩ := Pipes.header_plain junk ha hpos.1 hpos.2 hcomment
    -- an image of that size has a height that `fscanf` reads right
    have hrows : h.toNat * 3 ≤ h.toNat * w.toNat := Nat.mul_le_mul_left _ (by omega)
    have hlt : h < 2147483647 := by omega
    have hfits := Pipes.heightFits_of_lt ha hpos.1 hpos.2 hcomment hlt
    rw [hfile hwidth (hheight.mpr hfits) hfit, body_inj.mpr (left_iff.mpr hagrees)]

end File

/-- Both children of an image of 3 by 4 pixels, one after the other. -/
def oneAfterOther : List Child := List.replicate 12 .t1 ++ [.t3, .t3]

theorem shared_exact_run : ∃ image out,
    PpmModel.readPPM (some (Pipes.blackFile [])) none none = .ok ⟨true, image, some 3, some 4⟩ ∧
    part1File Pixel.r (some (Pipes.blackFile [])) = .ok out ∧
      (part22File Pixel.r ⟨0, 0, 0⟩ oneAfterOther (Pipes.blackFile []) = .ok out ↔
        4 * 3 ≤ 2 ^ 31 ∧ Agrees Pixel.r image 4 3 oneAfterOther) := by
  have hread : PpmModel.readPPM (some (Pipes.blackFile [])) none none =
      .ok ⟨true, _, some 3, some 4⟩ := rfl
  have hdone : (progress 4 3 oneAfterOther).Finished := by decide
  obtain ⟨out, hall⟩ :=
    shared_exact Pixel.r ⟨0, 0, 0⟩ hread (by decide) (by decide) (by decide) hdone
  exact ⟨_, out, hread, hall⟩

/-- A black image of 3 by 3 pixels with a red pixel in the first corner. -/
def cornerFile : Bytes :=
  magic ++ 10 :: (decimal 3 ++ 32 :: (decimal 3 ++ 10 :: (decimal 255 ++ 10 :: 255 ::
    List.replicate 26 0)))

/-- **THE FIRST ROW IS LOST**: the sequential program converts the red corner
    to 53, and from the segment it comes out black. -/
theorem corner_lost : ∃ image out out',
    PpmModel.readPPM (some cornerFile) none none = .ok ⟨true, image, some 3, some 3⟩ ∧
      ¬ HasComment cornerFile ∧
      (progress 3 3 (List.replicate 9 .t1 ++ [.t3])).Finished ∧
      part1File luminosity (some cornerFile) = .ok out ∧
      part22File luminosity ⟨0, 0, 0⟩ (List.replicate 9 .t1 ++ [.t3]) cornerFile = .ok out' ∧
      (out.drop 11).head? = some 53 ∧ (out'.drop 11).head? = some 0 ∧ out ≠ out' := by
  have hread : PpmModel.readPPM (some cornerFile) none none = .ok ⟨true, _, some 3, some 3⟩ := rfl
  obtain ⟨size, hr⟩ := read_of_ok hread
  have ha := accepted hread (by decide)
  have hdone : (progress 3 3 (List.replicate 9 .t1 ++ [.t3])).Finished := by decide
  have hpart1 := part1File_ok ha (by decide) (by decide)
    (part1_ok luminosity ha.sized (by decide) (by decide)) (ha.sized.with_pix _)
  have hpart22 := part22File_ok luminosity ⟨0, 0, 0⟩ hr ha.sized (by decide) (by decide) rfl rfl
    (by decide) hdone
  refine ⟨_, _, _, hread, by decide, hdone, hpart1, hpart22, rfl, rfl, ?_⟩
  intro heq
  have hbyte := congrArg (fun out => (out.drop 11).head?) heq
  exact absurd hbyte (by decide)

end SharedRace
