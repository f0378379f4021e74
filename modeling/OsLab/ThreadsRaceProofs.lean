import OsLab.ImagePassesProofs
import OsLab.ThreadsModelProofs

/-! # When the threads agree with the sequential program

    The two threads are an in-place map beside a stencil (`step_follows`),
    so the image of a finished run is known at every pixel.  It depends on
    the schedule in two ways: a pixel may be `Stale`, still coloured when
    `EDGE` copies the image, or `Early`, still to be converted when `EDGE`
    writes it.

    The gate on `position` excludes neither.  For one image the result is
    that of the sequential program exactly when the magnitudes happen to
    agree; for every image and every conversion, exactly when no pixel is
    stale, that is when `EDGE` copies the image after the last conversion
    (`schedule_exact`). -/

namespace ThreadsRace

open OsLoop OsStencil ImageModel ImagePasses ThreadsModel

/-- Who of the two writers a thread is. -/
def writer : Thread → Writer
  | .grayScale => .mapper
  | .edge => .stencil

/-- `position` after the last conversion. -/
def positionOf : Option (Nat × Nat) → Nat × Nat
  | none => (0, 0)
  | some p => (p.2 + 1, p.1 + 1)

/-- The gate, on the last conversion. -/
def gate (last : Option (Nat × Nat)) (p : Nat × Nat) : Bool := gateOpen (positionOf last) p

/-- The threads before their first steps, on an image of `h` by `w`. -/
def fresh (h w : Nat) : Progress (Nat × Nat) where
  toMap := allPixels h w
  last := none
  copied := false
  toFill := interior h w

/-- What the threads have left after a schedule. -/
def progress (h w : Nat) (sched : List Thread) : Progress (Nat × Nat) :=
  (sched.map writer).foldl (Progress.step gate) (fresh h w)

/-- The pixel is still coloured when `EDGE` copies the image. -/
def Stale (h w : Nat) (sched : List Thread) (p : Nat × Nat) : Prop :=
  stale gate p (fresh h w) (sched.map writer) = true

/-- The pixel is still to be converted when `EDGE` writes it. -/
def Early (h w : Nat) (sched : List Thread) (p : Nat × Nat) : Prop :=
  early gate p (fresh h w) (sched.map writer) = true

instance (h w : Nat) (sched : List Thread) (p : Nat × Nat) : Decidable (Stale h w sched p) :=
  inferInstanceAs (Decidable (_ = _))

instance (h w : Nat) (sched : List Thread) (p : Nat × Nat) : Decidable (Early h w sched p) :=
  inferInstanceAs (Decidable (_ = _))

/-- The conversion of one pixel. -/
def toGrey (gray : Pixel → UInt8) (p : Pixel) : Pixel := .grey (gray p)

/-- The state of the program at a state of the two writers. -/
def stateOf (image : Image) (s : Progress (Nat × Nat) × Memory (Nat × Nat) Pixel) : State where
  image := { image with pix := s.2.cell }
  position := positionOf s.1.last
  gray := s.1.toMap
  tempPixels := if s.1.copied then some { image with pix := s.2.copy } else none
  edge := s.1.toFill

/-- The writers have only pixels of their loops left. -/
structure Within (h w : Nat) (pr : Progress (Nat × Nat)) : Prop where
  map : ∀ p ∈ pr.toMap, p ∈ allPixels h w
  fill : ∀ p ∈ pr.toFill, p ∈ interior h w

section Follow

variable {image : Image} {h w : Nat} {gray : Pixel → UInt8} {sched : List Thread}
  {s : Progress (Nat × Nat) × Memory (Nat × Nat) Pixel}

/-- **A STEP OF A THREAD** is a step of its writer. -/
theorem step_follows (gray : Pixel → UInt8) (hs : Sized image h w) (hh : 1 ≤ h) (hw : 1 ≤ w)
    (hin : Within h w s.1) (t : Thread) : ThreadsModel.step gray (stateOf image s) t =
        .ok (stateOf image (OsStencil.step gate (toGrey gray) (sobelAt gxRight) s (writer t))) ∧
      Within h w (OsStencil.step gate (toGrey gray) (sobelAt gxRight) s (writer t)).1 := by
  obtain ⟨pr, m⟩ := s
  cases t with
  | grayScale =>
      have hmove := move_step gate (toGrey gray) (sobelAt gxRight) pr m .mapper
      rw [writer]
      generalize OsStencil.step gate (toGrey gray) (sobelAt gxRight) (pr, m) .mapper = s' at hmove ⊢
      cases hmove with
      | idle hmap =>
          refine ⟨?_, hin⟩
          rw [ThreadsModel.step, grayScaleStep, stateOf, hmap]
      | @map p rest hmap =>
          have hp : p ∈ allPixels h w := hin.map p (hmap ▸ List.mem_cons_self)
          refine ⟨?_, ⟨fun q hq => hin.map q (hmap ▸ List.mem_cons_of_mem _ hq), hin.fill⟩⟩
          rw [ThreadsModel.step, grayScaleStep]
          simp only [stateOf, hmap]
          rw [grayPixel_ok (hs.with_pix m.cell) hp]
          rfl
  | edge =>
      have hmove := move_step gate (toGrey gray) (sobelAt gxRight) pr m .stencil
      rw [writer]
      generalize OsStencil.step gate (toGrey gray) (sobelAt gxRight) (pr, m) .stencil = s'
        at hmove ⊢
      cases hmove with
      | copy hcopied =>
          refine ⟨?_, ⟨hin.map, hin.fill⟩⟩
          rw [ThreadsModel.step, edgeStep]
          simp only [stateOf, hcopied, Bool.false_eq_true, if_false, if_true]
      | wait hcopied hnone =>
          refine ⟨?_, hin⟩
          rw [ThreadsModel.step, edgeStep]
          simp only [stateOf, hcopied, if_true]
          obtain hfill | ⟨p, rest, hfill, hclosed⟩ := wait_cases hcopied hnone
          · simp only [hfill]
          · have hgate : ¬ gateOpen (positionOf pr.last) p = true := by
              rw [show gateOpen (positionOf pr.last) p = gate pr.last p from rfl, hclosed]
              exact Bool.false_ne_true
            simp only [hfill, if_neg hgate]
      | @fill p rest hcopied hsome hfill =>
          have hp : p ∈ interior h w := hin.fill p (hfill ▸ List.mem_cons_self)
          refine ⟨?_, ⟨hin.map, fun q hq => hin.fill q (hfill ▸ List.mem_cons_of_mem _ hq)⟩⟩
          rw [ThreadsModel.step, edgeStep]
          simp only [stateOf, hcopied, if_true, hfill]
          have hopen : gateOpen (positionOf pr.last) p = true := (fills_some hsome).2.1
          rw [if_pos hopen, sobelPixel_ok (hs.with_pix m.copy) (hs.with_pix m.cell) hh hw hp]
          rfl

/-- What is in the memory before the threads start. -/
def memory (image : Image) : Memory (Nat × Nat) Pixel where
  cell := image.pix
  copy := image.pix

theorem start_eq (hs : Sized image h w) (hh : 1 ≤ h) :
    start image = stateOf image (fresh h w, memory image) := by
  have hall : pixelsOf image = allPixels h w := by
    rw [pixelsOf, hs.rows, allPixels]
    refine List.flatMap_congr (fun y hy => ?_)
    rw [hs.cols y (List.mem_range.mp hy)]
  have hinside : insideOf image = interior h w := by
    rw [insideOf, hs.rows, ImagePasses.interior]
    refine List.flatMap_congr (fun y hy => ?_)
    have hlt := (mem_upTo hh hs.height).mp hy
    rw [hs.cols y (by omega)]
  rw [start, hall, hinside, stateOf]
  simp only [fresh, memory, positionOf, Bool.false_eq_true, if_false]

theorem within_fresh (h w : Nat) : Within h w (fresh h w) where
  map p hp := by simpa only [fresh] using hp
  fill p hp := by simpa only [fresh] using hp

/-- **A RUN OF THE THREADS** is a run of their writers. -/
theorem run_follows (gray : Pixel → UInt8) (hs : Sized image h w) (hh : 1 ≤ h) (hw : 1 ≤ w)
    (sched : List Thread) :
    runAll (ThreadsModel.step gray) (start image) sched = .ok (stateOf image
      ((sched.map writer).foldl (OsStencil.step gate (toGrey gray) (sobelAt gxRight))
        (fresh h w, memory image))) := by
  rw [List.foldl_map, start_eq hs hh]
  exact runAll_image_inv (I := fun s => Within h w s.1) (stateOf image)
    (fun _ t _ hin => step_follows gray hs hh hw hin t) (within_fresh h w)

end Follow

/-! ## The image of a finished run -/

/-- What `EDGE` computes from: the conversions before the copy show in it. -/
def seen (gray : Pixel → UInt8) (image : Image) (h w : Nat) (sched : List Thread)
    (q : Nat × Nat) : Pixel :=
  if Stale h w sched q then image.pix q else toGrey gray (image.pix q)

/-- What the threads leave at an inner pixel. -/
def left (gray : Pixel → UInt8) (image : Image) (h w : Nat) (sched : List Thread)
    (p : Nat × Nat) : Pixel :=
  if Early h w sched p then toGrey gray (sobelAt gxRight (seen gray image h w sched) p)
  else sobelAt gxRight (seen gray image h w sched) p

/-- The magnitudes of the sequential program. -/
def edges (gray : Pixel → UInt8) (image : Image) (p : Nat × Nat) : Pixel :=
  sobelAt gxLeft (fun q => toGrey gray (image.pix q)) p

/-- An image of greys around the given inner pixels. -/
def framed (gray : Pixel → UInt8) (image : Image) (h w : Nat) (inner : Nat × Nat → Pixel) :
    Image :=
  { image with
    pix := fun p =>
      if Inside h w p then inner p
      else if p.1 < h ∧ p.2 < w then toGrey gray (image.pix p) else image.pix p }

section Final

variable {image : Image} {h w : Nat} {gray : Pixel → UInt8} {sched : List Thread}

theorem part1_ok (gray : Pixel → UInt8) (hs : Sized image h w) (hh : 1 ≤ h) (hw : 1 ≤ w) :
    part1 gray image = .ok (framed gray image h w (edges gray image)) := by
  rw [part1, T1_ok hs]
  refine (T3_ok (hs.with_pix _) hh hw).trans ?_
  refine congrArg (fun pix => Except.ok { image with pix := pix }) (funext fun p => ?_)
  by_cases hp : Inside h w p
  · rw [if_pos hp, if_pos hp]
    exact sobelAt_congr hp (fun q hq => if_pos hq)
  · rw [if_neg hp, if_neg hp]
    rfl

theorem once_fresh (h w : Nat) : (fresh h w).Once where
  map := nodup_allPixels h w
  fill := nodup_interior h w

/-- The copy of `EDGE` is what it has seen, on the pixels of the image. -/
theorem snapshot_seen (gray : Pixel → UInt8) (sched : List Thread) {q : Nat × Nat}
    (hq : q.1 < h ∧ q.2 < w) :
    snapshot gate (toGrey gray) (fresh h w) (memory image) (sched.map writer) q =
      seen gray image h w sched q := by
  have hin : q ∈ (fresh h w).toMap := mem_allPixels.mpr hq
  rw [snapshot_open rfl, seen]
  by_cases hstale : Stale h w sched q
  · rw [if_pos hstale, if_neg]
    · rfl
    · rintro ⟨-, hnot⟩
      exact nomatch hstale.symm.trans hnot
  · rw [if_neg hstale, if_pos ⟨hin, Bool.eq_false_iff.mpr hstale⟩]
    rfl

/-- **THE IMAGE OF A FINISHED RUN**: the threads leave greys around the inner
    pixels, and there what depends on the schedule. -/
theorem run_image (gray : Pixel → UInt8) (hs : Sized image h w) (hh : 1 ≤ h) (hw : 1 ≤ w)
    (hdone : (progress h w sched).Finished) :
    ∃ st, runAll (ThreadsModel.step gray) (start image) sched = .ok st ∧ st.Finished ∧
      st.image = framed gray image h w (left gray image h w sched) := by
  have hrun := run_follows gray hs hh hw sched
  have hpr := run_progress gate (toGrey gray) (sobelAt gxRight)
    (sched.map writer) (fresh h w) (memory image)
  have hdone' := hdone
  rw [progress, ← hpr] at hdone'
  refine ⟨_, hrun, ?_, ?_⟩
  · obtain ⟨hmap, hcopied, hfill⟩ := hdone'
    refine ⟨hmap, ?_, hfill⟩
    simp only [stateOf, hcopied, if_true, Option.isSome_some]
  · simp only [stateOf]
    rw [run_cell (once_fresh h w) hdone']
    refine congrArg (fun pix => Image.mk image.rows image.cols pix) (funext fun p => ?_)
    have hin : p ∈ (fresh h w).toFill ↔ Inside h w p :=
      mem_interior hh hw hs.height hs.width
    have hmap : p ∈ (fresh h w).toMap ↔ p.1 < h ∧ p.2 < w := mem_allPixels
    rw [outcome]
    by_cases hp : Inside h w p
    · rw [if_pos (hin.mpr hp), if_pos hp, left,
        sobelAt_congr hp (fun q hq => snapshot_seen gray sched hq)]
      rfl
    · rw [if_neg (fun h => hp (hin.mp h)), if_neg hp]
      by_cases hp' : p.1 < h ∧ p.2 < w
      · rw [if_pos (hmap.mpr hp'), if_pos hp']
        rfl
      · rw [if_neg (fun h => hp' (hmap.mp h)), if_neg hp']
        rfl

/-- For this image and conversion, the magnitudes agree. -/
def Agrees (gray : Pixel → UInt8) (image : Image) (h w : Nat) (sched : List Thread) : Prop :=
  ∀ p, Inside h w p → left gray image h w sched p = edges gray image p

theorem framed_inj {inner inner' : Nat × Nat → Pixel} :
    framed gray image h w inner = framed gray image h w inner' ↔
      ∀ p, Inside h w p → inner p = inner' p := by
  constructor
  · intro heq p hp
    have hpix := congrFun (congrArg Image.pix heq) p
    simpa only [framed, if_pos hp] using hpix
  · intro hall
    refine congrArg (fun pix => Image.mk image.rows image.cols pix) (funext fun p => ?_)
    by_cases hp : Inside h w p
    · rw [if_pos hp, if_pos hp, hall p hp]
    · rw [if_neg hp, if_neg hp]

/-- A copy after the last conversion is the grey image. -/
theorem agrees_of_late (hlate : ∀ p, ¬ Stale h w sched p) : Agrees gray image h w sched := by
  intro p hp
  have hseen : seen gray image h w sched = fun q => toGrey gray (image.pix q) :=
    funext fun q => if_neg (hlate q)
  have hearly : ¬ Early h w sched p := fun he => hlate p (stale_of_early rfl he)
  rw [left, if_neg hearly, hseen, edges, sobelAt_right]

end Final

/-! ## A copy that is too early -/

/-- Black, but for one pixel. -/
def dot (c : Nat × Nat) (v : Pixel) (q : Nat × Nat) : Pixel := if q = c then v else .grey 0

/-- The sums next to a dot to the lower right. -/
theorem sums_dot {a b : Nat} (v : Pixel) :
    sums gxRight (dot (a + 1, b + 1) v) (a, b) = ((v.r.toNat : Int), (v.r.toNat : Int)) := by
  have hdot : ∀ o : Fin 3 × Fin 3, (dot (a + 1, b + 1) v (a + o.1 - 1, b + o.2 - 1)).r.toNat =
      if o = (2, 2) then v.r.toNat else 0 := by
    rintro ⟨j, i⟩
    rw [dot]
    by_cases ho : (j, i) = ((2, 2) : Fin 3 × Fin 3)
    · obtain ⟨rfl, rfl⟩ := Prod.mk.inj ho
      exact congrArg (fun q : Pixel => q.r.toNat) (if_pos rfl)
    · rw [if_neg ho, if_neg]
      · rfl
      · intro heq
        obtain ⟨hj, hi⟩ := Prod.mk.inj heq
        dsimp only at hj hi
        exact ho (Prod.ext (Fin.ext (show j.val = 2 by omega)) (Fin.ext (show i.val = 2 by omega)))
  have hweight : ∀ (k : Kernel), k 2 2 = 1 → ∀ (o : Fin 3 × Fin 3) (n : Nat),
      k o.1 o.2 * ((if o = (2, 2) then n else 0 : Nat) : Int) =
        if o = (2, 2) then (n : Int) else 0 := by
    intro k hk o n
    by_cases ho : o = (2, 2)
    · rw [if_pos ho, if_pos ho, ho, hk, Int.one_mul]
    · rw [if_neg ho, if_neg ho, Int.natCast_zero, Int.mul_zero]
  -- only the neighbour to the lower right is not black
  have hadd : addNeighbour gxRight (dot (a + 1, b + 1) v) (a, b) = fun s o =>
      (s.1 + (if o = (2, 2) then (v.r.toNat : Int) else 0),
        s.2 + (if o = (2, 2) then (v.r.toNat : Int) else 0)) := by
    funext s o
    rw [addNeighbour, hdot o, hweight gxRight rfl, hweight gy rfl]
  have hoffsets : offsets =
      [(0, 0), (0, 1), (0, 2), (1, 0), (1, 1), (1, 2), (2, 0), (2, 1), (2, 2)] := rfl
  rw [sums, hadd, hoffsets]
  simp

theorem magnitude_dot {n k : Nat} (hle : k * k ≤ 2 * n * n) (hlt : 2 * n * n < (k + 1) * (k + 1)) :
    magnitude ((n : Int), (n : Int)) = UInt8.ofNat k := by
  have hsum : ((n : Int) * n + (n : Int) * n).toNat = 2 * n * n := by
    rw [← Int.natCast_mul, ← Int.natCast_add, Int.toNat_natCast, Nat.two_mul, Nat.add_mul]
  rw [magnitude, hsum, ← Nat.eq_sqrt.mpr ⟨hle, hlt⟩]

/-- The image that is black but for its last pixel. -/
def dotImage (h w : Nat) (v : Pixel) : Image where
  rows := h
  cols := fun _ => w
  pix := dot (h - 1, w - 1) v

theorem dotImage_sized {h w : Nat} (hh : h < 2 ^ 31) (hw : w < 2 ^ 31) (v : Pixel) :
    Sized (dotImage h w v) h w :=
  ⟨rfl, fun _ _ => rfl, hh, hw⟩

section Dot

variable {a b : Nat} {v : Pixel} {gray : Pixel → UInt8} {sched : List Thread}

/-- With black kept black and the last pixel still coloured in the copy,
    `EDGE` sees the dot. -/
theorem seen_dot (hblack : gray (.grey 0) = 0)
    (hstale : Stale (a + 2) (b + 2) sched (a + 1, b + 1)) :
    seen gray (dotImage (a + 2) (b + 2) v) (a + 2) (b + 2) sched = dot (a + 1, b + 1) v := by
  funext q
  rw [seen]
  show (if Stale (a + 2) (b + 2) sched q then dot (a + 1, b + 1) v q
    else toGrey gray (dot (a + 1, b + 1) v q)) = _
  by_cases hq : q = (a + 1, b + 1)
  · rw [if_pos (hq ▸ hstale)]
  · rw [dot, if_neg hq, toGrey, hblack]
    exact ite_self _

/-- The sequential program converts the dot first. -/
theorem edges_dot (hblack : gray (.grey 0) = 0) :
    edges gray (dotImage (a + 2) (b + 2) v) (a, b) =
      .grey (magnitude (((gray v).toNat : Int), ((gray v).toNat : Int))) := by
  have hgrey : (fun q => toGrey gray ((dotImage (a + 2) (b + 2) v).pix q)) =
      dot (a + 1, b + 1) (toGrey gray v) := by
    funext q
    show toGrey gray (dot (a + 1, b + 1) v q) = _
    by_cases hq : q = (a + 1, b + 1)
    · rw [dot, dot, if_pos hq, if_pos hq]
    · rw [dot, dot, if_neg hq, if_neg hq, toGrey, hblack]
  rw [edges, hgrey, ← sobelAt_right, sobelAt, sums_dot]
  rfl

end Dot

theorem getLast_allPixels (a b : Nat) : (allPixels (a + 1) (b + 1)).getLast? = some (a, b) := by
  rw [allPixels, List.range_succ (n := a), List.flatMap_append, List.flatMap_singleton,
    List.range_succ, List.map_append, List.map_singleton, ← List.append_assoc, List.getLast?_concat]

/-- A conversion that makes black and the dot black, and 1 bright. -/
def oneBright (p : Pixel) : UInt8 := if p = .grey 1 then 5 else 0

/-- If a pixel is stale, the dot of 1 comes out wrong. -/
theorem differs_of_stale {h w : Nat} (hh : 3 ≤ h) (hw : 3 ≤ w) {sched : List Thread}
    {p : Nat × Nat} (hstale : Stale h w sched p) :
    ¬ Agrees oneBright (dotImage h w ⟨1, 0, 0⟩) h w sched := by
  obtain ⟨a, rfl⟩ : ∃ a, h = a + 2 := ⟨h - 2, by omega⟩
  obtain ⟨b, rfl⟩ : ∃ b, w = b + 2 := ⟨w - 2, by omega⟩
  -- if any pixel is stale so is the last one, which is the dot
  have hlast : Stale (a + 2) (b + 2) sched (a + 1, b + 1) := by
    refine stale_last hstale ?_
    exact getLast_allPixels (a + 1) (b + 1)
  intro hagrees
  have hinside : Inside (a + 2) (b + 2) (a, b) :=
    ⟨⟨by dsimp only; omega, by dsimp only; omega⟩, by dsimp only; omega, by dsimp only; omega⟩
  have heq := hagrees (a, b) hinside
  have hone : magnitude (((1 : Nat) : Int), ((1 : Nat) : Int)) = 1 :=
    magnitude_dot (k := 1) (by decide) (by decide)
  have hzero : magnitude (((0 : Nat) : Int), ((0 : Nat) : Int)) = 0 :=
    magnitude_dot (k := 0) (by decide) (by decide)
  have hleft : sobelAt gxRight (dot (a + 1, b + 1) ⟨1, 0, 0⟩) (a, b) = .grey 1 := by
    rw [sobelAt, sums_dot]
    exact congrArg Pixel.grey hone
  have hright : edges oneBright (dotImage (a + 2) (b + 2) ⟨1, 0, 0⟩) (a, b) = .grey 0 :=
    (edges_dot rfl).trans (congrArg Pixel.grey hzero)
  rw [hright, left, seen_dot rfl hlast, hleft] at heq
  split at heq
  · exact absurd heq (by decide)
  · exact absurd heq (by decide)

/-- **THE THREADS AGREE** with the sequential program on one image exactly
    when the magnitudes do, and on every image with every conversion exactly
    when `EDGE` copies the image after the last conversion. -/
theorem schedule_exact {h w : Nat} (hh : 3 ≤ h) (hw : 3 ≤ w) (hh' : h < 2 ^ 31) (hw' : w < 2 ^ 31)
    {sched : List Thread} (hdone : (progress h w sched).Finished) :
    (∀ image gray, Sized image h w → ∃ st out,
      runAll (ThreadsModel.step gray) (start image) sched = .ok st ∧ st.Finished ∧
        part1 gray image = .ok out ∧ (st.image = out ↔ Agrees gray image h w sched)) ∧
    ((∀ image gray st out, Sized image h w →
        runAll (ThreadsModel.step gray) (start image) sched = .ok st →
        part1 gray image = .ok out → st.image = out) ↔
      ∀ p, ¬ Stale h w sched p) := by
  have hone : 1 ≤ h ∧ 1 ≤ w := ⟨by omega, by omega⟩
  have hrun : ∀ image gray, Sized image h w → ∃ st out,
      runAll (ThreadsModel.step gray) (start image) sched = .ok st ∧ st.Finished ∧
        part1 gray image = .ok out ∧ (st.image = out ↔ Agrees gray image h w sched) := by
    intro image gray hs
    obtain ⟨st, hrun, hfin, himage⟩ := run_image gray hs hone.1 hone.2 hdone
    refine ⟨st, _, hrun, hfin, part1_ok gray hs hone.1 hone.2, ?_⟩
    rw [himage]
    exact framed_inj
  refine ⟨hrun, ?_, ?_⟩
  · intro hall p hstale
    have hs := dotImage_sized hh' hw' ⟨1, 0, 0⟩
    obtain ⟨st, out, hst, -, hout, hiff⟩ := hrun _ oneBright hs
    exact differs_of_stale hh hw hstale (hiff.mp (hall _ _ st out hs hst hout))
  · intro hlate image gray st out hs hst hout
    obtain ⟨st', out', hst', -, hout', hiff⟩ := hrun image gray hs
    obtain rfl : st' = st := Except.ok.inj (hst'.symm.trans hst)
    obtain rfl : out' = out := Except.ok.inj (hout'.symm.trans hout)
    exact hiff.mpr (agrees_of_late hlate)

/-- Both threads of a 3 by 3 image in the order of the sequential program. -/
def oneAfterOther : List Thread := List.replicate 9 .grayScale ++ [.edge, .edge]

theorem schedule_exact_run :
    (∀ image gray, Sized image 3 3 → ∃ st out,
      runAll (ThreadsModel.step gray) (start image) oneAfterOther = .ok st ∧ st.Finished ∧
        part1 gray image = .ok out ∧ (st.image = out ↔ Agrees gray image 3 3 oneAfterOther)) ∧
    ((∀ image gray st out, Sized image 3 3 →
        runAll (ThreadsModel.step gray) (start image) oneAfterOther = .ok st →
        part1 gray image = .ok out → st.image = out) ↔
      ∀ p, ¬ Stale 3 3 oneAfterOther p) :=
  schedule_exact (by decide) (by decide) (by decide) (by decide) (by decide)

/-- The luminosity formula, in hundredths. -/
def luminosity (p : Pixel) : UInt8 :=
  UInt8.ofNat ((21 * p.r.toNat + 72 * p.g.toNat + 7 * p.b.toNat) / 100)

/-- `EDGE` copies the image before the first conversion. -/
def copyFirst : List Thread := .edge :: List.replicate 9 .grayScale ++ [.edge]

/-- **A COPY OF THE COLOURS**: on a black image with a red last pixel, the
    threads leave 104 at the centre, and the sequential program leaves 74. -/
theorem threads_disagree : ∃ st out,
    runAll (ThreadsModel.step luminosity) (start (dotImage 3 3 ⟨255, 0, 0⟩)) copyFirst = .ok st ∧
      st.Finished ∧ part1 luminosity (dotImage 3 3 ⟨255, 0, 0⟩) = .ok out ∧
      st.image.pix (1, 1) = .grey 104 ∧ out.pix (1, 1) = .grey 74 ∧ st.image ≠ out := by
  have hs : Sized (dotImage 3 3 ⟨255, 0, 0⟩) 3 3 := dotImage_sized (by decide) (by decide) _
  have hdone : (progress 3 3 copyFirst).Finished := by decide
  obtain ⟨st, hrun, hfin, himage⟩ := run_image luminosity hs (by decide)
    (by decide) hdone
  have hinside : Inside 3 3 (1, 1) := by decide
  have hthreads : st.image.pix (1, 1) = .grey 104 := by
    have hseen : seen luminosity (dotImage 3 3 ⟨255, 0, 0⟩) 3 3 copyFirst =
        dot (2, 2) ⟨255, 0, 0⟩ :=
      seen_dot rfl (by decide)
    have hmag : magnitude (((255 : Nat) : Int), ((255 : Nat) : Int)) = 104 :=
      magnitude_dot (k := 360) (by decide) (by decide)
    rw [himage]
    simp only [framed, if_pos hinside]
    rw [left, if_neg (by decide), hseen, sobelAt, sums_dot]
    exact congrArg Pixel.grey hmag
  have hpart1 : (framed luminosity (dotImage 3 3 ⟨255, 0, 0⟩) 3 3
      (edges luminosity (dotImage 3 3 ⟨255, 0, 0⟩))).pix (1, 1) = .grey 74 := by
    have hmag : magnitude (((53 : Nat) : Int), ((53 : Nat) : Int)) = 74 :=
      magnitude_dot (k := 74) (by decide) (by decide)
    simp only [framed, if_pos hinside]
    exact (edges_dot (a := 1) (b := 1) rfl).trans (congrArg Pixel.grey hmag)
  refine ⟨st, _, hrun, hfin, part1_ok luminosity hs (by decide) (by decide), hthreads, hpart1, ?_⟩
  intro heq
  rw [heq, hpart1] at hthreads
  exact absurd hthreads (by decide)

end ThreadsRace
