import OsLab.PipesModelProofs
import OsLab.PpmReadProofs

/-! # When the pipes give the file of the sequential program

    The grey pixels go through the pipe in the order in which they are
    received, so that the file is that of `part1.cpp` if and only if the two
    sizes of the header are those that `readPPM` reads (`file_iff`).

    `fscanf` stops at the `#` of a comment, and then the sizes are what the
    variables held before; and it keeps the low bits of a height that is no
    `int`, which `readPPM` takes for the largest one.  Otherwise the two
    readers agree (`header_iff`). -/

namespace Pipes

open OsLoop OsScan OsStencil ImageModel ImagePasses PpmModel PpmRead PipesModel

/-! ## The header -/

/-- The second number of the line after the magic. -/
def secondNumber (bytes : Bytes) : Option Int := do
  let first ← scanInt (sizeLine bytes)
  let second ← scanInt first.2
  some second.1

/-- The height that the file gives is an `int`, or one whose low bits are
    those of the largest `int`. -/
def HeightFits (bytes : Bytes) : Prop :=
  ∀ n ∈ secondNumber bytes, n ≤ intMax ∨ asInt n = intMax

/-- Behind a comment, what the variables held before are the sizes of the
    image; without one, the height fits. -/
def SizesKept (junk : Junk) (bytes : Bytes) (w h : Int) : Prop :=
  if HasComment bytes then junk.width = w ∧ junk.height = h else HeightFits bytes

/-- An `int` is stored as it is. -/
theorem asInt_self {n : Int} (hlow : -2 ^ 31 ≤ n) (hhigh : n < 2 ^ 31) : asInt n = n := by
  have hclamp : max (-2 ^ 63) (min n (2 ^ 63 - 1)) = n := by omega
  rw [asInt, hclamp]
  exact Int.bmod_eq_of_le (by omega) (by omega)

theorem asInt_of_int {n : Int} (hlow : 0 ≤ n) (hhigh : n ≤ intMax) : asInt n = n := by
  have hhigh' : n ≤ 2147483647 := hhigh
  exact asInt_self (by omega) (by omega)

section Header

variable {bytes : Bytes} {image : Image} {w h : Int} {junk : Junk}

/-- The file is the magic, the size line and what follows it. -/
theorem starts_split (hs : Starts bytes) : ∃ tail, NoDigit tail ∧
    bytes = magic ++ 10 :: (sizeLine bytes ++ tail) := by
  refine ⟨(bytes.drop 3).dropWhile (· ≠ 10), ?_, ?_⟩
  · intro c hc
    have hstop := List.head?_dropWhile_not (fun c : UInt8 => decide (c ≠ 10)) (bytes.drop 3)
    -- the size line ends before a newline, or with the file
    rw [Option.mem_def.mp hc] at hstop
    have hc10 : c = 10 := by simpa using hstop
    rw [hc10]
    decide
  · rw [sizeLine, List.takeWhile_append_dropWhile]
    conv_lhs => rw [← List.take_append_drop 3 bytes, show bytes.take 3 = magic ++ [10] from hs]
    rfl

/-- After the magic, `fscanf` reads the text that follows it. -/
theorem scanHeader_starts (junk : Junk) (text : Bytes) :
    (scanHeader junk (magic ++ 10 :: text)).width = (scanfInt (some text)).1.getD junk.width ∧
      (scanHeader junk (magic ++ 10 :: text)).height =
        (scanfInt (scanfInt (some text)).2).1.getD junk.height := by
  have hspace : (magic ++ 10 :: text).dropWhile isSpace = magic ++ 10 :: text := rfl
  have htoken : (magic ++ 10 :: text).dropWhile (fun c => ¬ isSpace c) = 10 :: text := rfl
  -- `%d` skips the newline that ends the magic line
  have hscan : scanInt (10 :: text) = scanInt text := by
    rw [← scanInt_dropWhile (10 :: text), ← scanInt_dropWhile text]
    rfl
  have hfirst : scanfInt (some (10 :: text)) = scanfInt (some text) := by
    rw [scanfInt, scanfInt, hscan]
  simp only [scanHeader, hspace, htoken, hfirst, and_self]

/-- **BEHIND A COMMENT** `fscanf` sets nothing. -/
theorem header_comment (junk : Junk) (hs : Starts bytes) (hc : HasComment bytes) :
    (scanHeader junk bytes).width = junk.width ∧ (scanHeader junk bytes).height = junk.height := by
  obtain ⟨tail, -, hbytes⟩ := starts_split hs
  obtain ⟨line, hline⟩ : ∃ line, sizeLine bytes = 35 :: line := by
    rw [HasComment] at hc
    cases hsize : sizeLine bytes with
    | nil =>
        rw [hsize] at hc
        exact nomatch hc
    | cons c line =>
        rw [hsize] at hc
        exact ⟨line, by rw [Option.some.inj hc]⟩
  have hnone : scanfInt (some (35 :: line ++ tail)) = (none, none) := rfl
  obtain ⟨hwidth, hheight⟩ := scanHeader_starts junk (35 :: line ++ tail)
  rw [hbytes, hline]
  refine ⟨hwidth.trans ?_, hheight.trans ?_⟩
  · rw [hnone]
    rfl
  · rw [hnone]
    rfl

/-- The two numbers of the size line, of which the second may be too large. -/
theorem sizeLine_numbers (ha : Accepted bytes image w h) (hw : 0 < w) (hh : 0 < h)
    (hc : ¬ HasComment bytes) : ∃ rest k rest', scanInt (sizeLine bytes) = some (w, rest) ∧
      scanInt rest = some (k, rest') ∧ w ≤ intMax ∧ h ≤ intMax ∧
        (k = h ∨ intMax < k ∧ h = intMax) := by
  obtain ⟨line, hline, hwe, hhe⟩ := ha.sizes
  obtain rfl := hline hc
  obtain ⟨m, rest, hscan, ⟨rfl, hnext⟩ | ⟨-, -, hnext⟩⟩ := extract_pos hwe hw
  · rw [hnext] at hhe
    obtain ⟨k, rest', hscan', hk⟩ := extract_pos hhe hh
    refine ⟨rest, k, rest', hscan, hscan', extract_le hwe, extract_le hhe, ?_⟩
    exact hk.imp And.left fun hlarge => ⟨hlarge.1, hlarge.2.1⟩
  · rw [hnext] at hhe
    exact nomatch hhe

theorem secondNumber_eq {rest rest' : Bytes} {m k : Int}
    (hscan : scanInt (sizeLine bytes) = some (m, rest)) (hscan' : scanInt rest = some (k, rest')) :
    secondNumber bytes = some k := by
  rw [secondNumber, hscan]
  show (scanInt rest >>= fun second => some second.1) = some k
  rw [hscan']
  rfl

/-- **WITHOUT A COMMENT** `fscanf` reads the numbers of the size line. -/
theorem header_plain (junk : Junk) (ha : Accepted bytes image w h) (hw : 0 < w) (hh : 0 < h)
    (hc : ¬ HasComment bytes) : (scanHeader junk bytes).width = w ∧
      ((scanHeader junk bytes).height = h ↔ HeightFits bytes) := by
  obtain ⟨rest, k, rest', hscan, hscan', hwmax, hhmax, hk⟩ := sizeLine_numbers ha hw hh hc
  obtain ⟨tail, htail, hbytes⟩ := starts_split ha.starts
  obtain ⟨hwidth, hheight⟩ := scanHeader_starts junk (sizeLine bytes ++ tail)
  rw [← hbytes] at hwidth hheight
  have hfirst : scanfInt (some (sizeLine bytes ++ tail)) =
      (some (asInt w), some (rest ++ tail)) := by
    rw [scanfInt, scanInt_append hscan htail]
  have hsecond : (scanfInt (some (rest ++ tail))).1 = some (asInt k) := by
    rw [scanfInt, scanInt_append hscan' htail]
  have hfits : HeightFits bytes ↔ k ≤ intMax ∨ asInt k = intMax := by
    rw [HeightFits, secondNumber_eq hscan hscan']
    exact ⟨fun hall => hall k rfl, fun hk n hn => Option.some.inj hn ▸ hk⟩
  rw [hwidth, hheight, hfirst, hsecond, hfits]
  refine ⟨asInt_of_int hw.le hwmax, ?_⟩
  show asInt k = h ↔ _
  rcases hk with rfl | ⟨hlarge, rfl⟩
  · exact ⟨fun _ => Or.inl hhmax, fun _ => asInt_of_int hh.le hhmax⟩
  · exact ⟨Or.inr, fun hor => hor.resolve_left (not_le.mpr hlarge)⟩

/-- A height below the largest `int` is what the file gives. -/
theorem heightFits_of_lt (ha : Accepted bytes image w h) (hw : 0 < w) (hh : 0 < h)
    (hc : ¬ HasComment bytes) (hlt : h < intMax) : HeightFits bytes := by
  obtain ⟨rest, k, rest', hscan, hscan', -, hhmax, hk⟩ := sizeLine_numbers ha hw hh hc
  rw [HeightFits, secondNumber_eq hscan hscan']
  rintro n ⟨⟩
  rcases hk with rfl | ⟨-, rfl⟩
  · exact Or.inl hhmax
  · exact absurd hlt (lt_irrefl intMax)

/-- **THE SIZES OF THE HEADER** are those of the image exactly when they are
    kept. -/
theorem header_iff (junk : Junk) (ha : Accepted bytes image w h) (hw : 0 < w) (hh : 0 < h) :
    ((scanHeader junk bytes).width = w ∧ (scanHeader junk bytes).height = h) ↔
      SizesKept junk bytes w h := by
  rw [SizesKept]
  split
  · next hc =>
    obtain ⟨hwidth, hheight⟩ := header_comment junk ha.starts hc
    rw [hwidth, hheight]
  · next hc =>
    obtain ⟨hwidth, hheight⟩ := header_plain junk ha hw hh hc
    exact ⟨fun hboth => hheight.mp hboth.2, fun hfits => ⟨hwidth, hheight.mpr hfits⟩⟩

end Header


/-! ## The pixels -/

section Pixels

variable {image : Image} {h w : Nat} {gray : Pixel → UInt8}

/-- `T1` sends the pixels row by row. -/
theorem sendPixels_ok (hs : Sized image h w) :
    sendPixels image = .ok ((allPixels h w).map image.pix) := by
  have hpixel : ∀ y < h, ∀ (sent : List Pixel), ∀ x ∈ List.range w, (do
      let p ← image.read (y, x)
      Except.ok (sent ++ [p])) = .ok (sent ++ [image.pix (y, x)]) := by
    intro y hy sent x hx
    exact bind_ok.mpr ⟨_, read_ok hs ⟨hy, List.mem_range.mp hx⟩, rfl⟩
  have hrow : ∀ (sent : List Pixel), ∀ y ∈ List.range h, (do
      let n ← image.rowSize y
      runAll (fun sent x => do
        let p ← image.read (y, x)
        Except.ok (sent ++ [p])) sent (List.range n)) =
      .ok (sent ++ (List.range w).map (fun x => image.pix (y, x))) := by
    intro sent y hy
    have hy' : y < h := List.mem_range.mp hy
    refine bind_ok.mpr ⟨w, rowSize_ok hs hy', (runAll_image id (hpixel y hy') sent).trans ?_⟩
    rw [id, List.foldl_append_eq_append, ← List.flatMap_def, ← List.map_eq_flatMap]
  rw [sendPixels, hs.rows]
  refine (runAll_image id hrow []).trans (congrArg Except.ok ?_)
  rw [id, List.foldl_append_eq_append, allPixels, List.map_flatMap, List.nil_append,
    List.flatMap_def]
  simp only [List.map_map, Function.comp_def]

/-- What is received in the order in which it was sent. -/
theorem receive_ok (v : Nat × Nat → Pixel) (more : List Pixel) : ∀ {L : List (Nat × Nat)}
    {image : Image}, Sized image h w → (∀ p ∈ L, p.1 < h ∧ p.2 < w) →
    runAll receivePixel (image, L.map v ++ more) L =
      .ok ({ image with pix := L.foldl (fun pix p => Function.update pix p (v p)) image.pix },
        more) := by
  intro L
  induction L with
  | nil => exact fun _ _ => rfl
  | cons p L ih =>
      intro image hs hL
      -- the first of the pipe is for the first pixel of the loops
      have hwrite := write_ok hs (hL p List.mem_cons_self) (v p)
      have hrest := ih (hs.with_pix (Function.update image.pix p (v p)))
        (fun q hq => hL q (List.mem_cons_of_mem p hq))
      have hfirst : receivePixel (image, (p :: L).map v ++ more) p =
          .ok ({ image with pix := Function.update image.pix p (v p) }, L.map v ++ more) :=
        bind_ok.mpr ⟨_, hwrite, rfl⟩
      exact runAll_cons.mpr ⟨_, hfirst, hrest⟩

/-- **THE PIPE** hands over the image. -/
theorem receivePixels_ok (hf : Framed image h w) (hh : h < 2 ^ 31) (hw : w < 2 ^ 31) :
    receivePixels h w ((allPixels h w).map image.pix) = .ok image := by
  have hzero := zeroImage_framed h w
  have hrun := receive_ok image.pix [] (hzero.sized hh hw) (fun p hp => mem_allPixels.mp hp)
  rw [List.append_nil] at hrun
  rw [receivePixels, runAll_grid receivePixel]
  refine bind_ok.mpr ⟨_, hrun, congrArg Except.ok ?_⟩
  have hfill := foldl_fill_cell image.pix (allPixels h w) (zeroImage h w).pix
  have hgot : Framed { zeroImage h w with
      pix := (allPixels h w).foldl (fun pix p => Function.update pix p (image.pix p))
        (zeroImage h w).pix } h w := by
    refine ⟨rfl, rfl, fun p hp => ?_⟩
    exact (congrFun hfill p).trans (if_neg (fun hin => hp (mem_allPixels.mp hin)))
  refine hgot.ext hf (fun p hp => ?_)
  exact (congrFun hfill p).trans (if_pos (mem_allPixels.mpr hp))

/-- The grey image and the final one of the sequential program. -/
theorem passes_ok (gray : Pixel → UInt8) (hf : Framed image h w) (hh : 1 ≤ h) (hw : 1 ≤ w)
    (hh' : h < 2 ^ 31) (hw' : w < 2 ^ 31) : ∃ greys edges, ImageModel.T1 gray image = .ok greys ∧
      Framed greys h w ∧ ImageModel.T3 greys = .ok edges ∧ Sized edges h w := by
  have hs := hf.sized hh' hw'
  refine ⟨_, _, T1_ok hs, ⟨hf.rows, hf.cols, fun p hp => ?_⟩, T3_ok (hs.with_pix _) hh hw,
    hs.with_pix _⟩
  exact (if_neg hp).trans (hf.outside p hp)

end Pixels

/-! ## The file -/

section File

variable {bytes : Bytes} {image : Image} {w h : Int} {gray : Pixel → UInt8} {junk : Junk}

/-- Both programs write a file exactly when they agree on the sizes. -/
theorem file_iff (gray : Pixel → UInt8) (junk : Junk) (ha : Accepted bytes image w h)
    (hw : 0 < w) (hh : 0 < h) :
    ∃ out, part1File gray (some bytes) = .ok out ∧ (part23File gray junk bytes = .ok out ↔
      (scanHeader junk bytes).width = w ∧ (scanHeader junk bytes).height = h) := by
  have hs := ha.sized
  obtain ⟨greys, edges, hT1, hgreys, hT3, hedges⟩ := passes_ok gray ha.framed
    (by omega) (by omega) hs.height hs.width
  have hsent : PipesModel.T1 gray junk bytes =
      .ok (scanHeader junk bytes, (allPixels h.toNat w.toNat).map greys.pix) :=
    bind_ok.mpr ⟨_, ha.again _ _, bind_ok.mpr ⟨_, hT1, bind_ok.mpr
      ⟨_, sendPixels_ok (hgreys.sized hs.height hs.width), rfl⟩⟩⟩
  have hpart23 : part23File gray junk bytes =
      PipesModel.T3 (scanHeader junk bytes, (allPixels h.toNat w.toNat).map greys.pix) := by
    rw [part23File, ha.again, hsent]
    rfl
  have hpart1 : part1 gray image = .ok edges := bind_ok.mpr ⟨_, hT1, hT3⟩
  refine ⟨_, part1File_ok ha hw.le hh.le hpart1 hedges, ?_⟩
  rw [hpart23]
  constructor
  · intro hfile
    -- a file that is written starts with the sizes of the header
    obtain ⟨cols, hcols, hfile⟩ := bind_ok.mp hfile
    obtain ⟨rows, hrows, hfile⟩ := bind_ok.mp hfile
    obtain ⟨pixels, -, hfile⟩ := bind_ok.mp hfile
    obtain ⟨pixels', -, hfile⟩ := bind_ok.mp hfile
    obtain ⟨rest, hrest⟩ := writePPM_header hfile
    obtain ⟨hwidth, hheight⟩ := header_inj_of_nonneg hw.le hh.le (vectorLength_ok hcols).1
      (vectorLength_ok hrows).1 hrest
    exact ⟨hwidth.symm, hheight.symm⟩
  · rintro ⟨hwidth, hheight⟩
    have hlength : ∀ {n : Int}, 0 < n → vectorLength n = .ok n.toNat :=
      fun {n} hn => if_neg (not_lt.mpr hn.le)
    rw [PipesModel.T3, hwidth, hheight, hlength hw, hlength hh]
    exact bind_ok.mpr ⟨_, rfl, bind_ok.mpr ⟨_, rfl, bind_ok.mpr
      ⟨_, receivePixels_ok hgreys hs.height hs.width, bind_ok.mpr
        ⟨_, hT3, writePPM_sizes hedges hw.le hh.le⟩⟩⟩⟩

/-- **THE PIPES GIVE THE SAME FILE** for an accepted file exactly when the
    sizes are kept, and then `PPMHEADER` has the sizes of the image. -/
theorem pipes_exact (gray : Pixel → UInt8) (junk : Junk) {bytes : Bytes} {image : Image}
    {w h : Int} (hread : readPPM (some bytes) none none = .ok ⟨true, image, some w, some h⟩)
    (hw : 3 ≤ w) (hh : 3 ≤ h) :
    ∃ out, part1File gray (some bytes) = .ok out ∧
      (part23File gray junk bytes = .ok out ↔ SizesKept junk bytes w h) ∧
      ((scanHeader junk bytes).width = w ∧ (scanHeader junk bytes).height = h ↔
        SizesKept junk bytes w h) := by
  have ha := accepted hread (by omega)
  have hsizes := header_iff junk ha (by omega) (by omega)
  obtain ⟨out, hout, hfile⟩ := file_iff gray junk ha (by omega) (by omega)
  exact ⟨out, hout, hfile.trans hsizes, hsizes⟩

end File

/-- A black image of 3 by 4 pixels, with the given lines behind the magic. -/
def blackFile (comments : Bytes) : Bytes :=
  magic ++ 10 :: (comments ++ decimal 3 ++ 32 :: (decimal 4 ++ 10 :: (decimal 255 ++ 10 ::
    List.replicate 36 0)))

theorem pipes_exact_run : ∃ image out,
    readPPM (some (blackFile [])) none none = .ok ⟨true, image, some 3, some 4⟩ ∧
    part1File Pixel.r (some (blackFile [])) = .ok out ∧
      (part23File Pixel.r ⟨0, 0, 0⟩ (blackFile []) = .ok out ↔
        SizesKept ⟨0, 0, 0⟩ (blackFile []) 3 4) ∧
      ((scanHeader ⟨0, 0, 0⟩ (blackFile [])).width = 3 ∧
        (scanHeader ⟨0, 0, 0⟩ (blackFile [])).height = 4 ↔
          SizesKept ⟨0, 0, 0⟩ (blackFile []) 3 4) := by
  have hread : readPPM (some (blackFile [])) none none = .ok ⟨true, _, some 3, some 4⟩ := rfl
  obtain ⟨out, hall⟩ := pipes_exact Pixel.r ⟨0, 0, 0⟩ hread (by decide) (by decide)
  exact ⟨_, out, hread, hall⟩

/-- **A COMMENT LOSES THE SIZES**: behind `#`, variables that held 4 and 3
    turn a black image of 3 by 4 pixels into one of 4 by 3. -/
theorem comment_turns : ∃ image out out',
    readPPM (some (blackFile [35, 10])) none none = .ok ⟨true, image, some 3, some 4⟩ ∧
    part1File Pixel.r (some (blackFile [35, 10])) = .ok out ∧
    part23File Pixel.r ⟨3, 4, 255⟩ (blackFile [35, 10]) = .ok out' ∧
    (∃ rest rest', out = header 3 4 ++ rest ∧ out' = header 4 3 ++ rest') ∧ out ≠ out' := by
  have hread : readPPM (some (blackFile [35, 10])) none none = .ok ⟨true, _, some 3, some 4⟩ := rfl
  have ha := accepted hread (by decide)
  obtain ⟨greys, edges, hgrey, -, hedge, hedges⟩ := passes_ok Pixel.r ha.framed (by decide)
    (by decide) (by decide) (by decide)
  have hpart1 := part1File_ok ha (by decide) (by decide) (bind_ok.mpr ⟨_, hgrey, hedge⟩) hedges
  have hzero := zeroImage_framed 3 4
  have hsized := hzero.sized (by decide) (by decide)
  have hT1 : PipesModel.T1 Pixel.r ⟨3, 4, 255⟩ (blackFile [35, 10]) =
      .ok (⟨3, 4, 255, magic⟩, (allPixels 3 4).map (zeroImage 3 4).pix) := rfl
  have hT3 := T3_ok hsized (by decide) (by decide)
  have hwrite := writePPM_ok (hsized.with_pix fun p =>
    if Inside 3 4 p then sobelAt gxLeft (zeroImage 3 4).pix p else (zeroImage 3 4).pix p)
  have hpart23 : part23File Pixel.r ⟨3, 4, 255⟩ (blackFile [35, 10]) = _ :=
    bind_ok.mpr ⟨_, hread, bind_ok.mpr ⟨_, hT1, bind_ok.mpr ⟨4, rfl, bind_ok.mpr ⟨3, rfl,
      bind_ok.mpr ⟨_, receivePixels_ok hzero (by decide) (by decide), bind_ok.mpr
        ⟨_, hT3, hwrite⟩⟩⟩⟩⟩⟩
  refine ⟨_, _, _, hread, hpart1, hpart23, ⟨_, _, rfl, rfl⟩, ?_⟩
  intro heq
  exact absurd (header_inj (w := 3) (h := 4) heq).1 (by decide)

end Pipes
