import OsLab.ImagePassesProofs
import OsLab.PpmModelProofs

/-! # What a file that `readPPM` accepts looks like

    An accepted file starts with the magic line, and its image has the
    sizes that were read (`accepted_sized`).  What the two variables held
    before makes no difference to it (`accepted_again`).

    `writePPM` succeeds on an image of its sizes (`writePPM_ok`), and the
    sizes can be told from the file (`header_inj`). -/

namespace PpmRead

open OsLoop OsScan OsStencil ImageModel ImagePasses PpmModel

/-! ## Reading -/

/-- Black outside its `height` rows of `width` pixels. -/
structure Framed (image : Image) (height width : Nat) : Prop where
  rows : image.rows = height
  cols : image.cols = fun _ => width
  outside : ∀ p, ¬ (p.1 < height ∧ p.2 < width) → image.pix p = .grey 0

theorem Framed.sized {image : Image} {height width : Nat} (h : Framed image height width)
    (hh : height < 2 ^ 31) (hw : width < 2 ^ 31) : Sized image height width where
  rows := h.rows
  cols y _ := by rw [h.cols]
  height := hh
  width := hw

/-- An image is its pixels inside the frame. -/
theorem Framed.ext {image image' : Image} {height width : Nat} (h : Framed image height width)
    (h' : Framed image' height width)
    (heq : ∀ p, p.1 < height ∧ p.2 < width → image.pix p = image'.pix p) : image = image' := by
  have hpix : image.pix = image'.pix := by
    funext p
    by_cases hp : p.1 < height ∧ p.2 < width
    · exact heq p hp
    · rw [h.outside p hp, h'.outside p hp]
  obtain ⟨rows, cols, pix⟩ := image
  obtain ⟨rows', cols', pix'⟩ := image'
  obtain rfl : rows = rows' := h.rows.trans h'.rows.symm
  obtain rfl : cols = cols' := h.cols.trans h'.cols.symm
  obtain rfl : pix = pix' := hpix
  rfl

theorem zeroImage_framed (height width : Nat) : Framed (zeroImage height width) height width :=
  ⟨rfl, rfl, fun _ _ => rfl⟩

/-- A write stays within the frame. -/
theorem Framed.write {image image' : Image} {height width : Nat} {p : Nat × Nat} {v : Pixel}
    (h : Framed image height width) (hw : image.write p v = .ok image') :
    Framed image' height width := by
  rw [Image.write] at hw
  split at hw
  · next hin =>
    cases hw
    refine ⟨h.rows, h.cols, fun q hq => ?_⟩
    -- the pixel that is written is inside
    have hne : q ≠ p := by
      rintro rfl
      rw [h.rows, h.cols] at hin
      exact hq hin
    show Function.update image.pix p v q = _
    rw [Function.update_of_ne hne]
    exact h.outside q hq
  · cases hw

theorem readPixels_framed {height width : Nat} {inFile : Stream} {image : Image}
    (h : readPixels height width inFile = .ok image) : Framed image height width := by
  obtain ⟨s, hrun, hend⟩ := bind_ok.mp h
  cases hend
  rw [runAll_grid readPixel] at hrun
  have hstep : ∀ (s : Reader) (p : Nat × Nat) (s' : Reader), Framed s.image height width → True →
      readPixel s p = .ok s' → Framed s'.image height width := by
    intro s p s' hs _ hread
    rw [readPixel] at hread
    split at hread
    · obtain ⟨image', hwrite, hend⟩ := bind_ok.mp hread
      cases hend
      exact hs.write hwrite
    · exact nomatch hread
  exact runAll_inv hstep (zeroImage_framed height width) (fun _ _ => trivial) hrun

/-- The line after the magic. -/
def sizeLine (bytes : Bytes) : Bytes := (bytes.drop 3).takeWhile (· ≠ 10)

/-- A comment follows the magic. -/
def HasComment (bytes : Bytes) : Prop := (sizeLine bytes).head? = some 35

instance (bytes : Bytes) : Decidable (HasComment bytes) := inferInstanceAs (Decidable (_ = _))

/-- The first line is the magic and ends; the size line follows. -/
def Starts (bytes : Bytes) : Prop := bytes.take 3 = magic ++ [10]

/-- What is known of an accepted file: the line with the sizes, the numbers
    that were read there, and the rest of the reading. -/
structure Accepted (bytes : Bytes) (image : Image) (w h : Int) : Prop where
  starts : Starts bytes
  sizes : ∃ line, (¬ HasComment bytes → line = sizeLine bytes) ∧
    (extract (some line)).1 = some w ∧ (extract (extract (some line)).2).1 = some h
  framed : Framed image h.toNat w.toNat
  again : ∀ a b, readPPM (some bytes) a b = .ok ⟨true, image, some w, some h⟩

section Reading

variable {bytes rest line : Bytes} {image : Image} {w h : Int}

theorem getline_fst (rest line : Bytes) :
    (getline ⟨rest, true⟩ line).1 = rest.takeWhile (· ≠ 10) := by
  rw [getline, if_pos rfl]
  have hsplit := List.takeWhile_append_dropWhile (p := fun c : UInt8 => decide (c ≠ 10)) (l := rest)
  split
  · next hnil =>
    rw [hnil, List.append_nil] at hsplit
    exact hsplit.symm
  · rfl

/-- A first line that is the magic is the whole file, or the file starts
    with it and goes on behind its end. -/
theorem first_line (h : (getline ⟨bytes, true⟩ []).1 = magic) :
    (bytes = magic ∧ (getline ⟨bytes, true⟩ []).2 = ⟨[], false⟩) ∨
      ∃ rest, bytes = magic ++ 10 :: rest ∧ (getline ⟨bytes, true⟩ []).2 = ⟨rest, true⟩ := by
  have hfst := h
  rw [getline_fst] at hfst
  have hsplit :=
    List.takeWhile_append_dropWhile (p := fun c : UInt8 => decide (c ≠ 10)) (l := bytes)
  rw [hfst] at hsplit
  have hstop := List.head?_dropWhile_not (fun c : UInt8 => decide (c ≠ 10)) bytes
  rw [getline, if_pos rfl]
  split
  · next hnil =>
    rw [hnil, List.append_nil] at hsplit
    exact Or.inl ⟨hsplit.symm, rfl⟩
  · next c rest hcons =>
    rw [hcons] at hsplit hstop
    have hc : c = 10 := by simpa using hstop
    exact Or.inr ⟨rest, by rw [← hsplit, hc], rfl⟩

/-- A line that is no comment is not skipped. -/
theorem skipComments_plain {n : Nat} {inFile : Stream} (h : line.head? ≠ some 35) :
    skipComments (n + 1) line inFile = .ok (line, inFile) := by
  rw [skipComments, if_neg h]

theorem vectorLength_ok {n : Int} {k : Nat} (h : vectorLength n = .ok k) :
    0 ≤ n ∧ k = n.toNat := by
  rw [vectorLength] at h
  split at h
  · exact nomatch h
  · next hn => exact ⟨not_lt.mp hn, (Except.ok.inj h).symm⟩

/-- What `readPPM` did on its way through an accepted file. -/
structure Read (bytes : Bytes) (size : Bytes × Stream) (image : Image) (w h : Int) : Prop where
  first : (getline ⟨bytes, true⟩ []).1 = magic
  skipped : skipComments
    ((getline (getline ⟨bytes, true⟩ []).2 (getline ⟨bytes, true⟩ []).1).2.rest.length + 2)
    (getline (getline ⟨bytes, true⟩ []).2 (getline ⟨bytes, true⟩ []).1).1
    (getline (getline ⟨bytes, true⟩ []).2 (getline ⟨bytes, true⟩ []).1).2 = .ok size
  width : (extract (some size.1)).1 = some w
  height : (extract (extract (some size.1)).2).1 = some h
  maxVal : stoi (getline size.2 size.1).1 = .ok 255
  cols : vectorLength w = .ok w.toNat
  rows : vectorLength h = .ok h.toNat
  pixels : readPixels h.toNat w.toNat (getline size.2 size.1).2 = .ok image

theorem read_of_ok (hread : readPPM (some bytes) none none = .ok ⟨true, image, some w, some h⟩) :
    ∃ size, Read bytes size image w h := by
  rw [readPPM] at hread
  dsimp only at hread
  split at hread
  · exact nomatch hread
  · next hmagic =>
    obtain ⟨size, hsize, hread⟩ := bind_ok.mp hread
    obtain ⟨maxVal, hstoi, hread⟩ := bind_ok.mp hread
    split at hread
    · exact nomatch hread
    · next hmax =>
      obtain ⟨wv, hwv, hread⟩ := bind_ok.mp hread
      obtain ⟨cols, hcols, hread⟩ := bind_ok.mp hread
      obtain ⟨hv, hhv, hread⟩ := bind_ok.mp hread
      obtain ⟨rows, hrows, hread⟩ := bind_ok.mp hread
      obtain ⟨im, him, hend⟩ := bind_ok.mp hread
      obtain ⟨-, rfl, hsetw, hseth⟩ := Parsed.mk.inj (Except.ok.inj hend)
      rw [Option.or_none] at hsetw hseth
      rw [hsetw] at hwv
      rw [hseth] at hhv
      obtain rfl : w = wv := Except.ok.inj hwv
      obtain rfl : h = hv := Except.ok.inj hhv
      obtain ⟨-, rfl⟩ := vectorLength_ok hcols
      obtain ⟨-, rfl⟩ := vectorLength_ok hrows
      obtain rfl : maxVal = 255 := not_not.mp hmax
      exact ⟨size, not_not.mp hmagic, hsize, hsetw, hseth, hstoi, hcols, hrows, him⟩

/-- What the variables held before makes no difference. -/
theorem Read.again {size : Bytes × Stream} (hr : Read bytes size image w h) (a b : Option Int) :
    readPPM (some bytes) a b = .ok ⟨true, image, some w, some h⟩ := by
  rw [readPPM]
  dsimp only
  rw [if_neg (not_not.mpr hr.first), hr.skipped]
  refine bind_ok.mpr ⟨size, rfl, bind_ok.mpr ⟨255, hr.maxVal, ?_⟩⟩
  rw [if_neg (not_not.mpr rfl), hr.width, hr.height]
  exact bind_ok.mpr ⟨w, rfl, bind_ok.mpr ⟨_, hr.cols, bind_ok.mpr ⟨h, rfl, bind_ok.mpr
    ⟨_, hr.rows, bind_ok.mpr ⟨image, hr.pixels, rfl⟩⟩⟩⟩⟩

/-- Without a comment the sizes are read from the line after the magic. -/
theorem Read.sizes {size : Bytes × Stream} (hr : Read bytes size image w h) (hw : w ≠ 0) :
    Starts bytes ∧ (¬ HasComment bytes → size.1 = sizeLine bytes) := by
  have hsize := hr.skipped
  rw [hr.first] at hsize
  rcases first_line hr.first with ⟨-, hsnd⟩ | ⟨rest, rfl, hsnd⟩
  · -- nothing follows the magic, which is then read as the width 0
    have hline : size.1 = magic := by
      rw [hsnd] at hsize
      exact (congrArg Prod.fst (Except.ok.inj hsize)).symm
    have hwidth := hr.width
    rw [hline] at hwidth
    have hzero : (extract (some magic)).1 = some 0 := rfl
    exact absurd (Option.some.inj (hwidth.symm.trans hzero)) hw
  · refine ⟨rfl, fun hcomment => ?_⟩
    have hsecond : (getline ⟨rest, true⟩ magic).1 = sizeLine (magic ++ 10 :: rest) :=
      getline_fst rest magic
    rw [hsnd, skipComments_plain (by rw [hsecond]; exact hcomment)] at hsize
    exact (congrArg Prod.fst (Except.ok.inj hsize)).symm.trans hsecond

/-- **AN ACCEPTED FILE** with a width other than 0. -/
theorem accepted (hread : readPPM (some bytes) none none = .ok ⟨true, image, some w, some h⟩)
    (hw : w ≠ 0) : Accepted bytes image w h := by
  obtain ⟨size, hr⟩ := read_of_ok hread
  obtain ⟨hstarts, hline⟩ := hr.sizes hw
  exact ⟨hstarts, ⟨size.1, hline, hr.width, hr.height⟩, readPixels_framed hr.pixels, hr.again⟩

theorem extract_le {text : Option Bytes} {n : Int} (he : (extract text).1 = some n) :
    n ≤ intMax := by
  cases text with
  | none => exact nomatch he
  | some text =>
      rw [extract] at he
      split at he
      · split at he
        · exact nomatch he
        · cases he
          decide
      · split at he
        · cases he
          decide
        · split at he
          · cases he
            exact Int.le_refl intMax
          · next hmax =>
            cases he
            exact not_lt.mp hmax

theorem Accepted.sized (ha : Accepted bytes image w h) : Sized image h.toNat w.toNat := by
  obtain ⟨line, -, hw, hh⟩ := ha.sizes
  have hwmax : w ≤ 2147483647 := extract_le hw
  have hhmax : h ≤ 2147483647 := extract_le hh
  exact ha.framed.sized (by omega) (by omega)

/-- A positive number is what the text says, or the largest `int` for a
    number that is larger. -/
theorem extract_pos {text : Bytes} {n : Int} (he : (extract (some text)).1 = some n)
    (hn : 0 < n) : ∃ m rest, scanInt text = some (m, rest) ∧
      ((m = n ∧ (extract (some text)).2 = some rest) ∨
        (intMax < m ∧ n = intMax ∧ (extract (some text)).2 = none)) := by
  rw [extract] at he ⊢
  split at he
  · split at he
    · exact nomatch he
    · cases he
      exact absurd hn (by decide)
  · next m rest hscan =>
    refine ⟨m, rest, hscan, ?_⟩
    split at he
    · cases he
      exact absurd hn (by decide)
    · next hlow =>
      split at he
      -- a number that is too large is stored as the largest, and fails the stream
      · next hmax =>
        cases he
        rw [if_neg hlow, if_pos hmax]
        exact Or.inr ⟨hmax, rfl, rfl⟩
      · next hmax =>
        cases he
        rw [if_neg hlow, if_neg hmax]
        exact Or.inl ⟨rfl, rfl⟩

end Reading

/-! ## Writing -/

section Writing

variable {image : Image} {h w : Nat}

/-- The bytes of the pixels, row by row. -/
def body (pix : Nat × Nat → Pixel) (h w : Nat) : Bytes :=
  (allPixels h w).flatMap fun p => [(pix p).r, (pix p).g, (pix p).b]

/-- The body of the loops that write a file. -/
def writePixel (read : Nat × Nat → Except Fault Pixel) (out : Bytes) (p : Nat × Nat) :
    Except Fault Bytes := do
  let q ← read p
  .ok (out ++ [q.r, q.g, q.b])

/-- The loops write the pixels that are read. -/
theorem writePixels_ok {read : Nat × Nat → Except Fault Pixel} {pix : Nat × Nat → Pixel}
    (hread : ∀ p ∈ allPixels h w, read p = .ok (pix p)) (start : Bytes) :
    runAll (writePixel read) start (allPixels h w) = .ok (start ++ body pix h w) := by
  have hstep : ∀ (out : Bytes), ∀ p ∈ allPixels h w, writePixel read out p =
      .ok (out ++ [(pix p).r, (pix p).g, (pix p).b]) := by
    intro out p hp
    exact bind_ok.mpr ⟨_, hread p hp, rfl⟩
  refine (runAll_image id hstep start).trans (congrArg Except.ok ?_)
  rw [id, body, List.foldl_append_eq_append, List.flatMap_def]

/-- They leave what is there already. -/
theorem writePixels_start {read : Nat × Nat → Except Fault Pixel} {L : List (Nat × Nat)}
    {start out : Bytes} (hout : runAll (writePixel read) start L = .ok out) :
    ∃ rest, out = start ++ rest := by
  have hstep : ∀ (s : Bytes) (p : Nat × Nat) (s' : Bytes), (∃ rest, s = start ++ rest) → True →
      writePixel read s p = .ok s' → ∃ rest, s' = start ++ rest := by
    rintro s p s' ⟨rest, rfl⟩ - hwrite
    obtain ⟨q, -, hend⟩ := bind_ok.mp hwrite
    cases hend
    exact ⟨rest ++ [q.r, q.g, q.b], List.append_assoc _ _ _⟩
  exact runAll_inv hstep ⟨[], (List.append_nil _).symm⟩ (fun _ _ => trivial) hout

/-- Two bodies of one size are equal when their pixels are. -/
theorem body_inj {pix pix' : Nat × Nat → Pixel} :
    body pix h w = body pix' h w ↔ ∀ p, p.1 < h ∧ p.2 < w → pix p = pix' p := by
  have hlist : ∀ L : List (Nat × Nat),
      (L.flatMap fun p => [(pix p).r, (pix p).g, (pix p).b]) =
        (L.flatMap fun p => [(pix' p).r, (pix' p).g, (pix' p).b]) ↔ ∀ p ∈ L, pix p = pix' p := by
    intro L
    induction L with
    | nil => exact iff_of_true rfl (fun p hp => nomatch hp)
    | cons p L ih =>
        have hpixel : ∀ q q' : Pixel, q = q' ↔ q.r = q'.r ∧ q.g = q'.g ∧ q.b = q'.b := by
          rintro ⟨r, g, b⟩ ⟨r', g', b'⟩
          rw [Pixel.mk.injEq]
        rw [List.forall_mem_cons, ← ih, hpixel]
        simp only [List.flatMap_cons, List.cons_append, List.nil_append, List.cons.injEq,
          and_assoc]
  rw [body, body, hlist]
  exact ⟨fun hall p hp => hall p (mem_allPixels.mpr hp),
    fun hall p hp => hall p (mem_allPixels.mp hp)⟩

theorem writePPM_eq (image : Image) (width height : Int) : writePPM image width height =
    runAll (writePixel image.read) (header width height) (allPixels height.toNat width.toNat) :=
  runAll_grid (writePixel image.read) _ _ _

theorem writePPM_ok (hs : Sized image h w) :
    writePPM image w h = .ok (header w h ++ body image.pix h w) := by
  rw [writePPM_eq]
  exact writePixels_ok (fun p hp => read_ok hs (mem_allPixels.mp hp)) (header w h)

/-- A file starts with its header. -/
theorem writePPM_header {width height : Int} {out : Bytes}
    (hout : writePPM image width height = .ok out) :
    ∃ rest, out = header width height ++ rest := by
  rw [writePPM_eq] at hout
  exact writePixels_start hout

/-- The pieces of a header, in front of what follows it. -/
theorem header_append (w h : Nat) (rest : Bytes) : header w h ++ rest =
    magic ++ 10 :: (decimal w ++ 32 :: (decimal h ++ 10 :: (decimal 255 ++ 10 :: rest))) := by
  have hnat : ∀ n : Nat, decimalInt n = decimal n := fun n => by
    rw [decimalInt, if_neg (Int.not_lt.mpr (Int.natCast_nonneg n)), Int.toNat_natCast]
  rw [header, hnat, hnat]
  simp only [List.append_assoc, List.cons_append, List.nil_append]

/-- **THE SIZES CAN BE TOLD** from a file. -/
theorem header_inj {w' h' : Nat} {rest rest' : Bytes}
    (heq : header w h ++ rest = header w' h' ++ rest') : w = w' ∧ h = h' := by
  rw [header_append, header_append] at heq
  have hsize := (List.cons.inj (List.append_cancel_left heq)).2
  obtain ⟨hw, htail⟩ := decimal_inj (by decide) hsize
  exact ⟨hw, (decimal_inj (by decide) htail).1⟩

theorem header_inj_of_nonneg {w h w' h' : Int} {rest rest' : Bytes} (hw : 0 ≤ w) (hh : 0 ≤ h)
    (hw' : 0 ≤ w') (hh' : 0 ≤ h') (heq : header w h ++ rest = header w' h' ++ rest') :
    w = w' ∧ h = h' := by
  lift w to ℕ using hw
  lift h to ℕ using hh
  lift w' to ℕ using hw'
  lift h' to ℕ using hh'
  obtain ⟨rfl, rfl⟩ := header_inj heq
  exact ⟨rfl, rfl⟩

end Writing

section Sequential

variable {bytes : Bytes} {image out : Image} {w h : Int} {gray : Pixel → UInt8}

theorem writePPM_sizes (hs : Sized image h.toNat w.toNat) (hw : 0 ≤ w) (hh : 0 ≤ h) :
    writePPM image w h = .ok (header w h ++ body image.pix h.toNat w.toNat) := by
  have hwrite := writePPM_ok hs
  rwa [Int.toNat_of_nonneg hw, Int.toNat_of_nonneg hh] at hwrite

/-- The file of the sequential program. -/
theorem part1File_ok (ha : Accepted bytes image w h) (hw : 0 ≤ w) (hh : 0 ≤ h)
    (hpart1 : part1 gray image = .ok out) (hs : Sized out h.toNat w.toNat) :
    part1File gray (some bytes) = .ok (header w h ++ body out.pix h.toNat w.toNat) :=
  bind_ok.mpr ⟨_, ha.again _ _, bind_ok.mpr ⟨_, hpart1, bind_ok.mpr ⟨w, rfl, bind_ok.mpr
    ⟨h, rfl, writePPM_sizes hs hw hh⟩⟩⟩⟩

end Sequential

end PpmRead
