import OsLab.PpmReadProofs

/-! # What is written is read back

    A header ends where the pixels begin, whatever their bytes are: no line
    of it holds a newline, and the size line starts with a digit, so that it
    is no comment.  The loops of `readPixels` take three bytes a pixel, in
    the order in which the pixels were written (`readPixels_body`). -/

namespace PpmRoundTrip

open OsLoop OsScan ImageModel ImagePasses PpmModel PpmRead

/-! ## Lines -/

section Lines

variable {text rest line : Bytes}

/-- A line ends at the first newline. -/
theorem getline_line (h : ∀ c ∈ text, c ≠ 10) :
    getline ⟨text ++ 10 :: rest, true⟩ line = (text, ⟨rest, true⟩) := by
  have hall : ∀ c ∈ text, decide (c ≠ 10) = true := fun c hc => decide_eq_true (h c hc)
  have hstop : ∀ c ∈ (10 :: rest).head?, decide (c ≠ (10 : UInt8)) = false := by
    rintro c hc
    rw [← Option.some.inj hc]
    rfl
  rw [getline, if_pos rfl, dropWhile_append_stop hstop, takeWhile_append_stop hstop,
    List.dropWhile_eq_nil_iff.mpr hall, List.takeWhile_eq_self_iff.mpr hall]
  rfl

theorem digit_not_newline {n : Nat} : ∀ c ∈ decimal n, c ≠ 10 := by
  rintro c hc rfl
  exact absurd (decimal_digits n 10 hc) (by decide)

/-- The line with the two sizes. -/
def sizes (w h : Nat) : Bytes := decimal w ++ 32 :: decimal h

theorem sizes_not_newline {w h : Nat} : ∀ c ∈ sizes w h, c ≠ 10 := by
  intro c hc
  rcases List.mem_append.mp hc with hw | hc
  · exact digit_not_newline c hw
  · rcases List.mem_cons.mp hc with rfl | hh
    · decide
    · exact digit_not_newline c hh

/-- It is no comment. -/
theorem sizes_plain (w h : Nat) : (sizes w h).head? ≠ some 35 := by
  obtain ⟨c, cs, hcons⟩ := List.exists_cons_of_ne_nil (decimal_ne_nil w)
  have hdigit := decimal_digits w c (hcons ▸ List.mem_cons_self)
  rw [sizes, hcons]
  intro hhash
  rw [Option.some.inj hhash] at hdigit
  exact absurd hdigit (by decide)

/-- A number that is an `int` is taken off the text. -/
theorem extract_decimal {n : Nat} (hn : n < 2 ^ 31) (h : NoDigit rest) :
    extract (some (decimal n ++ rest)) = (some (n : Int), some rest) := by
  rw [extract, scanInt_decimal n h]
  dsimp only
  rw [if_neg (by rw [intMin]; omega), if_neg (by rw [intMax]; omega)]

/-- White space in front of a number makes no difference. -/
theorem extract_space (text : Bytes) : extract (some (32 :: text)) = extract (some text) := by
  have hscan : scanInt (32 :: text) = scanInt text := by
    rw [← scanInt_dropWhile (32 :: text), ← scanInt_dropWhile text]
    rfl
  rw [extract, extract, hscan]
  rfl

/-- Both sizes are read from their line. -/
theorem extract_sizes {w h : Nat} (hw : w < 2 ^ 31) (hh : h < 2 ^ 31) :
    (extract (some (sizes w h))).1 = some (w : Int) ∧
      (extract (extract (some (sizes w h))).2).1 = some (h : Int) := by
  have hfirst : extract (some (sizes w h)) = (some (w : Int), some (32 :: decimal h)) :=
    extract_decimal hw (noDigit_cons (by decide))
  have hsecond : extract (some (decimal h)) = (some (h : Int), some []) := by
    have hread := extract_decimal hh noDigit_nil
    rwa [List.append_nil] at hread
  rw [hfirst]
  refine ⟨rfl, ?_⟩
  rw [extract_space, hsecond]

end Lines

/-! ## Pixels -/

section Pixels

variable {image : Image} {h w : Nat} {pix : Nat × Nat → Pixel}

/-- The three bytes of a pixel. -/
def triple (q : Pixel) : Bytes := [q.r, q.g, q.b]

/-- One turn takes three bytes and stores them. -/
theorem readPixel_triple {s : Reader} {p : Nat × Nat} {q : Pixel} {rest : Bytes}
    (hs : Framed s.image h w) (hp : p.1 < h ∧ p.2 < w)
    (hin : s.inFile = ⟨triple q ++ rest, true⟩) :
    ∃ s', readPixel s p = .ok s' ∧ Framed s'.image h w ∧ s'.inFile = ⟨rest, true⟩ ∧
      s'.image.pix = Function.update s.image.pix p q := by
  have hwrite : s.image.write p q =
      .ok { s.image with pix := Function.update s.image.pix p q } := by
    rw [Image.write, if_pos]
    rw [hs.rows, hs.cols]
    exact hp
  have hread : read3 s.inFile s.pixel = ((some q.r, some q.g, some q.b), ⟨rest, true⟩) := by
    rw [hin]
    rfl
  refine ⟨⟨_, ⟨rest, true⟩, (some q.r, some q.g, some q.b)⟩, ?_, hs.write hwrite, rfl, rfl⟩
  rw [readPixel, hread]
  exact bind_ok.mpr ⟨_, hwrite, rfl⟩

/-- **THE PIXELS COME BACK** from the bytes of the pixels of a list, and the
    bytes behind them stay. -/
theorem readPixels_run {rest : Bytes} : ∀ {L : List (Nat × Nat)} {s : Reader},
    Framed s.image h w → (∀ p ∈ L, p.1 < h ∧ p.2 < w) →
    s.inFile = ⟨(L.flatMap fun p => triple (pix p)) ++ rest, true⟩ →
    ∃ s', runAll readPixel s L = .ok s' ∧ Framed s'.image h w ∧ s'.inFile = ⟨rest, true⟩ ∧
      (∀ p ∈ L, s'.image.pix p = pix p) ∧ ∀ p, p ∉ L → s'.image.pix p = s.image.pix p := by
  intro L
  induction L with
  | nil => exact fun {s} hs _ hin => ⟨s, rfl, hs, hin, nofun, fun _ _ => rfl⟩
  | cons p L ih =>
      intro s hs hL hin
      rw [List.flatMap_cons, List.append_assoc] at hin
      obtain ⟨s₁, hread, hs₁, hin₁, hpix⟩ := readPixel_triple hs (hL p List.mem_cons_self) hin
      obtain ⟨s', hrun, hs', hin', hmem, hout⟩ :=
        ih hs₁ (fun q hq => hL q (List.mem_cons_of_mem p hq)) hin₁
      refine ⟨s', runAll_cons.mpr ⟨s₁, hread, hrun⟩, hs', hin', ?_, ?_⟩
      · intro q hq
        by_cases hqL : q ∈ L
        · exact hmem q hqL
        · obtain rfl : q = p := (List.mem_cons.mp hq).resolve_right hqL
          rw [hout q hqL, hpix, Function.update_self]
      · intro q hq
        obtain ⟨hne, hqL⟩ := not_or.mp (fun hor => hq (List.mem_cons.mpr hor))
        rw [hout q hqL, hpix, Function.update_of_ne hne]

/-- What the loops read from a body is the image that it was written from. -/
theorem readPixels_body (pix : Nat × Nat → Pixel) (h w : Nat) (rest : Bytes) :
    ∃ out, readPixels h w ⟨body pix h w ++ rest, true⟩ = .ok out ∧
      ∀ p, p.1 < h ∧ p.2 < w → out.pix p = pix p := by
  obtain ⟨s', hrun, -, -, hmem, -⟩ :=
    readPixels_run (s := ⟨zeroImage h w, ⟨body pix h w ++ rest, true⟩, (none, none, none)⟩)
      (zeroImage_framed h w) (fun p hp => mem_allPixels.mp hp) rfl
  refine ⟨s'.image, ?_, fun p hp => hmem p (mem_allPixels.mpr hp)⟩
  rw [readPixels, runAll_grid readPixel]
  exact bind_ok.mpr ⟨s', hrun, rfl⟩

/-- **ROUND TRIP**: what `writePPM` writes, `readPPM` reads back, whatever
    the variables held before. -/
theorem round_trip (hs : Sized image h w) (width height : Option Int) :
    ∃ bytes out, writePPM image w h = .ok bytes ∧
      readPPM (some bytes) width height = .ok ⟨true, out, some (w : Int), some (h : Int)⟩ ∧
      Sized out h w ∧ ∀ p, p.1 < h ∧ p.2 < w → out.pix p = image.pix p := by
  obtain ⟨out, hpixels, hpix⟩ := readPixels_body image.pix h w []
  rw [List.append_nil] at hpixels
  have hframed := readPixels_framed hpixels
  have hmagic : ∀ c ∈ magic, c ≠ 10 :=
    List.forall_mem_cons.mpr ⟨by decide, List.forall_mem_singleton.mpr (by decide)⟩
  have hbytes : header w h ++ body image.pix h w =
      magic ++ 10 :: (sizes w h ++ 10 :: (decimal 255 ++ 10 :: body image.pix h w)) := by
    rw [header_append, sizes, List.append_assoc, List.cons_append]
  obtain ⟨hwidth, hheight⟩ := extract_sizes hs.width hs.height
  have hread : Read (header w h ++ body image.pix h w)
      (sizes w h, ⟨decimal 255 ++ 10 :: body image.pix h w, true⟩) out w h := by
    rw [hbytes]
    refine ⟨?_, ?_, hwidth, hheight, ?_, ?_, ?_, ?_⟩
    · rw [getline_line hmagic]
    · rw [getline_line hmagic, getline_line sizes_not_newline]
      exact skipComments_plain (sizes_plain w h)
    · rw [getline_line digit_not_newline]
      rfl
    · rw [vectorLength, if_neg (by omega)]
    · rw [vectorLength, if_neg (by omega)]
    · rw [getline_line digit_not_newline]
      exact hpixels
  exact ⟨_, out, writePPM_ok hs, hread.again width height,
    hframed.sized hs.height hs.width, hpix⟩

end Pixels

/-- One pixel whose bytes are a newline, `#` and a digit. -/
theorem round_trip_newline : ∃ bytes out,
    writePPM { zeroImage 1 1 with pix := fun _ => ⟨10, 35, 53⟩ } 1 1 = .ok bytes ∧
      readPPM (some bytes) none none = .ok ⟨true, out, some 1, some 1⟩ ∧
      Sized out 1 1 ∧ ∀ p, p.1 < 1 ∧ p.2 < 1 → out.pix p = ⟨10, 35, 53⟩ :=
  round_trip ⟨rfl, fun _ _ => rfl, by decide, by decide⟩ none none

end PpmRoundTrip
