import OsLab.PpmReadProofs

/-! # For which sizes the passes stay inside

    `T1` counts up to `size()` and is safe for every image.  `T2` and `T3`
    count up to `size() - 1`, which wraps for an empty vector: they then
    look at a row or at a pixel that is not there.  This happens for an
    image without rows, and for one of three rows or more without pixels.
    Every image that `readPPM` leaves has rows of one length
    (`readPPM_sized`), so this is when a run is safe (`passes_safe_exact`). -/

namespace ImageBounds

open OsLoop OsScan ImageModel ImagePasses PpmModel PpmRead

/-- No access of the three passes is out of range. -/
structure Safe (gray : Pixel → UInt8) (image : Image) : Prop where
  grey : ∃ out, T1 gray image = .ok out
  blur : ∃ out, T2 image = .ok out
  edges : ∃ out, T3 image = .ok out

/-- The bounds of `T2` and `T3` do not wrap where they are used. -/
def Thick (h w : Nat) : Prop := 1 ≤ h ∧ (h ≤ 2 ∨ 1 ≤ w)

section Passes

variable {image temp : Image} {h w : Nat} {p : Nat × Nat} {gray : Pixel → UInt8}

theorem upTo_zero : upTo 0 = 1 :: List.range' 2 18446744073709551613 := by
  have hbound : (2 ^ 64 - 1 + 0) % 2 ^ 64 - 1 = 18446744073709551613 + 1 := by decide
  rw [upTo, hbound, List.range'_succ]

theorem upTo_small {n : Nat} (h1 : 1 ≤ n) (h2 : n ≤ 2) : upTo n = [] := by
  have hbound : (2 ^ 64 - 1 + n) % 2 ^ 64 - 1 = 0 := by omega
  rw [upTo, hbound, List.range'_zero]

theorem upTo_cons {n : Nat} (h3 : 3 ≤ n) (hn : n < 2 ^ 31) : ∃ rest, upTo n = 1 :: rest := by
  have hbound : (2 ^ 64 - 1 + n) % 2 ^ 64 - 1 = (n - 3) + 1 := by omega
  exact ⟨_, by rw [upTo, hbound, List.range'_succ]⟩

/-! ## The blur -/

theorem boxSums_ok (hs : Sized image h w) (hp : Inside h w p) :
    ∃ sums, boxSums image p = .ok sums := by
  obtain ⟨hy, hx⟩ := hp
  have hstep : ∀ (sums : Nat × Nat × Nat), ∀ o ∈ offsets, True → ∃ sums', (do
      let q ← image.read (p.1 + o.1 - 1, p.2 + o.2 - 1)
      .ok (sums.1 + boxKernel o.1 o.2 * q.r.toNat, sums.2.1 + boxKernel o.1 o.2 * q.g.toNat,
        sums.2.2 + boxKernel o.1 o.2 * q.b.toNat)) = Except.ok sums' ∧ True := by
    rintro sums ⟨j, i⟩ - -
    -- all nine neighbours of an inner pixel are in the image
    have hread : image.read (p.1 + j - 1, p.2 + i - 1) = .ok (image.pix _) :=
      read_ok hs ⟨by dsimp only; omega, by dsimp only; omega⟩
    exact ⟨_, bind_ok.mpr ⟨_, hread, rfl⟩, trivial⟩
  obtain ⟨sums, hrun, -⟩ := runAll_total hstep trivial
  exact ⟨sums, hrun⟩

theorem boxPixel_ok (hs : Sized image h w) (ht : Sized temp h w) (hp : Inside h w p) :
    ∃ temp', boxPixel image temp p = .ok temp' ∧ Sized temp' h w := by
  obtain ⟨sums, hsums⟩ := boxSums_ok hs hp
  obtain ⟨hy, hx⟩ := hp
  exact ⟨_, bind_ok.mpr ⟨sums, hsums, write_ok ht ⟨by omega, by omega⟩ _⟩, ht.with_pix _⟩

/-- An iteration of the blur keeps the sizes of both images. -/
theorem blur_ok (hs : Sized image h w) (ht : Sized temp h w) (hthick : Thick h w) :
    ∃ temp', blur (image, temp) = .ok (temp', temp') ∧ Sized temp' h w := by
  have hrows : ∃ temp', runAll (fun temp y => do
      let n ← image.rowSize y
      runAll (fun temp x => boxPixel image temp (y, x)) temp (upTo n)) temp (upTo image.rows) =
      .ok temp' ∧ Sized temp' h w := by
    obtain ⟨hh, hsmall | hw⟩ := hthick
    · rw [hs.rows, upTo_small hh hsmall]
      exact ⟨temp, rfl, ht⟩
    · rw [hs.rows]
      refine runAll_total (fun temp y hy ht => ?_) ht
      have hinY := (mem_upTo hh hs.height).mp hy
      have hpixel : ∀ temp, ∀ x ∈ upTo w, Sized temp h w →
          ∃ temp', boxPixel image temp (y, x) = .ok temp' ∧ Sized temp' h w :=
        fun temp x hx ht => boxPixel_ok hs ht ⟨hinY, (mem_upTo hw hs.width).mp hx⟩
      obtain ⟨temp', hrun, ht'⟩ := runAll_total hpixel ht
      exact ⟨temp', bind_ok.mpr ⟨w, rowSize_ok hs (by omega), hrun⟩, ht'⟩
  obtain ⟨temp', hrun, ht'⟩ := hrows
  exact ⟨temp', bind_ok.mpr ⟨temp', hrun, rfl⟩, ht'⟩

theorem T2_ok (hs : Sized image h w) (hthick : Thick h w) : ∃ out, T2 image = .ok out := by
  have hstep : ∀ (s : Image × Image), ∀ i ∈ List.range 50, Sized s.1 h w ∧ Sized s.2 h w →
      ∃ s', blur s = .ok s' ∧ Sized s'.1 h w ∧ Sized s'.2 h w := by
    rintro s - - ⟨hi, ht⟩
    obtain ⟨temp', hblur, ht'⟩ := blur_ok hi ht hthick
    exact ⟨_, hblur, ht', ht'⟩
  obtain ⟨s', hrun, -⟩ := runAll_total (s := (image, image)) hstep ⟨hs, hs⟩
  exact ⟨s'.1, bind_ok.mpr ⟨s', hrun, rfl⟩⟩

/-! ## The Sobel pass -/

theorem T3_thick (hs : Sized image h w) (hthick : Thick h w) : ∃ out, T3 image = .ok out := by
  obtain ⟨hh, hsmall | hw⟩ := hthick
  · refine ⟨image, ?_⟩
    rw [T3, hs.rows, upTo_small hh hsmall]
    rfl
  · exact ⟨_, T3_ok hs hh hw⟩

/-- The pass looks at the first pixel of the image first. -/
theorem sobelPixel_first {pixels : Image} {gx : Kernel}
    (hread : image.read (0, 0) = .error .badIndex) :
    sobelPixel gx image pixels (1, 1) = .error .badIndex := by
  have hsums : sobelSums gx image (1, 1) = .error .badIndex :=
    runAll_first (bind_error.mpr (Or.inl hread))
  exact bind_error.mpr (Or.inl hsums)

/-- **OUT OF RANGE** without rows, or with three of them and no pixel. -/
theorem T3_thin (hs : Sized image h w) (hthin : ¬ Thick h w) : T3 image = .error .badIndex := by
  rw [Thick] at hthin
  by_cases hh : h = 0
  · -- the first row that is looked at is row 1
    subst hh
    have hsize : image.rowSize 1 = .error .badIndex := by
      rw [Image.rowSize, hs.rows, if_neg (by omega)]
    rw [T3, hs.rows, upTo_zero]
    exact runAll_first (bind_error.mpr (Or.inl hsize))
  · -- row 1 is there, and its pixel 1 has no neighbours
    obtain ⟨rest, hrows⟩ := upTo_cons (by omega : 3 ≤ h) hs.height
    obtain rfl : w = 0 := by omega
    have hsize : image.rowSize 1 = .ok 0 := rowSize_ok hs (by omega)
    have hread : image.read (0, 0) = .error .badIndex := by
      rw [Image.read, if_neg]
      rintro ⟨-, hcol⟩
      rw [hs.cols 0 (by omega)] at hcol
      exact absurd hcol (lt_irrefl 0)
    rw [T3, hs.rows, hrows]
    refine runAll_first (bind_error.mpr (Or.inr ⟨0, hsize, ?_⟩))
    rw [upTo_zero]
    exact runAll_first (sobelPixel_first hread)

/-- **SAFE WHEN THICK**: the bounds do not wrap where they are used. -/
theorem safe_iff (hs : Sized image h w) : Safe gray image ↔ Thick h w := by
  constructor
  · rintro ⟨-, -, out, hout⟩
    by_contra hthin
    exact nomatch (T3_thin hs hthin).symm.trans hout
  · intro hthick
    exact ⟨⟨_, T1_ok hs⟩, T2_ok hs hthick, T3_thick hs hthick⟩

end Passes

theorem zeroImage_sized {h w : Nat} (hh : h < 2 ^ 31) (hw : w < 2 ^ 31) :
    Sized (zeroImage h w) h w := (zeroImage_framed h w).sized hh hw

/-! ## What `readPPM` leaves -/

section Reading

variable {file : Option Bytes} {parsed : Parsed}

/-- A size that was read is an `int`. -/
theorem known_le {text : Option Bytes} {n : Int} (h : known ((extract text).1.or none) = .ok n) :
    n ≤ intMax := by
  rw [Option.or_none] at h
  cases hv : (extract text).1 with
  | none =>
      rw [hv] at h
      exact nomatch h
  | some m =>
      rw [hv] at h
      cases h
      exact extract_le hv

/-- **EVERY IMAGE THAT IS READ** has rows of one length, on every path
    through `readPPM`. -/
theorem readPPM_sized (hread : readPPM file none none = .ok parsed) :
    ∃ h w, Sized parsed.image h w := by
  have hempty : ∃ h w, Sized (zeroImage 0 0) h w := ⟨0, 0, zeroImage_sized (by decide) (by decide)⟩
  cases file with
  | none =>
      cases hread
      exact hempty
  | some bytes =>
      rw [readPPM] at hread
      dsimp only at hread
      split at hread
      · cases hread
        exact hempty
      · obtain ⟨size, -, hread⟩ := bind_ok.mp hread
        obtain ⟨maxVal, -, hread⟩ := bind_ok.mp hread
        split at hread
        · cases hread
          exact hempty
        · obtain ⟨w, hw, hread⟩ := bind_ok.mp hread
          obtain ⟨cols, hcols, hread⟩ := bind_ok.mp hread
          obtain ⟨h, hh, hread⟩ := bind_ok.mp hread
          obtain ⟨rows, hrows, hread⟩ := bind_ok.mp hread
          obtain ⟨image, himage, hend⟩ := bind_ok.mp hread
          cases hend
          obtain ⟨-, rfl⟩ := vectorLength_ok hcols
          obtain ⟨-, rfl⟩ := vectorLength_ok hrows
          have hwmax : w ≤ intMax := known_le hw
          have hhmax : h ≤ intMax := known_le hh
          rw [intMax] at hwmax hhmax
          exact ⟨_, _, (readPixels_framed himage).sized (by omega) (by omega)⟩

end Reading

/-- **THE PASSES STAY INSIDE** exactly if the image has a row, and no more
    than two rows or a pixel in each; and the images that `readPPM` leaves, on
    every path through it, are of this kind or of the other. -/
theorem passes_safe_exact {gray : Pixel → UInt8} :
    (∀ {image h w}, Sized image h w → (Safe gray image ↔ Thick h w)) ∧
    ∀ {file parsed}, readPPM file none none = .ok parsed →
      ∃ h w, Sized parsed.image h w ∧ (Safe gray parsed.image ↔ Thick h w) := by
  refine ⟨safe_iff, fun hread => ?_⟩
  obtain ⟨h, w, hs⟩ := readPPM_sized hread
  exact ⟨h, w, hs, safe_iff hs⟩

theorem passes_safe_exact_square : Safe (fun q => q.r) (zeroImage 3 3) ↔ Thick 3 3 :=
  passes_safe_exact.1 (zeroImage_sized (by decide) (by decide))

/-- A file that cannot be opened leaves an image without rows. -/
theorem passes_unsafe : readPPM none none none = .ok ⟨false, zeroImage 0 0, none, none⟩ ∧
    ¬ Safe (fun q => q.r) (zeroImage 0 0) := by
  refine ⟨rfl, ?_⟩
  rintro ⟨-, -, out, hout⟩
  have hfail : T3 (zeroImage 0 0) = .error .badIndex :=
    T3_thin (zeroImage_sized (by decide) (by decide)) (fun hthick => absurd hthick.1 (by decide))
  exact nomatch hfail.symm.trans hout

end ImageBounds
