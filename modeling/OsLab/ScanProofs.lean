import Mathlib

/-! # Numbers in a text of bytes

    `scanInt` reads an integer at the front of a text: white space, an
    optional sign and at least one decimal digit.  This is what `%d`, `>>`
    and `stoi` have in common.  `decimal` writes one.

    Reading does not look past the first byte that is no digit
    (`scanInt_append`), and what is written is read back
    (`scanInt_decimal`).  `scanD` is the reading as `scanf` reports it, which
    takes the numbers of a text one by one (`Spells.scanD`). -/

namespace OsScan

/-- A text. -/
abbrev Bytes := List UInt8

/-- `isspace`: a space, or one of `\t`, `\n`, `\v`, `\f` and `\r`. -/
def isSpace (c : UInt8) : Bool := c = 32 ∨ (9 ≤ c ∧ c ≤ 13)

/-- `isdigit`. -/
def isDigit (c : UInt8) : Bool := 48 ≤ c ∧ c ≤ 57

/-- The number that a string of digits denotes. -/
def number (ds : Bytes) : Nat := ds.foldl (fun n c => 10 * n + (c.toNat - 48)) 0

/-- A sign, if there is one: whether it is `-`, and what follows it. -/
def sign : Bytes → Bool × Bytes
  | c :: cs => if c = 45 then (true, cs) else if c = 43 then (false, cs) else (false, c :: cs)
  | [] => (false, [])

/-- The integer at the front of the text, and what follows it. -/
def scanInt (text : Bytes) : Option (Int × Bytes) :=
  let signed := sign (text.dropWhile isSpace)
  let ds := signed.2.takeWhile isDigit
  if ds = [] then none
  else some (if signed.1 then -(number ds : Int) else number ds, signed.2.dropWhile isDigit)

/-- The text starts with no digit. -/
def NoDigit (text : Bytes) : Prop := ∀ c ∈ text.head?, isDigit c = false

section Scan

variable {text rest tail : Bytes} {n : Int}

/-- Past a byte that fails the test, what follows does not matter. -/
theorem takeWhile_append_stop {p : UInt8 → Bool} (h : ∀ c ∈ tail.head?, p c = false) :
    (text ++ tail).takeWhile p = text.takeWhile p := by
  induction text with
  | nil =>
      cases tail with
      | nil => rfl
      | cons c cs => exact List.takeWhile_cons_of_neg (by rw [h c rfl]; exact Bool.false_ne_true)
  | cons c cs ih =>
      rw [List.cons_append]
      by_cases hc : p c = true
      · rw [List.takeWhile_cons_of_pos hc, List.takeWhile_cons_of_pos hc, ih]
      · rw [List.takeWhile_cons_of_neg hc, List.takeWhile_cons_of_neg hc]

theorem dropWhile_append_stop {p : UInt8 → Bool} (h : ∀ c ∈ tail.head?, p c = false) :
    (text ++ tail).dropWhile p = text.dropWhile p ++ tail := by
  induction text with
  | nil =>
      cases tail with
      | nil => rfl
      | cons c cs => exact List.dropWhile_cons_of_neg (by rw [h c rfl]; exact Bool.false_ne_true)
  | cons c cs ih =>
      rw [List.cons_append]
      by_cases hc : p c = true
      · rw [List.dropWhile_cons_of_pos hc, List.dropWhile_cons_of_pos hc, ih]
      · rw [List.dropWhile_cons_of_neg hc, List.dropWhile_cons_of_neg hc, List.cons_append]

theorem noDigit_nil : NoDigit [] := nofun

theorem noDigit_cons {c : UInt8} (h : isDigit c = false) : NoDigit (c :: rest) := by
  intro b hb
  rwa [← Option.some.inj hb]

/-- White space in front makes no difference. -/
theorem scanInt_dropWhile (text : Bytes) : scanInt (text.dropWhile isSpace) = scanInt text := by
  rw [scanInt, List.dropWhile_idempotent]
  rfl

theorem scanInt_space {ws : Bytes} (hws : ∀ c ∈ ws, isSpace c = true) :
    scanInt (ws ++ text) = scanInt text := by
  rw [← scanInt_dropWhile (ws ++ text), List.dropWhile_append_of_pos hws, scanInt_dropWhile]

theorem sign_append (h : text ≠ []) :
    sign (text ++ tail) = ((sign text).1, (sign text).2 ++ tail) := by
  cases text with
  | nil => exact absurd rfl h
  | cons c cs =>
      rw [List.cons_append, sign, sign]
      split
      · rfl
      · split
        · rfl
        · rfl

/-- **READING STOPS** at the first byte that is no digit. -/
theorem scanInt_append (h : scanInt text = some (n, rest)) (htail : NoDigit tail) :
    scanInt (text ++ tail) = some (n, rest ++ tail) := by
  have hne : text.dropWhile isSpace ≠ [] := by
    intro hnil
    rw [scanInt, hnil] at h
    exact nomatch h
  have hdrop : (text ++ tail).dropWhile isSpace = text.dropWhile isSpace ++ tail := by
    rw [List.dropWhile_append, if_neg]
    rwa [List.isEmpty_iff]
  rw [scanInt] at h ⊢
  rw [hdrop, sign_append hne]
  dsimp only at h ⊢
  rw [takeWhile_append_stop htail, dropWhile_append_stop htail]
  split at h
  · exact nomatch h
  · next hds =>
    rw [if_neg hds]
    obtain ⟨rfl, rfl⟩ := Prod.mk.inj (Option.some.inj h)
    rfl

end Scan

/-! ## Writing -/

/-- The digits of a natural number. -/
def decimal (n : Nat) : Bytes :=
  if n = 0 then [48] else (Nat.digits 10 n).reverse.map (fun d => UInt8.ofNat (48 + d))

/-- `<<` of an `int`. -/
def decimalInt (n : Int) : Bytes := if n < 0 then 45 :: decimal n.natAbs else decimal n.toNat

theorem digit_toNat {d : Nat} (h : d < 10) : (UInt8.ofNat (48 + d)).toNat = 48 + d := by
  rw [UInt8.toNat_ofNat']
  omega

theorem isDigit_digit {d : Nat} (h : d < 10) : isDigit (UInt8.ofNat (48 + d)) = true := by
  have hnat := digit_toNat h
  refine decide_eq_true ⟨?_, ?_⟩
  · rw [UInt8.le_iff_toNat_le, hnat]
    exact Nat.le_add_right 48 d
  · rw [UInt8.le_iff_toNat_le, hnat]
    show 48 + d ≤ 57
    omega

theorem decimal_digits (n : Nat) : ∀ c ∈ decimal n, isDigit c = true := by
  intro c hc
  rw [decimal] at hc
  split at hc
  · rw [List.mem_singleton.mp hc]
    decide
  · obtain ⟨d, hd, rfl⟩ := List.mem_map.mp hc
    exact isDigit_digit (Nat.digits_lt_base (by decide) (List.mem_reverse.mp hd))

theorem decimal_ne_nil (n : Nat) : decimal n ≠ [] := by
  rw [decimal]
  split
  · exact nofun
  · next h0 =>
    intro hnil
    exact Nat.digits_ne_nil_iff_ne_zero.mpr h0
      (List.reverse_eq_nil_iff.mp (List.map_eq_nil_iff.mp hnil))

/-- The digits denote the number. -/
theorem number_decimal (n : Nat) : number (decimal n) = n := by
  rw [decimal]
  split
  · next h0 =>
    rw [h0]
    rfl
  · rw [number, List.foldl_map, List.foldl_reverse]
    have hdigit : ∀ d ∈ Nat.digits 10 n, ∀ v : Nat,
        10 * v + ((UInt8.ofNat (48 + d)).toNat - 48) = d + 10 * v := by
      intro d hd v
      rw [digit_toNat (Nat.digits_lt_base (by decide) hd), Nat.add_sub_cancel_left, Nat.add_comm]
    calc (Nat.digits 10 n).foldr (fun d v => 10 * v + ((UInt8.ofNat (48 + d)).toNat - 48)) 0
        = (Nat.digits 10 n).foldr (fun d v => d + 10 * v) 0 := List.foldr_ext _ _ _ hdigit
      _ = Nat.ofDigits 10 (Nat.digits 10 n) := (Nat.ofDigits_eq_foldr 10 _).symm
      _ = n := Nat.ofDigits_digits 10 n

/-- A digit is neither white space nor a sign. -/
theorem digit_plain {c : UInt8} (h : isDigit c = true) : isSpace c = false ∧ c ≠ 45 ∧ c ≠ 43 := by
  obtain ⟨hlow, hhigh⟩ := of_decide_eq_true h
  rw [UInt8.le_iff_toNat_le] at hlow hhigh
  have hlow' : 48 ≤ c.toNat := hlow
  refine ⟨decide_eq_false ?_, ?_, ?_⟩
  · rintro (rfl | ⟨-, hr⟩)
    · exact absurd hlow (by decide)
    · have hr' : c.toNat ≤ 13 := UInt8.le_iff_toNat_le.mp hr
      omega
  · rintro rfl
    exact absurd hlow (by decide)
  · rintro rfl
    exact absurd hlow (by decide)

/-- **WHAT IS WRITTEN IS READ BACK**. -/
theorem scanInt_decimal (n : Nat) {tail : Bytes} (htail : NoDigit tail) :
    scanInt (decimal n ++ tail) = some ((n : Int), tail) := by
  have hread : scanInt (decimal n) = some ((n : Int), []) := by
    have hdigits := decimal_digits n
    have hne := decimal_ne_nil n
    have hnumber := number_decimal n
    revert hdigits hne hnumber
    generalize decimal n = ds
    intro hdigits hne hnumber
    obtain ⟨c, cs, rfl⟩ := List.exists_cons_of_ne_nil hne
    obtain ⟨hspace, hminus, hplus⟩ := digit_plain (hdigits c List.mem_cons_self)
    have hdrop : (c :: cs).dropWhile isSpace = c :: cs :=
      List.dropWhile_cons_of_neg (by rw [hspace]; exact Bool.false_ne_true)
    have hsign : sign (c :: cs) = (false, c :: cs) := by
      rw [sign, if_neg hminus, if_neg hplus]
    rw [scanInt, hdrop, hsign]
    dsimp only
    rw [List.takeWhile_eq_self_iff.mpr hdigits, List.dropWhile_eq_nil_iff.mpr hdigits, if_neg hne,
      if_neg Bool.false_ne_true, hnumber]
  exact scanInt_append hread htail

theorem scanInt_decimalInt (n : Int) {tail : Bytes} (htail : NoDigit tail) :
    scanInt (decimalInt n ++ tail) = some (n, tail) := by
  rw [decimalInt]
  split
  · next hneg =>
    have hread : scanInt (45 :: decimal n.natAbs) = some (n, []) := by
      have hdigits := decimal_digits n.natAbs
      rw [scanInt, List.dropWhile_cons_of_neg (by decide), sign, if_pos rfl]
      dsimp only
      rw [List.takeWhile_eq_self_iff.mpr hdigits, List.dropWhile_eq_nil_iff.mpr hdigits,
        if_neg (decimal_ne_nil _), if_pos rfl, number_decimal, Int.ofNat_natAbs_of_nonpos hneg.le,
        Int.neg_neg]
    exact scanInt_append hread htail
  · next hpos =>
    rw [scanInt_decimal n.toNat htail, Int.toNat_of_nonneg (not_lt.mp hpos)]

/-- A number and what is behind it can be told from the text. -/
theorem decimal_inj {n m : Nat} {c : UInt8} {rest rest' : Bytes} (hc : isDigit c = false)
    (heq : decimal n ++ c :: rest = decimal m ++ c :: rest') : n = m ∧ rest = rest' := by
  have hn := scanInt_decimal n (noDigit_cons hc : NoDigit (c :: rest))
  rw [heq, scanInt_decimal m (noDigit_cons hc)] at hn
  obtain ⟨hnum, hrest⟩ := Prod.mk.inj (Option.some.inj hn)
  exact ⟨Int.ofNat.inj hnum.symm, (List.cons.inj hrest).2.symm⟩

/-! ## Numbers one after the other -/

/-- What `%d` of `scanf` finds: only white space, no number behind it, or a
    number; and what is left. -/
inductive Found where
  | eof
  | mismatch (rest : Bytes)
  | number (n : Int) (rest : Bytes)

def scanD (text : Bytes) : Found :=
  if text.dropWhile isSpace = [] then .eof
  else
    match scanInt text with
    | none => .mismatch (sign (text.dropWhile isSpace)).2
    | some (n, rest) => .number n rest

/-- The text is made of the numbers, with white space between them. -/
inductive Spells : List Int → Bytes → Prop
  | nil {ws : Bytes} (hws : ∀ c ∈ ws, isSpace c = true) : Spells [] ws
  | cons {n : Int} {ns : List Int} {ws rest : Bytes} (hws : ∀ c ∈ ws, isSpace c = true)
      (hend : ∀ c ∈ rest.head?, isSpace c = true) (h : Spells ns rest) :
      Spells (n :: ns) (ws ++ (decimalInt n ++ rest))

section Spelling

variable {text rest : Bytes} {n : Int} {ns : List Int}

theorem space_noDigit (h : ∀ c ∈ rest.head?, isSpace c = true) : NoDigit rest := by
  intro c hc
  by_contra hdigit
  have hno := (digit_plain (Bool.of_not_eq_false hdigit)).1
  rw [h c hc] at hno
  exact nomatch hno

theorem decimalInt_ne_nil (n : Int) : decimalInt n ≠ [] := by
  rw [decimalInt]
  split
  · exact List.cons_ne_nil 45 _
  · exact decimal_ne_nil _

theorem scanD_eof (h : ∀ c ∈ text, isSpace c = true) : scanD text = .eof :=
  if_pos (List.dropWhile_eq_nil_iff.mpr h)

theorem scanD_number (h : scanInt text = some (n, rest)) : scanD text = .number n rest := by
  have hne : text.dropWhile isSpace ≠ [] := by
    intro hnil
    rw [scanInt, hnil] at h
    exact nomatch h
  rw [scanD, if_neg hne, h]

theorem Spells.eof (h : Spells [] text) : scanD text = .eof := by
  cases h with
  | nil hws => exact scanD_eof hws

/-- **THE NUMBERS ARE FOUND** in their order. -/
theorem Spells.scanD (h : Spells (n :: ns) text) :
    ∃ rest, scanD text = .number n rest ∧ Spells ns rest ∧ rest.length < text.length := by
  cases h with
  | @cons _ _ ws rest hws hend h =>
      refine ⟨rest, scanD_number ?_, h, ?_⟩
      · rw [scanInt_space hws, scanInt_decimalInt n (space_noDigit hend)]
      · rw [List.length_append, List.length_append]
        have hpos := List.length_pos_iff.mpr (decimalInt_ne_nil n)
        omega

theorem Spells.length_le (h : Spells ns text) : ns.length ≤ text.length := by
  induction h with
  | nil _ => exact Nat.zero_le _
  | @cons n ns ws rest _ _ _ ih =>
      rw [List.length_append, List.length_append, List.length_cons]
      have hpos := List.length_pos_iff.mpr (decimalInt_ne_nil n)
      omega

end Spelling

end OsScan
