import OsLab.LoopProofs

/-! # Translation by two segments

    `segmentation.py` places two segments of a process in physical memory and
    translates a list of virtual addresses.  Lengths and bases come from the
    options or are drawn; a base that is drawn is drawn again until there is
    room.

    Of two segments that overlap the program refuses those where segment 1
    starts in segment 0, and not those where segment 0 starts in segment 1.
    In the traces of `-c`, distinct virtual addresses get distinct physical
    addresses exactly when it is not so (`segments_apart`), and always when the
    base of segment 1 is drawn.

    The program halves the address space in floating point, exactly up to
    `2^53` (`toFloat_eq`); the theorem is about sizes up to there. -/

namespace Segmentation

open OsLoop

/-! ## The program -/

/-- A text. -/
abbrev Text := List Char

/-- What ends a run early. -/
inductive Stop where
  | error (text : String)
  | noAddress (vaddr asize : Int)
  /-- An exception: a text that `int` refuses, an empty size, a division by 0. -/
  | raised
  /-- The numbers drawn are used up. -/
  | stuck
deriving DecidableEq

/-- The options and their defaults. -/
structure Options where
  asize : Text := ['1', 'k']
  psize : Text := ['1', '6', 'k']
  addresses : Text := ['-', '1']
  num : Int := 5
  base0 : Text := ['-', '1']
  len0 : Text := ['-', '1']
  base1 : Text := ['-', '1']
  len1 : Text := ['-', '1']
  solve : Bool := false

/-- `int` raises an exception where it reads no number. -/
def intOr (int : Text → Option Int) (text : Text) : Except Stop Int :=
  match int text with
  | some n => .ok n
  | none => .error .raised

def convert (int : Text → Option Int) (size : Text) : Except Stop Int :=
  match size.getLast? with
  | none => .error .raised
  | some lastchar =>
      if lastchar = 'k' ∨ lastchar = 'K' then
        (intOr int size.dropLast).map (· * 1024)
      else if lastchar = 'm' ∨ lastchar = 'M' then
        (intOr int size.dropLast).map (· * (1024 * 1024))
      else if lastchar = 'g' ∨ lastchar = 'G' then
        (intOr int size.dropLast).map (· * (1024 * 1024 * 1024))
      else intOr int size

/-- The segments as placed; `base1` is the lower end of segment 1. -/
structure Segments where
  asize : Int
  psize : Int
  base0 : Int
  len0 : Int
  base1 : Int
  len1 : Int
deriving DecidableEq

def checkSizes (asize psize : Int) : Except Stop Unit :=
  if psize ≤ 1 then .error (.error "Error: must specify a non-zero physical memory size.")
  else if asize = 0 then .error (.error "Error: must specify a non-zero address-space size.")
  else if psize ≤ asize then
    .error (.error
      "Error: physical memory size must be GREATER than address space size (for this simulation)")
  else .ok ()

/-- The next of the numbers that `random` leads to. -/
def draw : List Int → Except Stop (Int × List Int)
  | [] => .error .stuck
  | d :: draws => .ok (d, draws)

def lengthOf (len : Int) (draws : List Int) : Except Stop (Int × List Int) :=
  if len = -1 then draw draws else .ok (len, draws)

/-- Draw until there is room. -/
def findRoom (fits : Int → Prop) [DecidablePred fits] : List Int → Except Stop (Int × List Int)
  | [] => .error .stuck
  | base :: draws => if fits base then .ok (base, draws) else findRoom fits draws

def place0 (psize len0 base0 : Int) (draws : List Int) : Except Stop (Int × List Int) :=
  if base0 = -1 then findRoom (fun base0 => base0 + len0 < psize) draws else .ok (base0, draws)

/-- The base of segment 1 that is given is its upper end. -/
def place1 (psize base0 len0 len1 base1 : Int) (draws : List Int) :
    Except Stop (Int × List Int) :=
  if base1 = -1 then
    findRoom (fun base1 => base1 + len1 < psize ∧
      (base1 > base0 + len0 ∨ base1 + len1 < base0)) draws
  else .ok (base1 - len1, draws)

/-- The floating-point number next to `n`: 53 bits, of two the even one. -/
def toFloat (n : Int) : Int :=
  let unit := 2 ^ (n.natAbs.log2 - 52)
  let mantissa := n.natAbs / unit
  let rest := n.natAbs % unit
  if unit < 2 * rest ∨ (unit = 2 * rest ∧ mantissa % 2 = 1) then
    n.sign * ((mantissa + 1) * unit : Nat)
  else n.sign * (mantissa * unit : Nat)

/-- `asize/2.0` is half of the floating-point number, and the comparison with
    it is exact. -/
def checkSegments (s : Segments) : Except Stop Unit :=
  if toFloat s.asize < 2 * s.len0 ∨ toFloat s.asize < 2 * s.len1 then
    .error (.error "Error: length register is too large for this address space")
  else if s.len0 + s.base0 > s.base1 ∧ s.base1 > s.base0 then
    .error (.error "Error: segments overlap in physical memory")
  else .ok ()

/-- From the options to the segments, with the numbers that are left. -/
def setup (int : Text → Option Int) (o : Options) (draws : List Int) :
    Except Stop (Segments × List Int) := do
  let asize ← convert int o.asize
  let psize ← convert int o.psize
  checkSizes asize psize
  let len0 ← convert int o.len0
  let len1 ← convert int o.len1
  let base0 ← convert int o.base0
  let base1 ← convert int o.base1
  let len0 ← lengthOf len0 draws
  let len1 ← lengthOf len1 len0.2
  let base0 ← place0 psize len0.1 base0 len1.2
  let base1 ← place1 psize base0.1 len0.1 len1.1 base1 base0.2
  checkSegments ⟨asize, psize, base0.1, len0.1, base1.1, len1.1⟩
  return (⟨asize, psize, base0.1, len0.1, base1.1, len1.1⟩, base1.2)

inductive Segment where
  | seg0
  | seg1
deriving DecidableEq

inductive Answer where
  | valid (seg : Segment) (paddr : Int)
  | violation (seg : Segment)
deriving DecidableEq

/-- `asize / 2` is half of the floating-point number here, too. -/
def translate (s : Segments) (vaddr : Int) : Answer :=
  if toFloat s.asize ≤ 2 * vaddr then
    if s.base1 + s.len1 + (vaddr - s.asize) < s.base1 then .violation .seg1
    else .valid .seg1 (s.base1 + s.len1 + (vaddr - s.asize))
  else if s.len0 ≤ vaddr then .violation .seg0
  else .valid .seg0 (vaddr + s.base0)

/-- A line of the trace; without `-c` it has no answer. -/
structure Line where
  i : Nat
  vaddr : Int
  answer : Option Answer
deriving DecidableEq

structure Trace where
  lines : List Line
  ctr : Nat
  ctr2 : Nat

def Trace.start : Trace := ⟨[], 0, 0⟩

def Answer.isValid : Answer → Bool
  | .valid _ _ => true
  | .violation _ => false

def Trace.print (t : Trace) (vaddr : Int) (answer : Option Answer) : Trace where
  lines := t.lines ++ [⟨t.lines.length, vaddr, answer⟩]
  ctr := if answer.any Answer.isValid then t.ctr + 1 else t.ctr
  ctr2 := t.ctr2 + 1

/-- The loop over the addresses, `none` where `int` refuses one. -/
def traceLoop (s : Segments) (solve : Bool) : Trace → List (Option Int) → Trace × Option Stop
  | t, [] => (t, none)
  | t, none :: _ => (t, some .raised)
  | t, some vaddr :: addrList =>
      if vaddr < 0 ∨ s.asize ≤ vaddr then
        ({ t with ctr2 := t.ctr2 + 1 }, some (.noAddress vaddr s.asize))
      else
        traceLoop s solve (t.print vaddr (if solve then some (translate s vaddr) else none))
          addrList

def addrList (int : Text → Option Int) (o : Options) (draws : List Int) :
    Except Stop (List (Option Int)) :=
  if o.addresses = ['-', '1'] then
    if draws.length < o.num.toNat then .error .stuck
    else .ok ((draws.take o.num.toNat).map some)
  else .ok ((o.addresses.splitOn ',').map int)

/-- The program: the trace it prints, and what ends it early.  The share of
    valid addresses at the end is a division by 0 when there are none. -/
def run (int : Text → Option Int) (o : Options) (draws : List Int) : Trace × Option Stop :=
  match setup int o draws with
  | .error e => (.start, some e)
  | .ok (s, rest) =>
      match addrList int o rest with
      | .error e => (.start, some e)
      | .ok addresses =>
          match traceLoop s o.solve .start addresses with
          | (t, none) => (t, if t.ctr2 = 0 then some .raised else none)
          | stopped => stopped

/-! ## Placing -/

/-- Up to `2^53` a number is its floating-point number. -/
theorem toFloat_eq {n : Int} (h : n.natAbs ≤ 2 ^ 53) : toFloat n = n := by
  have hrest : n.natAbs % 2 ^ (n.natAbs.log2 - 52) = 0 := by
    rcases h.lt_or_eq with hlt | heq
    · have hlog : n.natAbs.log2 - 52 = 0 := by
        rcases Nat.eq_zero_or_pos n.natAbs with hzero | hpos
        · rw [hzero]
          rfl
        · have hbits := (Nat.log2_lt hpos.ne').mpr hlt
          omega
      rw [hlog, pow_zero, Nat.mod_one]
    · rw [heq]
      decide
  have hdiv := Nat.div_add_mod n.natAbs (2 ^ (n.natAbs.log2 - 52))
  rw [hrest, add_zero, mul_comm] at hdiv
  have hunit : 2 ^ (n.natAbs.log2 - 52) ≠ 0 := (Nat.two_pow_pos _).ne'
  rw [toFloat]
  rw [hrest, mul_zero, if_neg (by omega), hdiv]
  exact Int.sign_mul_natAbs n

/-- Segment 0 starts inside segment 1, and has an address. -/
def StartsInside (s : Segments) : Prop :=
  0 < s.len0 ∧ s.base1 ≤ s.base0 ∧ s.base0 < s.base1 + s.len1

instance (s : Segments) : Decidable (StartsInside s) :=
  inferInstanceAs (Decidable (_ ∧ _))

/-- What the program has checked when it accepts the segments. -/
structure Placed (s : Segments) (base0 base1 : Int) (draws : List Int) : Prop where
  exact : toFloat s.asize = s.asize
  len0_le : 2 * s.len0 ≤ s.asize
  len1_le : 2 * s.len1 ≤ s.asize
  apart : ¬ (s.len0 + s.base0 > s.base1 ∧ s.base1 > s.base0)
  drawn0 : base0 = -1 → s.base0 ∈ draws ∧ s.base0 + s.len0 < s.psize
  drawn1 : base1 = -1 → s.base1 ∈ draws ∧ s.base1 + s.len1 < s.psize ∧
    (s.base1 > s.base0 + s.len0 ∨ s.base1 + s.len1 < s.base0)

section Place

variable {s : Segments} {draws rest : List Int} {r : Int × List Int}

/-- A base that is drawn fits, and the numbers left are of those there were. -/
theorem findRoom_fits {fits : Int → Prop} [DecidablePred fits]
    (h : findRoom fits draws = .ok r) : fits r.1 ∧ r.1 ∈ draws ∧ r.2 ⊆ draws := by
  induction draws with
  | nil => cases h
  | cons d draws ih =>
      rw [findRoom] at h
      split at h
      · next hfits =>
          cases h
          exact ⟨hfits, List.mem_cons_self, List.subset_cons_self d draws⟩
      · obtain ⟨hfits, hmem, hrest⟩ := ih h
        exact ⟨hfits, List.mem_cons_of_mem d hmem, List.subset_cons_of_subset d hrest⟩

theorem lengthOf_rest {len : Int} (h : lengthOf len draws = .ok r) : r.2 ⊆ draws := by
  rw [lengthOf] at h
  split at h
  · cases draws with
    | nil => cases h
    | cons d draws =>
        cases h
        exact List.subset_cons_self d draws
  · cases h
    exact List.Subset.refl draws

theorem place0_rest {psize len0 base0 : Int} (h : place0 psize len0 base0 draws = .ok r) :
    r.2 ⊆ draws ∧ (base0 = -1 → r.1 ∈ draws ∧ r.1 + len0 < psize) := by
  rw [place0] at h
  split at h
  · obtain ⟨hfits, hmem, hrest⟩ := findRoom_fits h
    exact ⟨hrest, fun _ => ⟨hmem, hfits⟩⟩
  · next hgiven =>
      cases h
      exact ⟨List.Subset.refl draws, fun hdrawn => absurd hdrawn hgiven⟩

theorem place1_room {psize base0 len0 len1 base1 : Int}
    (h : place1 psize base0 len0 len1 base1 draws = .ok r) (hdrawn : base1 = -1) :
    r.1 ∈ draws ∧ r.1 + len1 < psize ∧ (r.1 > base0 + len0 ∨ r.1 + len1 < base0) := by
  rw [place1, if_pos hdrawn] at h
  obtain ⟨hfits, hmem, -⟩ := findRoom_fits h
  exact ⟨hmem, hfits⟩

theorem checkSegments_ok (hsize : s.asize.natAbs ≤ 2 ^ 53) (h : checkSegments s = .ok ()) :
    2 * s.len0 ≤ s.asize ∧ 2 * s.len1 ≤ s.asize ∧
      ¬ (s.len0 + s.base0 > s.base1 ∧ s.base1 > s.base0) := by
  rw [checkSegments, toFloat_eq hsize] at h
  split at h
  · cases h
  next hlen =>
  split at h
  · cases h
  next hapart =>
  rw [not_or, not_lt, not_lt] at hlen
  exact ⟨hlen.1, hlen.2, hapart⟩

theorem setup_placed {int : Text → Option Int} {o : Options}
    (h : setup int o draws = .ok (s, rest)) (hsize : s.asize.natAbs ≤ 2 ^ 53) :
    ∃ base0 base1, convert int o.base0 = .ok base0 ∧ convert int o.base1 = .ok base1 ∧
      Placed s base0 base1 draws := by
  simp only [setup, bind_ok] at h
  obtain ⟨asize, -, psize, -, -, -, len0, -, len1, -, base0, hbase0, base1, hbase1,
    drawn0, hlen0, drawn1, hlen1, placed0, hplace0, placed1, hplace1, ⟨⟩, hcheck, hs⟩ := h
  cases hs
  obtain ⟨hle0, hle1, hapart⟩ := checkSegments_ok hsize hcheck
  have hdraws1 : drawn1.2 ⊆ draws :=
    List.Subset.trans (lengthOf_rest hlen1) (lengthOf_rest hlen0)
  obtain ⟨hrest, hroom0⟩ := place0_rest hplace0
  refine ⟨base0, base1, hbase0, hbase1, toFloat_eq hsize, hle0, hle1, hapart,
    fun hdrawn => ?_, fun hdrawn => ?_⟩
  · obtain ⟨hmem, hroom⟩ := hroom0 hdrawn
    exact ⟨hdraws1 hmem, hroom⟩
  · obtain ⟨hmem, hroom⟩ := place1_room hplace1 hdrawn
    exact ⟨hdraws1 (hrest hmem), hroom⟩

/-- A base of segment 1 that is drawn keeps segment 0 out of it. -/
theorem Placed.drawn_outside {base0 base1 : Int} (hp : Placed s base0 base1 draws)
    (hdrawn : base1 = -1) : ¬ StartsInside s := by
  rintro ⟨hlen, hlow, hhigh⟩
  obtain ⟨-, -, hroom⟩ := hp.drawn1 hdrawn
  omega

end Place

/-! ## Translating -/

section Translate

variable {s : Segments} {base0 base1 vaddr vaddr' paddr : Int} {seg seg' : Segment}
  {draws : List Int}

theorem translate_seg0 (hp : Placed s base0 base1 draws) :
    translate s vaddr = .valid .seg0 paddr ↔ vaddr < s.len0 ∧ paddr = vaddr + s.base0 := by
  have hle := hp.len0_le
  rw [translate, hp.exact]
  constructor
  · intro h
    split at h
    · split at h <;> cases h
    split at h
    · cases h
    · next hlen =>
        cases h
        exact ⟨not_le.mp hlen, rfl⟩
  · rintro ⟨hlen, rfl⟩
    rw [if_neg (by omega), if_neg (not_le.mpr hlen)]

theorem translate_seg1 (hp : Placed s base0 base1 draws) :
    translate s vaddr = .valid .seg1 paddr ↔
      s.asize ≤ vaddr + s.len1 ∧ paddr = s.base1 + s.len1 + (vaddr - s.asize) := by
  have hle := hp.len1_le
  rw [translate, hp.exact]
  constructor
  · intro h
    split at h
    · split at h
      · cases h
      · next hlow =>
          cases h
          exact ⟨by omega, rfl⟩
    · split at h <;> cases h
  · rintro ⟨hlow, rfl⟩
    rw [if_pos (by omega), if_neg (by omega)]

/-- Two addresses with one translation are one address, unless segment 0
    starts inside segment 1. -/
theorem translate_inj (hp : Placed s base0 base1 draws) (hout : ¬ StartsInside s)
    (hv : 0 ≤ vaddr ∧ vaddr < s.asize) (hv' : 0 ≤ vaddr' ∧ vaddr' < s.asize)
    (h : translate s vaddr = .valid seg paddr) (h' : translate s vaddr' = .valid seg' paddr) :
    vaddr = vaddr' := by
  have hapart := hp.apart
  simp only [StartsInside] at hout
  cases seg with
  | seg0 =>
      obtain ⟨hlen, hpaddr⟩ := (translate_seg0 hp).mp h
      cases seg' with
      | seg0 =>
          obtain ⟨-, hpaddr'⟩ := (translate_seg0 hp).mp h'
          omega
      | seg1 =>
          obtain ⟨hlow, hpaddr'⟩ := (translate_seg1 hp).mp h'
          omega
  | seg1 =>
      obtain ⟨hlow, hpaddr⟩ := (translate_seg1 hp).mp h
      cases seg' with
      | seg0 =>
          obtain ⟨hlen, hpaddr'⟩ := (translate_seg0 hp).mp h'
          omega
      | seg1 =>
          obtain ⟨-, hpaddr'⟩ := (translate_seg1 hp).mp h'
          omega

/-- The first address of segment 0 has a second one in segment 1. -/
theorem translate_twice (hp : Placed s base0 base1 draws) (hin : StartsInside s) :
    ∃ vaddr, 0 < vaddr ∧ vaddr < s.asize ∧ translate s 0 = .valid .seg0 s.base0 ∧
      translate s vaddr = .valid .seg1 s.base0 := by
  obtain ⟨hlen, hlow, hhigh⟩ := hin
  have hle0 := hp.len0_le
  have hle1 := hp.len1_le
  refine ⟨s.asize + s.base0 - s.base1 - s.len1, by omega, by omega, ?_, ?_⟩
  · exact (translate_seg0 hp).mpr ⟨hlen, (Int.zero_add _).symm⟩
  · exact (translate_seg1 hp).mpr ⟨by omega, by omega⟩

end Translate

/-! ## The trace -/

/-- No two addresses in the lines have one translation. -/
def OneToOne (lines : List Line) : Prop :=
  ∀ l ∈ lines, ∀ l' ∈ lines, ∀ seg seg' paddr, l.answer = some (.valid seg paddr) →
    l'.answer = some (.valid seg' paddr) → l.vaddr = l'.vaddr

/-- The translations in a segment lie in physical memory. -/
def InMemory (s : Segments) (seg : Segment) (lines : List Line) : Prop :=
  ∀ l ∈ lines, ∀ paddr, l.answer = some (.valid seg paddr) → 0 ≤ paddr ∧ paddr < s.psize

/-- The line says what becomes of an address of the address space. -/
structure Told (s : Segments) (solve : Bool) (l : Line) : Prop where
  nonneg : 0 ≤ l.vaddr
  lt : l.vaddr < s.asize
  answer : l.answer = if solve then some (translate s l.vaddr) else none

/-- Each line is told, and the valid ones are counted. -/
structure Trace.Sound (s : Segments) (solve : Bool) (t : Trace) : Prop where
  told : ∀ l ∈ t.lines, Told s solve l
  counted : t.ctr = t.lines.countP fun l => l.answer.any Answer.isValid

section Trace

variable {s : Segments} {solve : Bool} {t : Trace} {vaddr : Int} {base0 base1 : Int}
  {draws rest : List Int}

theorem start_sound : Trace.start.Sound s solve :=
  ⟨fun _ hl => absurd hl List.not_mem_nil, rfl⟩

theorem print_counted {answer : Option Answer}
    (h : t.ctr = t.lines.countP fun l => l.answer.any Answer.isValid) :
    (t.print vaddr answer).ctr =
      (t.print vaddr answer).lines.countP fun l => l.answer.any Answer.isValid := by
  simp only [Trace.print, List.countP_append, List.countP_singleton, ← h]
  split <;> rfl

theorem Trace.Sound.print (h : t.Sound s solve) (hnonneg : 0 ≤ vaddr) (hlt : vaddr < s.asize) :
    (t.print vaddr (if solve then some (translate s vaddr) else none)).Sound s solve := by
  refine ⟨?_, ?_⟩
  · intro l hl
    rcases List.mem_append.mp hl with hold | hnew
    · exact h.told l hold
    · rw [List.mem_singleton.mp hnew]
      exact ⟨hnonneg, hlt, rfl⟩
  · exact print_counted h.counted

theorem traceLoop_sound (addresses : List (Option Int)) (h : t.Sound s solve) :
    (traceLoop s solve t addresses).1.Sound s solve := by
  induction addresses generalizing t with
  | nil => exact h
  | cons address addresses ih =>
      cases address with
      | none => exact h
      | some vaddr =>
          rw [traceLoop]
          split
          · exact ⟨h.told, h.counted⟩
          · next hspace =>
              rw [not_or, not_lt, not_le] at hspace
              exact ih (h.print hspace.1 hspace.2)

theorem Told.translated {l : Line} (h : Told s solve l) {answer : Answer}
    (hanswer : l.answer = some answer) : translate s l.vaddr = answer := by
  have htold := h.answer
  rw [hanswer] at htold
  split at htold
  · exact (Option.some.inj htold).symm
  · cases htold

theorem Trace.Sound.one_to_one (h : t.Sound s solve) (hp : Placed s base0 base1 draws)
    (hout : ¬ StartsInside s) : OneToOne t.lines := by
  intro l hl l' hl' seg seg' paddr hanswer hanswer'
  have htold := h.told l hl
  have htold' := h.told l' hl'
  exact translate_inj hp hout ⟨htold.nonneg, htold.lt⟩ ⟨htold'.nonneg, htold'.lt⟩
    (htold.translated hanswer) (htold'.translated hanswer')

theorem Trace.Sound.in_memory0 (h : t.Sound s solve) (hp : Placed s base0 base1 draws)
    (hdraws : ∀ d ∈ draws, 0 ≤ d) (hdrawn : base0 = -1) : InMemory s .seg0 t.lines := by
  intro l hl paddr hanswer
  have htold := h.told l hl
  have hnonneg := htold.nonneg
  obtain ⟨hlen, rfl⟩ := (translate_seg0 hp).mp (htold.translated hanswer)
  obtain ⟨hmem, hroom⟩ := hp.drawn0 hdrawn
  have hbase := hdraws _ hmem
  omega

theorem Trace.Sound.in_memory1 (h : t.Sound s solve) (hp : Placed s base0 base1 draws)
    (hdraws : ∀ d ∈ draws, 0 ≤ d) (hdrawn : base1 = -1) : InMemory s .seg1 t.lines := by
  intro l hl paddr hanswer
  have htold := h.told l hl
  have hlt := htold.lt
  obtain ⟨hlow, rfl⟩ := (translate_seg1 hp).mp (htold.translated hanswer)
  obtain ⟨hmem, hroom, -⟩ := hp.drawn1 hdrawn
  have hbase := hdraws _ hmem
  omega

/-- A trace of two addresses that shows one translation twice. -/
theorem trace_twice (hp : Placed s base0 base1 draws) (hin : StartsInside s) :
    ∃ addresses, ¬ OneToOne (traceLoop s true .start addresses).1.lines := by
  obtain ⟨vaddr, hpos, hlt, hfirst, hsecond⟩ := translate_twice hp hin
  refine ⟨[some 0, some vaddr], fun hone => ?_⟩
  have hlines : (traceLoop s true .start [some 0, some vaddr]).1.lines =
      [⟨0, 0, some (translate s 0)⟩, ⟨1, vaddr, some (translate s vaddr)⟩] := by
    rw [traceLoop, if_neg (by omega), traceLoop, if_neg (by omega)]
    rfl
  rw [hlines, hfirst, hsecond] at hone
  have hsame := hone _ List.mem_cons_self _ (List.mem_cons_of_mem _ List.mem_cons_self)
    _ _ _ rfl rfl
  exact absurd hsame hpos.ne

theorem run_sound {int : Text → Option Int} {o : Options}
    (h : setup int o draws = .ok (s, rest)) : (run int o draws).1.Sound s o.solve := by
  rw [run, h]
  dsimp only
  split
  · exact start_sound
  · next addresses _ =>
      have hloop : (traceLoop s o.solve .start addresses).1.Sound s o.solve :=
        traceLoop_sound addresses start_sound
      split
      · next t ht =>
          rw [ht] at hloop
          exact hloop
      · exact hloop

end Trace

/-- **WHEN TWO ADDRESSES SHARE A BYTE**: with the segments the program accepts
    in an address space of at most `2^53` bytes, distinct addresses of a trace
    of `-c` have distinct translations exactly when segment 0 does not start
    inside segment 1, which never happens when the base of segment 1 is drawn;
    and a segment whose base is drawn lies in physical memory.  Without `-c` no
    address is translated. -/
theorem segments_apart {int : Text → Option Int} {o : Options} {draws rest : List Int}
    {s : Segments} (h : setup int o draws = .ok (s, rest)) (hsize : s.asize.natAbs ≤ 2 ^ 53) :
    ((∀ addresses, OneToOne (traceLoop s true .start addresses).1.lines) ↔ ¬ StartsInside s) ∧
    (¬ StartsInside s → OneToOne (run int o draws).1.lines) ∧
    (convert int o.base1 = .ok (-1) → ¬ StartsInside s) ∧
    ((∀ d ∈ draws, 0 ≤ d) →
      (convert int o.base0 = .ok (-1) → InMemory s .seg0 (run int o draws).1.lines) ∧
      (convert int o.base1 = .ok (-1) → InMemory s .seg1 (run int o draws).1.lines)) := by
  obtain ⟨base0, base1, hbase0, hbase1, hp⟩ := setup_placed h hsize
  have hrun := run_sound h
  refine ⟨⟨fun hall hin => ?_, fun hout addresses => ?_⟩, hrun.one_to_one hp,
    fun hdrawn => ?_, fun hdraws => ⟨fun hdrawn => ?_, fun hdrawn => ?_⟩⟩
  · obtain ⟨addresses, htwice⟩ := trace_twice hp hin
    exact htwice (hall addresses)
  · exact (traceLoop_sound addresses start_sound).one_to_one hp hout
  · exact hp.drawn_outside (Except.ok.inj (hbase1.symm.trans hdrawn))
  · exact hrun.in_memory0 hp hdraws (Except.ok.inj (hbase0.symm.trans hdrawn))
  · exact hrun.in_memory1 hp hdraws (Except.ok.inj (hbase1.symm.trans hdrawn))

/-- Numbers without a sign, and -1. -/
def smallInt (text : Text) : Option Int :=
  if text = ['-', '1'] then some (-1)
  else if text ≠ [] ∧ text.all Char.isDigit then
    some (text.foldl (fun n c => 10 * n + ((c.toNat : Int) - 48)) 0)
  else none

/-- Segment 1 ends in segment 0 and starts below it. -/
def overlapping : Options where
  asize := ['1', '6']
  psize := ['3', '2']
  base0 := ['2', '4']
  len0 := ['4']
  base1 := ['2', '6']
  len1 := ['5']
  solve := true

theorem segments_apart_overlapping :
    ¬ ∀ addresses, OneToOne (traceLoop ⟨16, 32, 24, 4, 21, 5⟩ true .start addresses).1.lines := by
  have hsetup : setup smallInt overlapping [] = .ok (⟨16, 32, 24, 4, 21, 5⟩, []) := by decide
  have hin : StartsInside ⟨16, 32, 24, 4, 21, 5⟩ := by decide
  exact fun hall => (segments_apart hsetup (by decide)).1.mp hall hin

end Segmentation
