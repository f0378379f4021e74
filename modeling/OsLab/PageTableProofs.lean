import OsLab.SegmentationProofs

/-! # Translation by a linear page table

    `paging-linear-translate.py` gives some virtual pages a frame of physical
    memory, drawing a frame again while it is in use, and translates a list
    of virtual addresses.  No frame is given twice (`fill_sound`).

    The virtual page number is cut off at 32 bits and an address is never
    compared with the size of the address space: with `-c` an address is
    translated as its lower 32 bits are, and one whose lower 32 bits lie
    outside raises an exception (`pages_apart`). -/

namespace PageTable

open OsLoop
open Segmentation (Text Stop convert)

/-! ## The program -/

/-- The options that say how large the memory is, with their defaults. -/
structure Options where
  asize : Text := ['1', '6', 'k']
  psize : Text := ['6', '4', 'k']
  pagesize : Text := ['4', 'k']

def mustbepowerof2 (bits : Nat) (size : Int) (msg : String) : Except Stop Unit :=
  if (2 : Int) ^ bits ≠ size then .error (.error ("Error in argument: " ++ msg)) else .ok ()

def mustbemultipleof (bignum num : Int) (msg : String) : Except Stop Unit :=
  if num = 0 then .error .raised
  else if bignum % num ≠ 0 then .error (.error ("Error in argument: " ++ msg))
  else .ok ()

structure Sizes where
  asize : Int
  psize : Int
  pagesize : Int
  pagebits : Nat
deriving DecidableEq

def checkSizes (asize psize : Int) : Except Stop Unit :=
  if psize ≤ 1 then .error (.error "Error: must specify a non-zero physical memory size.")
  else if asize < 1 then .error (.error "Error: must specify a non-zero address-space size.")
  else if psize ≤ asize then
    .error (.error
      "Error: physical memory size must be GREATER than address space size (for this simulation)")
  else if psize ≥ 1024 * 1024 * 1024 ∨ asize ≥ 1024 * 1024 * 1024 then
    .error (.error "Error: must use smaller sizes (less than 1 GB) for this simulation.")
  else .ok ()

/-- The logarithm of a size that is not positive raises an exception. -/
def bitsOf (bits : Int → Nat) (size : Int) : Except Stop Nat :=
  if size ≤ 0 then .error .raised else .ok (bits size)

/-- From the options to the sizes; `bits` is the quotient of logarithms. -/
def setup (int : Text → Option Int) (bits : Int → Nat) (o : Options) : Except Stop Sizes := do
  let asize ← convert int o.asize
  let psize ← convert int o.psize
  let pagesize ← convert int o.pagesize
  checkSizes asize psize
  mustbemultipleof asize pagesize "address space must be a multiple of the pagesize"
  mustbemultipleof psize pagesize "physical memory must be a multiple of the pagesize"
  let vabits ← bitsOf bits asize
  mustbepowerof2 vabits asize "address space must be a power of 2"
  let pagebits ← bitsOf bits pagesize
  mustbepowerof2 pagebits pagesize "page size must be a power of 2"
  return ⟨asize, psize, pagesize, pagebits⟩

def Sizes.pages (z : Sizes) : Nat := (z.psize / z.pagesize).toNat

def Sizes.vpages (z : Sizes) : Nat := (z.asize / z.pagesize).toNat

structure Table where
  used : List Bool
  pt : List Int
  ctr : Nat

def Table.start (pages : Nat) : Table := ⟨List.replicate pages false, [], 0⟩

/-- The two loops over `v` and `done`.  A turn of the inner one draws that the
    page is not valid, or a frame. -/
def fill (vpages : Nat) : Table → List (Option Nat) → Except Stop Table
  | t, [] => if vpages ≤ t.pt.length then .ok t else .error .stuck
  | t, drawn :: draws =>
      if vpages ≤ t.pt.length then .ok t
      else
        match drawn with
        | none => fill vpages { t with pt := t.pt ++ [-1] } draws
        | some u =>
            match t.used[u]? with
            | none => .error .raised
            | some true => fill vpages t draws
            | some false => fill vpages ⟨t.used.set u true, t.pt ++ [(u : Int)], t.ctr + 1⟩ draws

def Sizes.pagemask (z : Sizes) : Int := (1 : Int) <<< z.pagebits - 1

def Sizes.vpnmask (z : Sizes) : Int := Int.land 0xFFFFFFFF (Int.lnot z.pagemask)

/-- `pt[vpn]`: from the end when the number is negative. -/
def entry (pt : List Int) (vpn : Int) : Option Int :=
  if vpn < 0 then
    if vpn + pt.length < 0 then none else pt[(vpn + pt.length).toNat]?
  else pt[vpn.toNat]?

/-- The physical address, or none where the page is not valid. -/
def translate (z : Sizes) (pt : List Int) (vaddr : Int) : Except Stop (Option Int) :=
  match entry pt (Int.land vaddr z.vpnmask >>> z.pagebits) with
  | none => .error .raised
  | some pfn =>
      if pfn < 0 then .ok none
      else .ok (some (Int.lor (pfn <<< z.pagebits) (Int.land vaddr z.pagemask)))

/-- A line of the trace; without `-c` it has no answer. -/
structure Line where
  vaddr : Int
  answer : Option (Option Int)

/-- The loop over the addresses, `none` where `int` refuses one. -/
def traceLoop (z : Sizes) (pt : List Int) (solve : Bool) :
    List (Option Int) → List Line × Option Stop
  | [] => ([], none)
  | none :: _ => ([], some .raised)
  | some vaddr :: addrList =>
      if solve then
        match translate z pt vaddr with
        | .error e => ([], some e)
        | .ok paddr =>
            let (lines, stop) := traceLoop z pt solve addrList
            (⟨vaddr, some paddr⟩ :: lines, stop)
      else
        let (lines, stop) := traceLoop z pt solve addrList
        (⟨vaddr, none⟩ :: lines, stop)

/-! ## Masks -/

section Masks

variable {k m n : Nat}

theorem mod_and (hm : m < 2 ^ k) : n % 2 ^ k &&& m = n &&& m := by
  apply Nat.eq_of_testBit_eq
  intro i
  rw [Nat.testBit_and, Nat.testBit_and, Nat.testBit_mod_two_pow]
  by_cases hi : i < k
  · rw [decide_eq_true hi, Bool.true_and]
  · have hout : m < 2 ^ i := lt_of_lt_of_le hm (Nat.pow_le_pow_right Nat.two_pos (not_lt.mp hi))
    rw [Nat.testBit_lt_two_pow hout, Bool.and_false, Bool.and_false]

theorem ldiff_eq (hm : m < 2 ^ k) : Nat.ldiff m n = (2 ^ k - (n % 2 ^ k + 1)) &&& m := by
  apply Nat.eq_of_testBit_eq
  intro i
  rw [Nat.testBit_ldiff, Nat.testBit_and,
    Nat.testBit_two_pow_sub_succ (Nat.mod_lt _ (Nat.two_pow_pos k)), Nat.testBit_mod_two_pow]
  by_cases hi : i < k
  · rw [decide_eq_true hi, Bool.true_and, Bool.true_and, Bool.and_comm]
  · have hout : m < 2 ^ i := lt_of_lt_of_le hm (Nat.pow_le_pow_right Nat.two_pos (not_lt.mp hi))
    rw [Nat.testBit_lt_two_pow hout, Bool.and_false, Bool.false_and]

/-- A mask of `k` bits reads the lower `k` bits of an integer. -/
theorem land_low (vaddr : Int) (hm : m < 2 ^ k) :
    Int.land vaddr m = (((vaddr % 2 ^ k).toNat &&& m : Nat) : Int) := by
  cases vaddr with
  | ofNat n =>
      have hlow : ((Int.ofNat n) % 2 ^ k).toNat = n % 2 ^ k := by
        rw [Int.ofNat_eq_natCast]
        norm_cast
      rw [hlow, mod_and hm]
      rfl
  | negSucc n =>
      have hlow : (Int.negSucc n % 2 ^ k).toNat = 2 ^ k - (n % 2 ^ k + 1) := by
        have hpow : (2 : Int) ^ k = ((2 ^ k : Nat) : Int) := (Nat.cast_pow 2 k).symm
        have hlt := Nat.mod_lt n (Nat.two_pow_pos k)
        rw [Int.negSucc_emod n (by positivity), hpow, ← Int.natCast_emod]
        omega
      rw [hlow, ← ldiff_eq hm]
      rfl

/-- The mask of the page number, and what is left of it. -/
theorem vpn_eq {w : Nat} (hw : w < 2 ^ 32) :
    (w &&& Nat.ldiff (2 ^ 32 - 1) (2 ^ k - 1)) >>> k = w / 2 ^ k := by
  rw [← Nat.shiftRight_eq_div_pow]
  apply Nat.eq_of_testBit_eq
  intro i
  rw [Nat.testBit_shiftRight, Nat.testBit_shiftRight, Nat.testBit_and, Nat.testBit_ldiff,
    Nat.testBit_two_pow_sub_one, Nat.testBit_two_pow_sub_one]
  have hpage : ¬ k + i < k := by omega
  rw [decide_eq_false hpage, Bool.not_false, Bool.and_true]
  by_cases hi : k + i < 32
  · rw [decide_eq_true hi, Bool.and_true]
  · have hout : w < 2 ^ (k + i) :=
      lt_of_lt_of_le hw (Nat.pow_le_pow_right Nat.two_pos (not_lt.mp hi))
    rw [Nat.testBit_lt_two_pow hout, Bool.false_and]

/-- A frame and an offset in it are read off their sum. -/
theorem parts_unique {c u u' r r' : Nat} (hr : r < c) (hr' : r' < c)
    (h : u * c + r = u' * c + r') : u = u' ∧ r = r' := by
  have hpos : 0 < c := Nat.zero_lt_of_lt hr
  have hsum : r + c * u = r' + c * u' := by
    rw [Nat.mul_comm c u, Nat.mul_comm c u', Nat.add_comm r, Nat.add_comm r']
    exact h
  obtain ⟨hdiv, hmod⟩ := (Nat.div_mod_unique hpos).mpr ⟨hsum, hr⟩
  obtain ⟨hdiv', hmod'⟩ := (Nat.div_mod_unique hpos).mpr ⟨rfl, hr'⟩
  exact ⟨hdiv.symm.trans hdiv', hmod.symm.trans hmod'⟩

end Masks

/-! ## Sizes -/

/-- What the program has checked when it accepts the sizes. -/
structure Sized (z : Sizes) : Prop where
  pow : (2 : Int) ^ z.pagebits = z.pagesize
  asize_dvd : z.asize % z.pagesize = 0
  psize_dvd : z.psize % z.pagesize = 0
  asize_pos : 0 < z.asize
  asize_lt : z.asize < z.psize
  psize_lt : z.psize < 2 ^ 30

theorem mustbemultipleof_ok {bignum num : Int} {msg : String}
    (h : mustbemultipleof bignum num msg = .ok ()) : bignum % num = 0 := by
  rw [mustbemultipleof] at h
  split at h
  · cases h
  split at h
  · cases h
  next hdvd => exact not_not.mp hdvd

theorem mustbepowerof2_ok {bits : Nat} {size : Int} {msg : String}
    (h : mustbepowerof2 bits size msg = .ok ()) : (2 : Int) ^ bits = size := by
  rw [mustbepowerof2] at h
  split at h
  · cases h
  next hpow => exact not_not.mp hpow

theorem checkSizes_ok {asize psize : Int} (h : checkSizes asize psize = .ok ()) :
    0 < asize ∧ asize < psize ∧ psize < 2 ^ 30 := by
  rw [checkSizes] at h
  split at h
  · cases h
  split at h
  · cases h
  split at h
  · cases h
  split at h
  · cases h
  omega

theorem setup_sized {int : Text → Option Int} {bits : Int → Nat} {o : Options} {z : Sizes}
    (h : setup int bits o = .ok z) : Sized z := by
  simp only [setup, bind_ok] at h
  obtain ⟨asize, -, psize, -, pagesize, -, ⟨⟩, hsizes, ⟨⟩, hasize, ⟨⟩, hpsize, vabits, -, ⟨⟩, -,
    pagebits, -, ⟨⟩, hpow, hz⟩ := h
  cases hz
  obtain ⟨hpos, hlt, hmax⟩ := checkSizes_ok hsizes
  exact ⟨mustbepowerof2_ok hpow, mustbemultipleof_ok hasize, mustbemultipleof_ok hpsize,
    hpos, hlt, hmax⟩

section Sizes

variable {z : Sizes}

theorem Sized.page_pos (hz : Sized z) : 0 < z.pagesize := by
  rw [← hz.pow]
  positivity

/-- The physical memory is a number of pages. -/
theorem Sized.psize_eq (hz : Sized z) : z.psize = ((z.pages * 2 ^ z.pagebits : Nat) : Int) := by
  have hnonneg : 0 ≤ z.psize / z.pagesize :=
    Int.ediv_nonneg (hz.asize_pos.trans hz.asize_lt).le hz.page_pos.le
  push_cast
  rw [hz.pow, Sizes.pages, Int.toNat_of_nonneg hnonneg,
    Int.ediv_mul_cancel (Int.dvd_of_emod_eq_zero hz.psize_dvd)]

theorem Sized.asize_eq (hz : Sized z) : z.asize = ((z.vpages * 2 ^ z.pagebits : Nat) : Int) := by
  have hnonneg : 0 ≤ z.asize / z.pagesize := Int.ediv_nonneg hz.asize_pos.le hz.page_pos.le
  push_cast
  rw [hz.pow, Sizes.vpages, Int.toNat_of_nonneg hnonneg,
    Int.ediv_mul_cancel (Int.dvd_of_emod_eq_zero hz.asize_dvd)]

/-- A page has less than 2^32 bytes. -/
theorem Sized.pagebits_lt (hz : Sized z) : z.pagebits < 32 := by
  have hle : z.pagesize ≤ z.asize :=
    Int.le_of_dvd hz.asize_pos (Int.dvd_of_emod_eq_zero hz.asize_dvd)
  have hpow : (2 : Int) ^ z.pagebits < 2 ^ 32 := by
    rw [hz.pow]
    have hlt := hz.asize_lt
    have hmax := hz.psize_lt
    omega
  exact (pow_lt_pow_iff_right₀ (by decide)).mp hpow

end Sizes

/-! ## The table -/

/-- The frames in the table are in use, and each stands there once. -/
structure Table.Sound (pages : Nat) (t : Table) : Prop where
  used_length : t.used.length = pages
  frames : ∀ {v : Nat} {pfn : Int}, t.pt[v]? = some pfn →
    pfn = -1 ∨ ∃ u : Nat, pfn = u ∧ t.used[u]? = some true
  once : ∀ {v v' u : Nat}, t.pt[v]? = some (u : Int) → t.pt[v']? = some (u : Int) → v = v'

theorem get_concat {l : List Int} {v : Nat} {x y : Int} (h : (l ++ [x])[v]? = some y) :
    l[v]? = some y ∨ v = l.length ∧ y = x := by
  rcases lt_trichotomy v l.length with hv | rfl | hv
  · rw [List.getElem?_append_left hv] at h
    exact Or.inl h
  · rw [List.getElem?_concat_length] at h
    exact Or.inr ⟨rfl, (Option.some.inj h).symm⟩
  · have hlen : (l ++ [x]).length ≤ v := by
      rw [List.length_append, List.length_singleton]
      exact hv
    rw [List.getElem?_eq_none hlen] at h
    cases h

section Table

variable {pages vpages u : Nat} {t t' : Table}

theorem table_start (pages : Nat) : (Table.start pages).Sound pages where
  used_length := List.length_replicate
  frames h := by cases h
  once h := by cases h

/-- A page that is not valid. -/
theorem Table.Sound.skip (h : t.Sound pages) :
    Table.Sound pages { t with pt := t.pt ++ [-1] } := by
  refine ⟨h.used_length, ?_, ?_⟩
  · intro v pfn hv
    rcases get_concat hv with hold | ⟨-, hnew⟩
    · exact h.frames hold
    · exact Or.inl hnew
  · intro v v' u hv hv'
    rcases get_concat hv with hold | ⟨-, hnew⟩
    · rcases get_concat hv' with hold' | ⟨-, hnew'⟩
      · exact h.once hold hold'
      · omega
    · omega

/-- A page gets a frame that is not in use. -/
theorem Table.Sound.take (h : t.Sound pages) (hfree : t.used[u]? = some false) :
    Table.Sound pages ⟨t.used.set u true, t.pt ++ [(u : Int)], t.ctr + 1⟩ := by
  obtain ⟨hu, -⟩ := List.getElem?_eq_some_iff.mp hfree
  have hset : (t.used.set u true)[u]? = some true := List.getElem?_set_self hu
  -- a frame that stands in the table is in use, so it is not `u`
  have hnew : ∀ {v : Nat}, t.pt[v]? ≠ some (u : Int) := by
    intro v hv
    rcases h.frames hv with hneg | ⟨u', hsame, hused⟩
    · omega
    · rw [← Int.ofNat_inj.mp hsame, hfree] at hused
      cases hused
  refine ⟨by rw [List.length_set]; exact h.used_length, ?_, ?_⟩
  · intro v pfn hv
    rcases get_concat hv with hold | ⟨-, rfl⟩
    · rcases h.frames hold with hneg | ⟨u', hsame, hused⟩
      · exact Or.inl hneg
      · refine Or.inr ⟨u', hsame, ?_⟩
        by_cases heq : u = u'
        · rw [← heq]
          exact hset
        · rw [List.getElem?_set_ne heq]
          exact hused
    · exact Or.inr ⟨u, rfl, hset⟩
  · intro v v' w hv hv'
    rcases get_concat hv with hold | ⟨hlast, hw⟩
    · rcases get_concat hv' with hold' | ⟨-, hw'⟩
      · exact h.once hold hold'
      · rw [hw'] at hold
        exact absurd hold hnew
    · rcases get_concat hv' with hold' | ⟨hlast', -⟩
      · rw [hw] at hold'
        exact absurd hold' hnew
      · rw [hlast, hlast']

/-- **EVERY FRAME ONCE**, and an entry for each page. -/
theorem fill_sound (draws : List (Option Nat)) (h : t.Sound pages)
    (hlen : t.pt.length ≤ vpages) (hfill : fill vpages t draws = .ok t') :
    t'.Sound pages ∧ t'.pt.length = vpages := by
  induction draws generalizing t with
  | nil =>
      rw [fill] at hfill
      split at hfill
      · next hdone =>
          cases hfill
          exact ⟨h, le_antisymm hlen hdone⟩
      · cases hfill
  | cons drawn draws ih =>
      rw [fill.eq_def] at hfill
      dsimp only at hfill
      split at hfill
      · next hdone =>
          cases hfill
          exact ⟨h, le_antisymm hlen hdone⟩
      next hroom =>
      have hnext : ∀ pfn : Int, (t.pt ++ [pfn]).length ≤ vpages := by
        intro pfn
        rw [List.length_append, List.length_singleton]
        omega
      cases drawn with
      | none => exact ih h.skip (hnext _) hfill
      | some u =>
          dsimp only at hfill
          split at hfill
          · cases hfill
          · exact ih h hlen hfill
          · next hfree => exact ih (h.take hfree) (hnext _) hfill

end Table

/-! ## Translating -/

/-- The lower 32 bits of an address. -/
def low (vaddr : Int) : Nat := (vaddr % 2 ^ 32).toNat

theorem low_eq (vaddr : Int) : (low vaddr : Int) = vaddr % 2 ^ 32 :=
  Int.toNat_of_nonneg (Int.emod_nonneg _ (by decide))

theorem low_lt (vaddr : Int) : low vaddr < 2 ^ 32 := by
  have hlt := Int.emod_lt_of_pos vaddr (by decide : (0 : Int) < 2 ^ 32)
  rw [← low_eq] at hlt
  exact_mod_cast hlt

section Translate

variable {z : Sizes} {pt : List Int} {vaddr paddr : Int}

theorem Sizes.pagemask_eq (z : Sizes) : z.pagemask = ((2 ^ z.pagebits - 1 : Nat) : Int) := by
  rw [Sizes.pagemask, Int.shiftLeft_eq, one_mul, Nat.cast_sub Nat.one_le_two_pow]
  push_cast
  rfl

theorem Sizes.vpnmask_eq (z : Sizes) :
    z.vpnmask = ((Nat.ldiff (2 ^ 32 - 1) (2 ^ z.pagebits - 1) : Nat) : Int) := by
  rw [Sizes.vpnmask, z.pagemask_eq]
  rfl

theorem vpnmask_lt (m : Nat) : Nat.ldiff (2 ^ 32 - 1) m < 2 ^ 32 := by
  apply Nat.lt_pow_two_of_testBit
  intro i hi
  rw [Nat.testBit_ldiff, Nat.testBit_two_pow_sub_one, decide_eq_false (not_lt.mpr hi),
    Bool.false_and]

/-- The page number and the offset are those of the lower 32 bits. -/
theorem page_number (z : Sizes) (vaddr : Int) :
    Int.land vaddr z.vpnmask >>> z.pagebits = ((low vaddr / 2 ^ z.pagebits : Nat) : Int) := by
  rw [z.vpnmask_eq, land_low vaddr (vpnmask_lt _), ← vpn_eq (low_lt vaddr)]
  rfl

theorem page_offset (hz : Sized z) (vaddr : Int) :
    Int.land vaddr z.pagemask = ((low vaddr % 2 ^ z.pagebits : Nat) : Int) := by
  have hmask : 2 ^ z.pagebits - 1 < 2 ^ 32 := by
    have hle := Nat.pow_le_pow_right Nat.two_pos hz.pagebits_lt.le
    have hpos := Nat.two_pow_pos z.pagebits
    omega
  rw [z.pagemask_eq, land_low vaddr hmask, Nat.and_two_pow_sub_one_eq_mod]
  rfl

/-- An entry and an offset put together. -/
theorem lor_offset (u : Nat) {k off : Nat} (hoff : off < 2 ^ k) :
    Int.lor ((u : Int) <<< k) (off : Int) = ((u * 2 ^ k + off : Nat) : Int) := by
  rw [← Nat.shiftLeft_eq, Nat.shiftLeft_add_eq_or_of_lt hoff]
  rfl

theorem translate_eq (hz : Sized z) :
    translate z pt vaddr =
      match pt[low vaddr / 2 ^ z.pagebits]? with
      | none => .error .raised
      | some pfn =>
          if pfn < 0 then .ok none
          else .ok (some (Int.lor (pfn <<< z.pagebits)
            ((low vaddr % 2 ^ z.pagebits : Nat) : Int))) := by
  rw [translate, page_number z, page_offset hz, entry,
    if_neg (not_lt.mpr (Int.natCast_nonneg _)), Int.toNat_natCast]

/-- A valid page has its frame in the table. -/
theorem translate_valid (hz : Sized z) :
    translate z pt vaddr = .ok (some paddr) ↔
      ∃ u : Nat, pt[low vaddr / 2 ^ z.pagebits]? = some (u : Int) ∧
        paddr = ((u * 2 ^ z.pagebits + low vaddr % 2 ^ z.pagebits : Nat) : Int) := by
  have hoff := Nat.mod_lt (low vaddr) (Nat.two_pow_pos z.pagebits)
  rw [translate_eq hz]
  constructor
  · intro h
    split at h
    · cases h
    next pfn hpfn =>
    split at h
    · cases h
    next hvalid =>
    obtain ⟨u, rfl⟩ := Int.eq_ofNat_of_zero_le (not_lt.mp hvalid)
    cases h
    exact ⟨u, hpfn, lor_offset u hoff⟩
  · rintro ⟨u, hu, rfl⟩
    rw [hu]
    dsimp only
    rw [if_neg (not_lt.mpr (Int.natCast_nonneg u)), lor_offset u hoff]

/-- An address raises an exception when its lower 32 bits are outside. -/
theorem translate_answers (hz : Sized z) (hlen : pt.length = z.vpages) :
    (∃ answer, translate z pt vaddr = .ok answer) ↔ vaddr % 2 ^ 32 < z.asize := by
  have hpage : low vaddr / 2 ^ z.pagebits < pt.length ↔ vaddr % 2 ^ 32 < z.asize := by
    rw [hlen, Nat.div_lt_iff_lt_mul (Nat.two_pow_pos _), hz.asize_eq, ← low_eq, Int.ofNat_lt]
  rw [translate_eq hz, ← hpage]
  constructor
  · rintro ⟨answer, h⟩
    split at h
    · cases h
    next pfn hpfn => exact (List.getElem?_eq_some_iff.mp hpfn).1
  · intro hlt
    rw [List.getElem?_eq_getElem hlt]
    dsimp only
    split
    · exact ⟨_, rfl⟩
    · exact ⟨_, rfl⟩

end Translate

section Apart

variable {z : Sizes} {t : Table} {vaddr vaddr' paddr : Int}

/-- A translation is a byte of physical memory, at the offset of the address. -/
theorem translate_inside (hz : Sized z) (ht : t.Sound z.pages)
    (h : translate z t.pt vaddr = .ok (some paddr)) :
    0 ≤ paddr ∧ paddr < z.psize ∧ paddr % z.pagesize = vaddr % z.pagesize := by
  obtain ⟨u, hu, rfl⟩ := (translate_valid hz).mp h
  have hoff := Nat.mod_lt (low vaddr) (Nat.two_pow_pos z.pagebits)
  have hframe : u < z.pages := by
    rcases ht.frames hu with hneg | ⟨u', hsame, hused⟩
    · omega
    · obtain ⟨hlt, -⟩ := List.getElem?_eq_some_iff.mp hused
      rw [Int.ofNat_inj.mp hsame, ← ht.used_length]
      exact hlt
  refine ⟨Int.natCast_nonneg _, ?_, ?_⟩
  · rw [hz.psize_eq, Int.ofNat_lt]
    calc u * 2 ^ z.pagebits + low vaddr % 2 ^ z.pagebits
        < u * 2 ^ z.pagebits + 2 ^ z.pagebits := Nat.add_lt_add_left hoff _
      _ = (u + 1) * 2 ^ z.pagebits := (Nat.succ_mul u _).symm
      _ ≤ z.pages * 2 ^ z.pagebits := Nat.mul_le_mul_right _ hframe
  · have hdvd : (2 : Int) ^ z.pagebits ∣ 2 ^ 32 := pow_dvd_pow 2 hz.pagebits_lt.le
    rw [← hz.pow, ← Int.emod_emod_of_dvd vaddr hdvd, ← low_eq]
    push_cast
    rw [add_comm, Int.add_mul_emod_self_right, Int.emod_emod]

/-- Addresses with one translation have the same lower 32 bits. -/
theorem translate_inj (hz : Sized z) (ht : t.Sound z.pages)
    (h : translate z t.pt vaddr = .ok (some paddr))
    (h' : translate z t.pt vaddr' = .ok (some paddr)) : vaddr' % 2 ^ 32 = vaddr % 2 ^ 32 := by
  obtain ⟨u, hu, rfl⟩ := (translate_valid hz).mp h
  obtain ⟨u', hu', hsame⟩ := (translate_valid hz).mp h'
  have hpos := Nat.two_pow_pos z.pagebits
  obtain ⟨rfl, hoff⟩ := parts_unique (Nat.mod_lt (low vaddr) hpos) (Nat.mod_lt (low vaddr') hpos)
    (Int.ofNat_inj.mp hsame)
  have hvpn := ht.once hu hu'
  have hlow : low vaddr = low vaddr' := by
    rw [← Nat.div_add_mod (low vaddr) (2 ^ z.pagebits), hvpn, hoff, Nat.div_add_mod]
  rw [← low_eq, ← low_eq, hlow]

/-- The lower 32 bits decide. -/
theorem translate_congr (hz : Sized z) (h : vaddr' % 2 ^ 32 = vaddr % 2 ^ 32) :
    translate z t.pt vaddr' = translate z t.pt vaddr := by
  have hlow : low vaddr' = low vaddr := congrArg Int.toNat h
  rw [translate_eq hz, translate_eq hz, hlow]

end Apart

/-! ## The trace -/

section Trace

variable {z : Sizes} {pt : List Int}

theorem traceLoop_told (addresses : List (Option Int)) :
    ∀ l ∈ (traceLoop z pt true addresses).1, ∃ answer, l.answer = some answer ∧
      translate z pt l.vaddr = .ok answer := by
  induction addresses with
  | nil =>
      intro l hl
      cases hl
  | cons address addresses ih =>
      intro l hl
      cases address with
      | none => cases hl
      | some vaddr =>
          rw [traceLoop, if_pos rfl] at hl
          split at hl
          · cases hl
          next paddr hpaddr =>
          rcases List.mem_cons.mp hl with rfl | hrest
          · exact ⟨paddr, rfl, hpaddr⟩
          · exact ih l hrest

/-- The trace ends early at the first address that raises an exception. -/
theorem traceLoop_ends (addresses : List (Option Int)) :
    (traceLoop z pt true addresses).2 = none ↔
      ∀ x ∈ addresses, ∃ vaddr, x = some vaddr ∧ ∃ answer, translate z pt vaddr = .ok answer := by
  induction addresses with
  | nil => exact ⟨fun _ x hx => absurd hx List.not_mem_nil, fun _ => rfl⟩
  | cons address addresses ih =>
      rw [List.forall_mem_cons]
      cases address with
      | none =>
          constructor
          · intro h
            cases h
          · rintro ⟨⟨vaddr, hvaddr, -⟩, -⟩
            cases hvaddr
      | some vaddr =>
          rw [traceLoop, if_pos rfl]
          split
          · next e he =>
              constructor
              · intro h
                cases h
              · rintro ⟨⟨vaddr', hvaddr, answer, hanswer⟩, -⟩
                cases hvaddr
                rw [he] at hanswer
                cases hanswer
          · next paddr hpaddr =>
              constructor
              · intro h
                exact ⟨⟨vaddr, rfl, paddr, hpaddr⟩, ih.mp h⟩
              · rintro ⟨-, hrest⟩
                exact ih.mpr hrest

end Trace

/-- **PAGES APART**: with a page table as the program fills it, a trace of
    `-c` reaches its end exactly when the lower 32 bits of every address lie in
    the address space.  A translation is a byte of physical memory at the
    offset of its address, and two addresses share it exactly when their lower
    32 bits are the same.  Without `-c` no address is translated. -/
theorem pages_apart {int : Text → Option Int} {bits : Int → Nat} {o : Options} {z : Sizes}
    {draws : List (Option Nat)} {t : Table} (h : setup int bits o = .ok z)
    (hfill : fill z.vpages (.start z.pages) draws = .ok t) (addresses : List (Option Int)) :
    ((traceLoop z t.pt true addresses).2 = none ↔
      ∀ x ∈ addresses, ∃ vaddr, x = some vaddr ∧ vaddr % 2 ^ 32 < z.asize) ∧
    ∀ l ∈ (traceLoop z t.pt true addresses).1, ∀ paddr, l.answer = some (some paddr) →
      (0 ≤ paddr ∧ paddr < z.psize ∧ paddr % z.pagesize = l.vaddr % z.pagesize) ∧
      ∀ l' ∈ (traceLoop z t.pt true addresses).1,
        l'.answer = some (some paddr) ↔ l'.vaddr % 2 ^ 32 = l.vaddr % 2 ^ 32 := by
  have hz := setup_sized h
  obtain ⟨ht, hlen⟩ := fill_sound draws (table_start z.pages) (Nat.zero_le _) hfill
  refine ⟨?_, ?_⟩
  · rw [traceLoop_ends]
    simp only [translate_answers hz hlen]
  · intro l hl paddr hanswer
    obtain ⟨answer, htold, htranslate⟩ := traceLoop_told addresses l hl
    rw [htold] at hanswer
    rw [Option.some.inj hanswer] at htranslate
    refine ⟨translate_inside hz ht htranslate, fun l' hl' => ?_⟩
    obtain ⟨answer', htold', htranslate'⟩ := traceLoop_told addresses l' hl'
    constructor
    · intro hsame
      rw [htold'] at hsame
      rw [Option.some.inj hsame] at htranslate'
      exact translate_inj hz ht htranslate htranslate'
    · intro hsame
      rw [translate_congr hz hsame, htranslate] at htranslate'
      rw [htold', Except.ok.inj htranslate']

/-- Four pages of four bytes in a memory of eight frames. -/
def smallSizes : Options where
  asize := ['1', '6']
  psize := ['3', '2']
  pagesize := ['4']

/-- The logarithm, exact on powers of 2. -/
def smallBits (size : Int) : Nat := size.toNat.log2

theorem pages_apart_small :
    (traceLoop ⟨16, 32, 4, 2⟩ [3, -1, 0, 7] true [some 5, some 9, some (2 ^ 32 + 9)]).2 = none := by
  have hsetup : setup Segmentation.smallInt smallBits smallSizes = .ok ⟨16, 32, 4, 2⟩ := by decide
  have hfill : fill (Sizes.vpages ⟨16, 32, 4, 2⟩) (.start (Sizes.pages ⟨16, 32, 4, 2⟩))
      [some 3, none, some 3, some 0, some 7] =
        .ok ⟨[true, false, false, true, false, false, false, true], [3, -1, 0, 7], 3⟩ := by rfl
  refine (pages_apart hsetup hfill _).1.mpr ?_
  simp

end PageTable
