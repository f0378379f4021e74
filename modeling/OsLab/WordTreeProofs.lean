import OsLab.BytesProofs

/-! # Trees of words over a store of pages

    A root memory and a store of numbered pages hold 32-bit words, and a
    nonzero word may be the number of a page that holds further words.  A
    `Slot` is the way to a word: its index in the root, or a slot whose word
    is a page number and an index in that page.

    `P` says which slots are in use, and `Owned` that no two of them hold the
    same page number.  Then a word can be changed in one slot without being
    changed in any other (`set_val`), a page that no slot leads through can
    be overwritten (`putPage_val`), and a fresh page with one word in it can
    be entered as a whole (`enter_single`). -/

namespace WordTree

open OsBytes

/-- The way to a word. -/
inductive Slot where
  | root (i : Nat)
  | child (s : Slot) (i : Nat)
  deriving DecidableEq

/-- A root memory and pages. -/
@[ext] structure Store where
  root : Mem
  page : Nat → Mem

/-- The word in a slot: zero when the way to it is cut. -/
def val (m : Store) : Slot → Nat
  | .root i => word m.root i
  | .child s i => if val m s = 0 then 0 else word (m.page (val m s)) i

/-- Overwrite a page. -/
def Store.putPage (m : Store) (a : Nat) (d : Mem) : Store :=
  { m with page := fun x => if x = a then d else m.page x }

/-- Set the word of a slot. -/
def Store.enter (m : Store) (s : Slot) (v : Nat) : Store :=
  match s with
  | .root i => { m with root := setWord m.root i v }
  | .child q i => m.putPage (val m q) (setWord (m.page (val m q)) i v)

/-- `q` leads to the page that holds the word of `s`. -/
def Slot.Parent (s q : Slot) : Prop := ∃ i, s = .child q i

/-- The slots in use are closed under parents. -/
def Closed (P : Slot → Prop) : Prop := ∀ q i, P (.child q i) → P q

/-- No two slots in use have the same nonzero value. -/
def Distinct (P : Slot → Prop) (v : Slot → Nat) : Prop :=
  ∀ s t, P s → P t → v s ≠ 0 → v s = v t → s = t

/-- No two slots in use hold the same page number. -/
def Owned (P : Slot → Prop) (m : Store) : Prop := Distinct P (val m)

/-- No slot in use holds the number. -/
def Unused (P : Slot → Prop) (m : Store) (z : Nat) : Prop := ∀ t, P t → val m t ≠ z

@[simp] theorem val_root (m : Store) (i : Nat) : val m (.root i) = word m.root i := rfl

theorem val_child {m : Store} {s : Slot} (h : val m s ≠ 0) (i : Nat) :
    val m (.child s i) = word (m.page (val m s)) i := if_neg h

theorem val_child_cut {m : Store} {s : Slot} (h : val m s = 0) (i : Nat) :
    val m (.child s i) = 0 := if_pos h

theorem val_lt (m : Store) (s : Slot) : val m s < 4294967296 := by
  cases s with
  | root i => exact word_lt _ _
  | child q i =>
      by_cases h : val m q = 0
      · rw [val_child_cut h]; decide
      · rw [val_child h]; exact word_lt _ _

@[simp] theorem putPage_same (m : Store) (a : Nat) (d : Mem) : (m.putPage a d).page a = d :=
  if_pos rfl

theorem putPage_ne (m : Store) {a x : Nat} (d : Mem) (h : x ≠ a) :
    (m.putPage a d).page x = m.page x := if_neg h

theorem child_ne (s : Slot) (i : Nat) : Slot.child s i ≠ s := by
  induction s generalizing i with
  | root j => exact Slot.noConfusion
  | child q j ih =>
      intro h
      obtain ⟨hq, -⟩ := Slot.child.inj h
      exact ih j hq

theorem enter_root (m : Store) (i v : Nat) :
    m.enter (.root i) v = { m with root := setWord m.root i v } := rfl

theorem enter_child (m : Store) (q : Slot) (i v : Nat) :
    m.enter (.child q i) v = m.putPage (val m q) (setWord (m.page (val m q)) i v) := rfl

section Tree

variable {P : Slot → Prop} {m : Store} {s : Slot} {a z : Nat}

/-- A page that no way leads through can be overwritten. -/
theorem putPage_val (hP : Closed P) {d : Mem} (h : ∀ q i, P (.child q i) → val m q ≠ a) :
    ∀ t, P t → val (m.putPage a d) t = val m t := by
  intro t
  induction t with
  | root i => exact fun _ => rfl
  | child q i ih =>
      intro ht
      have hq := ih (hP q i ht)
      by_cases h0 : val m q = 0
      · rw [val_child_cut h0, val_child_cut (hq.trans h0)]
      · rw [val_child h0, val_child (by rw [hq]; exact h0), hq, putPage_ne m d (h q i ht)]

/-- **SETTING A WORD** changes one slot when nothing hung below it and nothing
    does afterwards. -/
theorem set_val (hP : Closed P) (hown : Owned P m) (hs : P s)
    (hpar : ∀ q, s.Parent q → val m q ≠ 0) (hz32 : z < 4294967296)
    (hbefore : ∀ i, P (.child s i) → val m (.child s i) = 0)
    (hafter : z ≠ 0 → ∀ i, P (.child s i) → word ((m.enter s z).page z) i = 0) :
    ∀ t, P t → val (m.enter s z) t = if t = s then z else val m t := by
  intro t
  induction t with
  | root j =>
      intro _
      cases s with
      | root i =>
          rw [enter_root, val_root, word_setWord hz32, val_root]
          by_cases hj : j = i
          · rw [if_pos hj, if_pos (congrArg Slot.root hj)]
          · rw [if_neg hj, if_neg (fun h => hj (Slot.root.inj h))]
      | child q i => rw [if_neg (by simp)]; rfl
  | child q j ih =>
      intro ht
      have hPq := hP q j ht
      have hq := ih hPq
      by_cases hqs : q = s
      · -- below the slot itself
        subst hqs
        rw [if_pos rfl] at hq
        rw [if_neg (child_ne q j), hbefore j ht]
        by_cases hz0 : z = 0
        · exact val_child_cut (hq.trans hz0) j
        · rw [val_child (by rw [hq]; exact hz0), hq, hafter hz0 j ht]
      · rw [if_neg hqs] at hq
        by_cases hq0 : val m q = 0
        · have hts : Slot.child q j ≠ s := fun h => hpar q ⟨j, h.symm⟩ hq0
          rw [val_child_cut (hq.trans hq0), if_neg hts, val_child_cut hq0]
        · rw [val_child (by rw [hq]; exact hq0), hq, val_child hq0]
          cases s with
          | root i => rw [if_neg (by simp)]; rfl
          | child q' i =>
              rw [enter_child]
              by_cases hpage : val m q = val m q'
              · obtain rfl : q = q' := hown q q' hPq (hP q' i hs) hq0 hpage
                rw [putPage_same, word_setWord hz32]
                by_cases hj : j = i
                · rw [if_pos hj, if_pos (congrArg (Slot.child q) hj)]
                · rw [if_neg hj, if_neg (fun h => hj (Slot.child.inj h).2)]
              · rw [putPage_ne m _ hpage, if_neg]
                intro h
                exact hpage (congrArg (val m) (Slot.child.inj h).1)

/-- **ENTERING A WORD** changes one slot: its own was empty, the new word is
    not in use, and the page it is the number of has nothing in it. -/
theorem enter_val (hP : Closed P) (hown : Owned P m) (hs : P s)
    (hpar : ∀ q, s.Parent q → val m q ≠ 0) (h0 : val m s = 0) (hz : Unused P m z)
    (hz32 : z < 4294967296) (hempty : ∀ i, P (.child s i) → word (m.page z) i = 0) :
    ∀ t, P t → val (m.enter s z) t = if t = s then z else val m t := by
  refine set_val hP hown hs hpar hz32 (fun i _ => val_child_cut h0 i) (fun _ i hi => ?_)
  have hpage : (m.enter s z).page z = m.page z := by
    cases s with
    | root i => rfl
    | child q i => exact putPage_ne m _ (fun h => hz q (hP q i hs) h.symm)
  rw [hpage, hempty i hi]

/-- **CLEARING A WORD** changes one slot when nothing hung below it. -/
theorem clear_val (hP : Closed P) (hown : Owned P m) (hs : P s)
    (hpar : ∀ q, s.Parent q → val m q ≠ 0)
    (hempty : ∀ i, P (.child s i) → val m (.child s i) = 0) :
    ∀ t, P t → val (m.enter s 0) t = if t = s then 0 else val m t :=
  set_val hP hown hs hpar (by decide) hempty (fun h => absurd rfl h)

/-- A value that is not in use is given to one slot. -/
theorem Distinct.set {v : Slot → Nat} (h : Distinct P v) (hz : ∀ t, P t → v t ≠ z) (s : Slot) :
    Distinct P (fun t => if t = s then z else v t) := by
  intro t u ht hu h0 htu
  by_cases hts : t = s
  · by_cases hus : u = s
    · rw [hts, hus]
    · simp only [if_pos hts, if_neg hus] at htu
      exact absurd htu.symm (hz u hu)
  · simp only [if_neg hts] at h0 htu
    by_cases hus : u = s
    · rw [if_pos hus] at htu
      exact absurd htu (hz t ht)
    · rw [if_neg hus] at htu
      exact h t u ht hu h0 htu

theorem Distinct.congr {v v' : Slot → Nat} (h : Distinct P v) (hv : ∀ t, P t → v' t = v t) :
    Distinct P v' := by
  intro t u ht hu h0 htu
  rw [hv t ht] at h0 htu
  rw [hv u hu] at htu
  exact h t u ht hu h0 htu

/-- Entering a word changes only the page the slot is in. -/
theorem enter_page {x : Nat} (h : ∀ q, s.Parent q → x ≠ val m q) :
    (m.enter s z).page x = m.page x := by
  cases s with
  | root i => rfl
  | child q i => exact putPage_ne m _ (h q ⟨i, rfl⟩)

/-- The page of a slot that nothing hangs below is not touched by entering a
    word elsewhere. -/
theorem enter_page_leaf (hP : Closed P) (hown : Owned P m) (hs : P s) {t : Slot} (ht : P t)
    (hleaf : ∀ i, ¬ P (.child t i)) (h0 : val m t ≠ 0) :
    (m.enter s z).page (val m t) = m.page (val m t) := by
  refine enter_page (fun q hq hval => ?_)
  obtain ⟨i, rfl⟩ := hq
  obtain rfl : t = q := hown t q ht (hP q i hs) h0 hval
  exact hleaf i hs

/-- A fresh page can be filled before or after it is entered. -/
theorem enter_putPage (hP : Closed P) (hs : P s) (ha : Unused P m a) (d : Mem) :
    (m.enter s a).putPage a d = (m.putPage a d).enter s a := by
  cases s with
  | root i => rfl
  | child q i =>
      have hne : val m q ≠ a := ha q (hP q i hs)
      have hq : val (m.putPage a d) q = val m q :=
        putPage_val hP (fun t j ht => ha t (hP t j ht)) q (hP q i hs)
      rw [enter_child, enter_child, hq, putPage_ne m d hne]
      refine Store.ext rfl (funext fun x => ?_)
      by_cases hx : x = a
      · rw [hx, putPage_same, putPage_ne _ _ (Ne.symm hne), putPage_same]
      · rw [putPage_ne _ _ hx]
        by_cases hxq : x = val m q
        · rw [hxq, putPage_same, putPage_same]
        · rw [putPage_ne _ _ hxq, putPage_ne _ _ hxq, putPage_ne _ _ hx]

@[simp] theorem putPage_putPage (m : Store) (a : Nat) (c d : Mem) :
    (m.putPage a c).putPage a d = m.putPage a d := by
  refine Store.ext rfl (funext fun x => ?_)
  by_cases hx : x = a
  · rw [hx, putPage_same, putPage_same]
  · rw [putPage_ne _ _ hx, putPage_ne _ _ hx, putPage_ne _ _ hx]

/-- **ENTERING AN EMPTY PAGE.** -/
theorem enter_empty (hP : Closed P) (hown : Owned P m) (hs : P s)
    (hpar : ∀ q, s.Parent q → val m q ≠ 0) (h0 : val m s = 0) (ha : Unused P m a)
    (ha32 : a < 4294967296) (t : Slot) (ht : P t) :
    val ((m.enter s a).putPage a (fun _ => 0)) t = if t = s then a else val m t := by
  have hput := putPage_val (d := fun _ => 0) hP (fun q i hq => ha q (hP q i hq))
  have hown' : Owned P (m.putPage a (fun _ => 0)) := Distinct.congr hown hput
  have hzero : ∀ i, word ((m.putPage a (fun _ => 0)).page a) i = 0 := by
    intro i
    rw [putPage_same, word_eq_zero]
    exact fun _ _ => rfl
  rw [enter_putPage hP hs ha, enter_val hP hown' hs ?_ ((hput s hs).trans h0) ?_ ha32
    (fun i _ => hzero i) t ht, hput t ht]
  · intro q hq
    obtain ⟨i, rfl⟩ := hq
    rw [hput q (hP q i hs)]
    exact hpar q ⟨i, rfl⟩
  · intro u hu
    rw [hput u hu]
    exact ha u hu

/-- **ENTERING A PAGE WITH ONE WORD IN IT.** -/
theorem enter_single (hP : Closed P) (hown : Owned P m) {ex : Nat} (hs : P (.child s ex))
    (hpar : ∀ q, s.Parent q → val m q ≠ 0) (h0 : val m s = 0) (ha : Unused P m a) (ha0 : a ≠ 0)
    (ha32 : a < 4294967296) (hz : Unused P m z) (hz32 : z < 4294967296)
    (haz : a ≠ z) (hleaf : ∀ i, ¬ P (.child (.child s ex) i)) (t : Slot) (ht : P t) :
    val ((m.enter s a).putPage a (setWord (fun _ => 0) ex z)) t =
      if t = .child s ex then z else if t = s then a else val m t := by
  have hPs := hP s ex hs
  obtain ⟨m', hm'⟩ : ∃ m', m' = (m.enter s a).putPage a (fun _ => 0) := ⟨_, rfl⟩
  have hval : ∀ u, P u → val m' u = if u = s then a else val m u := by
    rw [hm']
    exact enter_empty hP hown hPs hpar h0 ha ha32
  have hval_s : val m' s = a := (hval s hPs).trans (if_pos rfl)
  -- the word goes to the page that was just entered
  have heq : (m.enter s a).putPage a (setWord (fun _ => 0) ex z) = m'.enter (.child s ex) z := by
    rw [enter_child, hval_s, hm', putPage_same, putPage_putPage]
  have hown' : Owned P m' := (Distinct.set hown ha s).congr hval
  have hcut : val m' (.child s ex) = 0 := by
    rw [hval _ hs, if_neg (child_ne s ex), val_child_cut h0]
  have hfree : Unused P m' z := by
    intro u hu
    rw [hval u hu]
    by_cases hus : u = s
    · rw [if_pos hus]; exact haz
    · rw [if_neg hus]; exact hz u hu
  rw [heq, enter_val hP hown' hs ?_ hcut hfree hz32 (fun i hi => absurd hi (hleaf i)) t ht,
    hval t ht]
  intro q hq
  obtain ⟨i, hi⟩ := hq
  obtain ⟨rfl, -⟩ := Slot.child.inj hi
  rw [hval_s]
  exact ha0

end Tree

end WordTree
