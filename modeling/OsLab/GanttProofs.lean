import Mathlib

/-! # Charts of machines that serve one piece of work at a time

    A bar says that a machine serves its owner for a number of consecutive
    units of time.  In an orderly chart a bar starts only after every
    earlier bar of the same machine, and of the same owner, has ended.

    * Appending a bar that starts late enough keeps a chart orderly
      (`Orderly.append`).
    * At any time at most one bar of a machine is under way, and at most one
      of an owner (`Orderly.unique`).
    * The bars of an owner split into those that have ended and, last, the
      one under way (`Orderly.split`).
    * The last bar of an owner ends after the others, and not before their
      lengths have passed (`Orderly.finish_le`, `busy_le`). -/

namespace OsGantt

variable {δ π : Type}

/-- `machine` serves `owner` for `length` units from `start` on. -/
structure Bar (δ π : Type) where
  machine : δ
  owner : π
  start : Int
  length : Int
  deriving DecidableEq, Repr

/-- The first unit after the bar. -/
def Bar.finish (b : Bar δ π) : Int := b.start + b.length

/-- The bar is under way in the unit `t`. -/
def Bar.Covers (b : Bar δ π) (t : Int) : Prop := b.start ≤ t ∧ t < b.finish

/-- `b` leaves room for `a` where they share a machine or an owner. -/
def After (a b : Bar δ π) : Prop :=
  a.machine = b.machine ∨ a.owner = b.owner → a.finish ≤ b.start

/-- Every bar starts after the earlier ones of its machine and its owner. -/
def Orderly (chart : List (Bar δ π)) : Prop := chart.Pairwise After

/-- A bar that starts late enough can be appended. -/
theorem Orderly.append {chart : List (Bar δ π)} {b : Bar δ π} (h : Orderly chart)
    (hb : ∀ a ∈ chart, After a b) : Orderly (chart ++ [b]) := by
  refine List.pairwise_append.mpr ⟨h, List.pairwise_singleton _ _, fun a ha c hc => ?_⟩
  rw [List.mem_singleton.mp hc]
  exact hb a ha

/-- Two bars under way at once share neither machine nor owner. -/
theorem Orderly.unique {chart : List (Bar δ π)} (h : Orderly chart) {a b : Bar δ π}
    (ha : a ∈ chart) (hb : b ∈ chart) {t : Int} (hat : a.Covers t) (hbt : b.Covers t)
    (hab : a.machine = b.machine ∨ a.owner = b.owner) : a = b := by
  induction h with
  | nil => exact nomatch ha
  | cons hall _ ih =>
      rcases List.mem_cons.mp ha with rfl | ha' <;> rcases List.mem_cons.mp hb with rfl | hb'
      · rfl
      · have := hall b hb' hab
        exact absurd (lt_of_lt_of_le hat.2 (le_trans this hbt.1)) (lt_irrefl t)
      · have := hall a ha' (hab.imp Eq.symm Eq.symm)
        exact absurd (lt_of_lt_of_le hbt.2 (le_trans this hat.1)) (lt_irrefl t)
      · exact ih ha' hb'

/-- In a sequence of bars that have all started, only the last can go on. -/
theorem split_ended {l : List (Bar δ π)} {t : Int} (h : l.Pairwise (fun a b => a.finish ≤ b.start))
    (hs : ∀ b ∈ l, b.start < t) :
    l = l.filter (fun b => b.finish ≤ t) ++ l.filter (fun b => t < b.finish) ∧
      (l.filter (fun b => t < b.finish)).length ≤ 1 := by
  induction h with
  | nil => exact ⟨rfl, Nat.zero_le _⟩
  | @cons a rest hall _ ih =>
      by_cases ha : a.finish ≤ t
      · obtain ⟨hsplit, hone⟩ := ih (fun b hb => hs b (List.mem_cons_of_mem a hb))
        rw [List.filter_cons_of_pos (by simpa using ha),
          List.filter_cons_of_neg (by simpa using ha)]
        exact ⟨congrArg (a :: ·) hsplit, hone⟩
      · -- nothing can have started since
        have hnil : rest = [] := by
          refine List.eq_nil_iff_forall_not_mem.mpr (fun b hb => ?_)
          exact ha (le_trans (hall b hb) (le_of_lt (hs b (List.mem_cons_of_mem a hb))))
        rw [hnil, List.filter_cons_of_neg (by simpa using ha),
          List.filter_cons_of_pos (by simpa using ha)]
        exact ⟨rfl, Nat.le_refl _⟩

/-- A sequence of bars takes the time that its lengths add up to. -/
theorem busy_le {l : List (Bar δ π)} (h : l.Pairwise (fun a b => a.finish ≤ b.start)) {b : Bar δ π}
    (hlast : l.getLast? = some b) : ∀ {t : Int}, (∀ a ∈ l, t ≤ a.start) →
      (l.map Bar.length).sum ≤ b.finish - t := by
  induction h with
  | nil => exact nomatch hlast
  | @cons a rest hall _ ih =>
      intro t ht
      have hta := ht a List.mem_cons_self
      have hfin : a.finish = a.start + a.length := rfl
      rw [List.map_cons, List.sum_cons]
      cases rest with
      | nil =>
          obtain rfl : a = b := Option.some.inj hlast
          rw [List.map_nil, List.sum_nil]
          omega
      | cons c rest =>
          have := ih (by rw [← hlast, List.getLast?_cons_cons]) hall
          omega

variable [DecidableEq π]

/-- The bars of an owner. -/
def bars (chart : List (Bar δ π)) (p : π) : List (Bar δ π) := chart.filter (fun b => b.owner = p)

/-- Those that have ended by `t`. -/
def ended (chart : List (Bar δ π)) (p : π) (t : Int) : List (Bar δ π) :=
  (bars chart p).filter (fun b => b.finish ≤ t)

/-- Those that have not. -/
def underWay (chart : List (Bar δ π)) (p : π) (t : Int) : List (Bar δ π) :=
  (bars chart p).filter (fun b => t < b.finish)

theorem bars_append (chart more : List (Bar δ π)) (p : π) :
    bars (chart ++ more) p = bars chart p ++ bars more p := List.filter_append _ _

theorem mem_bars {chart : List (Bar δ π)} {p : π} {b : Bar δ π} :
    b ∈ bars chart p ↔ b ∈ chart ∧ b.owner = p := by
  rw [bars, List.mem_filter, decide_eq_true_eq]

/-- The bars of an owner follow each other. -/
theorem Orderly.follow {chart : List (Bar δ π)} (h : Orderly chart) (p : π) :
    (bars chart p).Pairwise (fun a b => a.finish ≤ b.start) := by
  refine List.Pairwise.imp_of_mem ?_ (List.Pairwise.filter _ h)
  intro a b ha hb hab
  exact hab (Or.inr ((mem_bars.mp ha).2.trans (mem_bars.mp hb).2.symm))

/-- **WHAT HAS ENDED COMES FIRST**: when every bar has started before `t`, the
    bars of an owner are those that have ended and then those that have not,
    of which there is at most one. -/
theorem Orderly.split {chart : List (Bar δ π)} (h : Orderly chart) {t : Int} (p : π)
    (hstart : ∀ b ∈ chart, b.start < t) :
    bars chart p = ended chart p t ++ underWay chart p t ∧ (underWay chart p t).length ≤ 1 :=
  split_ended (h.follow p) (fun b hb => hstart b (mem_bars.mp hb).1)

/-- The last bar of an owner ends last. -/
theorem Orderly.finish_le {chart : List (Bar δ π)} (h : Orderly chart)
    (hlen : ∀ b ∈ chart, 0 ≤ b.length) {p : π} {a b : Bar δ π}
    (hlast : (bars chart p).getLast? = some b) (ha : a ∈ bars chart p) :
    a.finish ≤ b.finish := by
  obtain ⟨front, hfront⟩ := List.getLast?_eq_some_iff.mp hlast
  have hpair := h.follow p
  have hb : b ∈ bars chart p := List.mem_of_getLast? hlast
  rw [hfront] at hpair ha
  rcases List.mem_append.mp ha with ha' | ha'
  · have hab := (List.pairwise_append.mp hpair).2.2 a ha' b (List.mem_singleton_self b)
    have hpos := hlen b (mem_bars.mp hb).1
    have hfin : b.finish = b.start + b.length := rfl
    omega
  · rw [List.mem_singleton.mp ha']

end OsGantt
