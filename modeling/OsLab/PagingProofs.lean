import Mathlib

/-! # Demand paging

    Page replacement over pages of any type.  `Serve` is what any policy may
    do at a request: nothing when the page is resident, and otherwise load
    it and drop what it likes, with at most `k` pages resident.  `lruStep`
    and `fifoStep` are two policies with their fault counters: the pages
    that LRU keeps resident are the first `k` of a recency list that does
    not depend on `k`.

    The comparison of policies cuts the requests into phases of at most `k`
    distinct pages (`Phase`).  Within a phase LRU and FIFO fault at most once
    for each distinct page (`lru_phase`, `fifo_phase`), and every policy
    faults at least once for each phase (`serve_phase`). -/

namespace OsPaging

variable {α : Type}

/-- A load takes a page off the front of a full queue, so what was loaded
    last stays. -/
theorem fifo_load {k : Nat} {r : α} {q old new : List α} (hnodup : q.Nodup) (hlength : q.length ≤ k)
    (hr : r ∉ q) (hq : q = old ++ new) (hnew : new.length < k) :
    ((if q.length = k then q.tail else q) ++ [r]).Nodup ∧
      ((if q.length = k then q.tail else q) ++ [r]).length ≤ k ∧
      ∃ old', (if q.length = k then q.tail else q) ++ [r] = old' ++ (new ++ [r]) := by
  have hadd : ∀ l : List α, l.Nodup → r ∉ l → (l ++ [r]).Nodup := fun l hl hrl =>
    List.Nodup.append hl (List.nodup_singleton r) (List.disjoint_singleton.mpr hrl)
  by_cases hfull : q.length = k
  · rw [if_pos hfull]
    obtain ⟨a, old', rfl⟩ : ∃ a old', old = a :: old' := by
      cases old with
      | nil => rw [hq, List.nil_append] at hfull; omega
      | cons a old' => exact ⟨a, old', rfl⟩
    refine ⟨hadd _ hnodup.tail (fun hm => hr (List.mem_of_mem_tail hm)), ?_, old', ?_⟩
    · rw [List.length_append, List.length_tail, List.length_singleton]
      omega
    · rw [hq, List.cons_append, List.tail_cons, List.append_assoc]
  · rw [if_neg hfull]
    refine ⟨hadd _ hnodup hr, ?_, old, ?_⟩
    · rw [List.length_append, List.length_singleton]
      omega
    · rw [hq, List.append_assoc]

variable [DecidableEq α]

/-- The recency list after a request, the most recent page first. -/
def moveToFront (l : List α) (r : α) : List α := r :: l.erase r

/-- Least recently used, with `k` frames: the recency list and the faults. -/
def lruStep (k : Nat) (c : List α × Nat) (r : α) : List α × Nat :=
  (moveToFront c.1 r, if r ∈ c.1.take k then c.2 else c.2 + 1)

/-- First in first out, with `k` frames: the queue and the faults. -/
def fifoStep (k : Nat) (c : List α × Nat) (r : α) : List α × Nat :=
  if r ∈ c.1 then c else ((if c.1.length = k then c.1.tail else c.1) ++ [r], c.2 + 1)

/-- Any policy with `k` frames: the resident pages and the faults. -/
inductive Serve (k : Nat) : Finset α × Nat → α → Finset α × Nat → Prop
  | hit {R : Finset α} {n : Nat} {r : α} (h : r ∈ R) : Serve k (R, n) r (R, n)
  | load {R R' : Finset α} {n : Nat} {r : α} (h : r ∉ R) (hr : r ∈ R') (hsub : R' ⊆ insert r R)
      (hcard : R'.card ≤ k) : Serve k (R, n) r (R', n + 1)

/-! ## The recency list -/

section Recency

variable {l : List α} {r p : α} {j k : Nat}

theorem mem_moveToFront : p ∈ moveToFront l r ↔ p = r ∨ p ∈ l := by
  rw [moveToFront, List.mem_cons]
  by_cases hp : p = r
  · simp only [hp, true_or]
  · rw [List.mem_erase_of_ne hp]

theorem nodup_moveToFront (h : l.Nodup) : (moveToFront l r).Nodup :=
  List.nodup_cons.mpr ⟨h.not_mem_erase, h.erase r⟩

/-- Erasing a page that is further back leaves the front alone. -/
theorem take_erase_of_not_mem (h : r ∉ l.take j) : (l.erase r).take j = l.take j := by
  induction l generalizing j with
  | nil => rfl
  | cons a l ih =>
      cases j with
      | zero => rfl
      | succ j =>
          rw [List.take_succ_cons, List.mem_cons, not_or] at h
          rw [List.erase_cons_tail (by simpa using fun he : a = r => h.1 he.symm),
            List.take_succ_cons, List.take_succ_cons, ih h.2]

/-- Erasing a page of the front pulls the next one in. -/
theorem take_erase_of_mem (h : r ∈ l.take (j + 1)) :
    (l.erase r).take j = (l.take (j + 1)).erase r := by
  induction l generalizing j with
  | nil => exact nomatch h
  | cons a l ih =>
      rw [List.take_succ_cons] at h ⊢
      by_cases ha : a = r
      · rw [ha, List.erase_cons_head, List.erase_cons_head]
      · have hl : r ∈ l.take j := (List.mem_cons.mp h).resolve_left (fun he => ha he.symm)
        rw [List.erase_cons_tail (by simpa using ha), List.erase_cons_tail (by simpa using ha)]
        cases j with
        | zero => rw [List.take_zero] at hl; exact nomatch hl
        | succ j => rw [List.take_succ_cons, ih hl]

/-- The front after a request for one of its pages. -/
theorem take_moveToFront_of_mem (h : r ∈ l.take (j + 1)) :
    (moveToFront l r).take (j + 1) = moveToFront (l.take (j + 1)) r := by
  rw [moveToFront, moveToFront, List.take_succ_cons, take_erase_of_mem h]

/-- The front after a request for a page that is not in it. -/
theorem take_moveToFront_of_not_mem (h : r ∉ l.take j) :
    (moveToFront l r).take (j + 1) = r :: l.take j := by
  rw [moveToFront, List.take_succ_cons, take_erase_of_not_mem h]

end Recency

/-! ## Phases -/

/-- The distinct pages of the current phase, and the phases before it. -/
structure Phase (α : Type) where
  seen : Finset α
  past : Nat

/-- A phase ends before a page that would be one too many. -/
def Phase.step (k : Nat) (ph : Phase α) (r : α) : Phase α :=
  if r ∈ ph.seen then ph
  else if ph.seen.card < k then { ph with seen := insert r ph.seen }
  else { seen := {r}, past := ph.past + 1 }

/-- The three things that can happen to the phase. -/
theorem Phase.step_cases (k : Nat) (ph : Phase α) (r : α) :
    (r ∈ ph.seen ∧ ph.step k r = ph) ∨
    (r ∉ ph.seen ∧ ph.seen.card < k ∧ ph.step k r = { ph with seen := insert r ph.seen }) ∨
    (r ∉ ph.seen ∧ k ≤ ph.seen.card ∧ ph.step k r = { seen := {r}, past := ph.past + 1 }) := by
  by_cases hr : r ∈ ph.seen
  · exact Or.inl ⟨hr, if_pos hr⟩
  · by_cases hk : ph.seen.card < k
    · exact Or.inr (Or.inl ⟨hr, hk, by rw [Phase.step, if_neg hr, if_pos hk]⟩)
    · exact Or.inr (Or.inr ⟨hr, not_lt.mp hk, by rw [Phase.step, if_neg hr, if_neg hk]⟩)

/-- What every policy has paid: nothing at the start, then a fault for each
    phase, and one more unless the pages of the phase are resident. -/
def Paid (k : Nat) (ph : Phase α) (c : Finset α × Nat) : Prop :=
  c.1.card ≤ k ∧
    ((ph.seen = ∅ ∧ ph.past = 0 ∧ c.1 = ∅) ∨
     (ph.past + 1 ≤ c.2 ∧ (ph.past + 2 ≤ c.2 ∨ ph.seen ⊆ c.1)))

/-- What LRU has paid: at most `k` faults for each past phase, and one for
    each page of this phase, which are the first of the recency list. -/
structure LruPaid (k : Nat) (ph : Phase α) (c : List α × Nat) : Prop where
  front : ph.seen = (c.1.take ph.seen.card).toFinset
  few : ph.seen.card ≤ k
  faults : c.2 ≤ k * ph.past + ph.seen.card

/-- What FIFO has paid: at most `k` faults for each past phase, and one for
    each page loaded in this phase, which are the last of the queue. -/
structure FifoPaid (k : Nat) (ph : Phase α) (c : List α × Nat) : Prop where
  nodup : c.1.Nodup
  length : c.1.length ≤ k
  few : ph.seen.card ≤ k
  loaded : ∃ old new, c.1 = old ++ new ∧ (∀ p ∈ new, p ∈ ph.seen) ∧
    c.2 ≤ k * ph.past + new.length

section Phases

variable {k : Nat} {ph : Phase α} {r : α}

/-- **EVERY POLICY PAYS FOR EVERY PHASE.** -/
theorem serve_phase (hk : 1 ≤ k) {c c' : Finset α × Nat} (h : Paid k ph c)
    (hs : Serve k c r c') : Paid k (ph.step k r) c' := by
  obtain ⟨hcard, hpaid⟩ := h
  have hcard' : c'.1.card ≤ k := by
    cases hs with
    | hit _ => exact hcard
    | load _ _ _ hc => exact hc
  refine ⟨hcard', Or.inr ?_⟩
  rcases hpaid with ⟨hseen, hpast, hempty⟩ | ⟨hone, htwo⟩
  · -- the very first request
    have hstep : ph.step k r = { seen := {r}, past := 0 } := by
      rw [Phase.step, hseen, if_neg (Finset.notMem_empty r), if_pos (Finset.card_empty ▸ hk), hpast]
      rfl
    rw [hstep]
    cases hs with
    | hit hr =>
        simp only at hempty
        rw [hempty] at hr
        exact absurd hr (Finset.notMem_empty r)
    | load _ hr _ _ =>
        exact ⟨Nat.succ_le_succ (Nat.zero_le _), Or.inr (Finset.singleton_subset_iff.mpr hr)⟩
  · rcases Phase.step_cases k ph r with ⟨hr, heq⟩ | ⟨hr, hlt, heq⟩ | ⟨hr, hge, heq⟩
    · rw [heq]
      cases hs with
      | hit _ => exact ⟨hone, htwo⟩
      | load _ _ _ _ => exact ⟨Nat.le_succ_of_le hone, Or.inl (Nat.succ_le_succ hone)⟩
    · rw [heq]
      cases hs with
      | hit hR => exact ⟨hone, htwo.imp id (fun hsub => Finset.insert_subset hR hsub)⟩
      | load _ _ _ _ => exact ⟨Nat.le_succ_of_le hone, Or.inl (Nat.succ_le_succ hone)⟩
    · -- the phase was full, so its pages leave no room for the new one
      rw [heq]
      have hfault : ph.past + 2 ≤ c'.2 ∧ r ∈ c'.1 := by
        cases hs with
        | hit hR =>
            refine ⟨htwo.resolve_right (fun hsub => hr ?_), hR⟩
            rw [Finset.eq_of_subset_of_card_le hsub (le_trans hcard hge)]
            exact hR
        | load _ hR _ _ => exact ⟨Nat.succ_le_succ hone, hR⟩
      exact ⟨hfault.1, Or.inr (Finset.singleton_subset_iff.mpr hfault.2)⟩

/-- A step of LRU costs at most one fault. -/
theorem lruStep_faults (k : Nat) (c : List α × Nat) (r : α) : (lruStep k c r).2 ≤ c.2 + 1 := by
  show (if r ∈ c.1.take k then c.2 else c.2 + 1) ≤ c.2 + 1
  split <;> omega

/-- **LRU PAYS ONCE FOR EACH PAGE** of a phase. -/
theorem lru_phase {c : List α × Nat} (hk : 1 ≤ k) (h : LruPaid k ph c) :
    LruPaid k (ph.step k r) (lruStep k c r) := by
  obtain ⟨hfront, hfew, hfaults⟩ := h
  have hone := lruStep_faults k c r
  rcases Phase.step_cases k ph r with ⟨hr, heq⟩ | ⟨hr, hlt, heq⟩ | ⟨hr, hge, heq⟩
  · rw [heq]
    -- a page of the phase only moves within the front
    have hmem : r ∈ c.1.take ph.seen.card := List.mem_toFinset.mp (hfront ▸ hr)
    obtain ⟨j, hj⟩ : ∃ j, ph.seen.card = j + 1 :=
      Nat.exists_eq_succ_of_ne_zero (Finset.card_ne_zero_of_mem hr)
    refine ⟨?_, hfew, ?_⟩
    · show ph.seen = ((moveToFront c.1 r).take ph.seen.card).toFinset
      rw [hj] at hmem ⊢
      rw [take_moveToFront_of_mem hmem]
      ext p
      rw [List.mem_toFinset, mem_moveToFront, hfront, hj, List.mem_toFinset]
      exact ⟨Or.inr, fun hp => hp.elim (fun he => he ▸ hmem) id⟩
    · have hres : r ∈ c.1.take k := (List.take_subset_take_left c.1 hfew) hmem
      show (if r ∈ c.1.take k then c.2 else c.2 + 1) ≤ _
      rw [if_pos hres]
      exact hfaults
  -- a new page of the phase makes the front one longer
  · have hmem : r ∉ c.1.take ph.seen.card := fun hm => hr (hfront ▸ List.mem_toFinset.mpr hm)
    have hcard : (insert r ph.seen).card = ph.seen.card + 1 := Finset.card_insert_of_notMem hr
    rw [heq]
    refine ⟨?_, ?_, ?_⟩
    · show insert r ph.seen = ((moveToFront c.1 r).take (insert r ph.seen).card).toFinset
      rw [hcard, take_moveToFront_of_not_mem hmem, List.toFinset_cons, ← hfront]
    · show (insert r ph.seen).card ≤ k
      omega
    · show _ ≤ k * ph.past + (insert r ph.seen).card
      omega
  · rw [heq]
    refine ⟨?_, ?_, ?_⟩
    · show {r} = ((moveToFront c.1 r).take ({r} : Finset α).card).toFinset
      rw [Finset.card_singleton, take_moveToFront_of_not_mem (by simp)]
      rfl
    · exact (Finset.card_singleton r).symm ▸ hk
    · show _ ≤ k * (ph.past + 1) + ({r} : Finset α).card
      rw [Finset.card_singleton, Nat.mul_succ]
      omega

/-- Pages of the phase, each once, are at most as many. -/
theorem length_le_seen {l : List α} (hl : l.Nodup) (hsub : ∀ p ∈ l, p ∈ ph.seen) :
    l.length ≤ ph.seen.card := by
  rw [← List.toFinset_card_of_nodup hl]
  exact Finset.card_le_card (fun p hp => hsub p (List.mem_toFinset.mp hp))

/-- **FIFO PAYS ONCE FOR EACH PAGE** of a phase. -/
theorem fifo_phase {c : List α × Nat} (hk : 1 ≤ k) (h : FifoPaid k ph c) :
    FifoPaid k (ph.step k r) (fifoStep k c r) := by
  obtain ⟨hnodup, hlength, hfew, old, new, hq, hnew, hfaults⟩ := h
  have hnewnodup : new.Nodup := (List.nodup_append.mp (hq ▸ hnodup)).2.1
  have hlen := length_le_seen hnewnodup hnew
  by_cases hres : r ∈ c.1
  · rw [fifoStep, if_pos hres]
    rcases Phase.step_cases k ph r with ⟨hr, heq⟩ | ⟨hr, hlt, heq⟩ | ⟨hr, hge, heq⟩
    · rw [heq]
      exact ⟨hnodup, hlength, hfew, old, new, hq, hnew, hfaults⟩
    · rw [heq]
      refine ⟨hnodup, hlength, ?_, old, new, hq, fun p hp => ?_, hfaults⟩
      · exact (Finset.card_insert_of_notMem hr).le.trans hlt
      · exact Finset.mem_insert_of_mem (hnew p hp)
    · rw [heq]
      refine ⟨hnodup, hlength, ?_, c.1, [], (List.append_nil _).symm,
        fun p hp => (nomatch hp), ?_⟩
      · exact (Finset.card_singleton r).le.trans hk
      · show c.2 ≤ k * (ph.past + 1) + 0
        rw [Nat.mul_succ]
        omega
  · rw [fifoStep, if_neg hres]
    have hrnew : r ∉ new := fun hm => hres (hq ▸ List.mem_append_right old hm)
    have hsnoc : ∀ {seen : Finset α}, (∀ p ∈ new, p ∈ seen) → r ∈ seen →
        ∀ p ∈ new ++ [r], p ∈ seen := by
      intro seen hsub hr p hp
      rcases List.mem_append.mp hp with hp' | hp'
      · exact hsub p hp'
      · exact List.mem_singleton.mp hp' ▸ hr
    have hpay : c.2 + 1 ≤ k * ph.past + (new ++ [r]).length := by
      rw [List.length_append, List.length_singleton]
      omega
    rcases Phase.step_cases k ph r with ⟨hr, heq⟩ | ⟨hr, hlt, heq⟩ | ⟨hr, hge, heq⟩
    · -- the page was already seen, but it is none of those loaded since
      have hmore := length_le_seen
        (List.Nodup.append hnewnodup (List.nodup_singleton r) (List.disjoint_singleton.mpr hrnew))
        (hsnoc hnew hr)
      rw [List.length_append, List.length_singleton] at hmore
      obtain ⟨h1, h2, old', h3⟩ := fifo_load hnodup hlength hres hq (by omega)
      rw [heq]
      exact ⟨h1, h2, hfew, old', new ++ [r], h3, hsnoc hnew hr, hpay⟩
    · obtain ⟨h1, h2, old', h3⟩ := fifo_load hnodup hlength hres hq (by omega)
      rw [heq]
      refine ⟨h1, h2, ?_, old', new ++ [r], h3, ?_, hpay⟩
      · exact (Finset.card_insert_of_notMem hr).le.trans hlt
      · exact hsnoc (fun p hp => Finset.mem_insert_of_mem (hnew p hp)) (Finset.mem_insert_self _ _)
    · obtain ⟨h1, h2, old', h3⟩ := fifo_load hnodup hlength hres (List.append_nil c.1).symm hk
      rw [heq]
      refine ⟨h1, h2, ?_, old', [r], h3, ?_, ?_⟩
      · exact (Finset.card_singleton r).le.trans hk
      · exact fun p hp => Finset.mem_singleton.mpr (List.mem_singleton.mp hp)
      · show c.2 + 1 ≤ k * (ph.past + 1) + 1
        rw [Nat.mul_succ]
        omega

/-- The pages FIFO loaded in a phase are among those of the phase. -/
theorem FifoPaid.faults {c : List α × Nat} (h : FifoPaid k ph c) :
    c.2 ≤ k * ph.past + ph.seen.card := by
  obtain ⟨old, new, hq, hnew, hfaults⟩ := h.loaded
  have hlen := length_le_seen (List.nodup_append.mp (hq ▸ h.nodup)).2.1 hnew
  omega

omit [DecidableEq α] in
/-- What is paid once a page and a phase is at most `k` times what every
    policy has paid. -/
theorem competitive {n : Nat} {d : Finset α × Nat} (hn : n ≤ k * ph.past + ph.seen.card)
    (hfew : ph.seen.card ≤ k) (hd : Paid k ph d) : n ≤ k * d.2 := by
  rcases hd.2 with ⟨hseen, hpast, -⟩ | ⟨hone, -⟩
  · rw [hseen, hpast, Finset.card_empty, Nat.mul_zero] at hn
    exact le_trans hn (Nat.zero_le _)
  · calc n ≤ k * ph.past + ph.seen.card := hn
      _ ≤ k * ph.past + k := Nat.add_le_add_left hfew _
      _ = k * (ph.past + 1) := (Nat.mul_succ k ph.past).symm
      _ ≤ k * d.2 := Nat.mul_le_mul_left k hone

/-- Nothing has been requested, and nothing paid. -/
def Phase.first : Phase α := { seen := ∅, past := 0 }

omit [DecidableEq α] in
theorem paid_first : Paid k (Phase.first : Phase α) (∅, 0) :=
  ⟨Nat.zero_le k, Or.inl ⟨rfl, rfl, rfl⟩⟩

theorem lruPaid_first : LruPaid k (Phase.first : Phase α) ([], 0) :=
  ⟨rfl, Nat.zero_le k, Nat.zero_le _⟩

omit [DecidableEq α] in
theorem fifoPaid_first : FifoPaid k (Phase.first : Phase α) ([], 0) :=
  ⟨List.nodup_nil, Nat.zero_le k, Nat.zero_le k, [], [], rfl, fun _ hp => (nomatch hp),
    Nat.zero_le _⟩

end Phases

/-! ## More frames -/

/-- **THE INCLUSION PROPERTY**: with more frames LRU does not fault where it
    did not with fewer. -/
theorem lru_faults_antitone {f g : Nat} (hfg : f ≤ g) (rs : List α) : ∀ {l : List α} {m n : Nat},
    n ≤ m → (rs.foldl (lruStep g) (l, n)).2 ≤ (rs.foldl (lruStep f) (l, m)).2 := by
  induction rs with
  | nil => intro l m n hmn; exact hmn
  | cons r rs ih =>
      intro l m n hmn
      refine ih ?_
      by_cases hr : r ∈ l.take f
      · rw [if_pos hr, if_pos (List.take_subset_take_left l hfg hr)]
        exact hmn
      · rw [if_neg hr]
        split <;> omega

/-- The recency list does not depend on the number of frames. -/
theorem lru_recency (k : Nat) (rs : List α) : ∀ {l : List α} {n : Nat},
    (rs.foldl (lruStep k) (l, n)).1 = rs.foldl moveToFront l := by
  induction rs with
  | nil => intro l n; rfl
  | cons r rs ih => intro l n; exact ih

/-! ## What the pages tell about the past -/

/-- What came after the last `r`, the latest first; everything when there is
    no `r`. -/
def since (rs : List α) (r : α) : List α := rs.reverse.takeWhile (· ≠ r)

/-- The distinct pages, the one that came last first: `dedup` keeps the last
    of each. -/
def recent (rs : List α) : List α := rs.dedup.reverse

/-- The queue of FIFO, its faults, and the pages it loaded in their order. -/
def fifoLoad (k : Nat) (c : (List α × Nat) × List α) (r : α) : (List α × Nat) × List α :=
  (fifoStep k c.1 r, if r ∈ c.1.1 then c.2 else c.2 ++ [r])

section Past

variable {rs l : List α} {r p : α} {k : Nat}

theorem since_append (rs : List α) (p r : α) :
    since (rs ++ [p]) r = if p = r then [] else p :: since rs r := by
  rw [since, List.reverse_append, List.reverse_singleton, List.singleton_append,
    List.takeWhile_cons]
  by_cases hp : p = r
  · simp only [hp, ne_eq, not_true_eq_false, decide_false, Bool.false_eq_true, if_false, if_true]
  · simp only [hp, ne_eq, not_false_eq_true, decide_true, if_true, if_false, since]

/-- An entry is among the first `k` when fewer than `k` come before it. -/
theorem mem_take_iff : r ∈ l.take k ↔ r ∈ l ∧ (l.takeWhile (· ≠ r)).length < k := by
  induction l generalizing k with
  | nil => simp only [List.take_nil, List.not_mem_nil, false_and]
  | cons a l ih =>
      cases k with
      | zero => simp only [List.take_zero, List.not_mem_nil, Nat.not_lt_zero, and_false]
      | succ k =>
          rw [List.take_succ_cons, List.mem_cons, List.mem_cons, ih, List.takeWhile_cons]
          by_cases ha : r = a
          · simp [ha]
          · have ha' : a ≠ r := fun h => ha h.symm
            simp [ha, ha']

/-- Erasing another entry erases it from what comes before `r`. -/
theorem takeWhile_erase (hp : p ≠ r) :
    (l.erase p).takeWhile (· ≠ r) = (l.takeWhile (· ≠ r)).erase p := by
  induction l with
  | nil => rfl
  | cons a l ih =>
      by_cases hap : a = p
      · rw [hap, List.erase_cons_head, List.takeWhile_cons_of_pos (by simpa using hp),
          List.erase_cons_head]
      · rw [List.erase_cons_tail (by simpa using hap), List.takeWhile_cons, List.takeWhile_cons, ih]
        split
        · rw [List.erase_cons_tail (by simpa using hap)]
        · rfl

/-- Of an entry that comes again, `dedup` keeps the new one. -/
theorem dedup_snoc (rs : List α) (r : α) : (rs ++ [r]).dedup = rs.dedup.erase r ++ [r] := by
  induction rs with
  | nil => rfl
  | cons a rs ih =>
      rw [List.cons_append, List.dedup_cons, List.dedup_cons, ih]
      by_cases ha : a ∈ rs
      · rw [if_pos (List.mem_append_left [r] ha), if_pos ha]
      · rw [if_neg ha]
        by_cases har : a = r
        · rw [if_pos (List.mem_append_right rs (List.mem_singleton.mpr har)), har,
            List.erase_cons_head, List.erase_of_not_mem (fun hm => ha (har ▸ List.mem_dedup.mp hm))]
        · rw [if_neg (fun hm => (List.mem_append.mp hm).elim ha
            (fun hm' => har (List.mem_singleton.mp hm'))),
            List.erase_cons_tail (by simpa using har), List.cons_append]

/-- **THE RECENCY LIST** has the distinct pages, the latest first. -/
theorem recency_eq (rs : List α) : rs.foldl moveToFront [] = recent rs := by
  induction rs using List.reverseRecOn with
  | nil => rfl
  | append_singleton rs r ih =>
      have hnodup := List.nodup_dedup rs
      rw [List.foldl_append, List.foldl_cons, List.foldl_nil, ih, moveToFront, recent, recent, dedup_snoc,
        List.reverse_append, List.reverse_singleton, List.singleton_append,
        hnodup.erase_eq_filter, (List.nodup_reverse.mpr hnodup).erase_eq_filter, List.filter_reverse]

/-- What comes before a page in the recency list has come since. -/
theorem before_recent (rs : List α) (r : α) :
    ((recent rs).takeWhile (· ≠ r)).toFinset = (since rs r).toFinset := by
  induction rs using List.reverseRecOn with
  | nil => rfl
  | append_singleton rs p ih =>
      have hfront : recent (rs ++ [p]) = moveToFront (recent rs) p := by
        rw [← recency_eq, ← recency_eq, List.foldl_append]
        rfl
      rw [hfront, moveToFront, since_append, List.takeWhile_cons]
      by_cases hp : p = r
      · simp only [hp, ne_eq, not_true_eq_false, decide_false, Bool.false_eq_true, if_false, if_true]
      · simp only [hp, ne_eq, not_false_eq_true, decide_true, if_true, if_false]
        rw [takeWhile_erase hp, List.toFinset_cons, List.toFinset_cons, ← ih]
        ext q
        simp only [Finset.mem_insert, List.mem_toFinset]
        by_cases hq : q = p
        · simp only [hq, true_or]
        · rw [List.mem_erase_of_ne hq]

/-- **WHEN LRU HOLDS A PAGE**: it was requested, and fewer than `k` distinct
    others have been since. -/
theorem mem_recent_take : r ∈ (recent rs).take k ↔ r ∈ rs ∧ (since rs r).toFinset.card < k := by
  have hnodup : (recent rs).Nodup := List.nodup_reverse.mpr (List.nodup_dedup rs)
  have hlen := List.toFinset_card_of_nodup (hnodup.sublist (List.takeWhile_sublist (· ≠ r)))
  rw [mem_take_iff, ← before_recent, hlen, recent, List.mem_reverse, List.mem_dedup]

theorem recent_length (rs : List α) : (recent rs).length = rs.toFinset.card := by
  rw [recent, List.length_reverse, List.card_toFinset]

/-- The queue has the last `k` of the pages that were loaded, in their order. -/
theorem fifo_last {c : (List α × Nat) × List α} (hk : 1 ≤ k)
    (h : c.1.1 = c.2.drop (c.2.length - k) ∧ c.1.2 = c.2.length) (r : α) :
    (fifoLoad k c r).1.1 = (fifoLoad k c r).2.drop ((fifoLoad k c r).2.length - k) ∧
      (fifoLoad k c r).1.2 = (fifoLoad k c r).2.length := by
  obtain ⟨hqueue, hfaults⟩ := h
  rw [fifoLoad, fifoStep]
  by_cases hr : r ∈ c.1.1
  · rw [if_pos hr, if_pos hr]
    exact ⟨hqueue, hfaults⟩
  · rw [if_neg hr, if_neg hr]
    refine ⟨?_, by rw [hfaults, List.length_append, List.length_singleton]⟩
    have hlen : c.1.1.length = min k c.2.length := by
      rw [hqueue, List.length_drop]
      omega
    rw [List.length_append, List.length_singleton]
    by_cases hfull : c.1.1.length = k
    · rw [if_pos hfull, hqueue, List.tail_drop, List.drop_append_of_le_length (by omega)]
      exact congrArg (fun n => c.2.drop n ++ [r]) (by omega)
    · rw [if_neg hfull, hqueue, show c.2.length - k = 0 by omega,
        show c.2.length + 1 - k = 0 by omega]
      rfl

/-- **WHEN FIFO HOLDS A PAGE**: it was loaded, and fewer than `k` pages have
    been loaded since. -/
theorem mem_last : r ∈ l.drop (l.length - k) ↔ r ∈ l ∧ (since l r).length < k := by
  have hrev : (l.drop (l.length - k)).reverse = l.reverse.take k := by
    rw [List.reverse_drop]
    by_cases hk : k ≤ l.length
    · rw [show l.length - (l.length - k) = k by omega]
    · rw [List.take_of_length_le (by rw [List.length_reverse]; omega),
        List.take_of_length_le (by rw [List.length_reverse]; omega)]
  rw [← List.mem_reverse, hrev, mem_take_iff, List.mem_reverse, since]

end Past

end OsPaging
