import Mathlib

/-! # Loops that may fail, and runs of failing steps

    A `while` loop of an imperative program is a body that either fails, asks
    for another turn, or leaves with a result.  `loop` iterates such a body
    under a bound on the number of turns, reporting `stuck` when the bound is
    used up.  This file has the rules every loop proof needs:

    * the visited states carry any invariant the body preserves
      (`visits_inv`), and the result is left from a visited state
      (`loop_ok`);
    * a measure that decreases every turn makes the loop leave
      (`loop_total`), or fail where it cannot leave (`visits_fail`).

    `runAll` folds a failing step over a list of requests, with the same
    invariant rule, and `Agrees` compares two such runs.  `Steps.exact` says
    when a property holds in every state of a run, and `throughout_iff` says
    it for steps that cannot fail. -/

namespace OsLoop

variable {ε σ α β : Type}

/-- What one turn of a loop body decides: take another turn, or leave. -/
inductive Turn (σ α : Type) where
  | again (s : σ)
  | done (a : α)

/-- Iterate `body` for at most the given number of turns. -/
def loop (stuck : ε) (body : σ → Except ε (Turn σ α)) : Nat → σ → Except ε α
  | 0, _ => .error stuck
  | n + 1, s =>
      match body s with
      | .error e => .error e
      | .ok (.done a) => .ok a
      | .ok (.again s') => loop stuck body n s'

theorem loop_done {stuck : ε} {body : σ → Except ε (Turn σ α)} {s : σ} {a : α}
    (h : body s = .ok (.done a)) (n : Nat) : loop stuck body (n + 1) s = .ok a := by
  simp [loop, h]

theorem loop_again {stuck : ε} {body : σ → Except ε (Turn σ α)} {s s' : σ}
    (h : body s = .ok (.again s')) (n : Nat) :
    loop stuck body (n + 1) s = loop stuck body n s' := by
  simp [loop, h]

theorem loop_fail {stuck e : ε} {body : σ → Except ε (Turn σ α)} {s : σ}
    (h : body s = .error e) (n : Nat) : loop stuck body (n + 1) s = .error e := by
  simp [loop, h]

/-- The states a loop passes through before it leaves. -/
def Visits (body : σ → Except ε (Turn σ α)) : σ → σ → Prop :=
  Relation.ReflTransGen (fun s s' => body s = .ok (.again s'))

/-- An invariant of the body holds at every visited state. -/
theorem visits_inv {body : σ → Except ε (Turn σ α)} {I : σ → Prop}
    (hstep : ∀ s s', I s → body s = .ok (.again s') → I s')
    {s s' : σ} (hv : Visits body s s') (h : I s) : I s' := by
  induction hv with
  | refl => exact h
  | tail _ hlast ih => exact hstep _ _ ih hlast

/-- A loop leaves from a state it visited. -/
theorem loop_ok {stuck : ε} {body : σ → Except ε (Turn σ α)} :
    ∀ {n : Nat} {s : σ} {a : α}, loop stuck body n s = .ok a →
      ∃ s', Visits body s s' ∧ body s' = .ok (.done a) := by
  intro n
  induction n with
  | zero => intro s a h; exact nomatch h
  | succ n ih =>
      intro s a h
      cases hb : body s with
      | error e => simp [loop, hb] at h
      | ok t =>
          cases t with
          | done a' =>
              have ha : a' = a := by simpa [loop, hb] using h
              exact ⟨s, .refl, by rw [hb, ha]⟩
          | again s' =>
              have hrest : loop stuck body n s' = .ok a := by
                simpa [loop, hb] using h
              obtain ⟨s'', hv, hd⟩ := ih hrest
              exact ⟨s'', .head hb hv, hd⟩

/-- A loop that leaves also leaves from the states it visits. -/
theorem loop_visits {stuck : ε} {body : σ → Except ε (Turn σ α)} {s s' : σ} {a : α}
    (hv : Visits body s s') : ∀ {n : Nat}, loop stuck body n s = .ok a →
      ∃ m, loop stuck body m s' = .ok a := by
  induction hv using Relation.ReflTransGen.head_induction_on with
  | refl => exact fun {n} h => ⟨n, h⟩
  | head hstep _ ih =>
      intro n h
      cases n with
      | zero => exact nomatch h
      | succ n => exact ih ((loop_again hstep n).symm.trans h)

/-- **TOTAL CORRECTNESS**: if every turn from an `I`-state either leaves with
    a `Q`-result or takes a turn that keeps `I` and lowers the measure, the
    loop leaves with a `Q`-result within `μ s + 1` turns. -/
theorem loop_total {stuck : ε} {body : σ → Except ε (Turn σ α)}
    {I : σ → Prop} {Q : α → Prop} (μ : σ → Nat)
    (hbody : ∀ s, I s →
      (∃ a, body s = .ok (.done a) ∧ Q a) ∨
      (∃ s', body s = .ok (.again s') ∧ I s' ∧ μ s' < μ s)) :
    ∀ {n : Nat} {s : σ}, I s → μ s < n →
      ∃ a, loop stuck body n s = .ok a ∧ Q a := by
  intro n
  induction n with
  | zero => intro s _ h; exact absurd h (Nat.not_lt_zero _)
  | succ n ih =>
      intro s hs hn
      rcases hbody s hs with ⟨a, hb, hq⟩ | ⟨s', hb, hs', hlt⟩
      · exact ⟨a, by simp [loop, hb], hq⟩
      · obtain ⟨a, hl, hq⟩ := ih hs' (by omega)
        exact ⟨a, by simp [loop, hb, hl], hq⟩

/-- **A LOOP OVER A LIST**: if every turn leaves with a `Q`-result or takes the
    head off the list, and the last one leaves, the loop leaves within as many
    turns as the list is long. -/
theorem loop_list {stuck : ε} {body : σ → Except ε (Turn σ α)} {I : List β → σ → Prop}
    {Q : α → Prop} (hnil : ∀ s, ¬ I [] s)
    (hbody : ∀ x rest s, I (x :: rest) s →
      (∃ a, body s = .ok (.done a) ∧ Q a) ∨ ∃ s', body s = .ok (.again s') ∧ I rest s') :
    ∀ {L : List β} {n : Nat} {s : σ}, I L s → L.length ≤ n →
      ∃ a, loop stuck body n s = .ok a ∧ Q a := by
  intro L
  induction L with
  | nil => intro n s hI _; exact absurd hI (hnil s)
  | cons x rest ih =>
      intro n s hI hn
      have hpos : 0 < n := Nat.lt_of_lt_of_le (Nat.succ_pos rest.length) hn
      obtain ⟨k, rfl⟩ := Nat.exists_eq_succ_of_ne_zero (Nat.ne_of_gt hpos)
      rcases hbody x rest s hI with ⟨a, hb, hq⟩ | ⟨s', hb, hI'⟩
      · exact ⟨a, loop_done hb k, hq⟩
      · rw [loop_again hb]
        exact ih hI' (Nat.le_of_succ_le_succ hn)

/-- **CERTAIN FAILURE**: if every turn from an `I`-state either fails or takes
    a turn that keeps `I` and lowers the measure, some visited turn fails. -/
theorem visits_fail {body : σ → Except ε (Turn σ α)} {I : σ → Prop} (μ : σ → Nat)
    (hbody : ∀ s, I s → (∃ e, body s = .error e) ∨
      (∃ s', body s = .ok (.again s') ∧ I s' ∧ μ s' < μ s)) :
    ∀ {n : Nat} {s : σ}, I s → μ s < n → ∃ s' e, Visits body s s' ∧ body s' = .error e := by
  intro n
  induction n with
  | zero => intro s _ h; exact absurd h (Nat.not_lt_zero _)
  | succ n ih =>
      intro s hs hn
      rcases hbody s hs with ⟨e, hb⟩ | ⟨s', hb, hs', hlt⟩
      · exact ⟨s, e, .refl, hb⟩
      · obtain ⟨s'', e, hv, he⟩ := ih hs' (by omega)
        exact ⟨s'', e, .head hb hv, he⟩

/-! ## Sequencing -/

/-- A sequence succeeds when its first part does and the rest does after it. -/
theorem bind_ok {x : Except ε α} {f : α → Except ε β} {b : β} :
    (x >>= f) = .ok b ↔ ∃ a, x = .ok a ∧ f a = .ok b := by
  cases x with
  | error e =>
      constructor
      · intro h; exact nomatch h
      · rintro ⟨_, h, _⟩; exact nomatch h
  | ok a =>
      constructor
      · intro h; exact ⟨a, rfl, h⟩
      · rintro ⟨a', ha, hf⟩
        cases ha
        exact hf

/-- A sequence fails when its first part does, or the rest does after it. -/
theorem bind_error {x : Except ε α} {f : α → Except ε β} {e : ε} :
    (x >>= f) = .error e ↔
      x = .error e ∨ ∃ a, x = .ok a ∧ f a = .error e := by
  cases x with
  | error e' =>
      constructor
      · intro h
        have he : e' = e := by simpa [bind, Except.bind] using h
        exact Or.inl (by rw [he])
      · rintro (h | ⟨_, h, _⟩)
        · cases h; rfl
        · exact nomatch h
  | ok a =>
      constructor
      · intro h; exact Or.inr ⟨a, rfl, h⟩
      · rintro (h | ⟨a', ha, hf⟩)
        · exact nomatch h
        · cases ha; exact hf

theorem mem_toOption {x : Except ε α} {a : α} : a ∈ x.toOption ↔ x = .ok a := by
  cases x with
  | error e => simp [Except.toOption]
  | ok b => simp [Except.toOption]

/-- A computation that answers something is a success. -/
theorem ok_of_isSome {x : Except ε α} (h : x.toOption.isSome = true) : ∃ a, x = .ok a := by
  cases x with
  | error e => exact nomatch h
  | ok a => exact ⟨a, rfl⟩

/-! ## Runs -/

/-- Serve a list of requests one after the other, stopping at a failure. -/
def runAll (step : σ → α → Except ε σ) : σ → List α → Except ε σ
  | s, [] => .ok s
  | s, q :: qs =>
      match step s q with
      | .error e => .error e
      | .ok s' => runAll step s' qs

/-- A non-empty run is a step followed by a run. -/
theorem runAll_cons {step : σ → α → Except ε σ} {s s' : σ} {q : α} {qs : List α} :
    runAll step s (q :: qs) = .ok s' ↔
      ∃ s₁, step s q = .ok s₁ ∧ runAll step s₁ qs = .ok s' := by
  cases h : step s q with
  | error e => simp [runAll, h]
  | ok s₁ => simp [runAll, h]

/-- **RUN RULE**: what every allowed step preserves holds after any run of
    allowed requests. -/
theorem runAll_inv {step : σ → α → Except ε σ} {I : σ → Prop} {ok : α → Prop}
    (hstep : ∀ s q s', I s → ok q → step s q = .ok s' → I s') :
    ∀ {qs : List α} {s s' : σ}, I s → (∀ q ∈ qs, ok q) →
      runAll step s qs = .ok s' → I s' := by
  intro qs
  induction qs with
  | nil => intro s s' hs _ h; cases h; exact hs
  | cons q qs ih =>
      intro s s' hs hq h
      obtain ⟨s₁, h1, h2⟩ := runAll_cons.mp h
      exact ih (hstep s q s₁ hs (hq q (by simp)) h1)
        (fun q' h' => hq q' (by simp [h'])) h2

/-- Every request of a successful run was served. -/
theorem runAll_mem {step : σ → α → Except ε σ} {q : α} :
    ∀ {qs : List α} {s s' : σ}, runAll step s qs = .ok s' → q ∈ qs →
      ∃ s₁ s₂, step s₁ q = .ok s₂ := by
  intro qs
  induction qs with
  | nil => intro s s' _ hq; exact nomatch hq
  | cons q' qs ih =>
      intro s s' h hq
      obtain ⟨s₁, h1, h2⟩ := runAll_cons.mp h
      rcases List.mem_cons.mp hq with rfl | hq'
      · exact ⟨s, s₁, h1⟩
      · exact ih h2 hq'

/-- **SIMULATION RULE**: when every allowed step succeeds and follows `f`, so
    does every run of allowed requests. -/
theorem runAll_sim {τ : Type} {step : σ → α → Except ε σ} {f : τ → α → τ} {R : τ → σ → Prop}
    {ok : α → Prop}
    (hstep : ∀ t s q, R t s → ok q → ∃ s', step s q = .ok s' ∧ R (f t q) s') :
    ∀ {qs : List α} {t : τ} {s : σ}, R t s → (∀ q ∈ qs, ok q) →
      ∃ s', runAll step s qs = .ok s' ∧ R (qs.foldl f t) s' := by
  intro qs
  induction qs with
  | nil => intro t s h _; exact ⟨s, rfl, h⟩
  | cons q qs ih =>
      intro t s h hq
      obtain ⟨s₁, h1, hr⟩ := hstep t s q h (hq q (by simp))
      obtain ⟨s', h2, hr'⟩ := ih hr (fun q' h' => hq q' (by simp [h']))
      exact ⟨s', runAll_cons.mpr ⟨s₁, h1, h2⟩, hr'⟩

/-- A run succeeds when every step from an `I`-state does and keeps `I`. -/
theorem runAll_total {step : σ → α → Except ε σ} {I : σ → Prop} {qs : List α} {s : σ}
    (hstep : ∀ s, ∀ q ∈ qs, I s → ∃ s', step s q = .ok s' ∧ I s') (hs : I s) :
    ∃ s', runAll step s qs = .ok s' ∧ I s' := by
  have hsim : ∀ (_ : Unit) (s : σ) (q : α), I s → q ∈ qs → ∃ s', step s q = .ok s' ∧ I s' :=
    fun _ s q hI hq => hstep s q hq hI
  exact runAll_sim (f := fun _ _ => ()) (t := ()) (R := fun _ => I) hsim hs (fun _ hq => hq)

/-- A run fails when its first step does. -/
theorem runAll_first {step : σ → α → Except ε σ} {s : σ} {q : α} {qs : List α} {e : ε}
    (h : step s q = .error e) : runAll step s (q :: qs) = .error e := by
  rw [runAll, h]

/-- The state of a run is an image throughout when one step takes images to
    images. -/
theorem runAll_image_inv {τ : Type} {step : σ → α → Except ε σ} {f : τ → α → τ} {I : τ → Prop}
    (g : τ → σ) {qs : List α} {t : τ}
    (hstep : ∀ t, ∀ q ∈ qs, I t → step (g t) q = .ok (g (f t q)) ∧ I (f t q)) (ht : I t) :
    runAll step (g t) qs = .ok (g (qs.foldl f t)) := by
  have hsim : ∀ (t : τ) (s : σ) (q : α), s = g t ∧ I t → q ∈ qs →
      ∃ s', step s q = .ok s' ∧ s' = g (f t q) ∧ I (f t q) := by
    rintro t s q ⟨rfl, hI⟩ hq
    obtain ⟨hok, hI'⟩ := hstep t q hq hI
    exact ⟨_, hok, rfl, hI'⟩
  obtain ⟨s', hrun, rfl, -⟩ := runAll_sim hsim ⟨rfl, ht⟩ (fun _ hq => hq)
  exact hrun

/-- The same where every image steps to an image. -/
theorem runAll_image {τ : Type} {step : σ → α → Except ε σ} {f : τ → α → τ} (g : τ → σ)
    {qs : List α} (hstep : ∀ t, ∀ q ∈ qs, step (g t) q = .ok (g (f t q))) (t : τ) :
    runAll step (g t) qs = .ok (g (qs.foldl f t)) :=
  runAll_image_inv (I := fun _ => True) g (fun t q hq _ => ⟨hstep t q hq, trivial⟩) trivial

/-- The same for steps that may fail: what a successful run ends in follows
    `f`. -/
theorem runAll_follow {τ : Type} {step : σ → α → Except ε σ} {f : τ → α → τ}
    {R : τ → σ → Prop} {ok : α → Prop}
    (hstep : ∀ t s q s', R t s → ok q → step s q = .ok s' → R (f t q) s') :
    ∀ {qs : List α} {t : τ} {s s' : σ}, R t s → (∀ q ∈ qs, ok q) →
      runAll step s qs = .ok s' → R (qs.foldl f t) s' := by
  intro qs
  induction qs with
  | nil => intro t s s' h _ hrun; cases hrun; exact h
  | cons q qs ih =>
      intro t s s' h hq hrun
      obtain ⟨s₁, h1, h2⟩ := runAll_cons.mp hrun
      exact ih (hstep t s q s₁ h (hq q (by simp)) h1) (fun q' h' => hq q' (by simp [h'])) h2

theorem runAll_singleton {step : σ → α → Except ε σ} (s : σ) (q : α) :
    runAll step s [q] = step s q := by
  rw [runAll]
  cases step s q with
  | error e => rfl
  | ok s' => rfl

/-- A run over a concatenation is a run after a run. -/
theorem runAll_append {step : σ → α → Except ε σ} (qs rs : List α) (s : σ) :
    runAll step s (qs ++ rs) = runAll step s qs >>= fun s' => runAll step s' rs := by
  induction qs generalizing s with
  | nil => rfl
  | cons q qs ih =>
      rw [List.cons_append, runAll, runAll]
      cases step s q with
      | error e => rfl
      | ok s' => exact ih s'

/-- Two nested loops are one loop over the pairs. -/
theorem runAll_grid (step : σ → α × β → Except ε σ) (ys : List α) (xs : List β) (s : σ) :
    runAll (fun s y => runAll (fun s x => step s (y, x)) s xs) s ys =
      runAll step s (ys.flatMap fun y => xs.map (Prod.mk y)) := by
  have hrow : ∀ (y : α) (xs : List β) (s : σ),
      runAll (fun s x => step s (y, x)) s xs = runAll step s (xs.map (Prod.mk y)) := by
    intro y xs
    induction xs with
    | nil => exact fun _ => rfl
    | cons x xs ih =>
        intro s
        rw [List.map_cons, runAll, runAll]
        cases step s (y, x) with
        | error e => rfl
        | ok s' => exact ih s'
  induction ys generalizing s with
  | nil => rfl
  | cons y ys ih =>
      rw [List.flatMap_cons, runAll_append, ← hrow, runAll]
      cases runAll (fun s x => step s (y, x)) s xs with
      | error e => rfl
      | ok s' => exact ih s'

/-! ## Runs of related states -/

/-- A run of steps: every state that a step was taken in, with the step, and
    the state after the last. -/
inductive Steps (step : σ → α → σ → Prop) (s₀ : σ) : List (σ × α) → σ → Prop where
  | start : Steps step s₀ [] s₀
  | next {hist : List (σ × α)} {s s' : σ} {q : α} (hrun : Steps step s₀ hist s)
      (hstep : step s q s') : Steps step s₀ (hist ++ [(s, q)]) s'

/-- **EXACT RUNS**: when every allowed step from a `P`-state leads to a `P`-state
    exactly if it is good, then all states of a run of allowed steps are
    `P`-states exactly if all its steps are good.  `I` is what the steps keep
    meanwhile. -/
theorem Steps.exact {step : σ → α → σ → Prop} {I P : σ → Prop} {allowed good : σ → α → Prop}
    {s₀ s : σ} {hist : List (σ × α)}
    (hstep : ∀ {s s' q}, I s → P s → step s q s' → allowed s q → I s' ∧ (P s' ↔ good s q))
    (hrun : Steps step s₀ hist s) (hallow : ∀ x ∈ hist, allowed x.1 x.2) (hI : I s₀)
    (hP : P s₀) : (((∀ x ∈ hist, P x.1) ∧ P s) ↔ ∀ x ∈ hist, good x.1 x.2) ∧
      ((∀ x ∈ hist, good x.1 x.2) → I s) := by
  induction hrun with
  | start => exact ⟨by simp [hP], fun _ => hI⟩
  | next hrun hlast ih =>
      rw [List.forall_mem_append, List.forall_mem_singleton] at hallow
      obtain ⟨hiff, hkept⟩ := ih hallow.1
      rw [List.forall_mem_append, List.forall_mem_append, List.forall_mem_singleton,
        List.forall_mem_singleton]
      -- what the last step adds, once the run before it was good
      refine ⟨⟨?_, ?_⟩, fun ⟨hbefore, _⟩ => ?_⟩
      · rintro ⟨hbefore, hafter⟩
        have hgood := hiff.mp hbefore
        exact ⟨hgood, (hstep (hkept hgood) hbefore.2 hlast hallow.2).2.mp hafter⟩
      · rintro ⟨hbefore, hgood⟩
        have hstates := hiff.mpr hbefore
        exact ⟨hstates, (hstep (hkept hbefore) hstates.2 hlast hallow.2).2.mpr hgood⟩
      · exact (hstep (hkept hbefore) (hiff.mpr hbefore).2 hlast hallow.2).1

/-- The states of a run are a chain of steps. -/
theorem Steps.chain {step : σ → α → σ → Prop} {s₀ s : σ} {hist : List (σ × α)}
    (hrun : Steps step s₀ hist s) :
    List.IsChain (fun a b => ∃ q, step a q b) (hist.map Prod.fst ++ [s]) := by
  induction hrun with
  | start => exact List.isChain_singleton _
  | next _ hlast ih =>
      rw [List.map_append, List.map_singleton, List.isChain_append]
      refine ⟨ih, List.isChain_singleton _, fun x hx y hy => ?_⟩
      rw [List.getLast?_concat, Option.mem_some_iff] at hx
      rw [List.head?_singleton, Option.mem_some_iff] at hy
      rw [← hx, ← hy]
      exact ⟨_, hlast⟩

/-! ## Two levels of one computation -/

section Agreement

variable {ε' σ' β : Type}

/-- Both succeed, with related results, or both fail. -/
def Agrees (R : α → β → Prop) (x : Except ε α) (y : Except ε' β) : Prop :=
  match x, y with
  | .ok a, .ok b => R a b
  | .error _, .error _ => True
  | _, _ => False

theorem agrees_ok {R : α → β → Prop} {x : Except ε α} {y : Except ε' β} {a : α} {b : β}
    (hx : x = .ok a) (hy : y = .ok b) (h : R a b) : Agrees R x y := by
  rw [hx, hy]
  exact h

theorem agrees_error {R : α → β → Prop} {x : Except ε α} {y : Except ε' β} {e : ε} {e' : ε'}
    (hx : x = .error e) (hy : y = .error e') : Agrees R x y := by
  rw [hx, hy]
  trivial

/-- **AGREEMENT RULE**: runs agree when their steps do. -/
theorem runAll_agrees {step : σ → α → Except ε σ} {step' : σ' → α → Except ε' σ'}
    {R : σ → σ' → Prop} (hstep : ∀ s s' q, R s s' → Agrees R (step s q) (step' s' q)) :
    ∀ {qs : List α} {s : σ} {s' : σ'}, R s s' →
      Agrees R (runAll step s qs) (runAll step' s' qs) := by
  intro qs
  induction qs with
  | nil => exact fun h => h
  | cons q qs ih =>
      intro s s' h
      have hq := hstep s s' q h
      rw [runAll, runAll]
      cases hs : step s q with
      | error e =>
          cases hs' : step' s' q with
          | error e' => trivial
          | ok s₁' =>
              rw [hs, hs'] at hq
              exact hq.elim
      | ok s₁ =>
          cases hs' : step' s' q with
          | error e' =>
              rw [hs, hs'] at hq
              exact hq.elim
          | ok s₁' =>
              rw [hs, hs'] at hq
              exact ih hq

theorem agrees_self (x : Except ε α) : Agrees Eq x x := by
  cases x with
  | error e => trivial
  | ok a => rfl

/-- What is known of the first result may be kept. -/
theorem agrees_and {R : α → β → Prop} {P : α → Prop} {x : Except ε α} {y : Except ε' β}
    (h : Agrees R x y) (hP : ∀ a, x = .ok a → P a) : Agrees (fun a b => R a b ∧ P a) x y := by
  cases x with
  | error e =>
      cases y with
      | error e' => trivial
      | ok b => exact h.elim
  | ok a =>
      cases y with
      | error e' => exact h.elim
      | ok b => exact ⟨h, hP a rfl⟩

/-- Sequences agree when their parts do. -/
theorem agrees_bind {γ δ : Type} {R : α → β → Prop} {S : γ → δ → Prop} {x : Except ε α}
    {y : Except ε' β} {f : α → Except ε γ} {g : β → Except ε' δ} (h : Agrees R x y)
    (hrest : ∀ a b, R a b → Agrees S (f a) (g b)) : Agrees S (x >>= f) (y >>= g) := by
  cases x with
  | error e =>
      cases y with
      | error e' => trivial
      | ok b => exact h.elim
  | ok a =>
      cases y with
      | error e' => exact h.elim
      | ok b => exact hrest a b h

/-- Both turns go on, or both leave, with what is related. -/
def SameTurn {τ : Type} (R : σ → σ' → Prop) (S : α → τ → Prop) :
    Turn σ α → Turn σ' τ → Prop
  | .again s, .again s' => R s s'
  | .done a, .done b => S a b
  | _, _ => False

/-- Loops agree when their bodies do. -/
theorem loop_agrees {τ : Type} {R : σ → σ' → Prop} {S : α → τ → Prop} {stuck : ε} {stuck' : ε'}
    {body : σ → Except ε (Turn σ α)} {body' : σ' → Except ε' (Turn σ' τ)}
    (hbody : ∀ s s', R s s' → Agrees (SameTurn R S) (body s) (body' s')) :
    ∀ {n : Nat} {s : σ} {s' : σ'}, R s s' →
      Agrees S (loop stuck body n s) (loop stuck' body' n s') := by
  intro n
  induction n with
  | zero => exact fun _ => trivial
  | succ n ih =>
      intro s s' h
      have hturn := hbody s s' h
      rw [loop, loop]
      revert hturn
      cases body s with
      | error e =>
          cases body' s' with
          | error e' => exact fun _ => trivial
          | ok t' => exact fun hturn => hturn.elim
      | ok t =>
          cases body' s' with
          | error e' => exact fun hturn => hturn.elim
          | ok t' =>
              cases t with
              | again s₁ =>
                  cases t' with
                  | again s₁' => exact fun hturn => ih hturn
                  | done b => exact fun hturn => hturn.elim
              | done a =>
                  cases t' with
                  | again s₁' => exact fun hturn => hturn.elim
                  | done b => exact fun hturn => hturn

end Agreement

/-! ## Runs of steps that cannot fail -/

/-- `I` holds in the first state of the run and after each of its steps. -/
def Throughout (step : σ → α → σ) (I : σ → Prop) : σ → List α → Prop
  | s, [] => I s
  | s, q :: qs => I s ∧ Throughout step I (step s q) qs

/-- No step of the run is a `Bad` one. -/
def NeverTakes (step : σ → α → σ) (Bad : σ → α → Prop) : σ → List α → Prop
  | _, [] => True
  | s, q :: qs => ¬ Bad s q ∧ NeverTakes step Bad (step s q) qs

/-- **EXACT RUN RULE**: when the `Bad` steps are those that break `I`, a run
    keeps `I` throughout if and only if it takes no bad step. -/
theorem throughout_iff {step : σ → α → σ} {I : σ → Prop} {Bad : σ → α → Prop}
    (hstep : ∀ s q, I s → (I (step s q) ↔ ¬ Bad s q)) :
    ∀ {qs : List α} {s : σ}, I s → (Throughout step I s qs ↔ NeverTakes step Bad s qs) := by
  intro qs
  induction qs with
  | nil => intro s hs; exact ⟨fun _ => trivial, fun _ => hs⟩
  | cons q qs ih =>
      intro s hs
      constructor
      · rintro ⟨-, hrest⟩
        have hI : I (step s q) := by
          cases qs with
          | nil => exact hrest
          | cons _ _ => exact hrest.1
        exact ⟨(hstep s q hs).mp hI, (ih hI).mp hrest⟩
      · rintro ⟨hgood, hrest⟩
        exact ⟨hs, (ih ((hstep s q hs).mpr hgood)).mpr hrest⟩

end OsLoop
