import OsLab.LoopProofs

/-! # Postconditions of computations that may fail

    `Yields allowed x Q` says that `x` succeeds with a `Q`-result or fails
    with an allowed error.  It composes along sequencing (`yields_bind`) and
    along a run over a list, where the invariant may speak of the part of the
    list that is done (`yields_runAll`). -/

namespace OsOutcome

open OsLoop

variable {ε α β σ : Type} {allowed : ε → Prop}

/-- Success with a `Q`-result, or an allowed failure. -/
def Yields (allowed : ε → Prop) (x : Except ε α) (Q : α → Prop) : Prop :=
  (∀ a, x = .ok a → Q a) ∧ ∀ e, x = .error e → allowed e

@[simp]
theorem yields_ok {a : α} {Q : α → Prop} : Yields allowed (.ok a) Q ↔ Q a := by
  simp [Yields]

@[simp]
theorem yields_error {e : ε} {Q : α → Prop} : Yields allowed (.error e) Q ↔ allowed e := by
  simp [Yields]

theorem yields_mono {x : Except ε α} {Q R : α → Prop} (h : Yields allowed x Q)
    (hQR : ∀ a, Q a → R a) : Yields allowed x R :=
  ⟨fun a ha => hQR a (h.1 a ha), h.2⟩

/-- What a sequence yields is what its second part yields after its first. -/
theorem yields_bind {x : Except ε α} {f : α → Except ε β} {Q : β → Prop} :
    Yields allowed (x >>= f) Q ↔ Yields allowed x fun a => Yields allowed (f a) Q := by
  cases x with
  | error e => simp [bind, Except.bind]
  | ok a => simp [bind, Except.bind]

/-- **LOOP RULE**: an invariant of the part of the list that is done, kept by
    every turn, holds of the whole list at the end. -/
theorem yields_runAll {step : σ → α → Except ε σ} {I : List α → σ → Prop}
    (hstep : ∀ before x s, I before s → Yields allowed (step s x) (I (before ++ [x]))) :
    ∀ {xs : List α} (before : List α) {s : σ}, I before s →
      Yields allowed (runAll step s xs) (I (before ++ xs)) := by
  intro xs
  induction xs with
  | nil => intro before s h; simpa [runAll] using h
  | cons x xs ih =>
      intro before s h
      have hx := hstep before x s h
      rw [runAll]
      cases hs : step s x with
      | error e => simpa [hs] using hx
      | ok s' =>
          have h' : I (before ++ [x]) s' := by simpa [hs] using hx
          simpa using ih _ h'

/-- **RUN RULE**: an invariant kept by every step holds after every run, and a
    run fails only as its steps may. -/
theorem yields_run {step : σ → α → Except ε σ} {I : σ → Prop}
    (hstep : ∀ s x, I s → Yields allowed (step s x) I) {xs : List α} {s : σ} (h : I s) :
    Yields allowed (runAll step s xs) I :=
  yields_runAll (I := fun _ => I) (fun _ x s hs => hstep s x hs) [] h

/-- A computation whose result passes a test succeeds with such a result. -/
theorem ok_of_any {x : Except ε α} {p : α → Bool} (h : x.toOption.any p = true) :
    ∃ a, x = .ok a ∧ p a = true := by
  cases x with
  | error e => simp [Except.toOption] at h
  | ok a => exact ⟨a, rfl, by simpa [Except.toOption] using h⟩

end OsOutcome
