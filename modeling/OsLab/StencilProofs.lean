import Mathlib

/-! # An in-place map beside a stencil

    Two writers share a memory.  The mapper replaces the value of each index
    of a list, in order, by its image under `f`.  The stencil first copies
    the memory, then fills each index of a list of its own with a value that
    it computes from the copy; a gate on the mapper's progress may hold it
    back.  A schedule says who takes the next step.

    What each writer has left depends on the schedule only (`Progress`).  Two
    kinds of indices are out of order: those still to be mapped when the copy
    is taken (`stale`), and those still to be mapped when they are filled
    (`early`).  The memory of a finished run is then known at every index
    (`run_cell`). -/

namespace OsStencil

variable {I V : Type}

/-- Who takes a step. -/
inductive Writer where
  | mapper
  | stencil
  deriving DecidableEq, Repr

/-- What the writers have left. -/
structure Progress (I : Type) where
  toMap : List I
  /-- the last mapped index -/
  last : Option I
  copied : Bool
  toFill : List I

/-- The memory and the stencil's copy. -/
structure Memory (I V : Type) where
  cell : I → V
  copy : I → V

/-- The stencil fills `i` next, and the gate lets it. -/
def Progress.fills (gate : Option I → I → Bool) (pr : Progress I) : Option I :=
  match pr.toFill with
  | [] => none
  | i :: _ => if pr.copied ∧ gate pr.last i then some i else none

def Progress.step (gate : Option I → I → Bool) (pr : Progress I) : Writer → Progress I
  | .mapper =>
      match pr.toMap with
      | [] => pr
      | i :: rest => { pr with toMap := rest, last := some i }
  | .stencil =>
      if pr.copied then
        match pr.fills gate with
        | none => pr
        | some _ => { pr with toFill := pr.toFill.tail }
      else { pr with copied := true }

def Memory.step [DecidableEq I] (gate : Option I → I → Bool) (f : V → V) (g : (I → V) → I → V)
    (pr : Progress I) (m : Memory I V) : Writer → Memory I V
  | .mapper =>
      match pr.toMap with
      | [] => m
      | i :: _ => { m with cell := Function.update m.cell i (f (m.cell i)) }
  | .stencil =>
      if pr.copied then
        match pr.fills gate with
        | none => m
        | some i => { m with cell := Function.update m.cell i (g m.copy i) }
      else { m with copy := m.cell }

/-- One step of both. -/
def step [DecidableEq I] (gate : Option I → I → Bool) (f : V → V) (g : (I → V) → I → V)
    (s : Progress I × Memory I V) (w : Writer) : Progress I × Memory I V :=
  (s.1.step gate w, s.2.step gate f g s.1 w)

/-- The index is still to be mapped when the copy is taken. -/
def stale [DecidableEq I] (gate : Option I → I → Bool) (i : I) : Progress I → List Writer → Bool
  | _, [] => false
  | pr, w :: ws =>
      if ¬ pr.copied ∧ w = .stencil then i ∈ pr.toMap
      else stale gate i (pr.step gate w) ws

/-- The index is still to be mapped when it is filled. -/
def early [DecidableEq I] (gate : Option I → I → Bool) (i : I) : Progress I → List Writer → Bool
  | _, [] => false
  | pr, w :: ws =>
      if w = .stencil ∧ pr.fills gate = some i then i ∈ pr.toMap
      else early gate i (pr.step gate w) ws

/-- The writers have nothing left. -/
def Progress.Finished (pr : Progress I) : Prop :=
  pr.toMap = [] ∧ pr.copied = true ∧ pr.toFill = []

instance (pr : Progress I) : Decidable pr.Finished :=
  inferInstanceAs (Decidable (_ ∧ _ ∧ _))

/-- No index is to be mapped or filled twice. -/
structure Progress.Once (pr : Progress I) : Prop where
  map : pr.toMap.Nodup
  fill : pr.toFill.Nodup

section Steps

variable {gate : Option I → I → Bool} {f : V → V} {g : (I → V) → I → V}
  {pr : Progress I} {m : Memory I V} {i : I} {ws : List Writer}

theorem fills_some (h : pr.fills gate = some i) :
    pr.copied = true ∧ gate pr.last i = true ∧ ∃ rest, pr.toFill = i :: rest := by
  rw [Progress.fills] at h
  split at h
  · exact nomatch h
  · next j rest hfill =>
    split at h
    · next hopen =>
      cases h
      exact ⟨hopen.1, hopen.2, rest, hfill⟩
    · exact nomatch h

theorem fills_none (h : pr.copied = false) : pr.fills gate = none := by
  cases hf : pr.fills gate with
  | none => rfl
  | some i =>
      have hcopied := (fills_some hf).1
      rw [h] at hcopied
      exact nomatch hcopied

/-- A stencil that waits is done or held back. -/
theorem wait_cases (hcopied : pr.copied = true) (h : pr.fills gate = none) :
    pr.toFill = [] ∨ ∃ i rest, pr.toFill = i :: rest ∧ gate pr.last i = false := by
  rw [Progress.fills] at h
  split at h
  · next hfill => exact Or.inl hfill
  · next i rest hfill =>
    split at h
    · exact nomatch h
    · next hclosed =>
      exact Or.inr ⟨i, rest, hfill, Bool.eq_false_iff.mpr (fun ho => hclosed ⟨hcopied, ho⟩)⟩

theorem step_stencil_toMap (gate : Option I → I → Bool) (pr : Progress I) :
    (pr.step gate .stencil).toMap = pr.toMap := by
  rw [Progress.step]
  split
  · split
    · rfl
    · rfl
  · rfl

theorem Progress.Once.step (h : pr.Once) (w : Writer) : (pr.step gate w).Once := by
  cases w with
  | mapper =>
      rw [Progress.step]
      split
      · exact h
      · next j rest hmap =>
        have hnodup := h.map
        rw [hmap] at hnodup
        exact ⟨hnodup.of_cons, h.fill⟩
  | stencil =>
      rw [Progress.step]
      split
      · split
        · exact h
        · exact ⟨h.map, h.fill.tail⟩
      · exact ⟨h.map, h.fill⟩

/-- Nothing is added to what the mapper has left. -/
theorem mem_of_mem_step {w : Writer} (h : i ∈ (pr.step gate w).toMap) : i ∈ pr.toMap := by
  cases w with
  | mapper =>
      rw [Progress.step] at h
      split at h
      · exact h
      · next j rest hmap =>
        rw [hmap]
        exact List.mem_cons_of_mem _ h
  | stencil =>
      rw [step_stencil_toMap] at h
      exact h

variable [DecidableEq I]

/-- What a writer finds to do. -/
inductive Move (gate : Option I → I → Bool) (f : V → V) (g : (I → V) → I → V)
    (pr : Progress I) (m : Memory I V) : Writer → Progress I × Memory I V → Prop where
  | idle : pr.toMap = [] → Move gate f g pr m .mapper (pr, m)
  | map {i : I} {rest : List I} : pr.toMap = i :: rest →
      Move gate f g pr m .mapper ({ pr with toMap := rest, last := some i },
        { m with cell := Function.update m.cell i (f (m.cell i)) })
  | copy : pr.copied = false →
      Move gate f g pr m .stencil ({ pr with copied := true }, { m with copy := m.cell })
  | wait : pr.copied = true → pr.fills gate = none → Move gate f g pr m .stencil (pr, m)
  | fill {i : I} {rest : List I} : pr.copied = true → pr.fills gate = some i →
      pr.toFill = i :: rest → Move gate f g pr m .stencil ({ pr with toFill := rest },
        { m with cell := Function.update m.cell i (g m.copy i) })

theorem move_step (gate : Option I → I → Bool) (f : V → V) (g : (I → V) → I → V)
    (pr : Progress I) (m : Memory I V) (w : Writer) :
    Move gate f g pr m w (step gate f g (pr, m) w) := by
  cases w with
  | mapper =>
      cases hmap : pr.toMap with
      | nil =>
          have hstep : step gate f g (pr, m) .mapper = (pr, m) := by
            simp only [step, Progress.step, Memory.step, hmap]
          rw [hstep]
          exact .idle hmap
      | cons i rest =>
          have hstep : step gate f g (pr, m) .mapper =
              ({ pr with toMap := rest, last := some i },
                { m with cell := Function.update m.cell i (f (m.cell i)) }) := by
            simp only [step, Progress.step, Memory.step, hmap]
          rw [hstep]
          exact .map hmap
  | stencil =>
      cases hcopied : pr.copied with
      | false =>
          have hstep : step gate f g (pr, m) .stencil =
              ({ pr with copied := true }, { m with copy := m.cell }) := by
            simp only [step, Progress.step, Memory.step, hcopied, Bool.false_eq_true, if_false]
          rw [hstep]
          exact .copy hcopied
      | true =>
          cases hfills : pr.fills gate with
          | none =>
              have hstep : step gate f g (pr, m) .stencil = (pr, m) := by
                simp only [step, Progress.step, Memory.step, hcopied, hfills, if_true]
              rw [hstep]
              exact .wait hcopied hfills
          | some i =>
              obtain ⟨-, -, rest, hfill⟩ := fills_some hfills
              have hstep : step gate f g (pr, m) .stencil = ({ pr with toFill := rest },
                  { m with cell := Function.update m.cell i (g m.copy i) }) := by
                simp only [step, Progress.step, Memory.step, hcopied, hfills, hfill, if_true,
                  List.tail_cons]
              rw [hstep]
              exact .fill hcopied hfills hfill

/-- An index is stale only if it is to be mapped. -/
theorem mem_of_stale (h : stale gate i pr ws = true) : i ∈ pr.toMap := by
  induction ws generalizing pr with
  | nil => exact nomatch h
  | cons w ws ih =>
      rw [stale] at h
      split at h
      · exact of_decide_eq_true h
      · exact mem_of_mem_step (ih h)

/-- An index is early only if it is to be mapped. -/
theorem mem_of_early (h : early gate i pr ws = true) : i ∈ pr.toMap := by
  induction ws generalizing pr with
  | nil => exact nomatch h
  | cons w ws ih =>
      rw [early] at h
      split at h
      · exact of_decide_eq_true h
      · exact mem_of_mem_step (ih h)

/-! ## The memory of a run -/

/-- What the stencil computes from: the copy, or what the copy will be. -/
def snapshot (gate : Option I → I → Bool) (f : V → V) (pr : Progress I) (m : Memory I V)
    (ws : List Writer) (j : I) : V :=
  if pr.copied then m.copy j
  else if j ∈ pr.toMap ∧ stale gate j pr ws = false then f (m.cell j)
  else m.cell j

/-- What a finished run leaves at `j`. -/
def outcome (gate : Option I → I → Bool) (f : V → V) (g : (I → V) → I → V)
    (pr : Progress I) (m : Memory I V) (ws : List Writer) (j : I) : V :=
  if j ∈ pr.toFill then
    if early gate j pr ws then f (g (snapshot gate f pr m ws) j)
    else g (snapshot gate f pr m ws) j
  else if j ∈ pr.toMap then f (m.cell j)
  else m.cell j

theorem snapshot_copied (h : pr.copied = true) : snapshot gate f pr m ws = m.copy := by
  funext j
  rw [snapshot, if_pos h]

theorem snapshot_open (h : pr.copied = false) (j : I) : snapshot gate f pr m ws j =
    if j ∈ pr.toMap ∧ stale gate j pr ws = false then f (m.cell j) else m.cell j := by
  rw [snapshot, h, if_neg Bool.false_ne_true]

theorem stale_copy (h : pr.copied = false) (j : I) :
    stale gate j pr (.stencil :: ws) = decide (j ∈ pr.toMap) := by
  rw [stale, if_pos ⟨by rw [h]; exact Bool.false_ne_true, rfl⟩]

theorem stale_mapper (j : I) :
    stale gate j pr (.mapper :: ws) = stale gate j (pr.step gate .mapper) ws := by
  rw [stale, if_neg (fun hw => nomatch hw.2)]

theorem early_fill {j : I} (h : pr.fills gate = some j) :
    early gate j pr (.stencil :: ws) = decide (j ∈ pr.toMap) := by
  rw [early, if_pos ⟨rfl, h⟩]

theorem early_pass {j : I} {w : Writer} (h : w = .mapper ∨ pr.fills gate ≠ some j) :
    early gate j pr (w :: ws) = early gate j (pr.step gate w) ws := by
  rw [early, if_neg]
  rintro ⟨rfl, hfills⟩
  rcases h with hw | hne
  · exact nomatch hw
  · exact hne hfills

/-- **THE SNAPSHOT** is settled by the schedule: a step does not change it. -/
theorem snapshot_step (h : pr.Once) (w : Writer) :
    snapshot gate f (step gate f g (pr, m) w).1 (step gate f g (pr, m) w).2 ws =
      snapshot gate f pr m (w :: ws) := by
  have hstep : (step gate f g (pr, m) w).1 = pr.step gate w := rfl
  have hmove := move_step gate f g pr m w
  generalize step gate f g (pr, m) w = s at hmove hstep ⊢
  cases hcopied : pr.copied with
  | true =>
      have hkept : s.1.copied = true ∧ s.2.copy = m.copy := by
        cases hmove with
        | idle _ => exact ⟨hcopied, rfl⟩
        | map _ => exact ⟨hcopied, rfl⟩
        | copy hno => exact nomatch hcopied.symm.trans hno
        | wait _ _ => exact ⟨hcopied, rfl⟩
        | fill _ _ _ => exact ⟨hcopied, rfl⟩
      rw [snapshot_copied hcopied, snapshot_copied hkept.1, hkept.2]
  | false =>
      funext j
      rw [snapshot_open hcopied]
      cases hmove with
      | idle hmap =>
          rw [snapshot_open hcopied, stale_mapper, ← hstep]
      | @map i rest hmap =>
          dsimp only at hstep ⊢
          rw [snapshot_open (by exact hcopied), stale_mapper, ← hstep]
          have hnodup := h.map
          rw [hmap] at hnodup ⊢
          by_cases hj : j = i
          · subst hj
            -- the index is mapped now, and not a second time
            have hgone : j ∉ rest := (List.nodup_cons.mp hnodup).1
            have hfresh : stale gate j { pr with toMap := rest, last := some j } ws = false :=
              Bool.eq_false_iff.mpr (fun hs => hgone (mem_of_stale hs))
            rw [if_neg (fun hin => hgone hin.1), if_pos ⟨List.mem_cons_self, hfresh⟩]
            exact Function.update_self j _ m.cell
          · simp only [Function.update_of_ne hj, List.mem_cons, hj, false_or]
      | copy _ =>
          rw [snapshot_copied rfl, stale_copy hcopied, if_neg]
          rintro ⟨hin, hnot⟩
          exact of_decide_eq_false hnot hin
      | wait hyes _ => exact nomatch hyes.symm.trans hcopied
      | fill hyes _ _ => exact nomatch hyes.symm.trans hcopied

theorem outcome_step (h : pr.Once) (w : Writer) :
    outcome gate f g (step gate f g (pr, m) w).1 (step gate f g (pr, m) w).2 ws =
      outcome gate f g pr m (w :: ws) := by
  funext j
  have hsnap : snapshot gate f (step gate f g (pr, m) w).1 (step gate f g (pr, m) w).2 ws =
      snapshot gate f pr m (w :: ws) := snapshot_step h w
  have hstep : (step gate f g (pr, m) w).1 = pr.step gate w := rfl
  rw [outcome, outcome, hsnap]
  have hmove := move_step gate f g pr m w
  generalize step gate f g (pr, m) w = s at hmove hstep ⊢
  cases hmove with
  | idle hmap => rw [early_pass (Or.inl rfl), ← hstep]
  | @map i rest hmap =>
      dsimp only at hstep ⊢
      rw [early_pass (Or.inl rfl), ← hstep]
      have hnodup := h.map
      rw [hmap] at hnodup ⊢
      by_cases hj : j = i
      · subst hj
        have hgone : j ∉ rest := (List.nodup_cons.mp hnodup).1
        rw [if_neg hgone, if_pos List.mem_cons_self, Function.update_self]
      · simp only [Function.update_of_ne hj, List.mem_cons, hj, false_or]
  | copy hcopied =>
      have hnone : pr.fills gate ≠ some j := by
        rw [fills_none hcopied]
        exact nofun
      dsimp only at hstep ⊢
      rw [early_pass (Or.inr hnone), ← hstep]
  | wait hcopied hnone =>
      have hne : pr.fills gate ≠ some j := by
        rw [hnone]
        exact nofun
      rw [early_pass (Or.inr hne), ← hstep]
  | @fill i rest hcopied hsome hfill =>
      dsimp only at hstep ⊢
      have hnodup := h.fill
      rw [hfill] at hnodup ⊢
      by_cases hj : j = i
      · subst hj
        have hgone : j ∉ rest := (List.nodup_cons.mp hnodup).1
        rw [if_neg hgone, if_pos List.mem_cons_self, early_fill hsome, Function.update_self,
          snapshot_copied hcopied]
        -- an index that is still to be mapped gets mapped on top
        by_cases hin : j ∈ pr.toMap
        · rw [if_pos hin, if_pos (decide_eq_true hin)]
        · rw [if_neg hin, if_neg (fun ht => hin (of_decide_eq_true ht))]
      · have hne : pr.fills gate ≠ some j := by
          rw [hsome]
          exact fun heq => hj (Option.some.inj heq).symm
        rw [early_pass (Or.inr hne), ← hstep]
        simp only [Function.update_of_ne hj, List.mem_cons, hj, false_or]

/-- **THE MEMORY OF A FINISHED RUN**: a filled index has the stencil's value
    from the snapshot, mapped if the index was early; any other index of the
    mapper has its value mapped. -/
theorem run_cell (h : pr.Once)
    (hdone : (ws.foldl (step gate f g) (pr, m)).1.Finished) :
    (ws.foldl (step gate f g) (pr, m)).2.cell = outcome gate f g pr m ws := by
  induction ws generalizing pr m with
  | nil =>
      obtain ⟨hmap, -, hfill⟩ := hdone
      funext j
      rw [outcome, if_neg (hfill ▸ List.not_mem_nil), if_neg (hmap ▸ List.not_mem_nil)]
      rfl
  | cons w ws ih =>
      rw [← outcome_step h w]
      exact ih (h.step w) hdone

/-- What is left does not depend on the memory. -/
theorem run_progress (gate : Option I → I → Bool) (f : V → V) (g : (I → V) → I → V)
    (ws : List Writer) (pr : Progress I) (m : Memory I V) :
    (ws.foldl (step gate f g) (pr, m)).1 = ws.foldl (Progress.step gate) pr := by
  induction ws generalizing pr m with
  | nil => rfl
  | cons w ws ih => exact ih _ _

/-! ## When the copy is late enough -/

/-- An early index was stale: the copy comes before the filling. -/
theorem stale_of_early (hopen : pr.copied = false) (h : early gate i pr ws = true) :
    stale gate i pr ws = true := by
  induction ws generalizing pr with
  | nil => exact nomatch h
  | cons w ws ih =>
      cases w with
      | mapper =>
          rw [early_pass (Or.inl rfl)] at h
          rw [stale_mapper]
          refine ih ?_ h
          rw [Progress.step]
          split
          · exact hopen
          · exact hopen
      | stencil =>
          rw [stale_copy hopen]
          exact decide_eq_true (mem_of_early h)

/-- If any index is stale, the last one is. -/
theorem stale_last {l : I} (h : stale gate i pr ws = true) (hl : pr.toMap.getLast? = some l) :
    stale gate l pr ws = true := by
  induction ws generalizing pr with
  | nil => exact nomatch h
  | cons w ws ih =>
      cases w with
      | mapper =>
          rw [stale_mapper] at h ⊢
          refine ih h ?_
          have hin := mem_of_stale h
          rw [Progress.step] at hin ⊢
          split at hin
          · next hmap =>
            rw [hmap] at hl
            exact nomatch hl
          · next j rest hmap =>
            rw [hmap, List.getLast?_cons_of_ne_nil (List.ne_nil_of_mem hin)] at hl
            exact hl
      | stencil =>
          rw [stale] at h ⊢
          split at h
          · next hcopy =>
            rw [if_pos hcopy]
            exact decide_eq_true (List.mem_of_getLast? hl)
          · next hcopy =>
            rw [if_neg hcopy]
            exact ih h (by rwa [step_stencil_toMap])

end Steps

/-! ## One after the other -/

section Passes

variable [DecidableEq I]

/-- A mapper on its own maps the indices of its list. -/
theorem foldl_map_cell (f : V → V) {is : List I} (h : is.Nodup) (m : I → V) :
    is.foldl (fun m i => Function.update m i (f (m i))) m =
      fun j => if j ∈ is then f (m j) else m j := by
  induction is generalizing m with
  | nil => rfl
  | cons i is ih =>
      obtain ⟨hi, hnodup⟩ := List.nodup_cons.mp h
      rw [List.foldl_cons, ih hnodup]
      funext j
      by_cases hj : j = i
      · subst hj
        rw [if_neg hi, if_pos List.mem_cons_self, Function.update_self]
      · simp only [Function.update_of_ne hj, List.mem_cons, hj, false_or]

/-- A stencil on its own fills the indices of its list. -/
theorem foldl_fill_cell (v : I → V) (is : List I) (m : I → V) :
    is.foldl (fun m i => Function.update m i (v i)) m = fun j => if j ∈ is then v j else m j := by
  induction is generalizing m with
  | nil => rfl
  | cons i is ih =>
      rw [List.foldl_cons, ih]
      funext j
      by_cases hj : j = i
      · subst hj
        rw [if_pos List.mem_cons_self, Function.update_self]
        exact ite_self _
      · simp only [Function.update_of_ne hj, List.mem_cons, hj, false_or]

end Passes

end OsStencil
