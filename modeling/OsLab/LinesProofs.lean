import OsLab.LoopProofs
import OsLab.ScanProofs

/-! # Lines of a text, read into a buffer

    `fgets` reads up to the end of a line, or until its buffer of `n` bytes
    is full.  `lineTurn` is the body of a loop that reads a line a turn and
    leaves at an empty one, or where the text ends.

    Lines that fit into the buffer are read one by one if there is room for
    the newline too (`lines_loop`).  What is left of a line without that
    room is its newline, which passes for an empty line (`lines_broken`). -/

namespace OsLines

open OsLoop OsScan

/-- The text up to its first newline, and with it. -/
def upToNewline : Bytes → Bytes
  | [] => []
  | c :: cs => if c = 10 then [c] else c :: upToNewline cs

/-- `fgets(line, n, in)`: the line, and what is left of the text. -/
def fgets (n : Nat) (text : Bytes) : Option (Bytes × Bytes) :=
  let line := upToNewline (text.take (n - 1))
  if text = [] then none else some (line, text.drop line.length)

/-- A line that the buffer has room for. -/
structure Fits (n : Nat) (line : Bytes) : Prop where
  nonempty : line ≠ []
  noNewline : ∀ c ∈ line, c ≠ 10
  short : line.length < n

section Fgets

variable {n : Nat} {line text rest tail : Bytes}

theorem upToNewline_append (h : ∀ c ∈ line, c ≠ 10) :
    upToNewline (line ++ tail) = line ++ upToNewline tail := by
  induction line with
  | nil => rfl
  | cons c cs ih =>
      rw [List.forall_mem_cons] at h
      rw [List.cons_append, upToNewline, if_neg h.1, ih h.2, List.cons_append]

theorem upToNewline_self (h : ∀ c ∈ line, c ≠ 10) : upToNewline line = line := by
  have hself : upToNewline (line ++ []) = line ++ [] := upToNewline_append h
  rwa [List.append_nil] at hself

theorem upToNewline_ne_nil (h : text ≠ []) : upToNewline text ≠ [] := by
  obtain ⟨c, cs, rfl⟩ := List.exists_cons_of_ne_nil h
  rw [upToNewline]
  split
  · exact List.cons_ne_nil c _
  · exact List.cons_ne_nil c _

/-- A line with room for its newline is read with it. -/
theorem fgets_line (h : Fits n line) (hroom : line.length + 1 < n) (rest : Bytes) :
    fgets n (line ++ 10 :: rest) = some (line ++ [10], rest) := by
  obtain ⟨m, hm⟩ : ∃ m, n - 1 = line.length + (m + 1) := ⟨n - 1 - line.length - 1, by omega⟩
  have htake : upToNewline ((line ++ 10 :: rest).take (n - 1)) = line ++ [10] := by
    rw [hm, List.take_length_add_append, List.take_succ_cons, upToNewline_append h.noNewline,
      upToNewline, if_pos rfl]
  have hne : line ++ 10 :: rest ≠ [] := List.append_ne_nil_of_left_ne_nil h.nonempty _
  rw [fgets, htake, if_neg hne, List.append_cons line 10 rest, List.drop_left]

/-- A line that fills the buffer is read without its newline. -/
theorem fgets_full (h : Fits n line) (hfull : line.length + 1 = n) (rest : Bytes) :
    fgets n (line ++ rest) = some (line, rest) := by
  have htake : upToNewline ((line ++ rest).take (n - 1)) = line := by
    rw [List.take_left' (show line.length = n - 1 by omega), upToNewline_self h.noNewline]
  have hne : line ++ rest ≠ [] := List.append_ne_nil_of_left_ne_nil h.nonempty _
  rw [fgets, htake, if_neg hne, List.drop_left]

/-- So is the last line of a text that does not end in a newline. -/
theorem fgets_last (h : Fits n line) : fgets n line = some (line, []) := by
  have hshort := h.short
  rw [fgets, List.take_of_length_le (show line.length ≤ n - 1 by omega),
    upToNewline_self h.noNewline, if_neg h.nonempty, List.drop_length]

theorem fgets_newline (hn : 1 < n) (rest : Bytes) : fgets n (10 :: rest) = some ([10], rest) := by
  obtain ⟨m, hm⟩ : ∃ m, n - 1 = m + 1 := ⟨n - 2, by omega⟩
  rw [fgets, hm, List.take_succ_cons, upToNewline, if_pos rfl]
  rfl

/-- Some of the text is read, unless it has ended. -/
theorem fgets_some (hn : 1 < n) (hne : text ≠ []) :
    ∃ line rest, fgets n text = some (line, rest) ∧ rest.length < text.length := by
  refine ⟨_, _, if_neg hne, ?_⟩
  have hwindow : text.take (n - 1) ≠ [] := by
    rw [Ne, List.take_eq_nil_iff, not_or]
    exact ⟨by omega, hne⟩
  have hline := List.length_pos_iff.mpr (upToNewline_ne_nil hwindow)
  have htext := List.length_pos_iff.mpr hne
  rw [List.length_drop]
  omega

end Fgets

/-! ## Reading line by line -/

section Loop

variable {ε τ : Type} {n fuel : Nat} {stuck : ε} {act : τ → Bytes → Except ε τ}
  {l line text rest behind next : Bytes} {ls : List Bytes} {t : τ} {r : Bytes × τ}

/-- A turn of `while (fgets(line, n, in) != NULL)` that leaves at an empty
    line; `act` is what is done with another. -/
def lineTurn (n : Nat) (act : τ → Bytes → Except ε τ) (s : Bytes × τ) :
    Except ε (Turn (Bytes × τ) (Bytes × τ)) :=
  match fgets n s.1 with
  | none => .ok (.done s)
  | some (line, rest) =>
      if line.head? = some 10 then .ok (.done (rest, s.2))
      else do .ok (.again (rest, ← act s.2 line))

/-- Lines with a newline in front of each, and what is behind the last. -/
def block : List Bytes → Bytes → Bytes
  | [], behind => behind
  | l :: ls, behind => 10 :: (l ++ block ls behind)

/-- What is behind the last line of a block: the end of the text, a newline
    and its end, or an empty line and the text `next`. -/
inductive Ends : Bytes → Bytes → Prop where
  | eof : Ends [] []
  | newline : Ends [10] []
  | blank {next : Bytes} (h : next.dropWhile isSpace = next) : Ends (10 :: 10 :: next) next

/-- Only the last line may leave no room for its newline. -/
def Whole (n : Nat) (ls : List Bytes) : Prop := ∀ l ∈ ls.dropLast, l.length + 1 < n

/-- A line that is not empty is acted on. -/
theorem loop_line (hread : fgets n text = some (line, rest)) (hline : line.head? ≠ some 10)
    (fuel : Nat) (t : τ) : loop stuck (lineTurn n act) (fuel + 1) (text, t) =
      act t line >>= fun t' => loop stuck (lineTurn n act) fuel (rest, t') := by
  have hturn : lineTurn n act (text, t) = act t line >>= fun t' => .ok (.again (rest, t')) := by
    rw [lineTurn, hread]
    exact if_neg hline
  cases hact : act t line with
  | error e =>
      rw [hact] at hturn
      exact loop_fail hturn fuel
  | ok t' =>
      rw [hact] at hturn
      exact loop_again hturn fuel

/-- A turn reads some of the text, unless it has ended. -/
theorem lineTurn_cases (hn : 1 < n) {s : Bytes × τ} {turn : Turn (Bytes × τ) (Bytes × τ)}
    (h : lineTurn n act s = .ok turn) : (s.1 = [] ∧ turn = .done s) ∨
      ∃ r : Bytes × τ, r.1.length < s.1.length ∧ (turn = .done r ∨ turn = .again r) := by
  by_cases hnil : s.1 = []
  · rw [lineTurn, hnil] at h
    cases h
    exact Or.inl ⟨hnil, rfl⟩
  · obtain ⟨line, rest, hread, hlt⟩ := fgets_some hn hnil
    rw [lineTurn, hread] at h
    dsimp only at h
    split at h
    · cases h
      exact Or.inr ⟨(rest, s.2), hlt, Or.inl rfl⟩
    · obtain ⟨t', -, hend⟩ := bind_ok.mp h
      cases hend
      exact Or.inr ⟨(rest, t'), hlt, Or.inr rfl⟩

/-- The loop does not give back what it has read. -/
theorem loop_shorter (hn : 1 < n) (hne : text ≠ [])
    (h : loop stuck (lineTurn n act) fuel (text, t) = .ok r) : r.1.length < text.length := by
  obtain ⟨s, hvisits, hdone⟩ := loop_ok h
  have hs : s.1.length < text.length ∨ s.1 = text := by
    refine visits_inv (I := fun s => s.1.length < text.length ∨ s.1 = text)
      (fun s s' hs hturn => ?_) hvisits (Or.inr rfl)
    rcases lineTurn_cases hn hturn with ⟨-, hstop⟩ | ⟨r', hlt, hstop | hnext⟩
    · exact nomatch hstop
    · exact nomatch hstop
    · cases hnext
      rcases hs with hs | hs
      · exact Or.inl (hlt.trans hs)
      · exact Or.inl (hs ▸ hlt)
  have hle : s.1.length ≤ text.length := hs.elim Nat.le_of_lt fun hs => (congrArg _ hs).le
  rcases lineTurn_cases hn hdone with ⟨hnil, hstop⟩ | ⟨r', hlt, hstop | hnext⟩
  · cases hstop
    rw [hnil]
    exact List.length_pos_iff.mpr hne
  · cases hstop
    exact hlt.trans_le hle
  · exact nomatch hnext

theorem Fits.head (h : Fits n line) (tail : Bytes) : (line ++ tail).head? ≠ some 10 := by
  obtain ⟨c, cs, rfl⟩ := List.exists_cons_of_ne_nil h.nonempty
  intro hc
  exact h.noNewline c List.mem_cons_self (Option.some.inj hc)

theorem Ends.dropWhile (h : Ends behind next) : behind.dropWhile isSpace = next := by
  cases h with
  | eof => rfl
  | newline => rfl
  | blank h =>
      rw [List.dropWhile_cons_of_pos (by decide), List.dropWhile_cons_of_pos (by decide), h]

theorem Ends.length_le (h : Ends behind next) : next.length ≤ behind.length := by
  rw [← h.dropWhile]
  exact (List.dropWhile_suffix _).length_le

/-- The loop leaves behind the last line, whose newline may still be there. -/
theorem Ends.stops (h : Ends behind next) (stuck : ε) (act : τ → Bytes → Except ε τ) (hn : 1 < n)
    (hrest : rest = behind ∨ rest = behind.tail) : ∃ rest', rest'.dropWhile isSpace = next ∧
      ∀ (t : τ) (fuel : Nat), 0 < fuel →
        loop stuck (lineTurn n act) fuel (rest, t) = .ok (rest', t) := by
  have heof : ∀ (t : τ) (fuel : Nat), 0 < fuel →
      loop stuck (lineTurn n act) fuel ([], t) = .ok ([], t) := by
    intro t fuel hfuel
    obtain ⟨fuel, rfl⟩ := Nat.exists_eq_add_one_of_ne_zero (Nat.ne_of_gt hfuel)
    exact loop_done rfl fuel
  have hempty : ∀ (rest : Bytes) (t : τ) (fuel : Nat), 0 < fuel →
      loop stuck (lineTurn n act) fuel (10 :: rest, t) = .ok (rest, t) := by
    intro rest t fuel hfuel
    obtain ⟨fuel, rfl⟩ := Nat.exists_eq_add_one_of_ne_zero (Nat.ne_of_gt hfuel)
    refine loop_done ?_ fuel
    rw [lineTurn, fgets_newline hn]
    rfl
  rcases hrest with rfl | rfl
  · cases h with
    | eof => exact ⟨[], rfl, heof⟩
    | newline => exact ⟨[], rfl, hempty []⟩
    | blank h =>
        exact ⟨10 :: next, by rw [List.dropWhile_cons_of_pos (by decide), h], hempty (10 :: next)⟩
  · cases h with
    | eof => exact ⟨[], rfl, heof⟩
    | newline => exact ⟨[], rfl, heof⟩
    | blank h => exact ⟨next, h, hempty next⟩

/-- The last line is read with its newline or without it. -/
theorem fgets_end (h : Ends behind next) (hl : Fits n l) :
    ∃ line rest, fgets n (l ++ behind) = some (line, rest) ∧ (line = l ∨ line = l ++ [10]) ∧
      (rest = behind ∨ rest = behind.tail) := by
  have hshort := hl.short
  rcases Nat.lt_or_ge (l.length + 1) n with hroom | hge
  · cases h with
    | eof =>
        rw [List.append_nil]
        exact ⟨l, [], fgets_last hl, Or.inl rfl, Or.inl rfl⟩
    | newline => exact ⟨l ++ [10], [], fgets_line hl hroom [], Or.inr rfl, Or.inr rfl⟩
    | blank _ => exact ⟨l ++ [10], _, fgets_line hl hroom _, Or.inr rfl, Or.inr rfl⟩
  · exact ⟨l, behind, fgets_full hl (by omega) behind, Or.inl rfl, Or.inl rfl⟩

/-- **A BLOCK IS READ LINE BY LINE** up to its end, for an action that does
    not look at the newline. -/
theorem lines_loop (hends : Ends behind next) (ls : List Bytes) : ∀ {l : Bytes} {fuel : Nat},
    (∀ k ∈ l :: ls, Fits n k) → Whole n (l :: ls) →
    (∀ k ∈ l :: ls, ∀ t, act t (k ++ [10]) = act t k) → (l ++ block ls behind).length < fuel →
    ∃ rest, rest.dropWhile isSpace = next ∧ ∀ t : τ,
      loop stuck (lineTurn n act) fuel (l ++ block ls behind, t) =
        runAll act t (l :: ls) >>= fun t' => .ok (rest, t') := by
  induction ls with
  | nil =>
      intro l fuel hfits _ hact hfuel
      have hl := hfits l List.mem_cons_self
      have hlong := List.length_pos_iff.mpr hl.nonempty
      have hshort := hl.short
      obtain ⟨line, rest, hread, hline, hrest⟩ := fgets_end hends hl
      obtain ⟨rest', hnext, hstop⟩ := hends.stops stuck act (show 1 < n by omega) hrest
      obtain ⟨fuel, rfl⟩ := Nat.exists_eq_add_one_of_ne_zero (Nat.ne_zero_of_lt hfuel)
      refine ⟨rest', hnext, fun t => ?_⟩
      have hhead : line.head? ≠ some 10 := by
        rcases hline with rfl | rfl
        · have hhead := hl.head []
          rwa [List.append_nil] at hhead
        · exact hl.head [10]
      have hsame : act t line = act t l := by
        rcases hline with rfl | rfl
        · rfl
        · exact hact l List.mem_cons_self t
      rw [block, loop_line hread hhead, hsame, runAll]
      rw [block, List.length_append] at hfuel
      cases act t l with
      | error e => rfl
      | ok t' => exact hstop t' fuel (by omega)
  | cons l' ls ih =>
      intro l fuel hfits hwhole hact hfuel
      rw [List.forall_mem_cons] at hfits hact
      have hroom : l.length + 1 < n := hwhole l (by
        rw [List.dropLast_cons_cons]
        exact List.mem_cons_self)
      have hwhole' : Whole n (l' :: ls) := by
        intro k hk
        refine hwhole k ?_
        rw [List.dropLast_cons_cons]
        exact List.mem_cons_of_mem l hk
      obtain ⟨fuel, rfl⟩ := Nat.exists_eq_add_one_of_ne_zero (Nat.ne_zero_of_lt hfuel)
      rw [block, List.length_append, List.length_cons] at hfuel
      have hfuel' : (l' ++ block ls behind).length < fuel := by omega
      obtain ⟨rest, hnext, hloop⟩ := ih hfits.2 hwhole' hact.2 hfuel'
      refine ⟨rest, hnext, fun t => ?_⟩
      rw [block, loop_line (fgets_line hfits.1 hroom _) (hfits.1.head [10]), hact.1 t, runAll]
      cases act t l with
      | error e => rfl
      | ok t' => exact hloop t'

/-- **A LINE WITHOUT ROOM** for its newline ends the loop in front of the line
    that follows it. -/
theorem lines_broken (ls : List Bytes) : ∀ {l : Bytes} {fuel : Nat} {t : τ},
    (∀ k ∈ l :: ls, Fits n k) → ¬ Whole n (l :: ls) →
    loop stuck (lineTurn n act) fuel (l ++ block ls behind, t) = .ok r →
    ∃ l' ls', l' ∈ ls ∧ r.1 = l' ++ block ls' behind := by
  induction ls with
  | nil => exact fun _ hnot => absurd (fun _ hk => nomatch hk) hnot
  | cons l' ls ih =>
      intro l fuel t hfits hnot h
      rw [List.forall_mem_cons] at hfits
      have hlong := List.length_pos_iff.mpr hfits.1.nonempty
      have hshort := hfits.1.short
      cases fuel with
      | zero => exact nomatch h
      | succ fuel =>
          by_cases hroom : l.length + 1 < n
          · have hnot' : ¬ Whole n (l' :: ls) := by
              intro hwhole
              refine hnot fun k hk => ?_
              rw [List.dropLast_cons_cons] at hk
              rcases List.mem_cons.mp hk with rfl | hk
              · exact hroom
              · exact hwhole k hk
            rw [block, loop_line (fgets_line hfits.1 hroom _) (hfits.1.head [10])] at h
            obtain ⟨t', -, h⟩ := bind_ok.mp h
            obtain ⟨l'', ls'', hmem, hrest⟩ := ih hfits.2 hnot' h
            exact ⟨l'', ls'', List.mem_cons_of_mem l' hmem, hrest⟩
          · have hhead := hfits.1.head []
            rw [List.append_nil] at hhead
            rw [loop_line (fgets_full hfits.1 (by omega) _) hhead] at h
            obtain ⟨t', -, h⟩ := bind_ok.mp h
            -- the newline that was left is an empty line
            cases fuel with
            | zero => exact nomatch h
            | succ fuel =>
                have hturn : lineTurn n act (block (l' :: ls) behind, t') =
                    .ok (.done (l' ++ block ls behind, t')) := by
                  rw [lineTurn, block, fgets_newline (by omega)]
                  rfl
                cases (loop_done hturn fuel).symm.trans h
                exact ⟨l', ls, List.mem_cons_self, rfl⟩

end Loop

end OsLines
