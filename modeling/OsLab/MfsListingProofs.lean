import OsLab.MfsGetdentsProofs

/-! # Reading a whole directory

    A program lists a directory by calling `getdents` on one descriptor until
    it answers zero.  VFS keeps the position between the calls, and moves it
    only when a call has delivered something; the directory may change between
    the calls.

    Each call that delivers covers the slots from one position to the next, so
    that over a whole run no slot is delivered twice and none in use is passed
    over (`directory_listed`), also when calls fail on the way. -/

namespace MfsListing

open OsLoop OsFill MfsGetdentsModel MfsGetdents
open MfsModel (ok eperm)

variable {L : Layout}

/-- A call: what the directory and the code around it are at the time, and the
    size of the buffer.  `req_getdents` hands over what the file server answers:
    the bytes and the new position, or an error. -/
structure Call (L : Layout) where
  env : Env
  dir : Dir L
  size : Nat
  req : Result → Int × Nat
  req_ok : ∀ res, res.r = ok → req res = ((res.nbytes : Int), res.seekPos)
  req_error : ∀ res, res.r ≠ ok → (req res).1 = res.r

/-- The call as VFS and MFS serve it. -/
def Call.serve (c : Call L) (filp : Filp) : Except Fault (Int × Filp) :=
  doGetdents filp fun pos => do
    let res ← fsGetdents c.env (some c.dir) c.size pos
    .ok (c.req res)

/-- What is in the caller's buffer afterwards. -/
def Call.userbuf (c : Call L) (pos : Nat) : List (Nat × Dirent) :=
  match fsGetdents c.env (some c.dir) c.size pos with
  | .ok res => res.scan.userbuf
  | .error _ => []

/-- Whole entries, all behind the end of the directory free; errors are negative,
    and sizes an `int`. -/
structure Call.Sound (c : Call L) : Prop where
  whole : L.entrySize ∣ c.dir.size
  free : ∀ i dp, c.dir.size ≤ i * L.entrySize → slot c.dir i = some dp → dp.ino = 0
  codes : ∀ t off len, c.env.copyCode t off len ≠ ok → c.env.copyCode t off len < 0
  size : c.size ≤ 2147483647

/-- The slot holds an entry in use. -/
def InUse (dir : Dir L) (i : Nat) : Prop := ∃ dp, slot dir i = some dp ∧ dp.ino ≠ 0

/-- The entries in use between two positions. -/
def between (dir : Dir L) (pos pos' : Nat) : List (Nat × Direct L) :=
  (inUse (dirEntries dir (pos / L.entrySize) (lastSlot dir))).filter (fun e => e.1 < pos')

section Entries

variable {dir : Dir L} {lo hi pos pos' : Nat} {e : Nat × Direct L}

theorem mem_dirEntries : e ∈ dirEntries dir lo hi ↔
    ∃ i, lo ≤ i ∧ i < hi ∧ e.1 = i * L.entrySize ∧ slot dir i = some e.2 := by
  simp only [dirEntries, List.mem_filterMap, List.mem_range'_1, Option.map_eq_some_iff]
  constructor
  · rintro ⟨i, ⟨hlo, hhi⟩, dp, hslot, rfl⟩
    exact ⟨i, hlo, by omega, rfl, hslot⟩
  · rintro ⟨i, hlo, hhi, hpos, hslot⟩
    exact ⟨i, ⟨hlo, by omega⟩, e.2, hslot, Prod.ext hpos.symm rfl⟩

theorem mem_inUse {es : List (Nat × Direct L)} : e ∈ inUse es ↔ e ∈ es ∧ e.2.ino ≠ 0 := by
  simp [inUse]

/-- Entries come in the order of their positions. -/
theorem dirEntries_sorted (dir : Dir L) (lo hi : Nat) :
    (inUse (dirEntries dir lo hi)).Pairwise (fun a b => a.1 < b.1) := by
  refine List.Pairwise.filter _ ?_
  rw [dirEntries, List.pairwise_filterMap]
  refine (List.pairwise_lt_range' (n := hi - lo) (s := lo)).imp ?_
  intro i j hij a ha b hb
  obtain ⟨dp, -, rfl⟩ := Option.map_eq_some_iff.mp ha
  obtain ⟨dp', -, rfl⟩ := Option.map_eq_some_iff.mp hb
  exact Nat.mul_lt_mul_of_pos_right hij (entrySize_pos L)

theorem between_sorted (dir : Dir L) (pos pos' : Nat) :
    (between dir pos pos').Pairwise (fun a b => a.1 < b.1) :=
  (dirEntries_sorted dir _ _).filter _

/-- The last slot is not before the end of the directory. -/
theorem size_le_lastSlot (dir : Dir L) : dir.size ≤ lastSlot dir * L.entrySize := by
  have hbs := blockSize_pos L
  have hceil := Nat.div_add_mod (dir.size + (L.blockSize - 1)) L.blockSize
  have hlt := Nat.mod_lt (dir.size + (L.blockSize - 1)) hbs
  have hmul : lastSlot dir * L.entrySize =
      L.blockSize * ((dir.size + (L.blockSize - 1)) / L.blockSize) := by
    rw [lastSlot, Nat.mul_assoc, Nat.mul_comm]
    rfl
  omega

theorem of_mem_between (hpos : L.entrySize ∣ pos) (he : e ∈ between dir pos pos') :
    pos ≤ e.1 ∧ e.1 < pos' ∧ ∃ i, e.1 = i * L.entrySize ∧ slot dir i = some e.2 ∧ e.2.ino ≠ 0 := by
  obtain ⟨hmem, hlt⟩ := List.mem_filter.mp he
  obtain ⟨hmem, hino⟩ := mem_inUse.mp hmem
  obtain ⟨i, hlo, -, hi, hslot⟩ := mem_dirEntries.mp hmem
  refine ⟨?_, of_decide_eq_true hlt, i, hi, hslot, hino⟩
  obtain ⟨k, rfl⟩ := hpos
  rw [Nat.mul_div_cancel_left _ (entrySize_pos L)] at hlo
  rw [hi, Nat.mul_comm]
  exact Nat.mul_le_mul_right _ hlo

/-- An entry in use from a position on is in the rest of the directory. -/
theorem mem_rest {i : Nat} {dp : Direct L} (hpos : L.entrySize ∣ pos) (hge : pos ≤ i * L.entrySize)
    (hlt : i * L.entrySize < dir.size) (hslot : slot dir i = some dp) (hino : dp.ino ≠ 0) :
    (i * L.entrySize, dp) ∈ inUse (dirEntries dir (pos / L.entrySize) (lastSlot dir)) := by
  have hlast := size_le_lastSlot dir
  refine mem_inUse.mpr ⟨mem_dirEntries.mpr ⟨i, ?_, ?_, rfl, hslot⟩, hino⟩
  · obtain ⟨k, rfl⟩ := hpos
    rw [Nat.mul_div_cancel_left _ (entrySize_pos L)]
    rw [Nat.mul_comm] at hge
    exact Nat.le_of_mul_le_mul_right hge (entrySize_pos L)
  · exact Nat.lt_of_mul_lt_mul_right (a := L.entrySize) (Nat.lt_of_lt_of_le hlt hlast)

theorem mem_between {i : Nat} {dp : Direct L} (hpos : L.entrySize ∣ pos)
    (hge : pos ≤ i * L.entrySize) (hlt : i * L.entrySize < pos') (hle : pos' ≤ dir.size)
    (hslot : slot dir i = some dp) (hino : dp.ino ≠ 0) :
    (i * L.entrySize, dp) ∈ between dir pos pos' :=
  List.mem_filter.mpr ⟨mem_rest hpos hge (Nat.lt_of_lt_of_le hlt hle) hslot hino,
    decide_eq_true hlt⟩

theorem between_self (hpos : L.entrySize ∣ pos) : between dir pos pos = [] := by
  refine List.eq_nil_iff_forall_not_mem.mpr fun e he => ?_
  obtain ⟨hge, hlt, -⟩ := of_mem_between hpos he
  exact absurd hge (Nat.not_le_of_lt hlt)

/-- A prefix of a sorted list is what lies below the next element. -/
theorem filter_taken {taken rest : List (Nat × Direct L)}
    (hsorted : (taken ++ e :: rest).Pairwise (fun a b => a.1 < b.1)) :
    (taken ++ e :: rest).filter (fun x => x.1 < e.1) = taken := by
  obtain ⟨-, htail, hcross⟩ := List.pairwise_append.mp hsorted
  have hbelow := (List.pairwise_cons.mp htail).1
  rw [List.filter_append, List.filter_eq_self.mpr, List.filter_eq_nil_iff.mpr, List.append_nil]
  · intro x hx
    rcases List.mem_cons.mp hx with rfl | hx
    · simp
    · have hlt := hbelow x hx
      simp only [decide_eq_true_eq]
      omega
  · intro x hx
    exact decide_eq_true (hcross x hx e List.mem_cons_self)

end Entries

/-! ## One call -/

section OneCall

variable {c : Call L} {filp filp' : Filp} {r : Int} {pos : Nat}

theorem firstFailure_neg (hcodes : ∀ t off len, c.env.copyCode t off len ≠ ok →
    c.env.copyCode t off len < 0) {size clock off : Nat} {ns rest : List Nat} {code : Int}
    (h : firstFailure c.env size clock off ns = some (rest, code)) : code < 0 := by
  induction ns generalizing clock off with
  | nil => cases h
  | cons n ns ih =>
      rw [firstFailure] at h
      split at h
      · next hno =>
        obtain ⟨-, rfl⟩ := Prod.mk.inj (Option.some.inj h)
        rw [safecopyto] at hno ⊢
        split
        · decide
        · next hfit =>
          rw [if_neg hfit] at hno
          exact hcodes _ _ _ hno
      · exact ih h

/-- What a request that succeeds has listed, and where the next one starts. -/
theorem delivered_between (hsound : c.Sound) (pos : Nat) :
    (listing c.dir c.size pos).1 =
        between c.dir pos (nextPos c.dir (listing c.dir c.size pos).2) ∧
      nextPos c.dir (listing c.dir c.size pos).2 ≤ c.dir.size ∧
      L.entrySize ∣ nextPos c.dir (listing c.dir c.size pos).2 := by
  have hsplit := fill_append entryLen c.size 0
    (inUse (dirEntries c.dir (pos / L.entrySize) (lastSlot c.dir)))
  have hsplit : (listing c.dir c.size pos).1 ++ (listing c.dir c.size pos).2 =
    inUse (dirEntries c.dir (pos / L.entrySize) (lastSlot c.dir)) := hsplit
  have hinside : ∀ e ∈ inUse (dirEntries c.dir (pos / L.entrySize) (lastSlot c.dir)),
      e.1 < c.dir.size ∧ L.entrySize ∣ e.1 := by
    intro e he
    obtain ⟨hmem, hino⟩ := mem_inUse.mp he
    obtain ⟨i, -, -, hi, hslot⟩ := mem_dirEntries.mp hmem
    refine ⟨?_, by rw [hi]; exact Nat.dvd_mul_left _ _⟩
    by_contra hge
    exact hino (hsound.free i e.2 (by rw [← hi]; exact Nat.le_of_not_lt hge) hslot)
  cases hrest : (listing c.dir c.size pos).2 with
  | nil =>
      rw [hrest, List.append_nil] at hsplit
      refine ⟨?_, Nat.le_refl _, hsound.whole⟩
      rw [between, List.filter_eq_self.mpr, hsplit]
      exact fun e he => decide_eq_true (hinside e he).1
  | cons e rest =>
      rw [hrest] at hsplit
      have he := hinside e (by rw [← hsplit]; simp)
      refine ⟨?_, he.1.le, he.2⟩
      have hsorted := dirEntries_sorted c.dir (pos / L.entrySize) (lastSlot c.dir)
      rw [between, ← hsplit]
      rw [← hsplit] at hsorted
      exact (filter_taken hsorted).symm

/-- The records that a call has handed over: none unless it answers a number of
    bytes. -/
structure Got (c : Call L) (pos : Nat) (r : Int) (es : List (Nat × Direct L)) : Prop where
  some_bytes : 0 < r → ∃ recs, Records c.env es recs ∧ c.userbuf pos = place Dirent.reclen 0 recs ∧
    (total Dirent.reclen recs : Int) = r
  none_bytes : r ≤ 0 → es = []

/-- A call that answers `r` hands over the entries in use between the position
    before and the position after it, which lies inside the directory when it
    has moved.  When `r` is zero there are none from the position on. -/
structure Covers (c : Call L) (filp : Filp) (r : Int) (filp' : Filp) : Prop where
  got : Got c filp.pos r (between c.dir filp.pos filp'.pos)
  same : filp' = { filp with pos := filp'.pos }
  aligned : L.entrySize ∣ filp'.pos
  forward : filp.pos ≤ filp'.pos
  inside : filp.pos < filp'.pos → filp'.pos ≤ c.dir.size
  finished : r = 0 → ∀ i, filp.pos ≤ i * L.entrySize → ¬ InUse c.dir i

/-- A call that hands over nothing leaves the position. -/
theorem Covers.stay (hpos : L.entrySize ∣ filp.pos) (hr : r ≤ 0)
    (hover : r = 0 → ∀ i, filp.pos ≤ i * L.entrySize → ¬ InUse c.dir i) :
    Covers c filp r filp where
  got := ⟨fun h => absurd hr (by omega), fun _ => between_self hpos⟩
  same := rfl
  aligned := hpos
  forward := Nat.le_refl _
  inside := fun h => absurd h (Nat.lt_irrefl _)
  finished := hover

/-- **ONE CALL** covers the slots from one position to the next. -/
theorem serve_covers (hsound : c.Sound) (hread : filp.readable = true) (hdir : filp.isDir = true)
    (hpos : L.entrySize ∣ filp.pos) (hrun : c.serve filp = .ok (r, filp')) :
    Covers c filp r filp' := by
  rw [Call.serve, doGetdents, if_neg (by rw [hread]; simp), if_neg (by rw [hdir]; simp)] at hrun
  obtain ⟨x, hx, hrun⟩ := bind_ok.mp hrun
  obtain ⟨res, hres, hx⟩ := bind_ok.mp hx
  obtain rfl := Except.ok.inj hx
  obtain ⟨rfl, rfl⟩ := Prod.mk.inj (Except.ok.inj hrun)
  have huser : c.userbuf filp.pos = res.scan.userbuf := by rw [Call.userbuf, hres]
  obtain ⟨-, hans⟩ := getdents_spec hsound.size hpos hres
  -- an error of the request is negative, and the position stays
  have herror : res.r < 0 → Covers c filp (c.req res).1
      (if (c.req res).1 > 0 then { filp with pos := (c.req res).2 } else filp) := by
    intro hneg
    rw [c.req_error res (by show res.r ≠ 0; omega), if_neg (by omega)]
    exact .stay hpos hneg.le (fun h0 => by omega)
  rw [Answered] at hans
  cases hcopies : firstFailure c.env c.size 0 0 (copies c.dir c.size filp.pos) with
  | some failure =>
      obtain ⟨rest, code⟩ := failure
      rw [hcopies] at hans
      exact herror (by rw [hans.2.1]; exact firstFailure_neg hsound.codes hcopies)
  | none =>
      rw [hcopies] at hans
      obtain ⟨-, hdel⟩ := hans
      rw [Delivered] at hdel
      split at hdel
      · exact herror (by rw [hdel.1]; decide)
      · next hfull =>
        obtain ⟨hok, hbytes, hnext, -, recs, hrecs, hplace⟩ := hdel
        obtain ⟨htaken, hinside, haligned⟩ := delivered_between hsound filp.pos
        rw [c.req_ok res hok, hbytes, hnext]
        by_cases h0 : (listing c.dir c.size filp.pos).1 = []
        · rw [h0, total_nil, if_neg (by simp)]
          refine .stay hpos (Int.le_refl _) (fun _ i hge hin => ?_)
          -- nothing was left of the directory
          have hrest : (listing c.dir c.size filp.pos).2 = [] := by
            by_contra hne
            exact hfull ⟨h0, hne⟩
          obtain ⟨dp, hslot, hino⟩ := hin
          have hlt : i * L.entrySize < c.dir.size := by
            by_contra hend
            exact hino (hsound.free i dp (Nat.le_of_not_lt hend) hslot)
          have hmem := mem_rest hpos hge hlt hslot hino
          have hsplit : (listing c.dir c.size filp.pos).1 ++ (listing c.dir c.size filp.pos).2 =
              inUse (dirEntries c.dir (filp.pos / L.entrySize) (lastSlot c.dir)) :=
            fill_append _ _ _ _
          rw [← hsplit, h0, hrest] at hmem
          cases hmem
        · have htotal : 0 < total entryLen (listing c.dir c.size filp.pos).1 :=
            Nat.pos_of_ne_zero (fun hz => h0 ((total_eq_zero entryLen_pos).mp hz))
          rw [if_pos (by simpa using htotal)]
          have hlt : filp.pos < nextPos c.dir (listing c.dir c.size filp.pos).2 := by
            obtain ⟨e, he⟩ := List.exists_mem_of_ne_nil _ h0
            rw [htaken] at he
            obtain ⟨hge, hlt, -⟩ := of_mem_between hpos he
            exact Nat.lt_of_le_of_lt hge hlt
          refine ⟨⟨fun _ => ⟨recs, ?_, huser.trans hplace, ?_⟩, fun hle => ?_⟩, rfl, haligned, hlt.le,
            fun _ => hinside, fun hz => ?_⟩
          · rw [← htaken]
            exact hrecs
          · rw [hrecs.total]
          · simp only at hle
            omega
          · simp only at hz
            omega

end OneCall

/-! ## Runs -/

/-- A call that was made from a position, and its answer. -/
structure Reply (L : Layout) where
  call : Call L
  pos : Nat
  r : Int

/-- Calls on one descriptor, one after the other. -/
inductive Listed : Filp → List (Reply L) → Filp → Prop
  | nil (filp : Filp) : Listed filp [] filp
  | cons {filp filp' filp'' : Filp} {c : Call L} {r : Int} {rs : List (Reply L)}
      (hserve : c.serve filp = .ok (r, filp')) (hrest : Listed filp' rs filp'') :
      Listed filp (⟨c, filp.pos, r⟩ :: rs) filp''

/-- The last call has answered zero. -/
def Ended (rs : List (Reply L)) : Prop := ∃ x ∈ rs.getLast?, x.r = 0

/-- The entries that each call has handed over, in a run from one position to
    another. -/
structure Lists (rs : List (Reply L)) (pos pos' : Nat) (ess : List (List (Nat × Direct L))) :
    Prop where
  got : List.Forall₂ (fun x es => Got x.call x.pos x.r es ∧ ∀ e ∈ es, ∃ i,
    e.1 = i * L.entrySize ∧ slot x.call.dir i = some e.2 ∧ e.2.ino ≠ 0) rs ess
  sorted : ess.flatten.Pairwise (fun a b => a.1 < b.1)
  range : ∀ e ∈ ess.flatten, pos ≤ e.1 ∧ e.1 < pos'
  all : ∀ i, pos ≤ i * L.entrySize → i * L.entrySize < pos' ∨ Ended rs →
    (∀ x ∈ rs, InUse x.call.dir i) → ∃ e ∈ ess.flatten, e.1 = i * L.entrySize

section Runs

variable {filp filp' : Filp} {rs : List (Reply L)}

theorem listed_lists (hlisted : Listed filp rs filp') (hsound : ∀ x ∈ rs, x.call.Sound)
    (hread : filp.readable = true) (hdir : filp.isDir = true) (hpos : L.entrySize ∣ filp.pos) :
    filp.pos ≤ filp'.pos ∧ ∃ ess, Lists rs filp.pos filp'.pos ess := by
  induction hlisted with
  | nil filp =>
      refine ⟨Nat.le_refl _, [], .nil, .nil, by simp, ?_⟩
      rintro i hge (hlt | ⟨x, hx, -⟩) -
      · exact absurd hge (Nat.not_le_of_lt hlt)
      · cases hx
  | @cons filp filp₁ filp₂ c r rs hserve hrest ih =>
      have hc := serve_covers (hsound _ List.mem_cons_self) hread hdir hpos hserve
      obtain ⟨hforward, ess, hess⟩ := ih (fun x hx => hsound x (List.mem_cons_of_mem _ hx))
        (by rw [hc.same]; exact hread) (by rw [hc.same]; exact hdir) hc.aligned
      refine ⟨le_trans hc.forward hforward, between c.dir filp.pos filp₁.pos :: ess,
        ⟨.cons ⟨hc.got, fun e he => (of_mem_between hpos he).2.2⟩ hess.got, ?_, ?_, ?_⟩⟩
      · rw [List.flatten_cons, List.pairwise_append]
        refine ⟨between_sorted _ _ _, hess.sorted, fun a ha b hb => ?_⟩
        exact Nat.lt_of_lt_of_le (of_mem_between hpos ha).2.1 (hess.range b hb).1
      · intro e he
        rw [List.flatten_cons, List.mem_append] at he
        rcases he with he | he
        · obtain ⟨hge, hlt, -⟩ := of_mem_between hpos he
          exact ⟨hge, Nat.lt_of_lt_of_le hlt hforward⟩
        · obtain ⟨hge, hlt⟩ := hess.range e he
          exact ⟨le_trans hc.forward hge, hlt⟩
      · intro i hge hend hin
        rw [List.flatten_cons]
        obtain ⟨dp, hslot, hino⟩ := hin _ List.mem_cons_self
        by_cases hlt : i * L.entrySize < filp₁.pos
        · -- this call has passed it
          have hin' := mem_between hpos hge hlt
            (hc.inside (Nat.lt_of_le_of_lt hge hlt)) hslot hino
          exact ⟨_, List.mem_append_left _ hin', rfl⟩
        · -- one of the others has, and this one was not the last
          have hend' : i * L.entrySize < filp₂.pos ∨ Ended rs := by
            rcases hend with hlt' | ⟨x, hx, hzero⟩
            · exact Or.inl hlt'
            · cases rs with
              | nil =>
                  obtain rfl := Option.some.inj hx
                  exact absurd ⟨dp, hslot, hino⟩ (hc.finished hzero i hge)
              | cons y rs => exact Or.inr ⟨x, by simpa using hx, hzero⟩
          obtain ⟨e, he, hei⟩ := hess.all i (Nat.le_of_not_lt hlt) hend'
            (fun x hx => hin x (List.mem_cons_of_mem _ hx))
          exact ⟨e, List.mem_append_right _ he, hei⟩

/-- What was handed over was in use in a directory of the run. -/
theorem Lists.in_use {pos pos' : Nat} {ess : List (List (Nat × Direct L))}
    (h : Lists rs pos pos' ess) {e : Nat × Direct L} (he : e ∈ ess.flatten) :
    ∃ x ∈ rs, ∃ i, e.1 = i * L.entrySize ∧ InUse x.call.dir i := by
  obtain ⟨es, hes, hmem⟩ := List.mem_flatten.mp he
  have hgot := h.got
  clear h he
  induction hgot with
  | nil => cases hes
  | @cons x es' rs ess hx _ ih =>
      rcases List.mem_cons.mp hes with rfl | hes
      · obtain ⟨i, hi, hslot, hino⟩ := hx.2 e hmem
        exact ⟨x, List.mem_cons_self, i, hi, e.2, hslot, hino⟩
      · obtain ⟨y, hy, hrest⟩ := ih hes
        exact ⟨y, List.mem_cons_of_mem _ hy, hrest⟩

/-- **A DIRECTORY IS LISTED**: whatever the directory is at each call on a
    descriptor, the calls hand over entries that it has then, in the order of
    the slots, so that no slot comes twice.  A slot that is free throughout
    does not come.  One from the first position on that is in use throughout
    comes exactly once when the descriptor has passed it, or the last call has
    answered zero. -/
theorem directory_listed (hlisted : Listed filp rs filp') (hsound : ∀ x ∈ rs, x.call.Sound)
    (hread : filp.readable = true) (hdir : filp.isDir = true) (hpos : L.entrySize ∣ filp.pos) :
    ∃ ess : List (List (Nat × Direct L)),
      List.Forall₂ (fun x es => Got x.call x.pos x.r es ∧ ∀ e ∈ es, ∃ i,
        e.1 = i * L.entrySize ∧ slot x.call.dir i = some e.2 ∧ e.2.ino ≠ 0) rs ess ∧
      (ess.flatten.map Prod.fst).Pairwise (· < ·) ∧
      (∀ i, (∀ x ∈ rs, ¬ InUse x.call.dir i) →
        (ess.flatten.map Prod.fst).count (i * L.entrySize) = 0) ∧
      ∀ i, filp.pos ≤ i * L.entrySize → i * L.entrySize < filp'.pos ∨ Ended rs →
        (∀ x ∈ rs, InUse x.call.dir i) →
        (ess.flatten.map Prod.fst).count (i * L.entrySize) = 1 := by
  obtain ⟨-, ess, hess⟩ := listed_lists hlisted hsound hread hdir hpos
  have hsorted : (ess.flatten.map Prod.fst).Pairwise (· < ·) :=
    List.pairwise_map.mpr hess.sorted
  refine ⟨ess, hess.got, hsorted, fun i hfree => ?_, fun i hge hend hin => ?_⟩
  · refine List.count_eq_zero_of_not_mem fun hmem => ?_
    obtain ⟨e, he, hei⟩ := List.mem_map.mp hmem
    obtain ⟨x, hx, j, hj, hin⟩ := hess.in_use he
    obtain rfl : i = j := Nat.eq_of_mul_eq_mul_right (entrySize_pos L) (hei.symm.trans hj)
    exact hfree x hx hin
  · obtain ⟨e, he, hei⟩ := hess.all i hge hend hin
    exact List.count_eq_one_of_mem (hsorted.imp Nat.ne_of_lt) (List.mem_map.mpr ⟨e, he, hei⟩)

end Runs

/-- A call with a buffer of 30 bytes. -/
def smallCall : Call smallLayout where
  env := plainEnv ok
  dir := smallDir
  size := 30
  req := fun res => if res.r = ok then (res.nbytes, res.seekPos) else (res.r, 0)
  req_ok := fun _ h => if_pos h
  req_error := fun _ h => congrArg Prod.fst (if_neg h)

theorem smallCall_sound : smallCall.Sound where
  whole := by decide
  free := by
    intro i dp hi hslot
    have hi' : 192 ≤ i * 64 := hi
    obtain ⟨block, hblock, rfl⟩ := Option.map_eq_some_iff.mp hslot
    have hblock : (if i / 2 < 2 then some (fun i => if i = 0 then entryA else entryFree) else none) =
      some block := hblock
    by_cases hlt : i / 2 < 2
    · -- the second slot of the last block
      rw [if_pos hlt] at hblock
      obtain rfl := Option.some.inj hblock
      obtain rfl : i = 3 := by omega
      rfl
    · rw [if_neg hlt] at hblock
      cases hblock
  codes := fun _ _ _ h => absurd rfl h
  size := by decide

/-- The two entries are listed one at a time, and then there is nothing. -/
theorem directory_listed_small : ∃ ess : List (List (Nat × Direct smallLayout)),
    (ess.flatten.map Prod.fst).count 0 = 1 ∧ (ess.flatten.map Prod.fst).count 64 = 0 ∧
    (ess.flatten.map Prod.fst).count 128 = 1 := by
  have h₁ : smallCall.serve ⟨true, true, 0⟩ = .ok (24, ⟨true, true, 128⟩) := rfl
  have h₂ : smallCall.serve ⟨true, true, 128⟩ = .ok (24, ⟨true, true, 192⟩) := rfl
  have h₃ : smallCall.serve ⟨true, true, 192⟩ = .ok (0, ⟨true, true, 192⟩) := rfl
  have hall : ∀ {P : Reply smallLayout → Prop}, (∀ pos r, P ⟨smallCall, pos, r⟩) →
      ∀ x ∈ [(⟨smallCall, 0, 24⟩ : Reply smallLayout), ⟨smallCall, 128, 24⟩, ⟨smallCall, 192, 0⟩],
        P x := by
    intro P hP x hx
    simp only [List.mem_cons, List.not_mem_nil, or_false] at hx
    rcases hx with rfl | rfl | rfl
    · exact hP 0 24
    · exact hP 128 24
    · exact hP 192 0
  obtain ⟨ess, -, -, hfree, hused⟩ := directory_listed
    (.cons h₁ (.cons h₂ (.cons h₃ (.nil _)))) (hall fun _ _ => smallCall_sound) rfl rfl (dvd_zero _)
  have hended : Ended [(⟨smallCall, 0, 24⟩ : Reply smallLayout), ⟨smallCall, 128, 24⟩,
    ⟨smallCall, 192, 0⟩] := ⟨_, rfl, rfl⟩
  refine ⟨ess, hused 0 (Nat.zero_le _) (Or.inr hended) (hall fun _ _ => ⟨entryA, rfl, by decide⟩),
    hfree 1 (hall fun _ _ => ?_),
    hused 2 (Nat.zero_le _) (Or.inr hended) (hall fun _ _ => ⟨entryA, rfl, by decide⟩)⟩
  rintro ⟨dp, hslot, hino⟩
  obtain rfl : entryFree = dp := Option.some.inj hslot
  exact hino rfl

end MfsListing
