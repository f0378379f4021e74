import OsLab.MfsSizeProofs

/-! # Peeking at an immediate file

    The branch for immediate files knows two kinds of requests: what is not a
    read is served as a write.  A peek in the file copies from the caller into
    `i_zone`, and one that the kernel refuses goes on to the chunk loop, as
    does every peek at or behind the end.  There the bytes of the file are
    taken for zone numbers (`ReachesMap`).

    So a peek leaves the file alone when it lies in the file, the kernel lets
    it copy, and what it copies is there already (`peek_exact`). -/

namespace MfsPeek

open OsBytes OsLoop MfsModel MfsImmediate MfsConvert

/-- A turn of the chunk loop with bytes left, and with them a call of
    `read_map`, finds an immediate inode. -/
def ReachesMap {sb : Super} (env : Env sb) (st : Mfs) (req : Request) : Prop :=
  ∃ i s, entry env st req = .ok (none, i) ∧
    Visits (chunkTurn env req.flag st.inode.size) i s ∧ s.nrbytes ≠ 0 ∧
    inodeType s.mfs.inode = iImmediate

/-- The request is answered and has no effect: the inode and the allocated
    zones are as they were, and no zone number was looked for in an immediate
    inode. -/
structure NoEffect {sb : Super} (env : Env sb) (st : Mfs) (req : Request) (st' : Mfs) :
    Prop where
  answered : ∃ reply, fsReadwrite env st req = .ok (reply, st')
  mode : st'.inode.mode = st.inode.mode
  size : st'.inode.size = st.inode.size
  zone : ∀ i, i < zoneBytes → st'.inode.zone i = st.inode.zone i
  used : st'.used = st.used
  unmapped : ¬ ReachesMap env st req

/-- The bytes the request finds in the caller's buffer are those of the file. -/
def Matches (st : Mfs) (p k : Nat) : Prop := ∀ i, i < k → st.grant.mem i = st.inode.zone (p + i)

section Peek

variable {sb : Super} {env : Env sb} {st st' : Mfs} {n p k : Nat}

/-- Behind the end a peek goes to the chunk loop. -/
theorem entry_behind (env : Env sb) (himm : inodeType st.inode = iImmediate)
    (hsize : st.inode.size = n) (hnp : n ≤ p) :
    entry env st ⟨.peeking, p, k⟩ = .ok (none, start st ⟨.peeking, p, k⟩) := by
  have hge : (start st ⟨.peeking, p, k⟩).position ≥ (n : Int) := by
    show (p : Int) ≥ n
    omega
  rw [entry, if_pos himm, immediateFile, if_neg (by simp), hsize, if_pos hge]

/-- In the file it is taken for a write. -/
theorem entry_inside (env : Env sb) (himm : inodeType st.inode = iImmediate)
    (hsize : st.inode.size = n) (hnp : ¬ n ≤ p) : entry env st ⟨.peeking, p, k⟩ =
      (do .ok (none, ← immediateTransfer env .peeking n (start st ⟨.peeking, p, k⟩))) := by
  have hlt : ¬ (start st ⟨.peeking, p, k⟩).position ≥ (n : Int) := by
    show ¬ (p : Int) ≥ n
    omega
  rw [entry, if_pos himm, immediateFile, if_neg (by simp), hsize, if_neg hlt]

/-- How the chunk loop starts when the kernel refused the copy. -/
def afterRefusal (env : Env sb) (st : Mfs) (p k : Nat) : Progress :=
  ⟨{ st with
      rdwtErr := ok
      clock := st.clock + 1
      inode := { st.inode with dirty := true } }, grantCode env st 0 k, k, 0, p⟩

theorem transfer_refused (hcode : grantCode env st 0 k ≠ ok) :
    immediateTransfer env .peeking n (start st ⟨.peeking, p, k⟩) =
      .ok (afterRefusal env st p k) := by
  have hcode' : ¬ grantCode env (start st ⟨.peeking, p, k⟩).mfs
      (start st ⟨.peeking, p, k⟩).cumIo (start st ⟨.peeking, p, k⟩).nrbytes = ok := hcode
  simp only [immediateTransfer, safecopyfrom, if_neg hcode']
  rfl

/-- And when it let it copy. -/
def afterCopy (st : Mfs) (p k : Nat) : Progress :=
  ⟨{ st with
      rdwtErr := ok
      clock := st.clock + 1
      inode := { st.inode with
        dirty := true
        zone := overlay st.inode.zone p k st.grant.mem } }, ok, 0, 0 + k, p + k⟩

theorem transfer_copied (hp : p < 32) (hk : 0 < k) (hcode : grantCode env st 0 k = ok) :
    immediateTransfer env .peeking n (start st ⟨.peeking, p, k⟩) =
      if zoneBytes < p + k then .error .overrun else .ok (afterCopy st p k) := by
  have hcode' : grantCode env (start st ⟨.peeking, p, k⟩).mfs
      (start st ⟨.peeking, p, k⟩).cumIo (start st ⟨.peeking, p, k⟩).nrbytes = ok := hcode
  have hpos : u32 (p : Int) = p := u32_natCast (by omega)
  have hmem : (fun i => st.grant.mem (0 + i)) = st.grant.mem := by
    funext i
    rw [Nat.zero_add]
  simp only [immediateTransfer, safecopyfrom, hcode', if_true]
  rw [afterCopy, ← hmem]
  show (if 0 < k ∧ zoneBytes < u32 (p : Int) + k then Except.error Fault.overrun
    else Except.ok (⟨{ st with
      rdwtErr := ok
      clock := st.clock + 1
      inode := { st.inode with
        dirty := true
        zone := overlay st.inode.zone (u32 (p : Int)) k (fun i => st.grant.mem (0 + i)) } },
      ok, 0, 0 + k, p + k⟩ : Progress)) = _
  rw [hpos]
  simp only [hk, true_and]

/-- A chunk loop that starts with bytes left and an immediate inode looks for
    a zone number at once. -/
theorem reaches_of_entry {req : Request} {s : Progress} (hentry : entry env st req = .ok (none, s))
    (h0 : s.nrbytes ≠ 0) (himm : inodeType s.mfs.inode = iImmediate) : ReachesMap env st req :=
  ⟨s, s, hentry, .refl, h0, himm⟩

/-- One that starts with none left does not. -/
theorem not_reaches {req : Request} {s : Progress} (hentry : entry env st req = .ok (none, s))
    (h0 : s.nrbytes = 0) : ¬ ReachesMap env st req := by
  rintro ⟨i, t, hi, hvisits, ht, -⟩
  obtain rfl : s = i := congrArg Prod.snd (Except.ok.inj (hentry.symm.trans hi))
  -- its first turn leaves the loop
  have hdone : chunkTurn env req.flag st.inode.size s = .ok (.done s) := chunkTurn_over (Or.inl h0)
  cases Relation.ReflTransGen.cases_head hvisits with
  | inl heq => exact ht (heq ▸ h0)
  | inr hnext =>
      obtain ⟨u, hturn, -⟩ := hnext
      exact nomatch hdone.symm.trans hturn

/-- A peek whose bytes were copied and fit in `i_zone`. -/
theorem peek_copied (himm : inodeType st.inode = iImmediate) (hsize : st.inode.size = n)
    (hn : n ≤ 32) (hnp : ¬ n ≤ p) (hk : 0 < k) (hcode : grantCode env st 0 k = ok) (hfit : p + k ≤ zoneBytes) :
    entry env st ⟨.peeking, p, k⟩ = .ok (none, afterCopy st p k) ∧
      ∃ reply st', fsReadwrite env st ⟨.peeking, p, k⟩ = .ok (reply, st') ∧
        st'.inode.mode = st.inode.mode ∧ st'.inode.size = st.inode.size ∧
        st'.inode.zone = (afterCopy st p k).mfs.inode.zone ∧ st'.used = st.used := by
  have hentry : entry env st ⟨.peeking, p, k⟩ = .ok (none, afterCopy st p k) := by
    rw [entry_inside env himm hsize hnp, transfer_copied (by omega) hk hcode, if_neg (by omega)]
    rfl
  have hne : inodeType st.inode ≠ iBlockSpecial := by rw [himm]; decide
  have hloop : loop .endless (chunkTurn env .peeking st.inode.size) (0 + 1) (afterCopy st p k) =
      .ok (afterCopy st p k) := loop_done (chunkTurn_over (Or.inl rfl)) 0
  obtain ⟨x, hx⟩ : ∃ x, x = finish sb .peeking (inodeType st.inode = iRegular ∨
    inodeType st.inode = iNamedPipe ∨ inodeType st.inode = iImmediate)
    (inodeType (afterCopy st p k).mfs.inode) st.inode.size (afterCopy st p k) := ⟨_, rfl⟩
  have hrun : fsReadwrite env st ⟨.peeking, p, k⟩ = .ok x := fsReadwrite_ok.mpr
    ⟨hne, none, writeCheck_reading (by simp), _, hentry, _, hloop, hx⟩
  obtain ⟨update, dirty, hfin⟩ := finish_other sb (show RwFlag.peeking ≠ .writing by decide) _ _ _ _
  rw [← congrArg Prod.snd hx] at hfin
  exact ⟨hentry, x.1, x.2, hrun, by rw [hfin]; exact ⟨rfl, rfl, rfl, rfl⟩⟩

/-- **PEEKS HAVE NO EFFECT** exactly when they start in the file, fit in
    `i_zone`, and the kernel copies bytes that are there already. -/
theorem peek_exact (himm : inodeType st.inode = iImmediate) (hsize : st.inode.size = n)
    (hn : n ≤ 32) (hk : 1 ≤ k) : (∃ st', NoEffect env st ⟨.peeking, p, k⟩ st') ↔
      p < n ∧ p + k ≤ zoneBytes ∧ grantCode env st 0 k = ok ∧ Matches st p k := by
  constructor
  · rintro ⟨st', h⟩
    by_cases hnp : n ≤ p
    · have hentry := entry_behind env (k := k) himm hsize hnp
      exact absurd (reaches_of_entry hentry (by show k ≠ 0; omega) himm) h.unmapped
    by_cases hcode : grantCode env st 0 k = ok
    case neg =>
      have hentry := entry_inside env (k := k) himm hsize hnp
      rw [transfer_refused hcode] at hentry
      exact absurd (reaches_of_entry hentry (by show k ≠ 0; omega) himm) h.unmapped
    by_cases hfit : p + k ≤ zoneBytes
    · refine ⟨by omega, hfit, hcode, fun i hi => ?_⟩
      obtain ⟨reply, hrun⟩ := h.answered
      obtain ⟨-, reply', st'', hrun', -, -, hzone, -⟩ :=
        peek_copied himm hsize hn hnp hk hcode hfit
      obtain ⟨-, rfl⟩ := Prod.mk.inj (Except.ok.inj (hrun.symm.trans hrun'))
      have hbyte := h.zone (p + i) (by omega)
      rw [hzone] at hbyte
      rw [← hbyte]
      rw [show (afterCopy st p k).mfs.inode.zone = overlay st.inode.zone p k st.grant.mem from rfl,
        overlay_in (by omega) (by omega), Nat.add_sub_cancel_left]
    · -- the kernel writes behind `i_zone`
      obtain ⟨reply, hrun⟩ := h.answered
      obtain ⟨-, early, hearly, hrest⟩ := fsReadwrite_ok.mp hrun
      rw [writeCheck_reading (by simp)] at hearly
      cases hearly
      obtain ⟨i, hi, -⟩ := hrest
      rw [entry_inside env himm hsize hnp, transfer_copied (by omega) hk hcode, if_pos (by omega)] at hi
      exact nomatch hi
  · rintro ⟨hpn, hfit, hcode, hmatch⟩
    obtain ⟨hentry, reply, st', hrun, hmode, hsize', hzone, hused⟩ :=
      peek_copied himm hsize hn (by omega) hk hcode hfit
    refine ⟨st', ⟨reply, hrun⟩, hmode, hsize', fun i _ => ?_, hused, not_reaches hentry rfl⟩
    rw [hzone, show (afterCopy st p k).mfs.inode.zone =
      overlay st.inode.zone p k st.grant.mem from rfl]
    by_cases hin : p ≤ i ∧ i < p + k
    · rw [overlay_in hin.1 hin.2, hmatch (i - p) (by omega)]
      congr 1
      omega
    · exact overlay_out (by omega)

end Peek

/-- A peek at a file of one byte that finds this byte in the caller's buffer. -/
theorem peek_exact_same : (∃ st', NoEffect (calm smallDisk)
      { newFile with inode := { newInode with size := 1 }, grant := ⟨1, fun _ => 0⟩ }
      ⟨.peeking, (0 : Nat), 1⟩ st') ↔ 0 < 1 ∧ 0 + 1 ≤ zoneBytes ∧
    grantCode (calm smallDisk)
      { newFile with inode := { newInode with size := 1 }, grant := ⟨1, fun _ => 0⟩ } 0 1 = ok ∧
    Matches { newFile with inode := { newInode with size := 1 }, grant := ⟨1, fun _ => 0⟩ } 0 1 :=
  peek_exact (by decide) rfl (by decide) (by decide)

/-- A peek at an empty file takes a zone from the bitmap. -/
theorem peek_allocates : inodeType newFile.inode = iImmediate ∧
    ((fsReadwrite (calm smallDisk) newFile ⟨.peeking, (0 : Nat), 1⟩).toOption.map
      (fun x => (x.1.r, x.2.used)) = some (ok, [2])) ∧ newFile.used = [] ∧
    ¬ ∃ st', NoEffect (calm smallDisk) newFile ⟨.peeking, (0 : Nat), 1⟩ st' := by
  refine ⟨by decide, by decide, rfl, ?_⟩
  rintro ⟨st', h⟩
  exact h.unmapped (reaches_of_entry (entry_behind _ (by decide) rfl (Nat.le_refl 0))
    (by decide) (by decide))

end MfsPeek
