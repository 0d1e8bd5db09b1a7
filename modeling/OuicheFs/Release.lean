import OuicheFs.Truncation
import OuicheFs.WriteEnd

/-!
# The extent of the release loop

The loop of `ouichefs_open` under `O_TRUNC` ends at the first zero entry. Behind
a hole it leaves entries and blocks, and in a full index it finds no end inside
the block.
-/
namespace Release

open CInt Bits ByteBuffer IndexEntry Allocator FileContext Layout OuicheFile Truncation WriteEnd Loop

/-- A run of the loop from slot `bli` on that ended at slot `k`. -/
structure Ended (s t : Ctx) (bli k : Nat) : Prop where
  start : bli ≤ k
  nonzero : ∀ i, bli ≤ i → i < k → s.blocks i ≠ 0
  zero : s.blocks k = 0
  blocks : ∀ i, t.blocks i = if bli ≤ i ∧ i < k then 0 else s.blocks i
  reads : ∃ new, t.touched = new ++ s.touched ∧ ∀ i : Int, i ∈ new ↔ (bli : Int) ≤ i ∧ i ≤ k

/-- The state after one entry has been released. -/
def releaseOne (s : Ctx) (bli : Nat) : Ctx :=
  ({ s.touch bli with sbi := putBlock s.sbi (getBlockNumber (s.blocks bli)) } : Ctx).setBlocks bli 0

theorem releaseStep_zero {s : Ctx} {bli : Nat} (h : s.blocks bli = 0) :
    releaseStep (s, bli) = .done (s.touch bli) := by
  unfold releaseStep
  exact if_pos h

theorem releaseStep_nonzero {s : Ctx} {bli : Nat} (h : s.blocks bli ≠ 0) :
    releaseStep (s, bli) = .next (releaseOne s bli, bli + 1) := by
  unfold releaseStep
  exact if_neg h

theorem Ended.first {s : Ctx} {bli : Nat} (h : s.blocks bli = 0) :
    Ended s (s.touch bli) bli bli := by
  refine ⟨Nat.le_refl _, fun i _ _ => by omega, h, ?_, [(bli : Int)], rfl, ?_⟩
  · intro i
    rw [if_neg (by omega)]
    rfl
  · intro i
    rw [List.mem_singleton]
    omega

theorem Ended.later {s t : Ctx} {bli k : Nat} (h : s.blocks bli ≠ 0)
    (e : Ended (releaseOne s bli) t (bli + 1) k) : Ended s t bli k := by
  have hstart := e.start
  have hself : (releaseOne s bli).blocks bli = 0 := blocks_setBlocks_self _ _ _
  have hother : ∀ i, i ≠ bli → (releaseOne s bli).blocks i = s.blocks i := by
    intro i hi
    exact blocks_setBlocks_of_ne _ _ hi
  obtain ⟨new, htouched, hmem⟩ := e.reads
  refine ⟨by omega, ?_, ?_, ?_, new ++ [(bli : Int), (bli : Int)], ?_, ?_⟩
  · intro i hlo hhi
    by_cases hi : i = bli
    · rw [hi]
      exact h
    · rw [← hother i hi]
      exact e.nonzero i (by omega) hhi
  · rw [← hother k (by omega)]
    exact e.zero
  · intro i
    rw [e.blocks i]
    by_cases hi : i = bli
    · rw [hi, if_neg (by omega), if_pos (by omega), hself]
    · rw [hother i hi]
      by_cases hin : bli + 1 ≤ i ∧ i < k
      · rw [if_pos hin, if_pos (by omega)]
      · rw [if_neg hin, if_neg (by omega)]
  · rw [htouched, List.append_assoc]
    rfl
  · intro i
    rw [List.mem_append, hmem]
    simp only [List.mem_cons, List.not_mem_nil, or_false, or_self]
    omega

/-- A run that returns has ended at the first zero entry. -/
theorem release_ended (fuel : Nat) : ∀ (s t : Ctx) (bli : Nat),
    iterate releaseStep fuel (s, bli) = some t → ∃ k, Ended s t bli k := by
  induction fuel with
  | zero =>
    rintro s t bli ⟨⟩
  | succ fuel ih =>
    intro s t bli run
    rw [iterate] at run
    by_cases h : s.blocks bli = 0
    · rw [releaseStep_zero h] at run
      cases run
      exact ⟨bli, Ended.first h⟩
    · rw [releaseStep_nonzero h] at run
      obtain ⟨k, hk⟩ := ih _ t (bli + 1) run
      exact ⟨k, hk.later h⟩

/-! ## The open call -/

/-- A call that truncates: the file is not empty and its index can be read. -/
structure Truncates (s : Ctx) (fFlags : Nat) : Prop where
  mode : fFlags &&& oWronly ≠ 0 ∨ fFlags &&& oRdwr ≠ 0
  trunc : fFlags &&& oTrunc ≠ 0
  data : s.node.iSize ≠ 0
  read : s.io.bread 0 = true

/-- The call reads the entries 0 to 1023 only, clears all of them and frees the
blocks that they named, and no others. -/
structure ReleasesAll (s t : Ctx) : Prop where
  reads : ∃ new, t.touched = new ++ s.touched ∧ ∀ i ∈ new, 0 ≤ i ∧ i < 1024
  zeroed : ∀ i, i < 1024 → t.blocks i = 0
  freed : ∀ i, i < 1024 → s.blocks i ≠ 0 →
    t.sbi.bfreeBitmap (getBlockNumber (s.blocks i)) = true
  others : ∀ b, (∀ i, i < 1024 → s.blocks i ≠ 0 → getBlockNumber (s.blocks i) ≠ b) →
    t.sbi.bfreeBitmap b = s.sbi.bfreeBitmap b

/-- The nonzero entries of the index stand at its front, and it is not full. -/
def Terminated (s : Ctx) : Prop :=
  ∃ k, k < 1024 ∧ (∀ i, i < k → s.blocks i ≠ 0) ∧ ∀ i, k ≤ i → i < 1024 → s.blocks i = 0

section

variable {s t : Ctx} {fFlags : Nat}

theorem ouichefsOpen_ended {fuel : Nat} (call : Truncates s fFlags)
    (run : ouichefsOpen fuel s fFlags = some (t, 0)) : ∃ u k, Ended s u 0 k ∧
      t = { u with node := { u.node with iSize := 0, iBlocks := 0 } } := by
  unfold ouichefsOpen at run
  simp only at run
  rw [if_pos ⟨call.mode, call.trunc, call.data⟩, if_pos call.read] at run
  obtain ⟨u, hu, heq⟩ := Option.map_eq_some_iff.mp run
  obtain ⟨k, hk⟩ := release_ended fuel _ u 0 hu
  cases heq
  exact ⟨u, k, ⟨hk.start, hk.nonzero, hk.zero, hk.blocks, hk.reads⟩, rfl⟩

/-- A loop that stays in the index and clears it has met the end of the entries. -/
theorem ReleasesAll.terminated {fuel : Nat} (h : ReleasesAll s t) (call : Truncates s fFlags)
    (run : ouichefsOpen fuel s fFlags = some (t, 0)) : Terminated s := by
  obtain ⟨u, k, hended, rfl⟩ := ouichefsOpen_ended call run
  obtain ⟨new, hnew, hinside⟩ := h.reads
  obtain ⟨new', hnew', hmem⟩ := hended.reads
  obtain rfl : new = new' := List.append_cancel_right (hnew.symm.trans hnew')
  have hk := hinside k ((hmem k).mpr (by omega))
  refine ⟨k, by omega, fun i hi => hended.nonzero i (Nat.zero_le i) hi, ?_⟩
  intro i hlo hhi
  have hzero : u.blocks i = 0 := h.zeroed i hhi
  rw [hended.blocks, if_neg (by omega)] at hzero
  exact hzero

theorem mem_numbers_front {k b : Nat} :
    b ∈ numbers (entriesFrom s 0 k) ↔ ∃ i, i < k ∧ getBlockNumber (s.blocks i) = b := by
  simp [numbers, entriesFrom]

/-- The loop over `k` nonzero entries and the zero entry behind them. -/
theorem release_front {k : Nat} (front : ∀ i, i < k → s.blocks i ≠ 0) (stop : s.blocks k = 0)
    (range : ∀ i, i < k → getBlockNumber (s.blocks i) ≤ s.sbi.nrBlocks) :
    ∃ u, iterate releaseStep (k + 1) (s, 0) = some u ∧ Cleared s u 0 (entriesFrom s 0 k) := by
  have hlen : (entriesFrom s 0 k).length = k := by simp [entriesFrom]
  have hrun := releaseLoop_spec (entriesFrom s 0 k) 0 s
  rw [hlen] at hrun
  apply hrun
  · intro i hi
    rw [Nat.zero_add, entriesFrom, List.getElem?_map, List.getElem?_range' hi]
    simp
  · intro e he
    obtain ⟨i, _, hi, rfl⟩ := mem_entriesFrom.mp he
    exact front i (by omega)
  · rw [Nat.zero_add]
    exact stop
  · intro b hb
    obtain ⟨i, hi, rfl⟩ := mem_numbers_front.mp hb
    exact range i hi

/-- With the nonzero entries at the front the loop releases all of them. -/
theorem Terminated.releases (h : Terminated s) (call : Truncates s fFlags)
    (range : ∀ i, i < 1024 → s.blocks i ≠ 0 → getBlockNumber (s.blocks i) ≤ s.sbi.nrBlocks) :
    ∃ fuel t, ouichefsOpen fuel s fFlags = some (t, 0) ∧ ReleasesAll s t := by
  obtain ⟨k, hk, hfront, hrest⟩ := h
  obtain ⟨u, hrun, hcleared⟩ := release_front (s := s.popBread) hfront (hrest k (Nat.le_refl k) hk)
    (fun i hi => range i (by omega) (hfront i hi))
  have hopen : ouichefsOpen (k + 1) s fFlags =
      some ({ u with node := { u.node with iSize := 0, iBlocks := 0 } }, 0) := by
    unfold ouichefsOpen
    simp only
    rw [if_pos ⟨call.mode, call.trunc, call.data⟩, if_pos call.read, hrun]
    rfl
  have hlen : (entriesFrom s.popBread 0 k).length = k := by simp [entriesFrom]
  obtain ⟨k', hended⟩ := release_ended _ _ u 0 hrun
  have hk' : k' ≤ k := by
    by_contra hgt
    exact hended.nonzero k (Nat.zero_le k) (by omega) (hrest k (Nat.le_refl k) hk)
  have hbits : ∀ b, u.sbi.bfreeBitmap b =
      (s.sbi.bfreeBitmap b || decide (b ∈ numbers (entriesFrom s 0 k))) := hcleared.released.bitmap
  refine ⟨_, _, hopen, ?_, ?_, ?_, ?_⟩
  · obtain ⟨new, hnew, hinside⟩ := hended.reads
    refine ⟨new, hnew, fun i hi => ?_⟩
    have := (hinside i).mp hi
    omega
  · intro i hi
    change u.blocks i = 0
    rcases Nat.lt_or_ge i k with hlt | hge
    · exact hcleared.zero i (Nat.zero_le i) (by rw [hlen]; omega)
    · rw [hcleared.others i (by rw [hlen]; omega)]
      exact hrest i hge hi
  · intro i hi hne
    have hlt : i < k := by
      by_contra hge
      exact hne (hrest i (by omega) hi)
    change u.sbi.bfreeBitmap _ = true
    rw [hbits, decide_eq_true (mem_numbers_front.mpr ⟨i, hlt, rfl⟩), Bool.or_true]
  · intro b hb
    have hnot : b ∉ numbers (entriesFrom s 0 k) := by
      intro hin
      obtain ⟨i, hi, heq⟩ := mem_numbers_front.mp hin
      exact hb i (by omega) (hfront i hi) heq
    change u.sbi.bfreeBitmap b = _
    rw [hbits, decide_eq_false hnot, Bool.or_false]

end

/-- Opening with `O_TRUNC` releases all and only the blocks of the file, within the
index, if and only if no entry stands behind a zero entry and the index is not
full. -/
theorem truncation_releases_iff {s : Ctx} {fFlags : Nat} (call : Truncates s fFlags)
    (used : ∀ i, i < 1024 → s.blocks i ≠ 0 → Used s.sbi (getBlockNumber (s.blocks i))) :
    (∃ fuel t, ouichefsOpen fuel s fFlags = some (t, 0) ∧ ReleasesAll s t) ↔ Terminated s := by
  constructor
  · rintro ⟨fuel, t, hrun, h⟩
    exact h.terminated call hrun
  · intro h
    exact h.releases call fun i hi hne => Nat.le_of_lt (used i hi hne).lt

/-- A file with three entries at the front of its index. -/
theorem truncation_releases_three :
    ∃ fuel t, ouichefsOpen fuel (threeBlocks 10) 513 = some (t, 0) ∧
      ReleasesAll (threeBlocks 10) t := by
  have hcall : Truncates (threeBlocks 10) 513 :=
    ⟨Or.inl (by decide), by decide, show shortNode.iSize ≠ 0 by decide, rfl⟩
  have hzero : ∀ i, 3 ≤ i → (threeBlocks 10).blocks i = 0 := by
    intro i hi
    rw [threeBlocks_blocks, if_neg (by omega)]
  refine (truncation_releases_iff hcall ?_).mpr ⟨3, by decide, ?_, fun i hi _ => hzero i hi⟩
  · intro i _ hne
    have hi : i < 3 := by
      by_contra hge
      exact hne (hzero i (by omega))
    exact (threeBlocks_ok 10).used i hi hne
  · intro i hi
    apply ne_zero_of_getBlockNumber_pos
    rw [threeBlocks_number 10 hi]
    omega

/-- A file of `n` blocks with the given words in its index, on a volume of 2000
blocks. -/
def indexCtx (n : Nat) (words : Nat → Word) : Ctx where
  sbi := ⟨2000, 2011, 40, 1, 1, 2000, 500, fun i => decide (11 ≤ i), fun b => decide (1500 ≤ b)⟩
  disk := fun b => if b = 60 then ofWords32 words else fun _ => 0
  node := ⟨0o100644, 0, 0, 4096 * n, ⟨0, 0⟩, ⟨0, 0⟩, ⟨0, 0⟩, n + 1, 1, 60⟩
  io := calmIo
  touched := []

theorem indexCtx_blocks (n : Nat) (words : Nat → Word) (i : Nat) :
    (indexCtx n words).blocks i = words i := by
  unfold Ctx.blocks
  simp only [indexCtx, if_true]
  rw [le32_ofWords32]

theorem indexCtx_truncates {n : Nat} (pos : 0 < n) (words : Nat → Word) :
    Truncates (indexCtx n words) 513 := by
  have hdata : 4096 * n ≠ 0 := by omega
  exact ⟨Or.inl (by decide), by decide, hdata, rfl⟩

theorem indexCtx_used (n : Nat) {words : Nat → Word}
    (named : ∀ i, i < 1024 → words i ≠ 0 → 0 < getBlockNumber (words i) ∧
      getBlockNumber (words i) < 1500) :
    ∀ i, i < 1024 → (indexCtx n words).blocks i ≠ 0 →
      Used (indexCtx n words).sbi (getBlockNumber ((indexCtx n words).blocks i)) := by
  intro i hi hne
  rw [indexCtx_blocks] at hne ⊢
  obtain ⟨hpos, hlt⟩ := named i hi hne
  have hvolume : getBlockNumber (words i) < 2000 := by omega
  exact ⟨hpos, hvolume, decide_eq_false (by omega)⟩

/-- The index that a page-cache write of the block 1 leaves: the entry 0 is zero. -/
def holeWords : Nat → Word := fun i => if i = 1 then 100 else 0

/-- A full index, with a zero word behind it. -/
def fullWords : Nat → Word := fun i => if i < 1024 then BitVec.ofNat 32 (100 + i) else 0

theorem getBlockNumber_fullWords {i : Nat} (lt : i < 1024) :
    getBlockNumber (fullWords i) = 100 + i := by
  rw [fullWords, if_pos lt, getBlockNumber_eq_mod, BitVec.toNat_ofNat]
  omega

/-- Neither an index with a hole nor a full one is released as it should be. -/
theorem truncation_misses_hole_and_end :
    (Truncates (indexCtx 2 holeWords) 513 ∧
      (∀ i, i < 1024 → (indexCtx 2 holeWords).blocks i ≠ 0 →
        Used (indexCtx 2 holeWords).sbi (getBlockNumber ((indexCtx 2 holeWords).blocks i))) ∧
      ¬ ∃ fuel t, ouichefsOpen fuel (indexCtx 2 holeWords) 513 = some (t, 0) ∧
        ReleasesAll (indexCtx 2 holeWords) t) ∧
    Truncates (indexCtx 1024 fullWords) 513 ∧
      (∀ i, i < 1024 → (indexCtx 1024 fullWords).blocks i ≠ 0 →
        Used (indexCtx 1024 fullWords).sbi (getBlockNumber ((indexCtx 1024 fullWords).blocks i))) ∧
      ¬ ∃ fuel t, ouichefsOpen fuel (indexCtx 1024 fullWords) 513 = some (t, 0) ∧
        ReleasesAll (indexCtx 1024 fullWords) t := by
  refine ⟨⟨indexCtx_truncates (by decide) _, indexCtx_used 2 ?_, ?_⟩,
    indexCtx_truncates (by decide) _, indexCtx_used 1024 ?_, ?_⟩
  · intro i _ hne
    unfold holeWords at hne ⊢
    split
    · decide
    · rename_i hi
      exact absurd (if_neg hi) hne
  · rintro ⟨fuel, t, hrun, h⟩
    obtain ⟨k, hk, hfront, hrest⟩ := h.terminated (indexCtx_truncates (by decide) _) hrun
    simp only [indexCtx_blocks] at hfront hrest
    rcases Nat.eq_zero_or_pos k with hz | hpos
    · exact absurd (hrest 1 (by omega) (by decide)) (by decide)
    · exact absurd (show holeWords 0 = 0 from rfl) (hfront 0 hpos)
  · intro i hi _
    rw [getBlockNumber_fullWords hi]
    omega
  · rintro ⟨fuel, t, hrun, h⟩
    obtain ⟨k, hk, _, hrest⟩ := h.terminated (indexCtx_truncates (by decide) _) hrun
    have hzero := hrest k (Nat.le_refl k) hk
    rw [indexCtx_blocks] at hzero
    have hnum := getBlockNumber_fullWords hk
    rw [hzero, getBlockNumber_zero] at hnum
    omega

end Release
