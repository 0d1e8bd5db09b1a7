import OuicheFs.Compaction

/-!
# Failing and repeated defragmentation

A read that fails can end the first pass after any number of moves and
rotations. What is left then is the file on the same blocks, in another order
and with other entry sizes, and with the same bytes unless `memcpy` has moved
some of them over one another. On a file that is compact already the first
pass walks over the full blocks with moves of length zero, the second pass
finds nothing behind the last block in use, and only the times change.
-/
namespace Stability

open Bits CInt ByteBuffer IndexEntry Allocator FileContext Layout OuicheDefrag Compaction Loop
  Search Overlap

/-- The data blocks of the file are neither the superblock nor its index block. -/
structure Sited (s : Ctx) : Prop where
  apart : s.node.indexBlock ∉ numbers s.entries
  positive : ∀ b ∈ numbers s.entries, 0 < b

/-- The file in `t` is the file in `s`, possibly with its bytes elsewhere on its blocks. -/
structure Unharmed (s t : Ctx) : Prop where
  wellFormed : WellFormed t
  sited : Sited t
  content : t.content = s.content
  iSize : t.node.iSize = s.node.iSize
  iBlocks : t.node.iBlocks = s.node.iBlocks
  blocks : (numbers t.entries).Perm (numbers s.entries)
  bitmap : t.sbi.bfreeBitmap = s.sbi.bfreeBitmap
  counter : t.sbi.nrFreeBlocks = s.sbi.nrFreeBlocks

theorem Kept.unharmed {s t : Ctx} {es' : List Word} {rest : List Nat}
    (k : Kept s s.entries t es' rest) (wf : WellFormed s) (site : Sited s)
    (content : ∀ P, ¬ Spoilt (held s.entries) rest P) : Unharmed s t := by
  have hentries := k.shape.entries_eq
  have hpos : ∀ b ∈ numbers es', 0 < b := fun b hb => site.positive b (k.blocks.mem_iff.mp hb)
  have hsize : t.node.iSize = total es' := by
    rw [k.node, wf.size, k.size]
  constructor
  · exact k.shape.wellFormed (nonzero_of_numbers hpos) hsize
  · constructor
    · rw [hentries]
      exact k.shape.apart
    · rw [hentries]
      exact hpos
  · rw [k.shape.content_eq, k.bytes.eq content]
    rfl
  · rw [k.node]
  · rw [k.node]
  · rw [hentries]
    exact k.blocks
  · rw [k.sbi]
  · rw [k.sbi]

/-- Every block in front of another one with bytes fits. -/
def DrainableBefore (s : Ctx) : Prop :=
  ∀ k, k < s.node.iBlocks - 1 →
    (∃ j, k < j ∧ j < s.node.iBlocks - 1 ∧ 0 < getBlockSize (s.blocks j)) →
      getBlockSize (s.blocks k) ≤ 2 * (4096 - sizesBelow s.blocks k % 4096)

theorem held_drop_ne_nil {s : Ctx} {k : Nat} : held (s.entries.drop (k + 1)) ≠ [] ↔
    ∃ j, k < j ∧ j < s.node.iBlocks - 1 ∧ 0 < getBlockSize (s.blocks j) := by
  rw [← not_iff_not, not_not, held_eq_nil]
  constructor
  · rintro hzero ⟨j, hkj, hj, hpos⟩
    have hmem : s.blocks j ∈ s.entries.drop (k + 1) := by
      refine List.mem_drop_iff_getElem.mpr ⟨j - (k + 1), by rw [entries_length]; omega, ?_⟩
      simp only [Ctx.entries, List.getElem_map, List.getElem_range]
      congr 1
      omega
    have := sizes_zero_of_total hzero _ hmem
    omega
  · intro hnone
    refine total_of_sizes_zero fun e he => ?_
    obtain ⟨i, hi, rfl⟩ := List.mem_drop_iff_getElem.mp he
    rw [entries_length] at hi
    simp only [Ctx.entries, List.getElem_map, List.getElem_range]
    by_contra hne
    exact hnone ⟨k + 1 + i, by omega, by omega, Nat.pos_of_ne_zero hne⟩

theorem drainableBefore_iff (s : Ctx) :
    DrainableBefore s ↔ ∀ rest P, rest ≠ [] → ¬ Spoilt (held s.entries) rest P := by
  rw [unspoilt_iff s.entries (· ≠ []), entries_length]
  refine forall₂_congr fun k hk => ?_
  rw [total_take_entries hk, entries_get hk, ← held_drop_ne_nil]
  refine imp_congr_left ⟨fun h => ⟨[], _, rfl, h⟩, ?_⟩
  rintro ⟨post, rest, hdrop, hne⟩ hnil
  rw [hnil] at hdrop
  exact hne (List.append_eq_nil_iff.mp hdrop.symm).2

theorem Stopped.unharmed {s t : Ctx} (stopped : Stopped s s.entries t) (wf : WellFormed s)
    (site : Sited s) (before : DrainableBefore s) : Unharmed s t := by
  obtain ⟨es', rest, hrest, hkept, _⟩ := stopped
  refine Kept.unharmed hkept wf site fun P => ?_
  rcases hrest with rfl | hne
  · exact not_spoilt_all _ P
  · exact (drainableBefore_iff s).mp before rest P hne

/-! A read that fails right behind a spoilt block. The reads that come before it succeed,
and the pass does the same as if none failed. -/

def reading (s : Ctx) (bread : Nat → Bool) : Ctx := { s with io := { s.io with bread := bread } }

theorem bubbleUpBlock_reading (s : Ctx) (b : Nat → Bool) (i : Nat) (n : Int) :
    bubbleUpBlock (reading s b) i n = reading (bubbleUpBlock s i n) b := by
  unfold bubbleUpBlock
  generalize (n - 1 - i).toNat = k
  induction k generalizing i s with
  | zero => rfl
  | succ k ih =>
    exact ih ((s.setBlocks i (s.blocks (i + 1))).setBlocks (i + 1) (s.blocks i)) (i + 1)

theorem moveShiftBlockContentTo_reading (s : Ctx) (from_ to_ lp : Nat) (b : Nat → Bool) :
    ∃ b', moveShiftBlockContentTo (reading s b') from_ to_ lp =
      (reading (moveShiftBlockContentTo (reading s fun _ => true) from_ to_ lp).1 b,
        (moveShiftBlockContentTo (reading s fun _ => true) from_ to_ lp).2) := by
  by_cases hzero : min (getBlockSize (s.blocks from_)) (blockSize - lp) = 0
  · have hrun : ∀ b', moveShiftBlockContentTo (reading s b') from_ to_ lp =
        ((reading s b').touch from_, 0) := fun b' => if_pos hzero
    refine ⟨b, ?_⟩
    rw [hrun, hrun]
    rfl
  · refine ⟨fun n => if n < 2 then true else b (n - 2), ?_⟩
    have hgo : ∀ b' : Nat → Bool, b' 0 = true → b' 1 = true →
        moveShiftBlockContentTo (reading s b') from_ to_ lp =
          (reading (moveShiftBlockContentTo (reading s fun _ => true) from_ to_ lp).1
            (fun n => b' (n + 2)),
            (moveShiftBlockContentTo (reading s fun _ => true) from_ to_ lp).2) := by
      intro b' h0 h1
      have hok : ¬ (b' 0 = false ∨ b' 1 = false) := by simp [h0, h1]
      have hrun : moveShiftBlockContentTo (reading s b') from_ to_ lp = _ :=
        (if_neg hzero).trans (if_neg hok)
      have hcalm : moveShiftBlockContentTo (reading s fun _ => true) from_ to_ lp = _ :=
        (if_neg hzero).trans (if_neg (show ¬ (true = false ∨ true = false) by decide))
      rw [hrun, hcalm]
      rfl
    rw [hgo _ rfl rfl]
    rfl

/-- What an iteration does without failing reads it does with the reads it needs, whatever
the later ones do. -/
theorem passStep_reading {s : Ctx} {bli moved pos : Nat} {p : Pass}
    (step : passStep ⟨reading s fun _ => true, bli, moved, pos⟩ = .next p) (b : Nat → Bool) :
    ∃ b', passStep ⟨reading s b', bli, moved, pos⟩ = .next { p with ctx := reading p.ctx b } := by
  by_cases hcond : moved < s.node.iSize ∧ bli < u64 ((s.node.iBlocks : Int) - 2)
  swap
  · rw [show passStep ⟨reading s fun _ => true, bli, moved, pos⟩ = .done _ from if_neg hcond] at step
    cases step
  by_cases hempty : blockEmpty (s.blocks (bli + 1)) = true
  · have hrun : ∀ c, passStep ⟨reading s c, bli, moved, pos⟩ =
        .next ⟨reading (bubbleUpBlock (s.touch (bli + 1)) (bli + 1)
          (i32 ((s.node.iBlocks : Int) - 1))) c, bli, moved, pos⟩ := by
      intro c
      have h : passStep ⟨reading s c, bli, moved, pos⟩ =
          .next ⟨bubbleUpBlock (reading (s.touch (bli + 1)) c) (bli + 1)
            (i32 ((s.node.iBlocks : Int) - 1)), bli, moved, pos⟩ :=
        (if_pos hcond).trans (if_pos hempty)
      rw [h, bubbleUpBlock_reading]
    rw [hrun] at step
    cases step
    exact ⟨b, hrun b⟩
  · obtain ⟨r, hr⟩ : ∃ r : (Nat → Bool) → Ctx × Int, r = fun c =>
        moveShiftBlockContentTo (reading (s.touch (bli + 1)) c) (bli + 1) bli pos := ⟨_, rfl⟩
    obtain ⟨b', hmove⟩ : ∃ b', r b' = (reading (r fun _ => true).1 b, (r fun _ => true).2) := by
      rw [hr]
      exact moveShiftBlockContentTo_reading (s.touch (bli + 1)) (bli + 1) bli pos b
    have hrun : ∀ c, passStep ⟨reading s c, bli, moved, pos⟩ =
        if (r c).2 < 0 then .done (⟨(r c).1, bli, moved, pos⟩, -errIo)
        else if pos + (r c).2.toNat = blockSize then
          .next ⟨(r c).1.touch (bli + 1), bli + 1,
            moved + (r c).2.toNat + getBlockSize ((r c).1.blocks (bli + 1)),
            getBlockSize ((r c).1.blocks (bli + 1))⟩
        else .next ⟨(r c).1, bli, moved + (r c).2.toNat, pos + (r c).2.toNat⟩ := by
      intro c
      rw [hr]
      exact (if_pos hcond).trans (if_neg hempty)
    refine ⟨b', ?_⟩
    rw [hrun] at step
    rw [hrun, hmove]
    split at step
    · cases step
    rename_i hok
    rw [if_neg hok]
    split at step
    · rename_i hfull
      cases step
      exact if_pos hfull
    · rename_i hfull
      cases step
      exact if_neg hfull

section

variable {s : Ctx} {es : List Word} {p : Pass} {F R : List Word} {e : Word}

theorem PassInv.reading (h : PassInv s es p F e R) (v : Bool) :
    PassInv (reading s fun _ => v) es { p with ctx := reading p.ctx fun _ => v } F e R :=
  have k := h.kept
  ⟨⟨k.shape.congr (fun _ _ => rfl) rfl rfl, k.blocks, k.size, ⟨k.bytes.same, k.bytes.smeared⟩,
    k.frame, k.sbi, k.node, k.overlap⟩, h.drained, h.bli, h.full, h.cursor, h.moved, Io.Later.refl _⟩

theorem Kept.unread {t : Ctx} {es' : List Word} {rest : List Nat} {b : Nat → Bool}
    (k : Kept (reading s b) es t es' rest) : Kept s es t es' rest :=
  ⟨k.shape, k.blocks, k.size, ⟨k.bytes.same, k.bytes.smeared⟩, k.frame, k.sbi, k.node, k.overlap⟩

/-- If no block can be read, a pass with a block left to drain into one that is neither
empty nor full stops there. -/
theorem pass_stops (size : s.node.iSize = total es) (unread : ∀ n, s.io.bread n = false) (w : Nat) :
    ∀ (p : Pass) (F : List Word) (e : Word) (R : List Word), weight R = w →
      PassInv s es p F e R → (total F + getBlockSize e) % 4096 ≠ 0 → held R ≠ [] →
      ∃ fuel r, iterate passStep fuel p = some r ∧ r.2 = -errIo ∧
        ∃ es', Kept s es r.1.ctx es' (held R) := by
  induction w using Nat.strong_induction_on with
  | _ w ih =>
    intro p F e R hw h hpart hne
    rcases passStep_cases h size with
      ⟨_, hz⟩ | ⟨t, hdone, _, hkept, _⟩ | ⟨q, F', e', R', hnext, hq, hlt, hc, hread⟩
    · exact absurd (held_eq_nil.mpr hz) hne
    · exact ⟨1, ({ p with ctx := t }, -errIo), by simp only [iterate, hdone], rfl, _, hkept⟩
    · -- an empty block has been rotated
      have hpart' : ¬ getBlockSize e = 4096 := by
        have := total_of_full h.full
        omega
      have hheld := (hread (h.reads.const unread 0)).resolve_left hpart'
      obtain ⟨z, R₀, hR, hpos, hheld'⟩ := hc
      have hz : getBlockSize z = 0 := by
        by_contra hz
        have hlen := congrArg List.length (hheld'.symm.trans (hheld.trans (congrArg held hR)))
        rw [held_cons_pos R₀ hz, List.length_cons] at hlen
        omega
      obtain ⟨fuel, r, hrun, hret, hkept⟩ := ih _ (hw ▸ hlt) q F' e' R' rfl hq
        (by rw [hpos, hz]; exact hpart) (hheld ▸ hne)
      exact ⟨fuel + 1, r, by simpa only [iterate, hnext] using hrun, hret, hheld ▸ hkept⟩

/-- The block `n` in the rest does not fit, and another one comes behind it: some reads
stop the pass right after `n` has been drained. -/
theorem pass_spoils (size : s.node.iSize = total es) (w : Nat) :
    ∀ (c : Ctx) (bli moved pos : Nat) (F : List Word) (e : Word) (R : List Word)
      (pre : List Nat) (n : Nat) (rest : List Nat), weight R = w →
      PassInv (reading s fun _ => true) es ⟨reading c fun _ => true, bli, moved, pos⟩ F e R →
      held R = pre ++ n :: rest → rest ≠ [] →
      ¬ Fits (total F + getBlockSize e + pre.sum) n → n ≤ 4096 →
      ∃ b fuel r, iterate passStep fuel ⟨reading c b, bli, moved, pos⟩ = some r ∧ r.2 = -errIo ∧
        ∃ es', Kept s es r.1.ctx es' rest := by
  induction w using Nat.strong_induction_on with
  | _ w ih =>
    intro c bli moved pos F e R pre n rest hw h hsplit hne hfits hle
    rcases passStep_cases h size with
      ⟨_, hz⟩ | ⟨t, _, _, _, hfail⟩ | ⟨q, F', e', R', hnext, hq, hlt, hc, _⟩
    · rw [held_eq_nil.mpr hz] at hsplit
      simp at hsplit
    · exact absurd (fun _ => rfl) hfail
    suffices hrest : ∃ b fuel r, iterate passStep fuel { q with ctx := reading q.ctx b } = some r ∧
        r.2 = -errIo ∧ ∃ es', Kept s es r.1.ctx es' rest by
      obtain ⟨b, fuel, r, hrun, hret, hkept⟩ := hrest
      obtain ⟨b', hstep⟩ := passStep_reading hnext b
      exact ⟨b', fuel + 1, r, by simpa only [iterate, hstep] using hrun, hret, hkept⟩
    have hq' := PassInv.reading hq true
    obtain ⟨z, R₀, rfl, hpos, hheld⟩ := hc
    by_cases hz : getBlockSize z = 0
    · rw [held_cons_zero R₀ hz, ← hheld] at hsplit
      exact ih _ (hw ▸ hlt) q.ctx q.bli q.dataMoved q.logicalPos F' e' R' pre n rest rfl hq' hsplit
        hne (by rwa [hpos, hz]) hle
    rw [held_cons_pos R₀ hz, ← hheld] at hsplit
    cases pre with
    | cons m pre =>
      obtain ⟨hm, htail⟩ := List.cons.inj hsplit
      refine ih _ (hw ▸ hlt) q.ctx q.bli q.dataMoved q.logicalPos F' e' R' pre n rest rfl hq' htail
        hne ?_ hle
      rwa [hpos, hm, Nat.add_assoc _ m, ← List.sum_cons]
    | nil =>
      obtain ⟨hn, htail⟩ := List.cons.inj hsplit
      have hstop : (total F' + getBlockSize e') % 4096 ≠ 0 := by
        rw [List.sum_nil, Nat.add_zero, Fits, blockSize] at hfits
        omega
      obtain ⟨fuel, r, hrun, hret, es', hkept⟩ := pass_stops (s := reading s fun _ => false) size
        (fun _ => rfl) _ _ F' e' R' rfl (PassInv.reading hq false) hstop (htail ▸ hne)
      exact ⟨fun _ => false, fuel, r, hrun, hret, es', htail ▸ Kept.unread hkept⟩

end

/-- Some reads stop a defragmentation right behind a spoilt block that another one follows. -/
theorem ouichefsDefrag_spoils {s : Ctx} (wf : WellFormed s) (site : Sited s) {k : Nat}
    (lt : k < s.node.iBlocks - 1) (more : held (s.entries.drop (k + 1)) ≠ [])
    (unfit : ¬ Fits (sizesBelow s.blocks k) (getBlockSize (s.blocks k))) :
    ∃ b fuel t, ouichefsDefrag fuel (reading s b) = some (t, -errIo) ∧
      ∃ es', Kept s s.entries t es' (held (s.entries.drop (k + 1))) := by
  have hle := getBlockSize_le (s.blocks k)
  have hshape : Shape (reading s fun _ => true) s.entries :=
    (wf.shape site.apart).congr (fun _ _ => rfl) rfl rfl
  rw [← total_take_entries lt, ← entries_get lt] at unfit
  rw [← entries_get lt] at hle
  rw [← entries_length] at lt
  have hsize : s.node.iSize = total s.entries := wf.size
  generalize hes : s.entries = es at *
  cases es with
  | nil => exact absurd lt (Nat.not_lt_zero k)
  | cons e R =>
    cases k with
    | zero => exact absurd (fits_of_aligned rfl hle) unfit
    | succ k =>
      have hk : k < R.length := by simpa using lt
      have hpos : getBlockSize (R[k]?.getD 0) ≠ 0 := by
        intro hzero
        refine unfit ?_
        rw [List.getElem?_cons_succ, hzero]
        exact Nat.zero_le _
      have hstart := passStart_inv hshape
      rw [passStart_eq hshape] at hstart
      obtain ⟨b, fuel, r, hrun, hret, es', hkept⟩ := pass_spoils hsize _
        (s.popBread.touch 0) 0 (getBlockSize e) (getBlockSize e) [] e R _ _ _ rfl hstart
        (held_at hk hpos) more (by simpa [sum_held] using unfit) hle
      refine ⟨fun n => n.casesOn true b, fuel, r.1.ctx, ?_, es', hkept⟩
      have hat : (s.popBread.touch 0).blocks 0 = e := hshape.blocks_at (A := [])
      have hfirst : passStart (reading s fun n => n.casesOn true b) =
          ⟨reading (s.popBread.touch 0) b, 0, getBlockSize e, getBlockSize e⟩ := by
        rw [← hat]
        rfl
      rw [ouichefsDefrag_eq (show ¬ true = false by decide), hfirst, hrun, Option.map_some,
        if_pos (by rw [hret]; decide), hret]

/-- Whichever reads fail and whatever `memcpy` makes of overlapping ranges, a
defragmentation ends; if it reports a failure, the file is unharmed, exactly if no block
in front of another one is drained less than half. -/
theorem ouichefsDefrag_fails_unharmed_iff (s : Ctx) (wf : WellFormed s) (site : Sited s) :
    (∀ io : Io, (∃ n t ret, ∀ fuel, n ≤ fuel →
        ouichefsDefrag fuel { s with io := io } = some (t, ret)) ∧
      ∀ fuel t, ouichefsDefrag fuel { s with io := io } = some (t, -errIo) → Unharmed s t) ↔
        DrainableBefore s := by
  have hwf : ∀ io : Io, WellFormed { s with io := io } := fun _ =>
    ⟨wf.1, wf.2, wf.3, wf.4, wf.5, wf.6⟩
  have hsite : ∀ io : Io, Sited { s with io := io } := fun _ => ⟨site.1, site.2⟩
  constructor
  · intro h k hk hmore
    by_contra hover
    obtain ⟨P, hP⟩ : ∃ P, P = sizesBelow s.blocks k +
      (blockSize - sizesBelow s.blocks k % blockSize) := ⟨_, rfl⟩
    obtain ⟨a, ha⟩ : ∃ a : Byte, s.content[P]? ≠ some a := by
      by_cases hzero : s.content[P]? = some 0
      · exact ⟨1, by rw [hzero]; decide⟩
      · exact ⟨0, hzero⟩
    obtain ⟨b, fuel, t, hrun, es', hkept⟩ := ouichefsDefrag_spoils (hwf (smearIo a))
      (hsite (smearIo a)) hk (held_drop_ne_nil.mpr hmore) hover
    have hunharmed := (h { smearIo a with bread := b }).2 fuel t hrun
    have hspoilt : Spoilt (held s.entries) (held (s.entries.drop (k + 1))) P := by
      have hlt : k < s.entries.length := by rwa [entries_length]
      have hget := entries_get hk
      have hfits : ¬ Fits (held (s.entries.take k)).sum (getBlockSize (s.blocks k)) := by
        rwa [sum_held, total_take_entries hk]
      have hsum : (held (s.entries.take k)).sum = sizesBelow s.blocks k := by
        rw [sum_held, total_take_entries hk]
      refine ⟨_, getBlockSize (s.blocks k), [], ?_, hfits, by rw [hP, hsum], ?_⟩
      · rw [List.nil_append, ← hget]
        refine held_at hlt ?_
        rw [hget]
        intro hzero
        rw [hzero] at hfits
        exact hfits (Nat.zero_le _)
      · rw [hP, hsum]
        rw [hsum, Fits] at hfits
        omega
    have hbyte := hkept.bytes.smeared P hspoilt a (fun _ _ _ _ _ _ => rfl)
    rw [← hkept.shape.content_eq, hunharmed.content] at hbyte
    exact ha hbyte
  · intro hbefore io
    obtain ⟨⟨n, r, hrun⟩, hpost⟩ := ouichefsDefrag_ends ((hwf io).shape site.apart) (hwf io).size
    refine ⟨⟨n, r.1, r.2, fun fuel hle => ouichefsDefrag_mono hle hrun⟩, ?_⟩
    intro fuel t hfail
    rcases hpost fuel _ hfail with ⟨hret, _⟩ | ⟨_, _, hstopped⟩
    · exact absurd hret (show ¬ -errIo = 0 by decide)
    · have h := Stopped.unharmed hstopped (hwf io) (hsite io) hbefore
      exact ⟨h.1, h.2, h.3, h.4, h.5, h.6, h.7, h.8⟩

/-- A file of 4097 bytes on five blocks whose fourth read of a data block fails. -/
def shakyCtx : Ctx := { scatteredCtx with io := { calmIo with bread := fun n => decide (n ≠ 4) } }

theorem ouichefsDefrag_fails_unharmed_scattered :
    ∃ t, ouichefsDefrag 8 shakyCtx = some (t, -errIo) ∧ Unharmed scatteredCtx t := by
  have hret : (ouichefsDefrag 8 shakyCtx).map Prod.snd = some (-errIo) := by decide +kernel
  have hdrain : Drainable scatteredCtx := by decide +kernel
  obtain ⟨⟨t, ret⟩, hrun, rfl⟩ := Option.map_eq_some_iff.mp hret
  refine ⟨t, hrun, ((ouichefsDefrag_fails_unharmed_iff scatteredCtx ?_ ?_).mpr
    (fun k hk _ => hdrain k hk) shakyCtx.io).2 8 t hrun⟩
  · exact scatteredCtx_shape.wellFormed (nonzero_of_numbers (by decide)) (by decide +kernel)
  · constructor
    · rw [scatteredCtx_shape.entries_eq]
      decide
    · rw [scatteredCtx_shape.entries_eq]
      decide

/-- The second block has been drained over itself when the third one cannot be read. -/
theorem failing_defrag_alters_content :
    WellFormed drivenCtx ∧ Sited drivenCtx ∧
      ∃ t, (∃ fuel, ouichefsDefrag fuel { drivenCtx with
          io := { downIo with bread := fun n => decide (n ≠ 3) } } = some (t, -errIo)) ∧
        t.content ≠ drivenCtx.content := by
  have hrun : (ouichefsDefrag 5 { drivenCtx with
      io := { downIo with bread := fun n => decide (n ≠ 3) } }).map
      (fun r => (r.2, r.1.content[4096]?)) = some (-errIo, some 224) := by
    decide +kernel
  have hold : drivenCtx.content[4096]? = some 208 := by decide +kernel
  obtain ⟨⟨t, ret⟩, hrun, heq⟩ := Option.map_eq_some_iff.mp hrun
  obtain ⟨rfl, hnew⟩ := Prod.mk.inj heq
  refine ⟨drivenCtx_shape.wellFormed (nonzero_of_numbers (by decide)) (by decide +kernel),
    ⟨?_, ?_⟩, t, ⟨5, hrun⟩, fun hsame => ?_⟩
  · rw [drivenCtx_shape.entries_eq]
    decide
  · rw [drivenCtx_shape.entries_eq]
    decide
  · rw [hsame, hold] at hnew
    cases hnew

/-! A defragmentation that runs twice. -/

/-- A pass over the compact file `es` of `t`: `F` is behind the cursor, nothing has
been moved. -/
structure Walking (t : Ctx) (es : List Word) (p : Pass) (F : List Word) (e : Word)
    (R : List Word) : Prop where
  split : es = F ++ e :: R
  disk : p.ctx.disk = t.disk
  sbi : p.ctx.sbi = t.sbi
  node : p.ctx.node = t.node
  bli : p.bli = F.length
  cursor : p.logicalPos = getBlockSize e
  moved : p.dataMoved = total F + getBlockSize e
  reads : t.io.Later p.ctx.io
  overlap : p.ctx.io.overlap = t.io.overlap

section

variable {t : Ctx} {es : List Word} {p : Pass} {F R : List Word} {e : Word}

theorem Walking.shape (h : Walking t es p F e R) (shape : Shape t es) : Shape p.ctx es := by
  refine shape.congr ?_ (by rw [h.node]) (by rw [h.node])
  intro i _
  exact blocks_congr (by rw [h.node]) (by rw [h.disk]) i

/-- On a compact file an iteration moves nothing: it steps over a full block, or
the last block has been reached. -/
theorem Walking.step (h : Walking t es p F e R) (shape : Shape t es)
    (size : t.node.iSize = total es) (full : ∀ f ∈ es.dropLast, getBlockSize f = 4096)
    (positive : ∀ f ∈ es, 0 < getBlockSize f) :
    (R = [] ∧ passStep p = .done (p, 0)) ∨
    (∃ p' z R', R = z :: R' ∧ passStep p = .next p' ∧ Walking t es p' (F ++ [e]) z R') := by
  have hshape := h.shape shape
  have hl := shape.length_le
  have hib := hshape.iBlocks
  rw [h.split] at hl hib
  simp only [List.length_append, List.length_cons] at hl hib
  have hbound : u64 ((p.ctx.node.iBlocks : Int) - 2) = F.length + R.length := by
    rw [← u64_natCast (show F.length + R.length < 18446744073709551616 by omega), hib]
    congr 1
    push_cast
    omega
  cases R with
  | nil =>
    left
    refine ⟨rfl, if_neg ?_⟩
    rw [hbound, h.bli]
    simp
  | cons z R =>
    right
    have hz : 0 < getBlockSize z := positive z (by rw [h.split]; simp)
    have he : getBlockSize e = 4096 := by
      apply full
      rw [h.split, List.dropLast_append_of_ne_nil (by simp)]
      simp
    have hcond : p.dataMoved < p.ctx.node.iSize ∧
        p.bli < u64 ((p.ctx.node.iBlocks : Int) - 2) := by
      constructor
      · rw [h.node, size, h.moved, h.split]
        simp only [total_append, total_cons]
        omega
      · rw [hbound, h.bli, List.length_cons]
        omega
    obtain ⟨s, hs⟩ : ∃ s, s = p.ctx.touch ((p.bli : Int) + 1) := ⟨_, rfl⟩
    have hat : s.blocks (F.length + 1) = z := by
      have hsplit : Shape p.ctx ((F ++ [e]) ++ z :: R) := by
        have := hshape
        rw [h.split] at this
        simpa using this
      have hz := hsplit.blocks_at
      rw [List.length_append, List.length_singleton] at hz
      rw [hs]
      exact hz
    have hmove : moveShiftBlockContentTo s (F.length + 1) F.length (getBlockSize e) =
        (s.touch ((F.length + 1 : Nat) : Int), 0) := by
      rw [moveShiftBlockContentTo, if_pos (by rw [he]; simp [blockSize])]
    have hnext : passStep p = .next ⟨(s.touch ((F.length + 1 : Nat) : Int)).touch
        ((F.length : Int) + 1), F.length + 1, p.dataMoved + getBlockSize z, getBlockSize z⟩ := by
      have hat' : (s.touch ((F.length + 1 : Nat) : Int)).blocks (F.length + 1) = z := hat
      unfold passStep
      simp only [if_pos hcond, ← hs]
      rw [h.bli, hat, h.cursor, if_neg (by rw [blockEmpty_iff]; omega), hmove]
      simp only [lt_irrefl, if_false, Int.toNat_zero, Nat.add_zero]
      rw [if_pos (show getBlockSize e = blockSize from he), hat']
    refine ⟨_, z, R, rfl, hnext, ?_⟩
    constructor
    · rw [h.split]
      simp
    · rw [hs]
      exact h.disk
    · rw [hs]
      exact h.sbi
    · rw [hs]
      exact h.node
    · simp
    · rfl
    · rw [h.moved]
      simp
    · rw [hs]
      exact h.reads
    · rw [hs]
      exact h.overlap

/-- The first pass over a compact file ends at the last block. -/
theorem Walking.run (shape : Shape t es) (size : t.node.iSize = total es)
    (full : ∀ f ∈ es.dropLast, getBlockSize f = 4096)
    (positive : ∀ f ∈ es, 0 < getBlockSize f) (h : Walking t es p F e R) :
    ∃ p' F' e', iterate passStep (R.length + 1) p = some (p', 0) ∧ Walking t es p' F' e' [] := by
  induction R generalizing p F e with
  | nil =>
    rcases h.step shape size full positive with ⟨_, hdone⟩ | ⟨_, _, _, hnil, _⟩
    · exact ⟨p, F, e, by simp only [iterate, hdone], h⟩
    · cases hnil
  | cons z R ih =>
    rcases h.step shape size full positive with ⟨hnil, _⟩ | ⟨p', z', R', hR, hnext, hw⟩
    · cases hnil
    · cases hR
      obtain ⟨q, F', e', hrun, hq⟩ := ih hw
      refine ⟨q, F', e', ?_, hq⟩
      simpa only [List.length_cons, iterate, hnext] using hrun

end

/-- No index word, no data byte, no bitmap bit and no count differs. -/
structure Unmoved (s t : Ctx) : Prop where
  index : ∀ i, i < 1024 → t.blocks i = s.blocks i
  disk : t.disk = s.disk
  bitmap : t.sbi.bfreeBitmap = s.sbi.bfreeBitmap
  counter : t.sbi.nrFreeBlocks = s.sbi.nrFreeBlocks
  iBlocks : t.node.iBlocks = s.node.iBlocks
  iSize : t.node.iSize = s.node.iSize

/-- A second pass that finds no block to free. -/
theorem Separated.unmoved {t : Ctx} {es : List Word} {p : Pass} (h : Separated t es p es [])
    (disk : p.ctx.disk = t.disk) : Unmoved t (secondPass p) := by
  obtain ⟨iBlocks, iMtime, iCtime, hnode⟩ := h.squeezed.node
  have hdisk : (secondPass p).disk = t.disk := by
    rw [h.secondPass_eq]
    exact disk
  have hsbi : (secondPass p).sbi = t.sbi := by
    rw [h.secondPass_eq]
    exact h.kept.sbi
  constructor
  · intro i _
    exact blocks_congr (by rw [hnode]) (by rw [hdisk]) i
  · exact hdisk
  · rw [hsbi]
  · rw [hsbi]
  · have hkept := h.kept.shape.iBlocks
    rw [h.kept.node, List.append_nil] at hkept
    rw [h.squeezed.shape.iBlocks, hkept]
  · rw [hnode]

/-- A defragmentation of a compact file ends and leaves everything in place. -/
theorem ouichefsDefrag_compact {t : Ctx} {es : List Word} (shape : Shape t es)
    (size : t.node.iSize = total es) (full : ∀ f ∈ es.dropLast, getBlockSize f = 4096)
    (positive : ∀ f ∈ es, 0 < getBlockSize f) (reads : t.io.NoReadFails) :
    ∃ u n, ouichefsDefrag n t = some (u, 0) ∧ Unmoved t u := by
  suffices hpass : ∃ p n, iterate passStep n (passStart t) = some (p, 0) ∧
      Separated t es p es [] ∧ p.ctx.disk = t.disk by
    obtain ⟨p, n, hrun, hsep, hdisk⟩ := hpass
    refine ⟨secondPass p, n, ?_, Separated.unmoved hsep hdisk⟩
    rw [ouichefsDefrag_eq (by rw [reads 0]; simp), hrun]
    rfl
  cases es with
  | nil =>
    obtain ⟨hdone, hsep⟩ := passStart_empty shape size
    exact ⟨passStart t, 1, by simp only [iterate, hdone], hsep, rfl⟩
  | cons e R =>
    have hstart : Walking t (e :: R) (passStart t) [] e R := by
      have hreads := passStart_reads t
      rw [passStart_eq shape] at hreads ⊢
      exact ⟨rfl, rfl, rfl, rfl, rfl, rfl, by simp, hreads, rfl⟩
    obtain ⟨p, F, e', hrun, hw⟩ := Walking.run shape size full positive hstart
    refine ⟨p, _, hrun, ?_, hw.disk⟩
    have hshape := hw.shape shape
    have hcur : p.ctx.blocks p.bli = e' := by
      rw [hw.split] at hshape
      rw [hw.bli]
      exact hshape.blocks_at
    have he' : 0 < getBlockSize e' := positive e' (by rw [hw.split]; simp)
    refine ⟨?_, ?_, by simp, full, positive, hw.reads.const⟩
    · rw [List.append_nil]
      refine ⟨hshape, List.Perm.refl _, rfl, ⟨fun P _ => by rw [hw.disk], fun P hP => ?_⟩,
        fun b _ _ => by rw [hw.disk], hw.sbi, hw.node, hw.overlap⟩
      exact absurd hP (unspoilt_of_full full P)
    · rw [hcur, if_neg (by rw [blockEmpty_iff]; omega), hw.bli, hw.split]
      simp

/-- Running a defragmentation a second time changes nothing. -/
theorem ouichefsDefrag_idempotent (s : Ctx) (wf : WellFormed s)
    (apart : s.node.indexBlock ∉ numbers s.entries) (reads : s.io.NoReadFails) :
    ∃ t u, Unmoved t u ∧ ∃ n, ∀ fuel, n ≤ fuel →
      ouichefsDefrag fuel s = some (t, 0) ∧ ouichefsDefrag fuel t = some (u, 0) := by
  obtain ⟨⟨n, r, hrun⟩, hpost⟩ := ouichefsDefrag_ends (wf.shape apart) wf.size
  rcases hpost n r hrun with ⟨hret, p, K, D, hsep, hlast⟩ | ⟨_, hfail, _⟩
  swap
  · exact absurd reads hfail
  have sq := hsep.squeezed
  rw [← hlast] at sq
  obtain ⟨iBlocks, iMtime, iCtime, hnode⟩ := sq.node
  have hsize : r.1.node.iSize = total K := by
    rw [hnode, sq.size, ← wf.size]
  obtain ⟨u, m, hagain, hsame⟩ :=
    ouichefsDefrag_compact sq.shape hsize sq.full sq.positive (sq.reads reads)
  refine ⟨r.1, u, hsame, max n m, ?_⟩
  intro fuel hle
  constructor
  · rw [ouichefsDefrag_mono (by omega) hrun, ← hret]
  · exact ouichefsDefrag_mono (by omega) hagain

theorem ouichefsDefrag_idempotent_scattered :
    ∃ t u, Unmoved t u ∧ ∃ n, ∀ fuel, n ≤ fuel →
      ouichefsDefrag fuel scatteredCtx = some (t, 0) ∧ ouichefsDefrag fuel t = some (u, 0) :=
  ouichefsDefrag_idempotent scatteredCtx
    (scatteredCtx_shape.wellFormed (nonzero_of_numbers (by decide)) (by decide +kernel))
    (by rw [scatteredCtx_shape.entries_eq]; decide)
    (fun _ => rfl)

end Stability
