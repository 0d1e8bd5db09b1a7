import OuicheFs.LightWrite
import OuicheFs.Compaction

/-!
# Opening with truncation

The release loop of `ouichefs_open` frees the blocks of a file and clears its
index. The block count is then set to 0, although a new file counts its index
block and starts with 1, so the truncated file is never as good as new.
-/
namespace Truncation

open CInt ByteBuffer IndexEntry Allocator FileContext Layout OuicheFile OuicheWrite Reserve
  LightWrite Compaction Loop

/-! ## The release loop -/

/-- What the release of the entries `D` from slot `bli` on leaves behind. -/
structure Cleared (s t : Ctx) (bli : Nat) (D : List Word) : Prop where
  zero : ∀ i, bli ≤ i → i < bli + D.length → t.blocks i = 0
  others : ∀ i, i < bli ∨ bli + D.length ≤ i → t.blocks i = s.blocks i
  frame : IndexOnly s t
  released : Released s.sbi t.sbi (numbers D)
  node : t.node = s.node

theorem releaseStep_some {s : Ctx} {bli : Nat} {d : Word} (at_ : s.blocks bli = d) (ne : d ≠ 0)
    (range : getBlockNumber d ≤ s.sbi.nrBlocks) :
    ∃ t, releaseStep (s, bli) = .next (t, bli + 1) ∧ t.blocks bli = 0 ∧
      (∀ i, i ≠ bli → t.blocks i = s.blocks i) ∧ IndexOnly s t ∧
      Given s.sbi t.sbi (getBlockNumber d) ∧ t.node = s.node := by
  have hat : (s.touch bli).blocks bli = d := at_
  obtain ⟨t, ht⟩ : ∃ t, t = ({ s.touch bli with
    sbi := putBlock s.sbi (getBlockNumber d) } : Ctx).setBlocks bli 0 := ⟨_, rfl⟩
  refine ⟨t, ?_, ?_, ?_, ?_, ?_, ?_⟩
  · unfold releaseStep
    simp only [hat, if_neg ne]
    rw [ht]
    rfl
  · rw [ht, blocks_setBlocks_self]
  · intro i hi
    rw [ht, blocks_setBlocks_of_ne _ _ hi]
    rfl
  · rw [ht]
    exact ⟨fun b hb => disk_setBlocks_of_ne _ _ _ hb, rfl⟩
  · rw [ht]
    exact putBlock_given range
  · rw [ht]
    rfl

theorem releaseLoop_spec (D : List Word) :
    ∀ (bli : Nat) (s : Ctx), (∀ i, i < D.length → s.blocks (bli + i) = D[i]?.getD 0) →
      (∀ d ∈ D, d ≠ 0) → s.blocks (bli + D.length) = 0 →
      (∀ b ∈ numbers D, b ≤ s.sbi.nrBlocks) →
      ∃ t, iterate releaseStep (D.length + 1) (s, bli) = some t ∧ Cleared s t bli D := by
  induction D with
  | nil =>
    intro bli s _ _ hend _
    have hat : (s.touch bli).blocks bli = 0 := hend
    refine ⟨s.touch bli, ?_, ?_⟩
    · simp only [iterate, releaseStep, hat, if_true]
    · exact ⟨fun i lo hi => by simp at hi; omega, fun _ _ => rfl, ⟨fun _ _ => rfl, rfl⟩,
        Released.nil s.sbi, rfl⟩
  | cons d D ih =>
    intro bli s hblocks hne hend hrange
    have hd : s.blocks bli = d := by simpa using hblocks 0 (by simp)
    obtain ⟨t, hstep, hzero, hother, hframe, hgiven, hnode⟩ :=
      releaseStep_some hd (hne d (by simp)) (hrange _ (by simp))
    obtain ⟨u, hrun, hc⟩ := ih (bli + 1) t
      (by
        intro i hi
        rw [hother _ (by omega), show bli + 1 + i = bli + (i + 1) by omega,
          hblocks (i + 1) (by simpa using hi)]
        rfl)
      (fun f hf => hne f (by simp [hf]))
      (by
        rw [hother _ (by omega), ← hend, List.length_cons]
        congr 1
        omega)
      (fun b hb => hgiven.layout.nrBlocks ▸ hrange b (by simp [hb]))
    refine ⟨u, ?_, ?_, ?_, hframe.trans hc.frame, Released.cons hgiven hc.released,
      hc.node.trans hnode⟩
    · rw [List.length_cons, iterate, hstep]
      exact hrun
    · intro i lo hi
      simp only [List.length_cons] at hi
      by_cases hi0 : i = bli
      · subst hi0
        rw [hc.others i (by omega), hzero]
      · exact hc.zero i (by omega) (by omega)
    · intro i hi
      simp only [List.length_cons] at hi
      rw [hc.others i (by omega), hother i (by omega)]

/-! ## The open call -/

/-- The file in `t` is the file in `s` after all its blocks have been given back. -/
structure Emptied (s t : Ctx) : Prop where
  size : t.node.iSize = 0
  index : ∀ i, i < 1024 → t.blocks i = 0
  freed : ∀ b, t.sbi.bfreeBitmap b = (s.sbi.bfreeBitmap b || decide (b ∈ numbers s.entries))
  counter : t.sbi.nrFreeBlocks = s.sbi.nrFreeBlocks + (s.node.iBlocks - 1)

/-- The same inode with the block count of a new file. -/
def asNew (t : Ctx) : Ctx := { t with node := { t.node with iBlocks := 1 } }

/-- The file in `t` is the file in `s` reset to the state of a new file. -/
structure IsReset (s t : Ctx) : Prop where
  emptied : Emptied s t
  iBlocks : t.node.iBlocks = 1
  write : ∀ fFlags (data : List Byte), data ≠ [] →
    (ouichefsLightWrite t fFlags data 0).ret = (ouichefsLightWrite (asNew t) fFlags data 0).ret ∧
      (ouichefsLightWrite t fFlags data 0).ctx.content =
        (ouichefsLightWrite (asNew t) fFlags data 0).ctx.content

/-- Opening with `O_TRUNC` empties the file but leaves no block count, so it is
not reset to the state of a new file, for any file. -/
theorem ouichefsOpen_not_reset (s : Ctx) (fFlags : Nat) (wf : WellFormed s) (vol : OnVolume s)
    (reads : s.io.NoReadFails) (some_data : s.node.iSize ≠ 0) (few : s.node.iBlocks - 1 < 1024)
    (mode : fFlags &&& oWronly ≠ 0 ∨ fFlags &&& oRdwr ≠ 0) (trunc : fFlags &&& oTrunc ≠ 0) :
    ∃ t, ouichefsOpen (s.node.iBlocks + 1) s fFlags = some (t, 0) ∧ Emptied s t ∧
      t.node.iBlocks = 0 ∧ ¬ IsReset s t := by
  have shape := wf.shape vol.apart
  have hpos := wf.iBlocks_pos
  have hlen : s.entries.length = s.node.iBlocks - 1 := entries_length s
  have hcounter := vol.counter
  obtain ⟨u, hrun, hc⟩ := releaseLoop_spec s.entries 0 s.popBread
    (by
      intro i hi
      rw [Nat.zero_add]
      exact shape.slots i (by omega))
    (by
      intro d hd
      obtain ⟨i, hi, rfl⟩ := List.mem_iff_getElem.mp hd
      have hslot := shape.slots i (by omega)
      rw [List.getElem?_eq_getElem hi] at hslot
      exact fun hz => wf.nonzero i (by omega) (hslot.trans hz))
    (by
      rw [Nat.zero_add]
      exact wf.zero _ (by omega) (by omega))
    (fun b hb => Nat.le_of_lt (vol.range b hb))
  have hreleased : Released s.sbi u.sbi (numbers s.entries) := hc.released
  have hnum : (numbers s.entries).length = s.node.iBlocks - 1 := by
    rw [numbers, List.length_map, hlen]
  refine ⟨{ u with node := { u.node with iSize := 0, iBlocks := 0 } }, ?_, ?_, rfl, ?_⟩
  · have hfuel : iterate releaseStep (s.node.iBlocks + 1) (s.popBread, 0) = some u :=
      iterate_mono (by omega) hrun
    unfold ouichefsOpen
    simp only
    rw [if_pos ⟨mode, trunc, some_data⟩, if_pos (reads 0), hfuel]
    rfl
  · refine ⟨rfl, ?_, hreleased.bitmap, ?_⟩
    · intro i hi
      change u.blocks i = 0
      rcases Nat.lt_or_ge i s.entries.length with hlt | hge
      · exact hc.zero i (by omega) (by omega)
      · rw [hc.others i (by omega)]
        exact wf.zero i (by omega) hi
    · have := hreleased.count (by rw [hnum]; exact hcounter)
      rw [hnum] at this
      exact this
  · intro hreset
    exact absurd hreset.iBlocks (by simp)

theorem ouichefsOpen_not_reset_small :
    ∃ t, ouichefsOpen 3 smallCtx 513 = some (t, 0) ∧ Emptied smallCtx t ∧
      t.node.iBlocks = 0 ∧ ¬ IsReset smallCtx t :=
  ouichefsOpen_not_reset smallCtx 513 (smallCtx_shape.wellFormed smallCtx_held.nonzero rfl)
    ⟨(smallCtx_shape.live smallCtx_held).apart,
      fun b hb => ((smallCtx_shape.live smallCtx_held).data b hb).lt, by decide⟩
    (fun _ => rfl) (by decide) (by decide) (Or.inl (by decide)) (by decide)

/-- After the truncation a byte written at position 0 is lost. -/
theorem ouichefsOpen_loses_write :
    ∃ t, ouichefsOpen 2 smallCtx 513 = some (t, 0) ∧ t.node.iBlocks = 0 ∧
      (ouichefsLightWrite t 1 [88] 0).ret = 0 ∧
      (ouichefsLightWrite (asNew t) 1 [88] 0).ret = 1 ∧ ¬ IsReset smallCtx t := by
  obtain ⟨t, ht⟩ : ∃ t, ouichefsOpen 2 smallCtx 513 = some (t, 0) := ⟨_, rfl⟩
  have hblocks : (ouichefsOpen 2 smallCtx 513).map (fun r => r.1.node.iBlocks) = some 0 := by
    decide +kernel
  have hret : (ouichefsOpen 2 smallCtx 513).map
      (fun r => (ouichefsLightWrite r.1 1 [88] 0).ret) = some 0 := by decide +kernel
  have hnew : (ouichefsOpen 2 smallCtx 513).map
      (fun r => (ouichefsLightWrite (asNew r.1) 1 [88] 0).ret) = some 1 := by decide +kernel
  rw [ht, Option.map_some, Option.some_inj] at hblocks hret hnew
  refine ⟨t, ht, hblocks, hret, hnew, fun hreset => ?_⟩
  rw [hreset.iBlocks] at hblocks
  cases hblocks

end Truncation
