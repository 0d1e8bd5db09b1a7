import OuicheFs.FileRun

/-!
# Appending does not fragment

In a run of complete writes at or behind the end, the room in the last block is
used first, a gap fills its blocks to the brim, and the data goes on in the
block where the gap ends. So all blocks but the last stay full, as long as the
numbers of the blocks fit their entries: data that ends up in the index block
overwrites the sizes recorded there.
-/
namespace Appending

open Bits CInt ByteBuffer IndexEntry Allocator FileContext Layout OuicheWrite Reserve Pour Insert
  LightWrite Compaction FileRun

/-- Runs of complete writes, none of them empty, at or behind the end of the file;
`condition` restricts the calls by the state they find. -/
inductive AppendRun (condition : Ctx → Nat → List Byte → Prop) (s₀ : Ctx) : Ctx → Prop
  | start : AppendRun condition s₀ s₀
  | write (s : Ctx) (io : Io) (fFlags pos : Nat) (data : List Byte) :
      AppendRun condition s₀ s → condition s (startPos s fFlags pos) data → data ≠ [] →
      s.node.iSize ≤ startPos s fFlags pos →
      (ouichefsLightWrite { s with io := io } fFlags data pos).ret = data.length →
      AppendRun condition s₀ (ouichefsLightWrite { s with io := io } fFlags data pos).ctx

/-- The blocks the call takes have numbers that an entry can record. -/
def Recordable (s : Ctx) (pos : Nat) (data : List Byte) : Prop :=
  Addressable s.sbi (neededBlocks s data.length pos)

/-- As many data blocks as the size needs, and only the last one not full. -/
structure Unfragmented (s : Ctx) : Prop where
  count : s.node.iBlocks - 1 = (s.node.iSize + 4095) / 4096
  full : ∀ i, i + 1 < s.node.iBlocks - 1 → getBlockSize (s.blocks i) = 4096

/-- The invariant of a run. -/
structure AppendInv (s : Ctx) (es : List Word) : Prop where
  shape : Shape s es
  held : Held s es
  size : s.node.iSize = total es
  dense : Dense es

theorem AppendInv.unfragmented {s : Ctx} {es : List Word} (h : AppendInv s es) :
    Unfragmented s := by
  have hib := h.shape.iBlocks
  constructor
  · rw [hib, Nat.add_sub_cancel, h.size]
    exact length_of_full h.dense.full h.dense.positive
  · exact fun i hi => h.shape.full_slot h.dense.full (by omega)

/-- A complete write at or behind the end keeps the blocks dense. -/
theorem AppendInv.write {s : Ctx} {es : List Word} {io : Io} {fFlags pos : Nat} {data : List Byte}
    (h : AppendInv s es) (fits : Recordable s (startPos s fFlags pos) data) (nonempty : data ≠ [])
    (behind : s.node.iSize ≤ startPos s fFlags pos)
    (full : (ouichefsLightWrite { s with io := io } fFlags data pos).ret = data.length) :
    ∃ es', AppendInv (ouichefsLightWrite { s with io := io } fFlags data pos).ctx es' := by
  obtain ⟨fresh, es', g, m, w⟩ := ouichefsLightWrite_spec (s := { s with io := io })
    (h.shape.congr (fun _ _ => rfl) rfl rfl) ⟨h.held.ok, h.held.data, h.held.index⟩ h.size fFlags
    fits
  have hm : m = data.length := by
    have := w.ret (by omega)
    omega
  have hend : total es ≤ startPos s fFlags pos := h.size ▸ behind
  exact ⟨es', w.shape, w.held, w.size, w.dense hm nonempty hend h.dense⟩

theorem NewFile.appendInv {s : Ctx} (h : NewFile s) : AppendInv s [] :=
  ⟨h.shape, h.held, h.iSize, by simp, by simp⟩

theorem appendRun_inv {s₀ s : Ctx} (new : NewFile s₀) (run : AppendRun Recordable s₀ s) :
    ∃ es, AppendInv s es := by
  induction run with
  | start => exact ⟨[], NewFile.appendInv new⟩
  | write s io fFlags pos data _ fits nonempty behind full ih =>
    obtain ⟨es, hinv⟩ := ih
    exact hinv.write fits nonempty behind full

/-- Appending to a new file never fragments it, provided that the blocks taken
have numbers that an entry can record. -/
theorem appends_unfragmented (s₀ s : Ctx) (new : NewFile s₀) (run : AppendRun Recordable s₀ s) :
    Unfragmented s := by
  obtain ⟨es, hinv⟩ := appendRun_inv new run
  exact hinv.unfragmented

/-- Two bytes behind a gap of 4095. -/
theorem appends_unfragmented_gap :
    ∃ s, AppendRun Recordable freshCtx s ∧ s.node.iBlocks = 3 ∧ Unfragmented s := by
  obtain ⟨t, ht⟩ : ∃ t, t = (ouichefsLightWrite freshCtx 1 [66, 67] 4095).ctx := ⟨_, rfl⟩
  have hrun : AppendRun Recordable freshCtx t := by
    rw [ht]
    exact AppendRun.write freshCtx calmIo 1 4095 [66, 67] .start
      (addressable_of_small (by decide) _) (by decide) (by decide) (by decide +kernel)
  refine ⟨t, hrun, ?_, appends_unfragmented freshCtx t freshCtx_new hrun⟩
  rw [ht]
  decide +kernel

/-- A new file on a volume of 2^20 blocks. The second of the two free blocks has
the number of the index block plus 2^19. -/
def aliasedCtx : Ctx :=
  { crowdedCtx with sbi := { crowdedCtx.sbi with
      nrFreeBlocks := 2, bfreeBitmap := setBit (setBit (fun _ => false) 554288) 29999 } }

theorem aliasedCtx_free (b : Nat) (h₁ : b ≠ 29999) (h₂ : b ≠ 554288) :
    aliasedCtx.sbi.bfreeBitmap b = false :=
  (setBit_of_ne _ h₁).trans (setBit_of_ne _ h₂)

theorem aliasedCtx_new : NewFile aliasedCtx := by
  refine ⟨rfl, rfl, ?_, ⟨aliasedCtx_free 0 (by decide) (by decide), ?_, by decide⟩,
    ⟨by decide, by decide, aliasedCtx_free 30000 (by decide) (by decide)⟩⟩
  · intro i _
    exact le32_ofWords32 (fun _ => 0) i
  · have h₁ := popcount_setBit (m := fun _ => false) (show 554288 < 1048576 by decide) rfl
    have h₂ := popcount_setBit (m := setBit (fun _ => false) 554288)
      (show 29999 < 1048576 by decide) (setBit_of_ne _ (by decide))
    change 2 = popcount (setBit (setBit (fun _ => false) 554288) 29999) 1048576
    rw [h₂, h₁]
    simp [popcount]

/-- A block of bytes and four zeros. -/
def aliasedData : List Byte := List.replicate 4096 66 ++ [0, 0, 0, 0]

theorem aliasedData_length : aliasedData.length = 4100 := by
  rw [aliasedData, List.length_append, List.length_replicate]
  rfl

/-- The last four bytes land on the entry of the first block and clear its size. -/
theorem aliasedCtx_run :
    (ouichefsLightWrite aliasedCtx 1 aliasedData 0).ret = 4100 ∧
      (ouichefsLightWrite aliasedCtx 1 aliasedData 0).ctx.node.iBlocks = 3 ∧
      getBlockSize ((ouichefsLightWrite aliasedCtx 1 aliasedData 0).ctx.blocks 0) = 0 := by
  have hshape : Shape aliasedCtx [] := aliasedCtx_new.shape
  have hget₁ := getFreeBlock_eq (b := 29999) (by decide) (by decide)
    (by decide) (fun j hj => aliasedCtx_free j (by omega) (by omega))
  have hres₁ := @reserveEmptyBlocks_next { aliasedCtx.popBread with touched := [0, 0] } 0 _ _ 1
    hget₁ (by decide) (by decide +kernel)
  -- the state between the two allocations
  obtain ⟨t, ht⟩ : ∃ t : Ctx, t =
      (let t := { Ctx.touch { aliasedCtx.popBread with touched := [0, 0] } ((0 : Nat) : Int) with
        sbi := { aliasedCtx.sbi with
          bfreeBitmap := clearBit aliasedCtx.sbi.bfreeBitmap 29999
          nrFreeBlocks := u32 ((aliasedCtx.sbi.nrFreeBlocks : Int) - 1) } }
       let t := t.setBlocks 0 (setBlockNumber (t.blocks 0) 29999)
       let t := t.setBlocks 0 (setBlockSize (t.blocks 0) 0)
       { t with node := { t.node with iBlocks := u64 ((t.node.iBlocks : Int) + 1) } }) := ⟨_, rfl⟩
  rw [← ht] at hres₁
  have hbelow : ∀ j, j < 554288 → t.sbi.bfreeBitmap j = false := by
    intro j hj
    rw [ht]
    change clearBit aliasedCtx.sbi.bfreeBitmap 29999 j = false
    by_cases hfirst : j = 29999
    · rw [hfirst, clearBit_self]
    · rw [clearBit_of_ne _ hfirst, aliasedCtx_free j hfirst (Nat.ne_of_lt hj)]
  have hget₂ := getFreeBlock_eq (by decide) (by rw [ht]; decide)
    (by rw [ht]; decide) hbelow
  have hres₂ := @reserveEmptyBlocks_next t 1 _ _ 0 hget₂ (by decide) (by rw [ht]; decide +kernel)
  have hcall := ouichefsLightWrite_first hshape rfl (by decide)
    (by rw [aliasedData_length]; decide) (show _ = 2 by rw [aliasedData_length]; decide +kernel)
    (by decide +kernel) (congrArg Prod.fst (hres₁.trans hres₂)) 1
  rw [hcall, ht]
  exact ⟨by decide +kernel, by decide +kernel, by decide +kernel⟩

/-- Without the condition a single write of 4100 bytes to a new file leaves its
first block without a recorded byte. -/
theorem appends_fragmented_aliased : NewFile aliasedCtx ∧
    ¬ ∀ s, AppendRun (fun _ _ _ => True) aliasedCtx s → Unfragmented s := by
  refine ⟨aliasedCtx_new, ?_⟩
  intro hall
  obtain ⟨hret, hblocks, hempty⟩ := aliasedCtx_run
  have hne : aliasedData ≠ [] := by
    apply List.length_pos_iff.mp
    rw [aliasedData_length]
    decide
  have hrun := AppendRun.write aliasedCtx calmIo 1 0 aliasedData
    (@AppendRun.start (fun _ _ _ => True) aliasedCtx) trivial hne (by decide)
    (by rw [aliasedData_length]; exact hret)
  have hio : ({ aliasedCtx with io := calmIo } : Ctx) = aliasedCtx := rfl
  rw [hio] at hrun
  have hfull := (hall _ hrun).full 0 (by rw [hblocks]; decide)
  rw [hempty] at hfull
  cases hfull

end Appending
