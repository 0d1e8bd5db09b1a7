import OuicheFs.Super
import OuicheFs.Reserve
import Mathlib.Logic.Relation

/-!
# Block numbers that fit their entries

Neither `mkfs` nor the mount bounds the number of blocks, while an entry holds
19 bits of a block number. An allocation is recorded faithfully on every volume
of at most 2^19 blocks, and on no other.
-/
namespace Addressing

open CInt Bits ByteBuffer IndexEntry Allocator FileContext OuicheWrite OuicheInode OuicheSuper Mkfs
  Layout Reserve

/-- The allocator at work: any number of allocations and releases. -/
inductive AllocStep : SbInfo → SbInfo → Prop
  | get (sbi : SbInfo) : AllocStep sbi (getFreeBlock sbi).2
  | put (sbi : SbInfo) (b : Nat) : Used sbi b → AllocStep sbi (putBlock sbi b)

/-- The entry that `reserve_empty_blocks` leaves in a slot. -/
def recorded (s : Ctx) (bli : Nat) : Word := (reserveEmptyBlocks bli 1 s).1.blocks bli

/-- A slot about to be filled, after any allocations and releases. -/
structure Pending (sbi₀ : SbInfo) (s : Ctx) (bli : Nat) : Prop where
  run : Relation.ReflTransGen AllocStep sbi₀ s.sbi
  empty : s.blocks bli = 0
  some_free : (getFreeBlock s.sbi).1 ≠ 0

/-- Whatever has been allocated before, the entry of the next block is not zero
and names that block, so different blocks get entries of different numbers. -/
structure RecordsFaithfully (sbi₀ : SbInfo) : Prop where
  number : ∀ s bli, Pending sbi₀ s bli →
    recorded s bli ≠ 0 ∧ getBlockNumber (recorded s bli) = (getFreeBlock s.sbi).1
  injective : ∀ s bli t bli', Pending sbi₀ s bli → Pending sbi₀ t bli' →
    (getFreeBlock s.sbi).1 ≠ (getFreeBlock t.sbi).1 →
    getBlockNumber (recorded s bli) ≠ getBlockNumber (recorded t bli')

theorem recorded_eq {sbi₀ : SbInfo} {s : Ctx} {bli : Nat} (h : Pending sbi₀ s bli) :
    recorded s bli = freshEntry (getFreeBlock s.sbi).1 := by
  obtain ⟨b, hb⟩ : ∃ b, b = (getFreeBlock s.sbi).1 := ⟨_, rfl⟩
  obtain ⟨sbi, hsbi⟩ : ∃ sbi, sbi = (getFreeBlock s.sbi).2 := ⟨_, rfl⟩
  have hget : getFreeBlock s.sbi = (b, sbi) := by rw [hb, hsbi]
  have hne : b ≠ 0 := by
    rw [hb]
    exact h.some_free
  have hempty : ({ s.touch bli with sbi := sbi } : Ctx).blocks bli = 0 := h.empty
  unfold recorded
  rw [reserveEmptyBlocks_next 0 hget hne h.empty, ← hb]
  simp only [hempty]
  change (Ctx.setBlocks (Ctx.setBlocks _ bli _) bli _).blocks bli = _
  rw [blocks_setBlocks_self, blocks_setBlocks_self]
  rfl

theorem AllocStep.nrBlocks {a b : SbInfo} (h : AllocStep a b) : b.nrBlocks = a.nrBlocks := by
  cases h with
  | get =>
    unfold getFreeBlock
    simp only
    split <;> rfl
  | put c u => exact (putBlock_given (Nat.le_of_lt u.lt)).layout.nrBlocks

theorem run_nrBlocks {a b : SbInfo} (run : Relation.ReflTransGen AllocStep a b) :
    b.nrBlocks = a.nrBlocks := by
  induction run with
  | refl => rfl
  | tail _ step ih => exact step.nrBlocks.trans ih

theorem getFreeBlock_lt {sbi : SbInfo} (h : (getFreeBlock sbi).1 ≠ 0) :
    (getFreeBlock sbi).1 < sbi.nrBlocks := by
  have hle := findFirstBit_le sbi.bfreeBitmap sbi.nrBlocks
  have hfst : (getFreeBlock sbi).1 = (getFirstFreeBit sbi.bfreeBitmap sbi.nrBlocks).1 := by
    unfold getFreeBlock
    simp only
    split <;> rfl
  rw [hfst] at h ⊢
  unfold getFirstFreeBit at h ⊢
  simp only at h ⊢
  split
  · rename_i hall
    rw [if_pos hall] at h
    exact absurd rfl h
  · change findFirstBit _ _ < _
    omega

/-- All free blocks below a bound can be taken one after the other. -/
theorem drain {sbi : SbInfo} {used : Nat} (pos : 0 < used)
    (bits : ∀ b, b < sbi.nrBlocks → sbi.bfreeBitmap b = decide (used ≤ b)) (k : Nat)
    (range : used + k ≤ sbi.nrBlocks) :
    ∃ sbi', Relation.ReflTransGen AllocStep sbi sbi' ∧ sbi'.nrBlocks = sbi.nrBlocks ∧
      ∀ b, b < sbi.nrBlocks → sbi'.bfreeBitmap b = decide (used + k ≤ b) := by
  induction k with
  | zero => exact ⟨sbi, .refl, rfl, bits⟩
  | succ k ih =>
    obtain ⟨mid, hrun, hn, hbits⟩ := ih (by omega)
    have hget := @getFreeBlock_eq mid (used + k) (by omega) (by omega)
      (by rw [hbits _ (by omega)]; exact decide_eq_true (le_refl _))
      (fun j hj => by rw [hbits j (by omega)]; exact decide_eq_false (by omega))
    refine ⟨_, hrun.tail (AllocStep.get mid), ?_, ?_⟩
    · rw [hget]
      exact hn
    · intro b hb
      rw [hget]
      change clearBit mid.bfreeBitmap (used + k) b = _
      by_cases heq : b = used + k
      · subst heq
        rw [clearBit_self]
        exact (decide_eq_false (by omega)).symm
      · rw [clearBit_of_ne _ heq, hbits b hb, decide_eq_decide]
        omega

/-- On a volume without entries, the one slot of an index. -/
def blankCtx (sbi : SbInfo) : Ctx :=
  ⟨sbi, fun _ => zeroBlock, ⟨0, 0, 0, 0, ⟨0, 0⟩, ⟨0, 0⟩, ⟨0, 0⟩, 1, 1, 1⟩, calmIo, []⟩

theorem recordsFaithfully_of_small {sbi : SbInfo} (small : sbi.nrBlocks ≤ 524288) :
    RecordsFaithfully sbi := by
  have hnumber : ∀ s bli, Pending sbi s bli →
      recorded s bli ≠ 0 ∧ getBlockNumber (recorded s bli) = (getFreeBlock s.sbi).1 := by
    intro s bli h
    have hlt := getFreeBlock_lt h.some_free
    rw [run_nrBlocks h.run] at hlt
    have heq : getBlockNumber (recorded s bli) = (getFreeBlock s.sbi).1 := by
      rw [recorded_eq h, getBlockNumber_freshEntry_of_lt (by omega)]
    refine ⟨ne_zero_of_getBlockNumber_pos ?_, heq⟩
    rw [heq]
    exact Nat.pos_of_ne_zero h.some_free
  refine ⟨hnumber, ?_⟩
  intro s bli t bli' hs ht hne
  rw [(hnumber s bli hs).2, (hnumber t bli' ht).2]
  exact hne

/-- A volume with a free block 2^19 records it as an empty slot. -/
theorem recorded_lost {sbi : SbInfo} {used : Nat} (pos : 0 < used)
    (range : used ≤ 524288) (large : 524288 < sbi.nrBlocks)
    (bits : ∀ b, b < sbi.nrBlocks → sbi.bfreeBitmap b = decide (used ≤ b)) :
    ∃ s, Pending sbi s 0 ∧ (getFreeBlock s.sbi).1 = 524288 ∧ recorded s 0 = 0 := by
  obtain ⟨sbi', hrun, hn, hbits⟩ := drain pos bits (524288 - used) (by omega)
  have hget := @getFreeBlock_eq sbi' 524288 (by omega) (by omega)
    (by rw [hbits _ (by omega)]; exact decide_eq_true (by omega))
    (fun j hj => by rw [hbits j (by omega)]; exact decide_eq_false (by omega))
  have hfst : (getFreeBlock (blankCtx sbi').sbi).1 = 524288 := congrArg Prod.fst hget
  have hempty : (blankCtx sbi').blocks 0 = 0 := by
    change le32 zeroBlock 0 = 0
    decide
  have hpending : Pending sbi (blankCtx sbi') 0 := ⟨hrun, hempty, by rw [hfst]; omega⟩
  refine ⟨blankCtx sbi', hpending, hfst, ?_⟩
  rw [recorded_eq hpending, hfst]
  decide

/-- An image that can be formatted and mounted records block numbers faithfully
exactly if it has at most 2^19 blocks. The number of blocks is a `uint32_t`. -/
theorem recordsFaithfully_iff (ok : Nat → Bool) (stSize : Nat) (disk image : Store) (who : Caller)
    (readable : Nat → Bool) (memory : Fin 4 → Bool) (w : World)
    (formatted : mkfs ok stSize disk = some image)
    (mount : ouichefsFillSuper image who readable memory = .ok w) :
    RecordsFaithfully w.sbi ↔ u32 (stSize / 4096 : Nat) ≤ 524288 := by
  have m := mounted formatted mount
  have fits := (mkfs_formatted formatted).1
  have hused := (superblockOf_counts fits).used
  have hn : w.sbi.nrBlocks = u32 (stSize / 4096 : Nat) := m.nrBlocks
  rw [← hn]
  constructor
  · intro hfaithful
    by_contra hlarge
    obtain ⟨s, hpending, hget, hzero⟩ := recorded_lost (show 0 < nrUsed (superblockOf stSize) by omega)
      (by omega) (Nat.lt_of_not_le hlarge) (fun b hb => m.bfreeBitmap b (m.nrBlocks ▸ hb))
    exact (hfaithful.number s 0 hpending).1 hzero
  · exact recordsFaithfully_of_small

/-- The image of 2^19 + 1 blocks. -/
theorem largeImage (disk : Store) : ∃ image w, mkfs (fun _ => true) 2147487744 disk = some image ∧
    ouichefsFillSuper image ⟨0, 0, true⟩ (fun _ => true) (fun _ => true) = .ok w := by
  obtain ⟨image, himage⟩ := @mkfs_isSome 2147487744 (by decide) (by decide) disk
  obtain ⟨w, hw⟩ := ouichefsFillSuper_isOk himage (by decide)
  exact ⟨image, w, himage, hw⟩

theorem recordsFaithfully_iff_large :
    ∃ image w, mkfs (fun _ => true) 2147487744 (fun _ => zeroBlock) = some image ∧
      ouichefsFillSuper image ⟨0, 0, true⟩ (fun _ => true) (fun _ => true) = .ok w ∧
      ¬ RecordsFaithfully w.sbi := by
  obtain ⟨image, w, himage, hw⟩ := largeImage (fun _ => zeroBlock)
  refine ⟨image, w, himage, hw, ?_⟩
  rw [recordsFaithfully_iff _ _ _ _ _ _ _ _ himage hw]
  decide

/-- On an image of 2^19 + 1 blocks the last block is allocated and not recorded. -/
theorem recordsFaithfully_not_always :
    ∃ image w s, mkfs (fun _ => true) 2147487744 (fun _ => zeroBlock) = some image ∧
      ouichefsFillSuper image ⟨0, 0, true⟩ (fun _ => true) (fun _ => true) = .ok w ∧
      Pending w.sbi s 0 ∧ (getFreeBlock s.sbi).1 = 524288 ∧ recorded s 0 = 0 := by
  obtain ⟨image, w, himage, hw⟩ := largeImage (fun _ => zeroBlock)
  have m := mounted himage hw
  have hn : w.sbi.nrBlocks = 524289 := by
    rw [m.nrBlocks]
    decide
  obtain ⟨s, hpending, hget, hzero⟩ := recorded_lost
    (show 0 < nrUsed (superblockOf 2147487744) by decide) (by decide) (by omega)
    (fun b hb => m.bfreeBitmap b (m.nrBlocks ▸ hb))
  exact ⟨image, w, s, himage, hw, hpending, hget, hzero⟩

end Addressing
