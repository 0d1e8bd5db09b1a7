import OuicheFs.Super
import OuicheFs.Lib.Bits

/-!
# mkfs and the kernel agree on the layout

`mkfs` writes the areas of an image one after the other and never computes
where they start; `ouichefs_fill_super` computes their numbers from the counts
in the superblock.
-/
namespace ImageLayout

open CInt Bits ByteBuffer Allocator FileContext Mkfs OuicheInode OuicheSuper

/-- The image `mkfs` leaves is the one the kernel reads. Block numbers are
those of `ouichefs_fill_super` and of the root inode on the image. -/
structure Agrees (sb : Superblock) (image : Store) : Prop where
  /-- No subtraction of `write_superblock` goes below zero. -/
  subtractions : 1 ≤ sb.nrInodes ∧
    1 + sb.nrIstoreBlocks + sb.nrIfreeBlocks + sb.nrBfreeBlocks + 1 ≤ sb.nrBlocks
  counters : csb image 1 = sb.nrBlocks ∧ csb image 2 = sb.nrInodes ∧
    csb image 3 = sb.nrIstoreBlocks ∧ csb image 4 = sb.nrIfreeBlocks ∧
    csb image 5 = sb.nrBfreeBlocks ∧ csb image 6 = sb.nrFreeInodes ∧
    csb image 7 = sb.nrFreeBlocks
  ifree : ∀ i, i < csb image 4 → image (csb image 3 + i + 1) = ifreeBlock i
  bfree : ∃ ws, usedLoop 512 0 (nrUsed sb) (fun _ => allOnes) = some ws ∧
    ∀ i, i < csb image 5 → image (csb image 3 + csb image 4 + i + 1) = bfreeBlock ws i
  rootIndex : (inodeAt (image 1) 80).indexBlock = csb image 3 + csb image 4 + csb image 5 + 1 ∧
    image (inodeAt (image 1) 80).indexBlock = zeroBlock
  /-- A bit of the block bitmap is clear exactly for the used blocks. -/
  bits : ∀ b, b < sb.nrBlocks → ((sbInfoOf image).bfreeBitmap b = false ↔ b < nrUsed sb)
  count : sb.nrFreeBlocks = popcount (sbInfoOf image).bfreeBitmap sb.nrBlocks
  inodes : sb.nrInodes ≤ sb.nrIstoreBlocks * inodesPerBlock

/-- Every image of at least 100 blocks whose used blocks fit the first block of
the bitmap is laid out as the kernel expects it. -/
theorem mkfs_agrees (stSize : Nat) (disk : Store)
    (large : 100 ≤ (superblockOf stSize).nrBlocks)
    (fits : nrUsed (superblockOf stSize) ≤ 32768) :
    ∃ image, mkfs (fun _ => true) stSize disk = some image ∧ Agrees (superblockOf stSize) image := by
  have hsize : 409600 ≤ stSize := by
    have hn : u32 (stSize / 4096 : Nat) ≥ 100 := large
    unfold u32 at hn
    omega
  obtain ⟨image, himage⟩ := mkfs_isSome hsize fits disk
  obtain ⟨_, hzero, hemitted⟩ := mkfs_emitted himage
  obtain ⟨ws, hws, he⟩ := hemitted (by omega)
  have hf := he.formatted fits hws
  have c := superblockOf_counts fits
  obtain ⟨h1, h2, h3, h4, h5, h6, h7⟩ := csb_formatted fits hzero
  obtain ⟨hle, hfree⟩ := c.free large
  have hused := c.used
  have hn := c.inodes
  have hroot := rootIndex_formatted c he.root
  refine ⟨image, himage, ⟨by omega, by omega⟩, ⟨h1, h2, h3, h4, h5, h6, h7⟩, ?_,
    ⟨ws, hws, ?_⟩, ⟨?_, ?_⟩, ?_, ?_, ?_⟩
  · intro i hi
    rw [h4] at hi
    rw [h3, ← he.ifree i hi]
    congr 1
    omega
  · intro i hi
    rw [h5] at hi
    rw [h3, h4, ← he.bfree i hi]
    congr 1
    omega
  · rw [hroot, h3, h4, h5]
  · rw [hroot, ← he.rootIndex]
    congr 1
    omega
  · intro b hb
    rw [bfreeBitmap_formatted fits hf hb, decide_eq_false_iff_not, Nat.not_le]
  · rw [popcount_above fun b hb => bfreeBitmap_formatted fits hf hb]
    exact hfree
  · have hbounds := idivCeil_bounds (superblockOf stSize).nrInodes (b := 51) (by omega)
    rw [Nat.mul_comm]
    exact hbounds.1

/-- The smallest image that `mkfs` accepts, over any former contents. -/
theorem mkfs_agrees_smallest : ∃ image, mkfs (fun _ => true) 409600 (fun _ => onesBlock) = some image ∧
    Agrees (superblockOf 409600) image :=
  mkfs_agrees 409600 (fun _ => onesBlock) (by decide) (by decide)

end ImageLayout
