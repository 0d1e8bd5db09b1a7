import OuicheFs.Mkfs

/-!
# The bitmap buffer of mkfs

`write_bfree_blocks` clears the bits of the used blocks in a buffer of one block
and supposes that they fit. The number of used blocks grows with the image, and
`main` checks its smallest size only.
-/
namespace BitmapBuffer

open CInt ByteBuffer FileContext Mkfs

/-- The words of the buffer that the loop over the used blocks stores to, in
order. The loop ends with the last used block, wherever that is. -/
def usedWrites (used i : Nat) : List Nat :=
  if used = 0 then [] else i :: usedWrites (maskLoop 64 0 allOnes used).2 (i + 1)
termination_by used
decreasing_by
  rename_i h
  rw [(maskLoop_spec 64 0 allOnes used (Nat.pos_of_ne_zero h) (by omega)).1]
  omega

theorem usedWrites_pos {used : Nat} (pos : 0 < used) (i : Nat) :
    usedWrites used i = i :: usedWrites (used - 64) (i + 1) := by
  rw [usedWrites, if_neg (Nat.ne_of_gt pos), (maskLoop_spec 64 0 allOnes used pos (by omega)).1]

/-- The stores stay below word `n` if and only if the words up to there have a bit
for every used block. -/
theorem usedWrites_below_iff (n used : Nat) : ∀ i, (∀ k ∈ usedWrites used i, k < n) ↔
    used ≤ 64 * (n - i) := by
  induction used using Nat.strong_induction_on with
  | _ used ih =>
    intro i
    rcases Nat.eq_zero_or_pos used with hz | hpos
    · subst hz
      rw [usedWrites, if_pos rfl]
      simp
    · rw [usedWrites_pos hpos, List.forall_mem_cons, ih (used - 64) (by omega) (i + 1)]
      omega

/-! ## The number of used blocks -/

/-- The sum of the areas against the number of blocks `n`: the inode store has `a`
blocks, the bitmaps have `b` and `c`. -/
theorem areas_le_iff {n m a b c : Nat} (inodes : m = n + n % 51)
    (istore : m ≤ 51 * a ∧ 51 * a < m + 51) (ifree : m ≤ 32768 * b ∧ 32768 * b < m + 32768)
    (bfree : n ≤ 32768 * c ∧ 32768 * c < n + 32768) :
    a + b + c + 2 ≤ 32768 ↔ n ≤ 1665838 ∨ n = 1665864 := by
  obtain ⟨q, r, hr, rfl⟩ : ∃ q r, r < 51 ∧ n = 51 * q + r :=
    ⟨n / 51, n % 51, Nat.mod_lt n (by omega), (Nat.div_add_mod n 51).symm⟩
  have hmod : (51 * q + r) % 51 = r := by omega
  rw [hmod] at inodes
  rcases Nat.lt_or_ge 1638400 (51 * q + r) with hlo | hlo
  · rcases Nat.lt_or_ge 1671118 (51 * q + r) with hhi | hhi
    · omega
    · obtain rfl : b = 51 := by omega
      obtain rfl : c = 51 := by omega
      -- the store is one block longer where the remainder begins, and one more in its second half
      have hstore : r = 0 ∧ a = q ∨ 0 < r ∧ r ≤ 25 ∧ a = q + 1 ∨ 25 < r ∧ a = q + 2 := by omega
      omega
  · omega

/-- The used blocks have a bit in the first block of the bitmap. -/
theorem nrUsed_fits_iff {stSize : Nat} (range : stSize / 4096 < 4294967296) :
    nrUsed (superblockOf stSize) ≤ 32768 ↔
      stSize / 4096 ≤ 1665838 ∨ stSize / 4096 = 1665864 := by
  obtain ⟨n, hn⟩ : ∃ n, n = stSize / 4096 := ⟨_, rfl⟩
  rw [← hn] at range ⊢
  obtain ⟨sb, hsb⟩ : ∃ sb, sb = superblockOf stSize := ⟨_, rfl⟩
  have hu32 : u32 (stSize / blockSize : Nat) = n := by
    rw [hn]
    exact u32_natCast (hn ▸ range)
  have hblocks : sb.nrBlocks = n := by
    rw [hsb]
    exact hu32
  rcases Nat.lt_or_ge n 1073741824 with hsmall | hlarge
  · -- nothing wraps around
    obtain ⟨m, hm⟩ : ∃ m, m = if n % 51 ≠ 0 then u32 (n + n % 51 : Nat) else n := ⟨_, rfl⟩
    have hmn : m = n + n % 51 := by
      rw [hm]
      split
      · exact u32_natCast (by omega)
      · omega
    have histore : sb.nrIstoreBlocks = idivCeil m 51 := by rw [hsb, hm, ← hu32]; rfl
    have hifree : sb.nrIfreeBlocks = idivCeil m 32768 := by rw [hsb, hm, ← hu32]; rfl
    have hbfree : sb.nrBfreeBlocks = idivCeil n 32768 := by rw [hsb, ← hu32]; rfl
    have h51 := idivCeil_bounds m (b := 51) (by omega)
    have hib := idivCeil_bounds m (b := 32768) (by omega)
    have hbb := idivCeil_bounds n (b := 32768) (by omega)
    rw [← histore] at h51
    rw [← hifree] at hib
    rw [← hbfree] at hbb
    have hused : nrUsed sb = sb.nrIstoreBlocks + sb.nrIfreeBlocks + sb.nrBfreeBlocks + 2 :=
      u32_natCast (by omega)
    rw [← hsb, hused]
    exact areas_le_iff hmn h51 hib hbb
  · constructor
    · intro hfits
      have hlt := (superblockOf_counts hfits).nrBlocks_lt
      rw [← hsb, hblocks] at hlt
      omega
    · omega

/-! ## Staying inside -/

/-- The loop stores only to the 512 words of the buffer, and the bitmap on the image
marks every used block. -/
structure StaysInside (stSize : Nat) : Prop where
  words : ∀ k ∈ usedWrites (nrUsed (superblockOf stSize)) 0, k < 512
  marked : ∀ disk, ∃ image, mkfs (fun _ => true) stSize disk = some image ∧
    ∀ b, b < nrUsed (superblockOf stSize) →
      bit (image (1 + (superblockOf stSize).nrIstoreBlocks + (superblockOf stSize).nrIfreeBlocks +
        b / 32768)) (b % 32768) = false

theorem marked_of_fits {stSize : Nat} (large : 409600 ≤ stSize)
    (range : stSize / 4096 < 4294967296) (fits : nrUsed (superblockOf stSize) ≤ 32768)
    (disk : Store) : ∃ image, mkfs (fun _ => true) stSize disk = some image ∧
      ∀ b, b < nrUsed (superblockOf stSize) →
        bit (image (1 + (superblockOf stSize).nrIstoreBlocks +
          (superblockOf stSize).nrIfreeBlocks + b / 32768)) (b % 32768) = false := by
  obtain ⟨image, himage⟩ := mkfs_isSome large fits disk
  have hblocks : (superblockOf stSize).nrBlocks = stSize / 4096 := u32_natCast range
  have hformatted := (mkfs_formatted himage).2.2 (by omega)
  have hbfree := (superblockOf_counts fits).bfree
  refine ⟨image, himage, fun b hb => ?_⟩
  rw [hformatted.bfree (b / 32768) (b % 32768) (by omega) (by omega), decide_eq_false_iff_not]
  omega

/-- Among the images that `main` accepts, the loop stays inside its buffer exactly
for those of at most 1665838 blocks, and for the one with 1665864 blocks. -/
theorem bitmap_buffer_suffices_iff {stSize : Nat} (large : 100 * 4096 ≤ stSize)
    (range : stSize / 4096 < 4294967296) :
    StaysInside stSize ↔ stSize / 4096 ≤ 1665838 ∨ stSize / 4096 = 1665864 := by
  rw [← nrUsed_fits_iff range]
  have hwords := usedWrites_below_iff 512 (nrUsed (superblockOf stSize)) 0
  constructor
  · intro h
    exact hwords.mp h.words
  · intro hfits
    exact ⟨hwords.mpr hfits, marked_of_fits large range hfits⟩

/-- An image of 100 MiB. -/
theorem bitmap_buffer_suffices_100_mib : StaysInside 104857600 :=
  (bitmap_buffer_suffices_iff (by decide) (by decide)).mpr (by decide)

/-- An image of 8 GiB, which has 41253 used blocks. -/
theorem bitmap_buffer_overrun_8_gib :
    100 * 4096 ≤ 8589934592 ∧ 8589934592 / 4096 < 4294967296 ∧
      (∃ k ∈ usedWrites (nrUsed (superblockOf 8589934592)) 0, 512 ≤ k) ∧
      ¬ StaysInside 8589934592 := by
  have hnot : ¬ ∀ k ∈ usedWrites (nrUsed (superblockOf 8589934592)) 0, k < 512 := by
    intro hall
    have hfits := (usedWrites_below_iff 512 _ 0).mp hall
    rw [show 64 * (512 - 0) = 32768 from rfl, nrUsed_fits_iff (by decide)] at hfits
    revert hfits
    decide
  refine ⟨by decide, by decide, ?_, fun h => hnot h.words⟩
  simpa using hnot

end BitmapBuffer
