import OuicheFs.Inode

/-!
# super.c: mounting and the inode store

`ouichefs_fill_super` copies the counters and both bitmaps from the volume and
reads the root inode. It checks the magic number and nothing else.
`ouichefs_write_inode` stores an inode where `ouichefs_iget` reads it.
-/
namespace OuicheSuper

open CInt Bits ByteBuffer Allocator FileContext Mkfs OuicheInode

/-- A field of the superblock on the volume. -/
def csb (disk : Store) (i : Nat) : Nat := (le32 (disk 0) (4 * i)).toNat

/-- A block number of type `int`, as `sb_bread` takes it. -/
def sector (idx : Nat) : Nat := u64 (i32 idx)

/-- `i * OUICHEFS_BLOCK_SIZE`, a product of type `int`, when it is added to a pointer. -/
def byteOffset (i : Nat) : Nat := u64 (i32 ((i : Int) * blockSize))

theorem sector_eq {idx : Nat} (h : idx < 2147483648) : sector idx = idx := by
  rw [sector, i32_eq_self (by omega) (by omega), u64_natCast (by omega)]

theorem byteOffset_eq {i : Nat} (h : i < 524288) : byteOffset i = blockSize * i := by
  unfold byteOffset blockSize
  rw [i32_eq_self (by omega) (by omega)]
  unfold u64
  omega

attribute [irreducible] sector byteOffset

/-- A block is copied into the memory of a bitmap, from byte `off` on. -/
def copyBlock (m : Bitmap) (off : Nat) (b : Buffer) : Bitmap := fun k =>
  if 8 * off ≤ k ∧ k < 8 * (off + blockSize) then bit b (k - 8 * off) else m k

/-- `n` blocks of a bitmap, copied one after the other to zeroed memory; `first` is the
block of `i = 0`. The memory has room for `u32 (n * blockSize)` bytes. -/
def copyBitmap (disk : Store) (first n : Nat) : Bitmap :=
  (List.range n).foldl
    (fun m i => copyBlock m (byteOffset i) (disk (sector (first + i)))) (fun _ => false)

/-- The superblock information in memory. -/
def sbInfoOf (disk : Store) : SbInfo where
  nrBlocks := csb disk 1
  nrInodes := csb disk 2
  nrIstoreBlocks := csb disk 3
  nrIfreeBlocks := csb disk 4
  nrBfreeBlocks := csb disk 5
  nrFreeInodes := csb disk 6
  nrFreeBlocks := csb disk 7
  ifreeBitmap := copyBitmap disk (csb disk 3 + 1) (csb disk 4)
  bfreeBitmap := copyBitmap disk (csb disk 3 + csb disk 4 + 1) (csb disk 5)

/-- The outcomes of `sb_bread` are given by block number. The allocations are
those of the superblock information, the two bitmaps and the root dentry. -/
def ouichefsFillSuper (disk : Store) (who : Caller) (readable : Nat → Bool)
    (memory : Fin 4 → Bool) : Except Int World :=
  if readable 0 = false then .error (-errIo) else
  if csb disk 0 ≠ ouichefsMagic then .error (-errPerm) else
  if memory 0 = false then .error (-errNomem) else
  let sbi := sbInfoOf disk
  if memory 1 = false then .error (-errNomem) else
  if (List.range sbi.nrIfreeBlocks).any
      (fun i => !readable (sector (sbi.nrIstoreBlocks + i + 1))) then
    .error (-errIo) else
  if memory 2 = false then .error (-errNomem) else
  if (List.range sbi.nrBfreeBlocks).any
      (fun i => !readable (sector (sbi.nrIstoreBlocks + sbi.nrIfreeBlocks + i + 1))) then
    .error (-errIo) else
  match ouichefsIget ⟨sbi, disk, fun _ => none⟩ who (readable 1) 1 with
  | .error ret => .error ret
  | .ok w =>
    let w := w.modify 1 (fun root => inodeInitOwner who none root.iMode root)
    if memory 3 = false then .error (-errNomem) else .ok w

/-- `struct kstatfs`, as far as `ouichefs_statfs` fills it. -/
structure Kstatfs where
  fType : Nat
  fBsize : Nat
  fBlocks : Nat
  fBfree : Nat
  fBavail : Nat
  fFiles : Nat
  fFfree : Nat
  fNamelen : Nat

def ouichefsStatfs (sbi : SbInfo) : Kstatfs where
  fType := ouichefsMagic
  fBsize := blockSize
  fBlocks := sbi.nrBlocks
  fBfree := sbi.nrFreeBlocks
  fBavail := sbi.nrFreeBlocks
  fFiles := sbi.nrInodes
  fFfree := sbi.nrFreeInodes
  fNamelen := filenameLen

/-- The record of an inode at a place of the inode store, on a little-endian
machine: the fields are stored as they are in memory. -/
def diskInode (b : Buffer) (off : Nat) (node : Inode) : Buffer :=
  let b := putLe32 b off (BitVec.ofNat 32 node.iMode)
  let b := putLe32 b (off + 4) (BitVec.ofNat 32 node.iUid)
  let b := putLe32 b (off + 8) (BitVec.ofNat 32 node.iGid)
  let b := putLe32 b (off + 12) (BitVec.ofNat 32 node.iSize)
  let b := putLe32 b (off + 16) (BitVec.ofInt 32 node.iCtime.tvSec)
  let b := putLe64 b (off + 24) (BitVec.ofInt 64 node.iCtime.tvNsec)
  let b := putLe32 b (off + 32) (BitVec.ofInt 32 node.iAtime.tvSec)
  let b := putLe64 b (off + 40) (BitVec.ofInt 64 node.iAtime.tvNsec)
  let b := putLe32 b (off + 48) (BitVec.ofInt 32 node.iMtime.tvSec)
  let b := putLe64 b (off + 56) (BitVec.ofInt 64 node.iMtime.tvNsec)
  let b := putLe32 b (off + 64) (BitVec.ofNat 32 node.iBlocks)
  let b := putLe32 b (off + 68) (BitVec.ofNat 32 node.iNlink)
  putLe32 b (off + 72) (BitVec.ofNat 32 node.indexBlock)

/-- `ok` is the outcome of the read of the inode store. -/
def ouichefsWriteInode (w : World) (ok : Bool) (ino : Nat) (node : Inode) : World × Int :=
  let inodeBlock := ino / inodesPerBlock + 1
  let inodeShift := ino % inodesPerBlock
  if ino ≥ w.sbi.nrInodes then (w, 0) else
  if ok = false then (w, -errIo) else
  (w.setBlock inodeBlock (diskInode (w.disk inodeBlock) (80 * inodeShift) node), 0)

/-! ## Mounting a formatted image -/

theorem csb_superblock {sb : Superblock} {image : Store} (h : image 0 = superblockBlock sb)
    {i n : Nat} (word : (superblockWords sb)[i]?.getD 0 = n) (range : n < 4294967296) :
    csb image i = n := by
  unfold csb
  rw [h, superblockBlock, le32_ofWords32, word, BitVec.toNat_ofNat]
  exact Nat.mod_eq_of_lt range

theorem copyBitmap_succ (disk : Store) (first n : Nat) : copyBitmap disk first (n + 1) =
    copyBlock (copyBitmap disk first n) (byteOffset n) (disk (sector (first + n))) := by
  unfold copyBitmap
  rw [List.range_succ, List.foldl_append, List.foldl_cons, List.foldl_nil]

/-- The bits of a bitmap whose blocks an `int` can count. -/
theorem copyBitmap_apply {disk : Store} {first n : Nat} (few : n ≤ 524288)
    (low : first + n ≤ 2147483648) (k : Nat) : copyBitmap disk first n k =
      if k / (8 * blockSize) < n then
        bit (disk (first + k / (8 * blockSize))) (k % (8 * blockSize))
      else false := by
  induction n with
  | zero =>
    rw [if_neg (Nat.not_lt_zero _)]
    rfl
  | succ n ih =>
    rw [copyBitmap_succ, byteOffset_eq (by omega), sector_eq (by omega), copyBlock,
      ih (by omega) (by omega)]
    by_cases hk : k / (8 * blockSize) = n
    · have hoff : k - 8 * (blockSize * n) = k % (8 * blockSize) := by
        unfold blockSize at hk ⊢
        omega
      rw [if_pos (by unfold blockSize at hk ⊢; omega), if_pos (by omega), hoff, hk]
    · rw [if_neg (by unfold blockSize at hk ⊢; omega)]
      by_cases hlt : k / (8 * blockSize) < n
      · rw [if_pos hlt, if_pos (by omega)]
      · rw [if_neg hlt, if_neg (by omega)]

theorem copyBitmap_clearBelow {image : Store} {first n used k : Nat}
    (h : ClearBelow image first n used) (few : n ≤ 524288) (low : first + n ≤ 2147483648)
    (hk : k < 32768 * n) : copyBitmap image first n k = decide (used ≤ k) := by
  have hq : k / 32768 < n := by omega
  have hbit := h (k / 32768) (k % 32768) hq (Nat.mod_lt _ (by omega))
  rw [copyBitmap_apply few low]
  refine (if_pos hq).trans (hbit.trans ?_)
  rw [decide_eq_decide]
  omega

/-- A volume as it is right after formatting and mounting. -/
structure Mounted (sb : Superblock) (w : World) : Prop where
  nrBlocks : w.sbi.nrBlocks = sb.nrBlocks
  nrInodes : w.sbi.nrInodes = sb.nrInodes
  nrIstoreBlocks : w.sbi.nrIstoreBlocks = sb.nrIstoreBlocks
  nrIfreeBlocks : w.sbi.nrIfreeBlocks = sb.nrIfreeBlocks
  nrBfreeBlocks : w.sbi.nrBfreeBlocks = sb.nrBfreeBlocks
  nrFreeBlocks : w.sbi.nrFreeBlocks = sb.nrFreeBlocks
  ifreeBitmap : ∀ i, i < sb.nrInodes → w.sbi.ifreeBitmap i = decide (2 ≤ i)
  bfreeBitmap : ∀ b, b < sb.nrBlocks → w.sbi.bfreeBitmap b = decide (nrUsed sb ≤ b)
  superblock : w.disk 0 = superblockBlock sb
  root : ∃ root, w.icache = (fun i => if i = 1 then some root else none) ∧
    root.indexBlock = nrUsed sb - 1 ∧ sIsdir root.iMode = true

/-- A function that succeeds has passed its guard. -/
theorem guard_ok {ε α : Type} {c : Prop} [Decidable c] {e : ε} {x : Except ε α} {a : α}
    (h : (if c then .error e else x) = .ok a) : ¬ c ∧ x = .ok a := by
  by_cases hc : c
  · rw [if_pos hc] at h
    cases h
  · rw [if_neg hc] at h
    exact ⟨hc, h⟩

theorem ouichefsFillSuper_ok {image : Store} {who : Caller} {readable : Nat → Bool}
    {memory : Fin 4 → Bool} {w : World}
    (h : ouichefsFillSuper image who readable memory = .ok w) :
    w.sbi = sbInfoOf image ∧ w.disk = image ∧ 1 < csb image 2 ∧
      ∃ uid gid, w.icache = fun i => if i = 1 then
        some { inodeAt (image 1) 80 with iUid := uid, iGid := gid } else none := by
  unfold ouichefsFillSuper at h
  obtain ⟨_, h⟩ := guard_ok h
  obtain ⟨_, h⟩ := guard_ok h
  obtain ⟨_, h⟩ := guard_ok h
  obtain ⟨_, h⟩ := guard_ok h
  obtain ⟨_, h⟩ := guard_ok h
  obtain ⟨_, h⟩ := guard_ok h
  obtain ⟨_, h⟩ := guard_ok h
  split at h
  · cases h
  rename_i w' higet
  obtain ⟨_, h⟩ := guard_ok h
  cases h
  unfold ouichefsIget at higet
  obtain ⟨hrange, higet⟩ := guard_ok higet
  split at higet
  · cases higet
  obtain ⟨_, higet⟩ := guard_ok higet
  cases higet
  refine ⟨rfl, rfl, Nat.lt_of_not_le hrange, who.fsuid, who.fsgid, ?_⟩
  funext i
  by_cases hi : i = 1
  · subst hi
    rfl
  · simp [World.modify, World.cache, hi]

/-- What the kernel reads as the counters of a formatted image. -/
theorem csb_formatted {stSize : Nat} {image : Store}
    (fits : nrUsed (superblockOf stSize) ≤ 32768)
    (h : image 0 = superblockBlock (superblockOf stSize)) :
    csb image 1 = (superblockOf stSize).nrBlocks ∧ csb image 2 = (superblockOf stSize).nrInodes ∧
      csb image 3 = (superblockOf stSize).nrIstoreBlocks ∧
      csb image 4 = (superblockOf stSize).nrIfreeBlocks ∧
      csb image 5 = (superblockOf stSize).nrBfreeBlocks ∧
      csb image 6 = (superblockOf stSize).nrFreeInodes ∧
      csb image 7 = (superblockOf stSize).nrFreeBlocks := by
  have c := superblockOf_counts fits
  have hlt := c.nrBlocks_lt
  have hi := c.istore
  have hn := c.inodes
  have hif := c.ifree
  have hbf := c.bfree
  have hwrap : ∀ x : Int, u32 x < 4294967296 := by
    intro x
    unfold u32
    omega
  exact ⟨csb_superblock h rfl (by omega), csb_superblock h rfl (by omega),
    csb_superblock h rfl (by omega), csb_superblock h rfl (by omega),
    csb_superblock h rfl (by omega), csb_superblock h rfl (hwrap _), csb_superblock h rfl (hwrap _)⟩

theorem rootIndex_formatted {sb : Superblock} {image : Store} (c : Counts sb)
    (h : image 1 = rootInodeBlock sb) :
    (inodeAt (image 1) 80).indexBlock =
      sb.nrIstoreBlocks + sb.nrIfreeBlocks + sb.nrBfreeBlocks + 1 := by
  have hlt := c.nrBlocks_lt
  have hi := c.istore
  have hif := c.ifree
  have hbf := c.bfree
  change (le32 (image 1) (4 * 38)).toNat = _
  rw [h, rootInodeBlock, le32_ofWords32]
  change (BitVec.ofNat 32 (firstDataBlock sb)).toNat = _
  rw [BitVec.toNat_ofNat]
  unfold firstDataBlock u32
  omega

theorem bfreeBitmap_formatted {stSize : Nat} {image : Store}
    (fits : nrUsed (superblockOf stSize) ≤ 32768) (f : Formatted (superblockOf stSize) image)
    {b : Nat} (hb : b < (superblockOf stSize).nrBlocks) :
    (sbInfoOf image).bfreeBitmap b = decide (nrUsed (superblockOf stSize) ≤ b) := by
  obtain ⟨_, _, h3, h4, h5, _, _⟩ := csb_formatted fits f.superblock
  have c := superblockOf_counts fits
  have hbf := c.bfree
  have hused := c.used
  change copyBitmap image (csb image 3 + csb image 4 + 1) (csb image 5) b = _
  rw [h3, h4, h5, show (superblockOf stSize).nrIstoreBlocks + (superblockOf stSize).nrIfreeBlocks + 1 =
    1 + (superblockOf stSize).nrIstoreBlocks + (superblockOf stSize).nrIfreeBlocks by omega]
  exact copyBitmap_clearBelow f.bfree (by omega) (by omega) (by omega)

/-- Mounting a formatted image. -/
theorem mounted {stSize : Nat} {ok : Nat → Bool} {disk image : Store} {who : Caller}
    {readable : Nat → Bool} {memory : Fin 4 → Bool} {w : World}
    (formatted : mkfs ok stSize disk = some image)
    (mount : ouichefsFillSuper image who readable memory = .ok w) :
    Mounted (superblockOf stSize) w := by
  obtain ⟨fits, hzero, hf⟩ := mkfs_formatted formatted
  have c := superblockOf_counts fits
  obtain ⟨h1, h2, h3, h4, h5, h6, h7⟩ := csb_formatted fits hzero
  obtain ⟨hsbi, hdisk, hroot, uid, gid, hcache⟩ := ouichefsFillSuper_ok mount
  have hn := c.inodes
  have hused := c.used
  -- an image without blocks has no root inode, so the mount would have failed
  replace hf := hf (by omega)
  refine ⟨by rw [hsbi]; exact h1, by rw [hsbi]; exact h2, by rw [hsbi]; exact h3,
    by rw [hsbi]; exact h4, by rw [hsbi]; exact h5, by rw [hsbi]; exact h7, ?_, ?_, ?_, _, hcache,
    ?_, ?_⟩
  · intro i hlt
    rw [hsbi]
    change copyBitmap image (csb image 3 + 1) (csb image 4) i = _
    rw [h3, h4, Nat.add_comm]
    exact copyBitmap_clearBelow hf.ifree (by omega) (by omega) (by omega)
  · intro b hlt
    rw [hsbi]
    exact bfreeBitmap_formatted fits hf hlt
  · rw [hdisk]
    exact hzero
  · refine (rootIndex_formatted c hf.root).trans ?_
    omega
  · change sIsdir ((le32 (image 1) (4 * 20)).toNat % 65536) = true
    rw [hf.root, rootInodeBlock, le32_ofWords32, if_pos rfl]
    decide

/-- Nothing but the image decides whether it can be mounted. -/
theorem ouichefsFillSuper_isOk {stSize : Nat} {ok : Nat → Bool} {disk image : Store}
    (formatted : mkfs ok stSize disk = some image)
    (pos : 1 < (superblockOf stSize).nrBlocks) :
    ∃ w, ouichefsFillSuper image ⟨0, 0, true⟩ (fun _ => true) (fun _ => true) = .ok w := by
  obtain ⟨fits, hzero, _⟩ := mkfs_formatted formatted
  have c := superblockOf_counts fits
  obtain ⟨sb, hsb⟩ : ∃ sb, sb = superblockOf stSize := ⟨_, rfl⟩
  rw [← hsb] at hzero c pos
  have hn := c.inodes
  have hlt := c.nrBlocks_lt
  have h0 : csb image 0 = ouichefsMagic := csb_superblock hzero rfl (by decide)
  have h2 : csb image 2 = sb.nrInodes := csb_superblock hzero rfl (by omega)
  have hroot : ¬ 1 ≥ (sbInfoOf image).nrInodes := by
    change ¬ 1 ≥ csb image 2
    omega
  have hread : ∀ n, ((List.range n).any fun _ => false) = false := by simp
  unfold ouichefsFillSuper ouichefsIget
  simp only [h0, ne_eq, not_true_eq_false, if_false, if_neg hroot, Bool.true_eq_false,
    Bool.not_true, hread, Bool.false_eq_true]
  exact ⟨_, rfl⟩

end OuicheSuper
