import OuicheFs.Super

/-!
# super.c: writing the superblock information back

`ouichefs_sync_fs` writes the seven counters into block 0 and both bitmaps into
their areas, block by block. A failing read ends it and leaves what is written.
-/
namespace OuicheSync

open CInt Bits ByteBuffer Allocator FileContext Mkfs OuicheInode OuicheSuper

/-- A byte from its bits, lowest first. -/
def byteOf (f : Nat → Bool) : Byte :=
  BitVec.ofBool (f 7) ++ BitVec.ofBool (f 6) ++ BitVec.ofBool (f 5) ++ BitVec.ofBool (f 4) ++
    BitVec.ofBool (f 3) ++ BitVec.ofBool (f 2) ++ BitVec.ofBool (f 1) ++ BitVec.ofBool (f 0)

/-- The memory of a bitmap from byte `off` on. -/
def bitmapBlock (m : Bitmap) (off : Nat) : Buffer := fun j =>
  byteOf fun t => m (8 * (off + j) + t)

/-- The superblock on the volume with the counters of the one in memory. -/
def putCounters (sbi : SbInfo) (disk_sb : Buffer) : Buffer :=
  let b := putLe32 disk_sb (4 * 1) (BitVec.ofNat 32 sbi.nrBlocks)
  let b := putLe32 b (4 * 2) (BitVec.ofNat 32 sbi.nrInodes)
  let b := putLe32 b (4 * 3) (BitVec.ofNat 32 sbi.nrIstoreBlocks)
  let b := putLe32 b (4 * 4) (BitVec.ofNat 32 sbi.nrIfreeBlocks)
  let b := putLe32 b (4 * 5) (BitVec.ofNat 32 sbi.nrBfreeBlocks)
  let b := putLe32 b (4 * 6) (BitVec.ofNat 32 sbi.nrFreeInodes)
  putLe32 b (4 * 7) (BitVec.ofNat 32 sbi.nrFreeBlocks)

/-- The volume after the call and the returned value, with the outcomes of
`sb_bread` by block number. -/
def syncSbInfo (sbi : SbInfo) (readable : Nat → Bool) (disk : Store) : Store × Int :=
  if readable 0 = false then (disk, -errIo) else
  (disk.set 0 (putCounters sbi (disk 0)), 0)

/-- The loops of `sync_ifree` and `sync_bfree`; the second argument counts the
blocks left, `first` is the block of `i = 0`. -/
def syncLoop (m : Bitmap) (first : Nat) (readable : Nat → Bool) :
    Nat → Nat → Store → Store × Int
  | 0, _, disk => (disk, 0)
  | n + 1, i, disk =>
    let idx := sector (first + i)
    if readable idx = false then (disk, -errIo) else
    syncLoop m first readable n (i + 1)
      (disk.set idx (blit (disk idx) 0 blockSize (bitmapBlock m (byteOffset i))))

def syncIfree (sbi : SbInfo) (readable : Nat → Bool) (disk : Store) : Store × Int :=
  syncLoop sbi.ifreeBitmap (sbi.nrIstoreBlocks + 1) readable sbi.nrIfreeBlocks 0 disk

def syncBfree (sbi : SbInfo) (readable : Nat → Bool) (disk : Store) : Store × Int :=
  syncLoop sbi.bfreeBitmap (sbi.nrIstoreBlocks + sbi.nrIfreeBlocks + 1) readable
    sbi.nrBfreeBlocks 0 disk

def ouichefsSyncFs (sbi : SbInfo) (readable : Nat → Bool) (disk : Store) : Store × Int :=
  let r := syncSbInfo sbi readable disk
  if r.2 ≠ 0 then r else
  let r := syncIfree sbi readable r.1
  if r.2 ≠ 0 then r else
  let r := syncBfree sbi readable r.1
  if r.2 ≠ 0 then r else (r.1, 0)

/-! ## What is on the volume afterwards -/

theorem byteOf_bit (f : Nat → Bool) {t : Nat} (h : t < 8) : (byteOf f).getLsbD t = f t := by
  have hall : ∀ b0 b1 b2 b3 b4 b5 b6 b7 : Bool, ∀ t : Fin 8,
      (BitVec.ofBool b7 ++ BitVec.ofBool b6 ++ BitVec.ofBool b5 ++ BitVec.ofBool b4 ++
        BitVec.ofBool b3 ++ BitVec.ofBool b2 ++ BitVec.ofBool b1 ++
        BitVec.ofBool b0 : BitVec 8).getLsbD t.val = [b0, b1, b2, b3, b4, b5, b6, b7].get t := by
    decide +kernel
  have hbit := hall (f 0) (f 1) (f 2) (f 3) (f 4) (f 5) (f 6) (f 7) ⟨t, h⟩
  refine hbit.trans ?_
  have hcases : t = 0 ∨ t = 1 ∨ t = 2 ∨ t = 3 ∨ t = 4 ∨ t = 5 ∨ t = 6 ∨ t = 7 := by omega
  rcases hcases with rfl | rfl | rfl | rfl | rfl | rfl | rfl | rfl <;> rfl

theorem bit_bitmapBlock (m : Bitmap) (off k : Nat) :
    bit (bitmapBlock m off) k = m (8 * off + k) := by
  unfold bit bitmapBlock
  rw [byteOf_bit _ (Nat.mod_lt _ (by omega))]
  congr 1
  omega

theorem syncLoop_ok {m : Bitmap} {first : Nat} {readable : Nat → Bool}
    (reads : ∀ b, readable b = true) (n : Nat) : ∀ (i : Nat) (disk : Store),
    (syncLoop m first readable n i disk).2 = 0 := by
  induction n with
  | zero => exact fun _ _ => rfl
  | succ n ih =>
    intro i disk
    rw [syncLoop, if_neg (by simp [reads])]
    exact ih (i + 1) _

/-- Whatever can be read, a bitmap is written into its own area. -/
theorem syncLoop_frame {m : Bitmap} {first : Nat} {readable : Nat → Bool} (n : Nat) :
    ∀ (i : Nat) (disk : Store) (b : Nat), first + i + n ≤ 2147483648 →
      b < first + i ∨ first + i + n ≤ b → (syncLoop m first readable n i disk).1 b = disk b := by
  induction n with
  | zero => exact fun _ _ _ _ _ => rfl
  | succ n ih =>
    intro i disk b low hb
    rw [syncLoop, sector_eq (by omega)]
    by_cases hread : readable (first + i) = false
    · rw [if_pos hread]
    · rw [if_neg hread, ih (i + 1) _ b (by omega) (by omega)]
      exact set_of_ne _ _ (by omega)

/-- As far as an `int` counts, the blocks `first + i` have been written. -/
theorem syncLoop_bits {m : Bitmap} {first : Nat} {readable : Nat → Bool}
    (reads : ∀ b, readable b = true) (n : Nat) : ∀ (i : Nat) (disk : Store),
    i + n ≤ 524288 → first + i + n ≤ 2147483648 →
    ∀ j k, i ≤ j → j < i + n → k < 8 * blockSize →
      bit ((syncLoop m first readable n i disk).1 (first + j)) k = m (8 * blockSize * j + k) := by
  induction n with
  | zero =>
    intro i disk _ _ j k h h'
    omega
  | succ n ih =>
    intro i disk few low j k hij hj hk
    obtain ⟨next, hnext⟩ : ∃ next : Store, next = disk.set (first + i)
      (blit (disk (first + i)) 0 blockSize (bitmapBlock m (blockSize * i))) := ⟨_, rfl⟩
    have hrun : syncLoop m first readable (n + 1) i disk =
        syncLoop m first readable n (i + 1) next := by
      rw [syncLoop, sector_eq (by omega), byteOffset_eq (by omega), hnext]
      exact if_neg (by simp [reads])
    rw [hrun]
    rcases Nat.eq_or_lt_of_le hij with rfl | hlt
    · rw [syncLoop_frame n (i + 1) next (first + i) (by omega) (by omega), hnext, set_self,
        Nat.mul_assoc, ← bit_bitmapBlock m (blockSize * i) k]
      unfold bit
      rw [blit_inside _ _ (Nat.zero_le _) (by simp only [blockSize] at hk ⊢; omega)]
      rfl
    · exact ih (i + 1) next (by omega) (by omega) j k (by omega) (by omega) hk

theorem csb_putCounters {sbi : SbInfo} {disk : Store} {b : Buffer}
    (h : disk 0 = putCounters sbi b) :
    csb disk 0 = (le32 b 0).toNat ∧
    csb disk 1 = sbi.nrBlocks % 4294967296 ∧ csb disk 2 = sbi.nrInodes % 4294967296 ∧
    csb disk 3 = sbi.nrIstoreBlocks % 4294967296 ∧ csb disk 4 = sbi.nrIfreeBlocks % 4294967296 ∧
    csb disk 5 = sbi.nrBfreeBlocks % 4294967296 ∧ csb disk 6 = sbi.nrFreeInodes % 4294967296 ∧
    csb disk 7 = sbi.nrFreeBlocks % 4294967296 := by
  unfold csb
  rw [h]
  unfold putCounters
  refine ⟨?_, ?_, ?_, ?_, ?_, ?_, ?_, ?_⟩ <;>
    simp (disch := omega) only [le32_putLe32_of_disjoint, le32_putLe32_self, BitVec.toNat_ofNat,
      Nat.reducePow, Nat.mul_zero]

/-- The counters fit their 32-bit fields and the areas lie below the end of the
volume. -/
structure Fits (sbi : SbInfo) : Prop where
  nrBlocks : sbi.nrBlocks < 4294967296
  nrInodes : sbi.nrInodes < 4294967296
  nrFreeInodes : sbi.nrFreeInodes < 4294967296
  nrFreeBlocks : sbi.nrFreeBlocks < 4294967296
  areas : 1 + sbi.nrIstoreBlocks + sbi.nrIfreeBlocks + sbi.nrBfreeBlocks ≤ sbi.nrBlocks

/-- The number of a block of the bitmaps and the number of a byte of each of them are
values of type `int`. -/
structure Counted (sbi : SbInfo) : Prop where
  ifree : sbi.nrIfreeBlocks ≤ 524288
  bfree : sbi.nrBfreeBlocks ≤ 524288
  blocks : 1 + sbi.nrIstoreBlocks + sbi.nrIfreeBlocks + sbi.nrBfreeBlocks ≤ 2147483648

/-- The same counters and, as far as they are stored, the same bitmaps. -/
structure SameState (a b : SbInfo) : Prop where
  nrBlocks : b.nrBlocks = a.nrBlocks
  nrInodes : b.nrInodes = a.nrInodes
  nrIstoreBlocks : b.nrIstoreBlocks = a.nrIstoreBlocks
  nrIfreeBlocks : b.nrIfreeBlocks = a.nrIfreeBlocks
  nrBfreeBlocks : b.nrBfreeBlocks = a.nrBfreeBlocks
  nrFreeInodes : b.nrFreeInodes = a.nrFreeInodes
  nrFreeBlocks : b.nrFreeBlocks = a.nrFreeBlocks
  ifreeBitmap : ∀ k, k < 8 * blockSize * a.nrIfreeBlocks → b.ifreeBitmap k = a.ifreeBitmap k
  bfreeBitmap : ∀ k, k < 8 * blockSize * a.nrBfreeBlocks → b.bfreeBitmap k = a.bfreeBitmap k

section

variable {sbi : SbInfo} {readable : Nat → Bool} {disk : Store}

theorem ouichefsSyncFs_eq_bfree (reads : ∀ b, readable b = true) :
    ouichefsSyncFs sbi readable disk = ((syncBfree sbi readable
      (syncIfree sbi readable (disk.set 0 (putCounters sbi (disk 0)))).1).1, 0) := by
  have hfirst : syncSbInfo sbi readable disk = (disk.set 0 (putCounters sbi (disk 0)), 0) :=
    if_neg (by rw [reads 0]; simp)
  have hifree : ∀ d, (syncIfree sbi readable d).2 = 0 := fun d => syncLoop_ok reads _ 0 d
  have hbfree : ∀ d, (syncBfree sbi readable d).2 = 0 := fun d => syncLoop_ok reads _ 0 d
  unfold ouichefsSyncFs
  simp [hfirst, hifree, hbfree]

/-- The superblock, the two bitmap areas and nothing else are written. -/
theorem ouichefsSyncFs_spec (counted : Counted sbi) (reads : ∀ b, readable b = true) :
    (ouichefsSyncFs sbi readable disk).2 = 0 ∧
    (ouichefsSyncFs sbi readable disk).1 0 = putCounters sbi (disk 0) ∧
    (∀ b, b ≠ 0 → b < sbi.nrIstoreBlocks + 1 ∨
        sbi.nrIstoreBlocks + sbi.nrIfreeBlocks + sbi.nrBfreeBlocks + 1 ≤ b →
      (ouichefsSyncFs sbi readable disk).1 b = disk b) ∧
    (∀ j k, j < sbi.nrIfreeBlocks → k < 8 * blockSize →
      bit ((ouichefsSyncFs sbi readable disk).1 (sbi.nrIstoreBlocks + 1 + j)) k =
        sbi.ifreeBitmap (8 * blockSize * j + k)) ∧
    (∀ j k, j < sbi.nrBfreeBlocks → k < 8 * blockSize →
      bit ((ouichefsSyncFs sbi readable disk).1
        (sbi.nrIstoreBlocks + sbi.nrIfreeBlocks + 1 + j)) k =
        sbi.bfreeBitmap (8 * blockSize * j + k)) := by
  obtain ⟨d₁, hd₁⟩ : ∃ d₁ : Store, d₁ = disk.set 0 (putCounters sbi (disk 0)) := ⟨_, rfl⟩
  have hi := counted.ifree
  have hb := counted.bfree
  have hblocks := counted.blocks
  obtain ⟨d₂, hd₂⟩ : ∃ d₂ : Store, d₂ = (syncIfree sbi readable d₁).1 := ⟨_, rfl⟩
  have hframe₂ := fun b => @syncLoop_frame sbi.ifreeBitmap (sbi.nrIstoreBlocks + 1) readable
    sbi.nrIfreeBlocks 0 d₁ b (by omega)
  have hbits₂ := @syncLoop_bits sbi.ifreeBitmap (sbi.nrIstoreBlocks + 1) readable reads
    sbi.nrIfreeBlocks 0 d₁ (by omega) (by omega)
  have hframe₃ := fun b => @syncLoop_frame sbi.bfreeBitmap
    (sbi.nrIstoreBlocks + sbi.nrIfreeBlocks + 1) readable sbi.nrBfreeBlocks 0 d₂ b (by omega)
  have hbits₃ := @syncLoop_bits sbi.bfreeBitmap (sbi.nrIstoreBlocks + sbi.nrIfreeBlocks + 1)
    readable reads sbi.nrBfreeBlocks 0 d₂ (by omega) (by omega)
  have hrun : ouichefsSyncFs sbi readable disk = ((syncBfree sbi readable d₂).1, 0) := by
    rw [ouichefsSyncFs_eq_bfree reads, hd₂, hd₁]
  have h₂ : ∀ b, d₂ b = (syncLoop sbi.ifreeBitmap (sbi.nrIstoreBlocks + 1) readable
      sbi.nrIfreeBlocks 0 d₁).1 b := by
    intro b
    rw [hd₂]
    rfl
  have h₃ : ∀ b, (ouichefsSyncFs sbi readable disk).1 b = (syncLoop sbi.bfreeBitmap
      (sbi.nrIstoreBlocks + sbi.nrIfreeBlocks + 1) readable sbi.nrBfreeBlocks 0 d₂).1 b := by
    intro b
    rw [hrun]
    rfl
  refine ⟨by rw [hrun], ?_, ?_, ?_, ?_⟩
  · rw [h₃, hframe₃ 0 (by omega), h₂, hframe₂ 0 (by omega), hd₁, set_self]
  · intro b hne hb
    rw [h₃, hframe₃ b (by omega), h₂, hframe₂ b (by omega), hd₁]
    exact set_of_ne _ _ hne
  · intro j k hj hk
    rw [h₃, hframe₃ _ (by omega), h₂]
    exact hbits₂ j k (by omega) (by omega) hk
  · intro j k hj hk
    rw [h₃]
    exact hbits₃ j k (by omega) (by omega) hk

theorem copyBitmap_synced {d : Store} {m : Bitmap} {first n k : Nat}
    (h : ∀ j k, j < n → k < 8 * blockSize → bit (d (first + j)) k = m (8 * blockSize * j + k))
    (few : n ≤ 524288) (low : first + n ≤ 2147483648) (hk : k < 8 * blockSize * n) :
    copyBitmap d first n k = m k := by
  have hq : k / (8 * blockSize) < n := by
    simp only [blockSize] at hk ⊢
    omega
  rw [copyBitmap_apply few low, if_pos hq, h _ _ hq (Nat.mod_lt _ (by simp only [blockSize]; omega)),
    Nat.div_add_mod]

theorem sbInfoOf_synced (fits : Fits sbi) (counted : Counted sbi) (reads : ∀ b, readable b = true) :
    SameState sbi (sbInfoOf (ouichefsSyncFs sbi readable disk).1) := by
  obtain ⟨_, hzero, _, hifree, hbfree⟩ := ouichefsSyncFs_spec counted reads
  obtain ⟨d, hd⟩ : ∃ d : Store, d = (ouichefsSyncFs sbi readable disk).1 := ⟨_, rfl⟩
  rw [← hd] at hzero hifree hbfree ⊢
  obtain ⟨_, h1, h2, h3, h4, h5, h6, h7⟩ := csb_putCounters hzero
  have hareas := fits.areas
  have hn := fits.nrBlocks
  have hi := counted.ifree
  have hb := counted.bfree
  have hblocks := counted.blocks
  rw [Nat.mod_eq_of_lt fits.nrBlocks] at h1
  rw [Nat.mod_eq_of_lt fits.nrInodes] at h2
  rw [Nat.mod_eq_of_lt (by omega)] at h3
  rw [Nat.mod_eq_of_lt (by omega)] at h4
  rw [Nat.mod_eq_of_lt (by omega)] at h5
  rw [Nat.mod_eq_of_lt fits.nrFreeInodes] at h6
  rw [Nat.mod_eq_of_lt fits.nrFreeBlocks] at h7
  refine ⟨h1, h2, h3, h4, h5, h6, h7, ?_, ?_⟩
  · intro k hk
    change copyBitmap d (csb d 3 + 1) (csb d 4) k = _
    rw [h3, h4]
    exact copyBitmap_synced hifree hi (by omega) hk
  · intro k hk
    change copyBitmap d (csb d 3 + csb d 4 + 1) (csb d 5) k = _
    rw [h3, h4, h5]
    exact copyBitmap_synced hbfree hb (by omega) hk

/-- A volume with the magic number and a root inode can be mounted. -/
theorem ouichefsFillSuper_of_magic {d : Store} (magic : csb d 0 = ouichefsMagic)
    (root : 1 < csb d 2) (reads : ∀ b, readable b = true) (who : Caller) (memory : who.memory = true) :
    ∃ w, ouichefsFillSuper d who readable (fun _ => true) = .ok w ∧ w.sbi = sbInfoOf d := by
  have hroot : ¬ 1 ≥ (sbInfoOf d).nrInodes := Nat.not_le.mpr root
  have hreads : readable = fun _ => true := funext reads
  have hany : ∀ n, ((List.range n).any fun _ => false) = false := by simp
  unfold ouichefsFillSuper ouichefsIget
  simp only [hreads, magic, memory, ne_eq, not_true_eq_false, if_false, if_neg hroot,
    Bool.true_eq_false, Bool.not_true, hany, Bool.false_eq_true]
  exact ⟨_, rfl, rfl⟩

end

/-- Whatever is in memory, `ouichefs_sync_fs` and a mount of the result give the
counters and bitmaps back, provided an `int` is enough for the bitmaps and the mount
finds its root inode in range. -/
theorem sync_mount (sbi : SbInfo) (disk : Store) (readable : Nat → Bool) (who : Caller)
    (fits : Fits sbi) (counted : Counted sbi) (magic : csb disk 0 = ouichefsMagic) (root : 2 ≤ sbi.nrInodes)
    (reads : ∀ b, readable b = true) (memory : who.memory = true) :
    (ouichefsSyncFs sbi readable disk).2 = 0 ∧
    (∃ w, ouichefsFillSuper (ouichefsSyncFs sbi readable disk).1 who readable (fun _ => true) =
      .ok w ∧ SameState sbi w.sbi) ∧
    (∀ b, b ≠ 0 → b < sbi.nrIstoreBlocks + 1 ∨
        sbi.nrIstoreBlocks + sbi.nrIfreeBlocks + sbi.nrBfreeBlocks + 1 ≤ b →
      (ouichefsSyncFs sbi readable disk).1 b = disk b) := by
  obtain ⟨hret, hzero, hframe, _, _⟩ := ouichefsSyncFs_spec counted reads
  have hsame := @sbInfoOf_synced sbi readable disk fits counted reads
  refine ⟨hret, ?_, hframe⟩
  obtain ⟨d, hd⟩ : ∃ d : Store, d = (ouichefsSyncFs sbi readable disk).1 := ⟨_, rfl⟩
  rw [← hd] at hzero hsame ⊢
  have hmagic : csb d 0 = ouichefsMagic := (csb_putCounters hzero).1.trans magic
  have hroot : 1 < csb d 2 := by
    have hnr : csb d 2 = sbi.nrInodes := hsame.nrInodes
    omega
  obtain ⟨w, hw, hsbi⟩ := ouichefsFillSuper_of_magic hmagic hroot reads who memory
  refine ⟨w, hw, ?_⟩
  rw [hsbi]
  exact hsame

/-- A small volume in memory, with `n` inodes. -/
def smallSbi (n : Nat) : SbInfo := ⟨100, n, 3, 1, 1, 7, 9, fun k => k % 3 == 0, fun k => k % 5 == 0⟩

def magicDisk : Store := fun _ => putLe32 zeroBlock 0 (BitVec.ofNat 32 ouichefsMagic)

theorem smallSbi_fits {n : Nat} (h : n < 4294967296) : Fits (smallSbi n) :=
  ⟨by simp [smallSbi], h, by simp [smallSbi], by simp [smallSbi], by simp [smallSbi]⟩

theorem sync_mount_small : ∃ w,
    ouichefsFillSuper (ouichefsSyncFs (smallSbi 149) (fun _ => true) magicDisk).1 ⟨0, 0, true⟩
      (fun _ => true) (fun _ => true) = .ok w ∧ SameState (smallSbi 149) w.sbi :=
  (sync_mount (smallSbi 149) magicDisk (fun _ => true) ⟨0, 0, true⟩ (smallSbi_fits (by decide))
    ⟨by decide, by decide, by decide⟩ (by decide) (by decide) (fun _ => rfl) rfl).2.1

/-- With a single inode there is no inode 1, and the mount is refused. -/
theorem smallSbi_no_root (w : World)
    (mount : ouichefsFillSuper (ouichefsSyncFs (smallSbi 1) (fun _ => true) magicDisk).1
      ⟨0, 0, true⟩ (fun _ => true) (fun _ => true) = .ok w) : ¬ SameState (smallSbi 1) w.sbi := by
  intro hsame
  obtain ⟨hsbi, _, hroot, _⟩ := ouichefsFillSuper_ok mount
  have hnr : w.sbi.nrInodes = 1 := hsame.nrInodes
  rw [hsbi] at hnr
  change csb _ 2 = 1 at hnr
  omega

/-- An inode store up to block 2147483647. -/
def wideSbi : SbInfo :=
  { smallSbi 149 with nrBlocks := 4294967295, nrIstoreBlocks := 2147483647 }

/-- A bitmap of the inodes with one block too much. -/
def longSbi : SbInfo :=
  { smallSbi 149 with nrBlocks := 1048576, nrIfreeBlocks := 524289, ifreeBitmap := fun _ => true }

/-- From 2147483648 on no byte of the memory of a bitmap is reached. -/
theorem copyBitmap_unreached (disk : Store) (first n : Nat) {k : Nat} (lo : 2147483648 ≤ k / 8)
    (hi : k / 8 < 4294967296) : copyBitmap disk first n k = false := by
  induction n with
  | zero => rfl
  | succ n ih =>
    have hoff : byteOffset n + blockSize ≤ 2147483648 ∨ 18446744071562067968 ≤ byteOffset n := by
      unfold byteOffset blockSize u64 i32
      rw [Int.bmod_def]
      omega
    rw [copyBitmap_succ, copyBlock, if_neg (by omega)]
    exact ih

theorem longSbi_cut (disk : Store) : ¬ SameState longSbi (sbInfoOf disk) := by
  intro hsame
  have hbit := hsame.ifreeBitmap 17179869184 (by decide)
  have hcopy : (sbInfoOf disk).ifreeBitmap = copyBitmap disk (csb disk 3 + 1) (csb disk 4) := rfl
  rw [hcopy, copyBitmap_unreached _ _ _ (by decide) (by decide)] at hbit
  exact Bool.false_ne_true hbit

/-- A mount needs inode 1, the number of a block has to be a value of type `int`, and so has
the number of a byte of a bitmap. -/
theorem sync_mount_fails :
    (Fits (smallSbi 1) ∧ csb magicDisk 0 = ouichefsMagic ∧
      ¬ ∃ w, ouichefsFillSuper (ouichefsSyncFs (smallSbi 1) (fun _ => true) magicDisk).1
        ⟨0, 0, true⟩ (fun _ => true) (fun _ => true) = .ok w ∧ SameState (smallSbi 1) w.sbi) ∧
    (Fits wideSbi ∧
      (ouichefsSyncFs wideSbi (fun b => decide (b < 4294967295)) magicDisk).2 = -errIo) ∧
    (Fits longSbi ∧
      ¬ ∃ w, ouichefsFillSuper (ouichefsSyncFs longSbi (fun _ => true) magicDisk).1
        ⟨0, 0, true⟩ (fun _ => true) (fun _ => true) = .ok w ∧ SameState longSbi w.sbi) := by
  refine ⟨⟨smallSbi_fits (by decide), by decide, ?_⟩, ⟨?_, by decide +kernel⟩, ?_, ?_⟩
  · rintro ⟨w, hw, hsame⟩
    exact smallSbi_no_root w hw hsame
  · exact ⟨by decide, by decide, by decide, by decide, by decide⟩
  · exact ⟨by decide, by decide, by decide, by decide, by decide⟩
  · rintro ⟨w, hw, hsame⟩
    rw [(ouichefsFillSuper_ok hw).1] at hsame
    exact longSbi_cut _ hsame

end OuicheSync
