import OuicheFs.Super

/-!
# The inode store

`ouichefs_write_inode` and `ouichefs_iget` are two lists of fields over one
computed address. An inode that is written and read back is the same inode, and
the records of the others are not touched.
-/
namespace InodeStore

open CInt ByteBuffer FileContext Mkfs OuicheInode OuicheSuper

/-- Seconds in 32 unsigned bits, nanoseconds in a `long`. -/
structure TimeFits (t : Timespec) : Prop where
  sec : 0 ≤ t.tvSec ∧ t.tvSec < 4294967296
  nsec : -9223372036854775808 ≤ t.tvNsec ∧ t.tvNsec < 9223372036854775808

/-- The fields of an inode have a place in its record. All but those of the size,
the block count and the times have a type that sees to it. -/
structure NodeFits (node : Inode) : Prop where
  mode : node.iMode < 65536
  uid : node.iUid < 4294967296
  gid : node.iGid < 4294967296
  size : node.iSize < 4294967296
  ctime : TimeFits node.iCtime
  atime : TimeFits node.iAtime
  mtime : TimeFits node.iMtime
  blocks : node.iBlocks < 4294967296
  nlink : node.iNlink < 4294967296
  index : node.indexBlock < 4294967296

instance (t : Timespec) : Decidable (TimeFits t) :=
  decidable_of_iff ((0 ≤ t.tvSec ∧ t.tvSec < 4294967296) ∧
      -9223372036854775808 ≤ t.tvNsec ∧ t.tvNsec < 9223372036854775808)
    ⟨fun h => ⟨h.1, h.2⟩, fun h => ⟨h.sec, h.nsec⟩⟩

instance (node : Inode) : Decidable (NodeFits node) :=
  decidable_of_iff (node.iMode < 65536 ∧ node.iUid < 4294967296 ∧ node.iGid < 4294967296 ∧
      node.iSize < 4294967296 ∧ TimeFits node.iCtime ∧ TimeFits node.iAtime ∧
      TimeFits node.iMtime ∧ node.iBlocks < 4294967296 ∧ node.iNlink < 4294967296 ∧
      node.indexBlock < 4294967296)
    ⟨fun ⟨h₁, h₂, h₃, h₄, h₅, h₆, h₇, h₈, h₉, h₁₀⟩ => ⟨h₁, h₂, h₃, h₄, h₅, h₆, h₇, h₈, h₉, h₁₀⟩,
      fun h => ⟨h.mode, h.uid, h.gid, h.size, h.ctime, h.atime, h.mtime, h.blocks, h.nlink,
        h.index⟩⟩

/-! ## One record -/

theorem toNat_ofNat_32 {n : Nat} (h : n < 4294967296) : (BitVec.ofNat 32 n).toNat = n := by
  rw [BitVec.toNat_ofNat]
  exact Nat.mod_eq_of_lt h

theorem timespec_back {t : Timespec} (fits : TimeFits t) :
    (⟨(BitVec.ofInt 32 t.tvSec).toNat, (BitVec.ofInt 64 t.tvNsec).toInt⟩ : Timespec) = t := by
  obtain ⟨sec, nsec⟩ := t
  obtain ⟨⟨hlo, hhi⟩, hnlo, hnhi⟩ := fits
  simp only at hlo hhi hnlo hnhi ⊢
  have hsec : ((BitVec.ofInt 32 sec).toNat : Int) = sec := by
    rw [BitVec.toNat_ofInt]
    omega
  have hnsec : (BitVec.ofInt 64 nsec).toInt = nsec := by
    rw [BitVec.toInt_ofInt]
    exact Int.bmod_eq_of_le (by omega) (by omega)
  rw [hsec, hnsec]

/-- The fields come back from where they were stored. -/
theorem inodeAt_diskInode {node : Inode} (fits : NodeFits node) (b : Buffer) (off : Nat) :
    inodeAt (diskInode b off node) off = node := by
  unfold inodeAt diskInode
  simp (disch := omega) only [le32_putLe32_of_disjoint, le32_putLe64_of_disjoint,
    le64_putLe32_of_disjoint, le64_putLe64_of_disjoint, le32_putLe32_self, le64_putLe64_self]
  rw [toNat_ofNat_32 (show node.iMode < 4294967296 by have := fits.mode; omega),
    Nat.mod_eq_of_lt fits.mode, toNat_ofNat_32 fits.uid, toNat_ofNat_32 fits.gid,
    toNat_ofNat_32 fits.size, timespec_back fits.ctime, timespec_back fits.atime,
    timespec_back fits.mtime, toNat_ofNat_32 fits.blocks, toNat_ofNat_32 fits.nlink,
    toNat_ofNat_32 fits.index]

/-- Outside of the 80 bytes of the record nothing is stored. -/
theorem diskInode_outside (b : Buffer) (node : Inode) {off i : Nat} (h : i < off ∨ off + 80 ≤ i) :
    diskInode b off node i = b i := by
  unfold diskInode
  simp (disch := omega) only [putLe32_outside, putLe64_outside]

/-! ## The store -/

/-- The 80 bytes of the record of an inode. -/
def record (disk : Store) (ino : Nat) : List Byte :=
  slice (disk (ino / inodesPerBlock + 1)) (80 * (ino % inodesPerBlock)) 80

/-- The inode `ino` is no longer in memory. -/
def evict (w : World) (ino : Nat) : World :=
  { w with icache := fun i => if i = ino then none else w.icache i }

/-- Two inodes of one block have different places in it. -/
theorem record_of_ne (disk : Store) (node : Inode) {ino j : Nat} (ne : j ≠ ino) :
    record (disk.set (ino / inodesPerBlock + 1)
      (diskInode (disk (ino / inodesPerBlock + 1)) (80 * (ino % inodesPerBlock)) node)) j =
      record disk j := by
  unfold record
  by_cases hblock : j / inodesPerBlock + 1 = ino / inodesPerBlock + 1
  · rw [hblock, set_self]
    apply slice_congr
    intro k hk
    apply diskInode_outside
    unfold inodesPerBlock at hblock ⊢
    omega
  · rw [set_of_ne _ _ hblock]

/-- The record of an inode of the volume lies in the inode store. -/
theorem store_block_range {nrInodes nrIstoreBlocks ino : Nat}
    (layout : nrInodes ≤ nrIstoreBlocks * inodesPerBlock) (lt : ino < nrInodes) :
    1 ≤ ino / inodesPerBlock + 1 ∧ ino / inodesPerBlock + 1 ≤ nrIstoreBlocks := by
  unfold inodesPerBlock at *
  omega

theorem ouichefsIget_uncached {w : World} {who : Caller} {ino : Nat} (lt : ino < w.sbi.nrInodes)
    (memory : who.memory = true) (uncached : w.icache ino = none) :
    ouichefsIget w who true ino = .ok (w.cache ino
      (inodeAt (w.disk (ino / inodesPerBlock + 1)) (80 * (ino % inodesPerBlock)))) := by
  unfold ouichefsIget
  simp only [uncached]
  rw [if_neg (Nat.not_le.mpr lt), if_neg (by simp [memory]), if_neg (by simp)]

/-- An inode that has been written is read back as it was; the records of the
others stay, and only a block of the inode store is written. -/
theorem write_inode_iget {w : World} {who : Caller} {ino : Nat} {node : Inode}
    (layout : w.sbi.nrInodes ≤ w.sbi.nrIstoreBlocks * inodesPerBlock)
    (lt : ino < w.sbi.nrInodes) (fits : NodeFits node) (memory : who.memory = true) :
    ∃ w', ouichefsWriteInode w true ino node = (w', 0) ∧
      (∃ w'', ouichefsIget (evict w' ino) who true ino = .ok w'' ∧ w''.icache ino = some node) ∧
      (∀ j, j ≠ ino → record w'.disk j = record w.disk j) ∧
      ∃ b block, w'.disk = w.disk.set b block ∧ 1 ≤ b ∧ b ≤ w.sbi.nrIstoreBlocks := by
  have hwrite : ouichefsWriteInode w true ino node = (w.setBlock (ino / inodesPerBlock + 1)
      (diskInode (w.disk (ino / inodesPerBlock + 1)) (80 * (ino % inodesPerBlock)) node), 0) := by
    unfold ouichefsWriteInode
    rw [if_neg (Nat.not_le.mpr lt), if_neg (by simp)]
  refine ⟨_, hwrite, ?_, fun j hj => record_of_ne w.disk node hj, _, _, rfl,
    store_block_range layout lt⟩
  refine ⟨_, ouichefsIget_uncached lt memory (if_pos rfl), (if_pos rfl).trans ?_⟩
  simp only [evict, World.setBlock, set_self]
  rw [inodeAt_diskInode fits]

/-- The inode 1 of a volume of 100 blocks, last changed before 1970-01-02. -/
theorem write_inode_iget_root :
    ∃ w', ouichefsWriteInode
        ⟨⟨100, 149, 3, 1, 1, 147, 93, fun i => decide (2 ≤ i), fun b => decide (7 ≤ b)⟩, fun _ _ => 0,
          fun _ => none⟩ true 1
        ⟨0o040775, 1000, 1000, 4096, ⟨86399, 999999999⟩, ⟨86399, 5⟩, ⟨3, 0⟩, 1, 2, 6⟩ = (w', 0) ∧
      (∃ w'', ouichefsIget (evict w' 1) ⟨0, 0, true⟩ true 1 = .ok w'' ∧ w''.icache 1 =
        some ⟨0o040775, 1000, 1000, 4096, ⟨86399, 999999999⟩, ⟨86399, 5⟩, ⟨3, 0⟩, 1, 2, 6⟩) ∧
      (∀ j, j ≠ 1 → record w'.disk j = record (fun _ _ => 0) j) ∧
      ∃ b block, w'.disk = Store.set (fun _ _ => 0) b block ∧ 1 ≤ b ∧ b ≤ 3 :=
  write_inode_iget (by decide) (by decide)
    ⟨by decide, by decide, by decide, by decide, ⟨by decide, by decide⟩, ⟨by decide, by decide⟩,
      ⟨by decide, by decide⟩, by decide, by decide, by decide⟩ rfl

end InodeStore
