import OuicheFs.WholeVolume
import OuicheFs.InodeStore
import OuicheFs.Sync

/-!
# Unmounting and mounting

Inodes are written to the inode store at any time, and the superblock information
with them. What is in front of the data area holds no block of an inode, so the
volume stays what it is; after both have been written, a mount finds it again.
-/
namespace Remount

open CInt Bits ByteBuffer IndexEntry Allocator FileContext Layout OuicheInode OuicheDir OuicheSuper
  OuicheSync Mkfs FileRun Ledger Ownership Lifecycle VolumeRun Directory Hierarchy DirTree
  WholeVolume InodeStore

/-- The areas in front of the data have room for all inodes and all bits. -/
structure Areas (sbi : SbInfo) : Prop where
  store : sbi.nrInodes ≤ sbi.nrIstoreBlocks * inodesPerBlock
  ifree : sbi.nrInodes ≤ 8 * blockSize * sbi.nrIfreeBlocks
  bfree : sbi.nrBlocks ≤ 8 * blockSize * sbi.nrBfreeBlocks
  below : metaEnd sbi ≤ sbi.nrBlocks
  small : sbi.nrBlocks ≤ 524288
  root : 1 < sbi.nrInodes

theorem Areas.counted {sbi : SbInfo} (h : Areas sbi) : Counted sbi := by
  have hbelow := h.below
  have hsmall := h.small
  unfold metaEnd at hbelow
  constructor
  · omega
  · omega
  · omega

theorem metaEnd_congr {a b : SbInfo} (layout : SameLayout a b) : metaEnd b = metaEnd a := by
  unfold metaEnd
  rw [layout.nrIstoreBlocks, layout.nrIfreeBlocks, layout.nrBfreeBlocks]

theorem Areas.congr {a b : SbInfo} (h : Areas a) (layout : SameLayout a b) : Areas b := by
  constructor
  · rw [layout.nrInodes, layout.nrIstoreBlocks]
    exact h.store
  · rw [layout.nrInodes, layout.nrIfreeBlocks]
    exact h.ifree
  · rw [layout.nrBlocks, layout.nrBfreeBlocks]
    exact h.bfree
  · rw [metaEnd_congr layout, layout.nrBlocks]
    exact h.below
  · rw [layout.nrBlocks]
    exact h.small
  · rw [layout.nrInodes]
    exact h.root

/-! ## The same inodes in memory -/

/-- The live inodes are the same up to owners and times, with the blocks of the data
area and the bits that count. -/
structure Resumed (w w' : World) : Prop where
  layout : SameLayout w.sbi w'.sbi
  inodes : ∀ i, i < w.sbi.nrInodes → w'.sbi.ifreeBitmap i = w.sbi.ifreeBitmap i
  free : ∀ b, b < w.sbi.nrBlocks → w'.sbi.bfreeBitmap b = w.sbi.bfreeBitmap b
  count : w'.sbi.nrFreeBlocks = w.sbi.nrFreeBlocks
  inodeCount : w'.sbi.nrFreeInodes = w.sbi.nrFreeInodes
  disk : ∀ b, metaEnd w.sbi ≤ b → w'.disk b = w.disk b
  live : ∀ i n, live w i = some n → ∃ n', w'.icache i = some n' ∧ Refreshed n n' ∧
    n'.iNlink = n.iNlink
  orphans : ∀ i n, ¬ InUse w'.sbi i → w'.icache i = some n → n.indexBlock = 0 ∧ n.iBlocks = 0

section

variable {w w' : World} {t : Tree Nat (List Byte)} {i : Nat}

theorem Resumed.inUse (r : Resumed w w') (i : Nat) : InUse w'.sbi i ↔ InUse w.sbi i := by
  unfold InUse
  rw [r.layout.nrInodes]
  constructor
  · rintro ⟨hpos, hlt, hbit⟩
    exact ⟨hpos, hlt, (r.inodes i hlt) ▸ hbit⟩
  · rintro ⟨hpos, hlt, hbit⟩
    exact ⟨hpos, hlt, (r.inodes i hlt).trans hbit⟩

theorem Resumed.absent (r : Resumed w w') (h : WorldInv w) (none_ : Ownership.live w i = none) :
    Ownership.live w' i = none := by
  refine if_neg fun hin => ?_
  obtain ⟨n, hc⟩ := h.cached i ((r.inUse i).mp hin)
  rw [live_eq_some.mpr ⟨(r.inUse i).mp hin, hc⟩] at none_
  cases none_

/-- A live inode is the same file as before. -/
theorem Resumed.live_to (r : Resumed w w') (h : WorldInv w) {n : Inode}
    (own : Ownership.live w i = some n) :
    ∃ n', Ownership.live w' i = some n' ∧ SameFile w w' n n' ∧ n'.iNlink = n.iNlink := by
  obtain ⟨n', hc, hfresh, hnlink⟩ := r.live i n own
  exact ⟨n', live_eq_some.mpr ⟨(r.inUse i).mpr (live_eq_some.mp own).1, hc⟩,
    ⟨hfresh.mode, hfresh.index, hfresh.iBlocks, hfresh.iSize,
      fun _ => r.disk _ (h.used (index_mem_holds own)).2⟩, hnlink⟩

theorem Resumed.live_back (r : Resumed w w') (h : WorldInv w) {n' : Inode}
    (own : Ownership.live w' i = some n') :
    ∃ n, Ownership.live w i = some n ∧ SameFile w w' n n' ∧ n'.iNlink = n.iNlink := by
  cases hl : Ownership.live w i with
  | none =>
    rw [r.absent h hl] at own
    cases own
  | some n =>
    obtain ⟨m, hm, hsame⟩ := r.live_to h hl
    obtain rfl := Option.some.inj (hm.symm.trans own)
    exact ⟨n, rfl, hsame⟩

theorem Resumed.holds_eq (r : Resumed w w') (h : WorldInv w) (i : Nat) : holds w' i = holds w i := by
  cases hl : Ownership.live w i with
  | none => rw [holds_none hl, holds_none (r.absent h hl)]
  | some n =>
    obtain ⟨n', hn', hsame, _⟩ := r.live_to h hl
    rw [holds_live hl, holds_live hn', hsame.nodeBlocks_eq]

theorem Resumed.inv (r : Resumed w w') (h : WorldInv w) (areas : Areas w.sbi) : WorldInv w' := by
  have hn := r.layout.nrBlocks
  have hend := metaEnd_congr r.layout
  have hbelow := areas.below
  have hheld : holds w' = holds w := funext (r.holds_eq h)
  have hzero : 0 < w.sbi.nrBlocks := by
    unfold metaEnd at hbelow
    omega
  constructor
  · refine ⟨(r.free 0 hzero).trans h.blocks.zero_used, ?_, hn ▸ h.blocks.range⟩
    rw [r.count, h.blocks.counter, hn]
    exact popcount_congr fun b hb => (r.free b hb).symm
  · rw [hn]
    exact h.small
  · intro i hin
    obtain ⟨n, hc⟩ := h.cached i ((r.inUse i).mp hin)
    obtain ⟨n', hc', _⟩ := r.live i n (live_eq_some.mpr ⟨(r.inUse i).mp hin, hc⟩)
    exact ⟨n', hc'⟩
  · intro i n' hl
    obtain ⟨n, hn, hsame, _⟩ := r.live_back h hl
    exact hsame.sound (h.sound i n hn)
  · exact r.orphans
  · rw [hheld, hend, hn]
    refine ⟨h.ledger.nodup, h.ledger.disjoint, ?_, ?_, ?_⟩
    · intro i b hb
      obtain ⟨hall, hfree, hres⟩ := h.ledger.held i b hb
      exact ⟨hall, by rw [r.free b hall]; exact hfree, hres⟩
    · intro b hb
      rw [r.free b (Nat.lt_of_lt_of_le hb hbelow)]
      exact h.ledger.reserved_taken b hb
    · intro b hb
      rw [r.free b hb]
      exact h.ledger.cover b hb

/-- A resumed volume holds the same tree. -/
theorem Resumed.volume (r : Resumed w w') (h : VolumeInv w t) (areas : Areas w.sbi) :
    VolumeInv w' t := by
  have h' := r.inv h.world areas
  refine ⟨h', ⟨?_, ?_, ?_, ?_, ?_, ?_, ?_⟩, h.names⟩
  · change w'.sbi.nrInodes ≤ _
    rw [r.layout.nrInodes]
    exact h.tree.range
  · change Consistent (fun i => 0 < i ∧ i < w'.sbi.nrInodes) 1 t
    rw [r.layout.nrInodes]
    exact h.tree.tree
  · intro i hpos hlt
    change i < w'.sbi.nrInodes at hlt
    change t.free i ↔ w'.sbi.ifreeBitmap i = true
    rw [r.layout.nrInodes] at hlt
    rw [r.inodes i hlt]
    exact h.free hpos hlt
  · exact fun i hi => h.tree.idle i fun hin => hi ((r.inUse i).mpr hin)
  · intro i hin
    obtain ⟨n, hn⟩ := h'.cached i hin
    exact ⟨_, hollow_icache hn⟩
  · intro i n hn
    obtain ⟨n', hl, rfl⟩ := live_of_hollow hn
    obtain ⟨m, hm, hsame, hnlink⟩ := r.live_back h.world hl
    have hplaced := h.placed hm
    have hdisk := r.disk _ (h.world.used (index_mem_holds hm)).2
    refine nodeOk_hollow h' hl ⟨?_, ?_, ?_⟩
    · rw [hsame.mode]
      exact hplaced.folder
    · rw [hsame.mode, hsame.index, hdisk]
      exact hplaced.block
    · rw [hsame.mode, hnlink]
      exact hplaced.nlink
  · intro i j n n' hi hj heq
    obtain ⟨m, hm, rfl⟩ := live_of_hollow hi
    obtain ⟨m', hm', rfl⟩ := live_of_hollow hj
    rw [hollowNode_indexBlock, hollowNode_indexBlock] at heq
    exact WorldInv.apart h' hm hm' heq

end

/-! ## Writing back -/

section

variable {w w' : World} {i : Nat} {node : Inode}

/-- Only blocks in front of the data area have been written. -/
structure Filed (w w' : World) : Prop where
  sbi : w'.sbi = w.sbi
  icache : w'.icache = w.icache
  disk : ∀ b, metaEnd w.sbi ≤ b → w'.disk b = w.disk b

theorem Filed.resumed (f : Filed w w') (h : WorldInv w) : Resumed w w' := by
  refine ⟨f.sbi ▸ SameLayout.refl _, fun _ _ => by rw [f.sbi], fun _ _ => by rw [f.sbi],
    by rw [f.sbi], by rw [f.sbi], f.disk, ?_, ?_⟩
  · intro i n hl
    exact ⟨n, by rw [f.icache]; exact (live_eq_some.mp hl).2, ⟨rfl, rfl, rfl, rfl⟩, rfl⟩
  · rw [f.sbi, f.icache]
    exact h.orphans

theorem writeInode_filed (areas : Areas w.sbi) (ok : Bool) (ino : Nat) (node : Inode) :
    Filed w (ouichefsWriteInode w ok ino node).1 := by
  unfold ouichefsWriteInode
  by_cases hge : ino ≥ w.sbi.nrInodes
  · rw [if_pos hge]
    exact ⟨rfl, rfl, fun _ _ => rfl⟩
  rw [if_neg hge]
  by_cases hok : ok = false
  · rw [if_pos hok]
    exact ⟨rfl, rfl, fun _ _ => rfl⟩
  rw [if_neg hok]
  refine ⟨rfl, rfl, fun b hb => set_of_ne _ _ ?_⟩
  have := (store_block_range areas.store (Nat.not_le.mp hge)).2
  unfold metaEnd at hb
  omega

/-- The volume after `ouichefs_sync_fs`. -/
def synced (w : World) (readable : Nat → Bool) : World :=
  { w with disk := (ouichefsSyncFs w.sbi readable w.disk).1 }

/-- Whatever can be read, neither the inode store nor the data area is written. -/
theorem synced_frame {w : World} (areas : Areas w.sbi) (readable : Nat → Bool) {b : Nat}
    (apart : (1 ≤ b ∧ b ≤ w.sbi.nrIstoreBlocks) ∨ metaEnd w.sbi ≤ b) :
    (synced w readable).disk b = w.disk b := by
  have hcounted := areas.counted.blocks
  unfold metaEnd at apart
  have hsb : (syncSbInfo w.sbi readable w.disk).1 b = w.disk b := by
    unfold syncSbInfo
    by_cases hread : readable 0 = false
    · rw [if_pos hread]
    · rw [if_neg hread]
      exact set_of_ne _ _ (by omega)
  have hifree : ∀ disk, (syncIfree w.sbi readable disk).1 b = disk b := fun disk =>
    syncLoop_frame _ 0 disk b (by omega) (by omega)
  have hbfree : ∀ disk, (syncBfree w.sbi readable disk).1 b = disk b := fun disk =>
    syncLoop_frame _ 0 disk b (by omega) (by omega)
  change (ouichefsSyncFs w.sbi readable w.disk).1 b = _
  unfold ouichefsSyncFs
  simp only
  split
  · exact hsb
  split
  · rw [hifree, hsb]
  split
  · rw [hbfree, hifree, hsb]
  · rw [hbfree, hifree, hsb]

theorem syncFs_filed {w : World} (areas : Areas w.sbi) (readable : Nat → Bool) :
    Filed w (synced w readable) :=
  ⟨rfl, rfl, fun _ hb => synced_frame areas readable (Or.inr hb)⟩

/-- What `ouichefs_iget` reads for the number `ino`. -/
def stored (disk : Store) (ino : Nat) : Inode :=
  inodeAt (disk (ino / inodesPerBlock + 1)) (80 * (ino % inodesPerBlock))

theorem stored_of_record {d d' : Store} (h : record d' i = record d i) : stored d' i = stored d i := by
  have hbyte : ∀ k, k < 80 → d' (i / inodesPerBlock + 1) (80 * (i % inodesPerBlock) + k) =
      d (i / inodesPerBlock + 1) (80 * (i % inodesPerBlock) + k) := by
    intro k hk
    have hget := congrArg (fun l => l[k]?) h
    simp only [record, slice, List.getElem?_map, List.getElem?_range hk, Option.map_some] at hget
    exact Option.some.inj hget
  have hword : ∀ o, o + 4 ≤ 80 →
      le32 (d' (i / inodesPerBlock + 1)) (80 * (i % inodesPerBlock) + o) =
      le32 (d (i / inodesPerBlock + 1)) (80 * (i % inodesPerBlock) + o) := by
    intro o ho
    refine le32_congr fun j hj hj' => ?_
    have := hbyte (j - 80 * (i % inodesPerBlock)) (by omega)
    rwa [show 80 * (i % inodesPerBlock) + (j - 80 * (i % inodesPerBlock)) = j by omega] at this
  have hzero : le32 (d' (i / inodesPerBlock + 1)) (80 * (i % inodesPerBlock)) =
      le32 (d (i / inodesPerBlock + 1)) (80 * (i % inodesPerBlock)) := hword 0 (by omega)
  unfold stored inodeAt le64
  simp only [Nat.add_assoc]
  rw [hzero, hword 4 (by omega), hword 8 (by omega), hword 12 (by omega), hword 16 (by omega),
    hword (24 + 4) (by omega), hword 24 (by omega), hword 32 (by omega), hword (40 + 4) (by omega),
    hword 40 (by omega), hword 48 (by omega), hword (56 + 4) (by omega), hword 56 (by omega),
    hword 64 (by omega), hword 68 (by omega), hword 72 (by omega)]

theorem stored_writeInode_self (lt : i < w.sbi.nrInodes) (fits : NodeFits node) :
    stored (ouichefsWriteInode w true i node).1.disk i = node := by
  have hwrite : ouichefsWriteInode w true i node = (w.setBlock (i / inodesPerBlock + 1)
      (diskInode (w.disk (i / inodesPerBlock + 1)) (80 * (i % inodesPerBlock)) node), 0) := by
    unfold ouichefsWriteInode
    rw [if_neg (Nat.not_le.mpr lt), if_neg (by simp)]
  rw [hwrite]
  unfold stored World.setBlock
  simp only [set_self]
  exact inodeAt_diskInode fits _ _

/-- The records of the other inodes stay, whether the block can be read or not. -/
theorem stored_writeInode_ne (w : World) (ok : Bool) (node : Inode) {j : Nat} (ne : j ≠ i) :
    stored (ouichefsWriteInode w ok i node).1.disk j = stored w.disk j := by
  unfold ouichefsWriteInode
  by_cases hge : i ≥ w.sbi.nrInodes
  · rw [if_pos hge]
  rw [if_neg hge]
  by_cases hok : ok = false
  · rw [if_pos hok]
  · rw [if_neg hok]
    exact stored_of_record (record_of_ne w.disk node ne)

/-- The disk has the inode `i` as it is in memory, up to owners and times. -/
def Recorded (w : World) (i : Nat) (n : Inode) : Prop :=
  Refreshed n (stored w.disk i) ∧ (stored w.disk i).iNlink = n.iNlink

theorem recorded_of_stored {n : Inode} (h : stored w.disk i = n) : Recorded w i n := by
  rw [Recorded, h]
  exact ⟨⟨rfl, rfl, rfl, rfl⟩, rfl⟩

theorem Recorded.congr {n : Inode} (r : Recorded w i n) (h : stored w'.disk i = stored w.disk i) :
    Recorded w' i n := by
  rw [Recorded, h]
  exact r

/-- The inodes of a list are written back, each from memory. -/
def writeBack : List Nat → World → World
  | [], w => w
  | ino :: order, w =>
    writeBack order ((w.icache ino).elim w fun node => (ouichefsWriteInode w true ino node).1)

theorem writeBack_zero (order : List Nat) : ∀ w : World, (writeBack order w).disk 0 = w.disk 0 := by
  induction order with
  | nil => exact fun _ => rfl
  | cons ino order ih =>
    intro w
    rw [writeBack, ih]
    cases w.icache ino with
    | none => rfl
    | some node =>
      simp only [Option.elim_some]
      unfold ouichefsWriteInode
      by_cases hge : ino ≥ w.sbi.nrInodes
      · rw [if_pos hge]
      · rw [if_neg hge, if_neg (by simp)]
        rfl

theorem Filed.trans {w'' : World} (f : Filed w w') (f' : Filed w' w'') : Filed w w'' :=
  ⟨f'.sbi.trans f.sbi, f'.icache.trans f.icache,
    fun b hb => (f'.disk b (f.sbi ▸ hb)).trans (f.disk b hb)⟩

theorem Filed.live_eq (f : Filed w w') (i : Nat) : live w' i = live w i := by
  unfold live
  rw [f.sbi, f.icache]

/-- One inode of the list. -/
theorem writeBack_one (areas : Areas w.sbi) (ino : Nat)
    (fit : ∀ n, live w ino = some n → NodeFits n) :
    ∃ w₁, (∀ order, writeBack (ino :: order) w = writeBack order w₁) ∧ Filed w w₁ ∧
      (∀ n, live w ino = some n → stored w₁.disk ino = n) ∧
      ∀ j, j ≠ ino → stored w₁.disk j = stored w.disk j := by
  cases hc : w.icache ino with
  | none =>
    refine ⟨w, fun order => by rw [writeBack, hc]; rfl, ⟨rfl, rfl, fun _ _ => rfl⟩, fun n hl => ?_,
      fun _ _ => rfl⟩
    rw [(live_eq_some.mp hl).2] at hc
    cases hc
  | some node =>
    refine ⟨(ouichefsWriteInode w true ino node).1, fun order => by rw [writeBack, hc]; rfl,
      writeInode_filed areas true ino node, fun n hl => ?_,
      fun j hj => stored_writeInode_ne w true node hj⟩
    obtain ⟨hin, hn⟩ := live_eq_some.mp hl
    obtain rfl := Option.some.inj (hn.symm.trans hc)
    exact stored_writeInode_self hin.2.1 (fit n hl)

/-- What has been written back is found again, in whatever order and however often, and
the other records stay. -/
theorem writeBack_spec (order : List Nat) : ∀ w : World, Areas w.sbi →
    (∀ i ∈ order, ∀ n, live w i = some n → NodeFits n) →
    Filed w (writeBack order w) ∧
      (∀ i ∈ order, ∀ n, live w i = some n → stored (writeBack order w).disk i = n) ∧
      ∀ i, i ∉ order → stored (writeBack order w).disk i = stored w.disk i := by
  induction order with
  | nil =>
    exact fun w _ _ => ⟨⟨rfl, rfl, fun _ _ => rfl⟩, fun i hi => absurd hi List.not_mem_nil,
      fun _ _ => rfl⟩
  | cons ino order ih =>
    intro w areas fit
    obtain ⟨w₁, hrest, hfiled, hself, hother⟩ :=
      writeBack_one areas ino (fit ino List.mem_cons_self)
    obtain ⟨hfiled', hwritten, hkept⟩ := ih w₁ (hfiled.sbi ▸ areas) fun i hi n hl =>
      fit i (List.mem_cons_of_mem _ hi) n ((hfiled.live_eq i).symm.trans hl)
    rw [hrest]
    refine ⟨hfiled.trans hfiled', fun i hi n hl => ?_, fun i hi => ?_⟩
    · by_cases hmem : i ∈ order
      · exact hwritten i hmem n ((hfiled.live_eq i).trans hl)
      · obtain rfl := (List.mem_cons.mp hi).resolve_right hmem
        rw [hkept i hmem, hself n hl]
    · rw [List.mem_cons, not_or] at hi
      rw [hkept i hi.2, hother i hi.1]

end

/-! ## Mounting again -/

section

variable {w w' : World} {i : Nat} {node : Inode} {who : Caller} {readable : Nat → Bool}
  {memory : Fin 4 → Bool}

/-- The inodes of a list are fetched. -/
def load (who : Caller) : List Nat → World → World
  | [], w => w
  | ino :: order, w =>
    load who order (match ouichefsIget w who true ino with
      | .ok w => w
      | .error _ => w)

theorem load_spec (memory : who.memory = true) (order : List Nat) : ∀ w : World,
    (load who order w).sbi = w.sbi ∧ (load who order w).disk = w.disk ∧
      ∀ i, (load who order w).icache i = (w.icache i).or
        (if i ∈ order ∧ i < w.sbi.nrInodes then some (stored w.disk i) else none) := by
  induction order with
  | nil =>
    intro w
    refine ⟨rfl, rfl, fun i => ?_⟩
    rw [if_neg (fun h => absurd h.1 List.not_mem_nil), Option.or_none]
    rfl
  | cons ino order ih =>
    intro w
    rw [load]
    by_cases hlt : ino < w.sbi.nrInodes
    · cases hc : w.icache ino with
      | some node =>
        have hget : ouichefsIget w who true ino = .ok w := by
          unfold ouichefsIget
          simp only [hc]
          rw [if_neg (Nat.not_le.mpr hlt), if_neg (by simp [memory])]
        rw [hget]
        obtain ⟨hsbi, hdisk, hcache⟩ := ih w
        refine ⟨hsbi, hdisk, fun i => ?_⟩
        rw [hcache]
        by_cases hi : i = ino
        · rw [hi, hc, Option.some_or, Option.some_or]
        · simp [hi]
      | none =>
        rw [ouichefsIget_uncached hlt memory hc]
        obtain ⟨hsbi, hdisk, hcache⟩ := ih (w.cache ino (stored w.disk ino))
        refine ⟨hsbi, hdisk, fun i => ?_⟩
        refine (hcache i).trans ?_
        change ((if i = ino then some _ else w.icache i) : Option Inode).or
          (if i ∈ order ∧ i < w.sbi.nrInodes then some (stored w.disk i) else none) = _
        by_cases hi : i = ino
        · rw [if_pos hi, hi, hc, Option.some_or, Option.none_or, if_pos ⟨List.mem_cons_self, hlt⟩]
        · rw [if_neg hi]
          simp [hi]
    · have hget : ouichefsIget w who true ino = .error (-errInval) := if_pos (Nat.not_lt.mp hlt)
      rw [hget]
      obtain ⟨hsbi, hdisk, hcache⟩ := ih w
      refine ⟨hsbi, hdisk, fun i => ?_⟩
      rw [hcache]
      by_cases hi : i = ino
      · rw [hi, if_neg fun h => hlt h.2, if_neg fun h => hlt h.2]
      · simp [hi]

/-- The volume that is left when everything has been written back. -/
def unmount (written : List Nat) (readable : Nat → Bool) (w : World) : Store :=
  (synced (writeBack written w) readable).disk

/-- The next mount, with the inodes fetched that are in use. -/
def remount (who : Caller) (readable : Nat → Bool) (memory : Fin 4 → Bool)
    (written loaded : List Nat) (w : World) : Except Int World :=
  (ouichefsFillSuper (unmount written readable w) who readable memory).map (load who loaded)

/-- What has to hold for a volume to come back when these inodes are written: their
values fit in a record, and the others are on the disk already. -/
structure Storable (w : World) (written : List Nat) : Prop where
  areas : Areas w.sbi
  magic : csb w.disk 0 = ouichefsMagic
  fit : ∀ i ∈ written, ∀ n, live w i = some n → NodeFits n
  recorded : ∀ i, i ∉ written → ∀ n, live w i = some n → Recorded w i n
  nrFreeInodes : w.sbi.nrFreeInodes < 4294967296

theorem csb_zero_synced {w : World} (areas : Areas w.sbi) (readable : Nat → Bool) :
    csb (synced w readable).disk 0 = csb w.disk 0 := by
  have hcounted := areas.counted.blocks
  have hput : ∀ disk : Store, csb (disk.set 0 (putCounters w.sbi (disk 0))) 0 = csb disk 0 :=
    fun disk => (csb_putCounters (set_self _ _ _)).1
  have hcongr : ∀ d d' : Store, d' 0 = d 0 → csb d' 0 = csb d 0 := by
    intro d d' h
    unfold csb
    rw [h]
  have hsb : csb (syncSbInfo w.sbi readable w.disk).1 0 = csb w.disk 0 := by
    unfold syncSbInfo
    by_cases hread : readable 0 = false
    · rw [if_pos hread]
    · rw [if_neg hread]
      exact hput w.disk
  have hifree : ∀ disk, csb (syncIfree w.sbi readable disk).1 0 = csb disk 0 := fun disk =>
    hcongr _ _ (syncLoop_frame _ 0 disk 0 (by omega) (by omega))
  have hbfree : ∀ disk, csb (syncBfree w.sbi readable disk).1 0 = csb disk 0 := fun disk =>
    hcongr _ _ (syncLoop_frame _ 0 disk 0 (by omega) (by omega))
  change csb (ouichefsSyncFs w.sbi readable w.disk).1 0 = _
  unfold ouichefsSyncFs
  simp only
  split
  · exact hsb
  split
  · rw [hifree, hsb]
  split
  · rw [hbfree, hifree, hsb]
  · rw [hbfree, hifree, hsb]

theorem writeInode_magic (w : World) (ok : Bool) (ino : Nat) (node : Inode) :
    csb (ouichefsWriteInode w ok ino node).1.disk 0 = csb w.disk 0 := by
  unfold ouichefsWriteInode
  by_cases hge : ino ≥ w.sbi.nrInodes
  · rw [if_pos hge]
  rw [if_neg hge]
  by_cases hok : ok = false
  · rw [if_pos hok]
  · rw [if_neg hok]
    rfl

theorem mounted_magic {image : Store} {memory : Fin 4 → Bool}
    (mount : ouichefsFillSuper image who readable memory = .ok w) :
    csb w.disk 0 = ouichefsMagic := by
  have hdisk := (ouichefsFillSuper_ok mount).2.1
  unfold ouichefsFillSuper at mount
  obtain ⟨_, mount⟩ := guard_ok mount
  obtain ⟨hmagic, _⟩ := guard_ok mount
  rw [hdisk]
  exact not_not.mp hmagic

theorem formatted_areas {ok : Nat → Bool} {stSize : Nat} {disk image : Store}
    (formatted : mkfs ok stSize disk = some image)
    (mount : ouichefsFillSuper image who readable memory = .ok w)
    (small : stSize / 4096 ≤ 524288) : Areas w.sbi := by
  obtain ⟨fits, hzero, _⟩ := mkfs_emitted formatted
  have m := mounted formatted mount
  have c := superblockOf_counts fits
  have h := formatted_inv formatted mount small
  have hbounds := idivCeil_bounds (superblockOf stSize).nrInodes (b := 51) (by omega)
  have hroom : 1 < w.sbi.nrInodes := by
    rw [m.nrInodes, ← (csb_formatted fits hzero).2.1]
    exact (ouichefsFillSuper_ok mount).2.2.1
  refine ⟨?_, ?_, ?_, ?_, h.small, hroom⟩
  · rw [m.nrInodes, m.nrIstoreBlocks, Nat.mul_comm]
    exact hbounds.1
  · rw [m.nrInodes, m.nrIfreeBlocks]
    exact c.inodes.2
  · rw [m.nrBlocks, m.nrBfreeBlocks]
    exact c.bfree.1
  · -- the block of the root is behind the areas
    obtain ⟨root, hcache, _, _⟩ := m.root
    have hlive : live w 1 = some root := by
      refine live_eq_some.mpr ⟨⟨by decide, hroom, ?_⟩, by rw [hcache]; rfl⟩
      rw [m.ifreeBitmap 1 (m.nrInodes ▸ hroom)]
      rfl
    obtain ⟨hused, hle⟩ := h.used (index_mem_holds hlive)
    exact Nat.le_of_lt (Nat.lt_of_le_of_lt hle hused.lt)

/-- A bit that is stored is found again. -/
theorem bits_synced {a b : SbInfo} (same : SameState a b) (areas : Areas a) :
    (∀ i, i < a.nrInodes → b.ifreeBitmap i = a.ifreeBitmap i) ∧
      ∀ k, k < a.nrBlocks → b.bfreeBitmap k = a.bfreeBitmap k :=
  ⟨fun i hi => same.ifreeBitmap i (Nat.lt_of_lt_of_le hi areas.ifree),
    fun k hk => same.bfreeBitmap k (Nat.lt_of_lt_of_le hk areas.bfree)⟩

theorem Storable.fits {t : Tree Nat (List Byte)} {written : List Nat} (s : Storable w written)
    (h : VolumeInv w t) : Fits w.sbi := by
  have hrange : w.sbi.nrInodes ≤ 4294967296 := h.tree.range
  have hstore := s.areas.store
  have hbelow := s.areas.below
  have hsmall := h.world.small
  refine ⟨h.world.blocks.range, ?_, s.nrFreeInodes, ?_, hbelow⟩
  · unfold metaEnd at hbelow
    unfold inodesPerBlock at hstore
    omega
  · rw [h.world.blocks.counter]
    exact Nat.lt_of_le_of_lt (popcount_le _ _) h.world.blocks.range

/-- What is written back and mounted again is the same volume. -/
theorem remount_spec {t : Tree Nat (List Byte)} {written loaded : List Nat} (h : VolumeInv w t)
    (s : Storable w written) (reads : ∀ b, readable b = true) (mem : who.memory = true)
    (used : ∀ i, i ∈ loaded ↔ InUse w.sbi i) :
    ∃ m, ouichefsFillSuper (unmount written readable w) who readable (fun _ => true) = .ok m ∧
      remount who readable (fun _ => true) written loaded w = .ok (load who loaded m) ∧
      Resumed w (load who loaded m) ∧
      (∀ i, InUse w.sbi i → (load who loaded m).icache i =
        some ((m.icache i).getD (stored m.disk i))) ∧
      csb m.disk 0 = ouichefsMagic ∧ (load who loaded m).disk = m.disk ∧
      (load who loaded m).sbi = m.sbi ∧
      ∀ i n, live (load who loaded m) i = some n → Recorded (load who loaded m) i n := by
  obtain ⟨hfiled, hwritten, hkept⟩ := writeBack_spec written w s.areas s.fit
  obtain ⟨v, hv⟩ : ∃ v, v = writeBack written w := ⟨_, rfl⟩
  have hzero : v.disk 0 = w.disk 0 := hv ▸ writeBack_zero written w
  rw [← hv] at hfiled hwritten hkept
  have hfits := s.fits h
  have hsame : SameState w.sbi (sbInfoOf (unmount written readable w)) := by
    have := @sbInfoOf_synced v.sbi readable v.disk (hfiled.sbi ▸ hfits)
      (hfiled.sbi ▸ s.areas.counted) reads
    rw [hfiled.sbi] at this
    unfold unmount synced
    rw [← hv, hfiled.sbi]
    exact this
  obtain ⟨d, hd⟩ : ∃ d, d = unmount written readable w := ⟨_, rfl⟩
  have hsynced : d = (ouichefsSyncFs v.sbi readable v.disk).1 := by
    rw [hd, hv]
    rfl
  have hmagic : csb d 0 = ouichefsMagic := by
    have hz := csb_zero_synced (hfiled.sbi ▸ s.areas) readable
    unfold unmount at hd
    rw [hd, ← hv, hz]
    have hmagic := s.magic
    unfold csb at hmagic ⊢
    rw [hzero]
    exact hmagic
  rw [← hd] at hsame ⊢
  have hroot : 1 < csb d 2 := by
    have hnr : csb d 2 = w.sbi.nrInodes := hsame.nrInodes
    rw [hnr]
    exact s.areas.root
  obtain ⟨m, hm, _⟩ := ouichefsFillSuper_of_magic hmagic hroot reads who mem
  obtain ⟨hsbi, hdisk, _, uid, gid, hcache⟩ := ouichefsFillSuper_ok hm
  obtain ⟨lsbi, ldisk, lcache⟩ := load_spec mem loaded m
  -- the records of the live inodes are behind the superblock and in front of the bitmaps
  obtain ⟨_, _, hframe, _, _⟩ := ouichefsSyncFs_spec
    (hfiled.sbi ▸ s.areas.counted) reads
  have hback : ∀ i n, live w i = some n →
      Refreshed n (stored d i) ∧ (stored d i).iNlink = n.iNlink := by
    intro i n hl
    have hin := (live_eq_some.mp hl).1
    have hrange := store_block_range s.areas.store hin.2.1
    have hblock : d (i / inodesPerBlock + 1) = v.disk (i / inodesPerBlock + 1) := by
      rw [hsynced]
      exact hframe _ (by omega) (Or.inl (by rw [hfiled.sbi]; omega))
    have hrecord : stored d i = stored v.disk i := by
      unfold stored
      rw [hblock]
    rw [hrecord]
    by_cases hmem : i ∈ written
    · rw [hwritten i hmem n hl]
      exact ⟨⟨rfl, rfl, rfl, rfl⟩, rfl⟩
    · rw [hkept i hmem]
      exact s.recorded i hmem n hl
  have hlayout : SameLayout w.sbi (sbInfoOf d) := ⟨hsame.nrBlocks, hsame.nrInodes,
    hsame.nrIstoreBlocks, hsame.nrIfreeBlocks, hsame.nrBfreeBlocks⟩
  obtain ⟨hibits, hbbits⟩ := bits_synced hsame s.areas
  have hnode : ∀ i, InUse w.sbi i → (load who loaded m).icache i =
      some ((m.icache i).getD (stored m.disk i)) := by
    intro i hin
    rw [lcache]
    cases hc : m.icache i with
    | some n => rfl
    | none =>
      have hlt : i < m.sbi.nrInodes := by
        rw [hsbi, hlayout.nrInodes]
        exact hin.2.1
      rw [Option.none_or, if_pos ⟨(used i).mpr hin, hlt⟩]
      rfl
  -- what has been fetched is what the disk has; the root has got its owner besides
  have hfresh : ∀ i, Refreshed ((m.icache i).getD (stored m.disk i)) (stored d i) ∧
      ((m.icache i).getD (stored m.disk i)).iNlink = (stored d i).iNlink := by
    intro i
    by_cases hi : i = 1
    · have hc : m.icache i = some { stored d 1 with iUid := uid, iGid := gid } := by
        rw [hcache]
        exact if_pos hi
      rw [hc, Option.getD_some, hi]
      exact ⟨⟨rfl, rfl, rfl, rfl⟩, rfl⟩
    · have hc : m.icache i = none := by
        rw [hcache]
        exact if_neg hi
      rw [hc, Option.getD_none, hdisk]
      exact ⟨⟨rfl, rfl, rfl, rfl⟩, rfl⟩
  have hin : ∀ i, InUse (load who loaded m).sbi i → InUse w.sbi i := by
    rintro i ⟨hpos, hlt, hused⟩
    rw [lsbi, hsbi] at hlt hused
    rw [hlayout.nrInodes] at hlt
    exact ⟨hpos, hlt, (hibits i hlt) ▸ hused⟩
  refine ⟨m, hm, ?_, ⟨?_, ?_, ?_, ?_, ?_, ?_, ?_, ?_⟩, hnode, by rw [hdisk]; exact hmagic, ldisk,
    lsbi, ?_⟩
  · unfold remount
    rw [← hd, hm]
    rfl
  · rw [lsbi, hsbi]
    exact hlayout
  · rw [lsbi, hsbi]
    exact hibits
  · rw [lsbi, hsbi]
    exact hbbits
  · rw [lsbi, hsbi]
    exact hsame.nrFreeBlocks
  · rw [lsbi, hsbi]
    exact hsame.nrFreeInodes
  · intro b hb
    unfold metaEnd at hb
    rw [ldisk, hdisk, hsynced, hframe b (by omega) (Or.inr (by rw [hfiled.sbi]; omega))]
    exact hfiled.disk b hb
  · intro i n hl
    obtain ⟨hsame, hnlink⟩ := hback i n hl
    obtain ⟨hload, hload'⟩ := hfresh i
    exact ⟨_, hnode i (live_eq_some.mp hl).1,
      ⟨hload.mode.symm.trans hsame.mode, hload.index.symm.trans hsame.index,
        hload.iBlocks.symm.trans hsame.iBlocks, hload.iSize.symm.trans hsame.iSize⟩,
      hload'.trans hnlink⟩
  · intro i n hout hc
    exfalso
    have hout' : ¬ InUse w.sbi i := by
      intro hin
      refine hout ?_
      rw [lsbi, hsbi]
      exact ⟨hin.1, by rw [hlayout.nrInodes]; exact hin.2.1, (hibits i hin.2.1).trans hin.2.2⟩
    rw [lcache, if_neg fun hmem => hout' ((used i).mp hmem.1), Option.or_none, hcache] at hc
    by_cases hi : i = 1
    · -- the root is in use
      refine hout' (hi ▸ ⟨by decide, s.areas.root, ?_⟩)
      have htaken := h.tree.tree.ledger.reserved_taken 1 rfl
      rw [h.free (by decide) s.areas.root] at htaken
      simpa using htaken
    · exact absurd ((if_neg hi).symm.trans hc) (by simp)
  · intro i n hl
    obtain ⟨hused, hc⟩ := live_eq_some.mp hl
    obtain rfl := Option.some.inj (hc.symm.trans (hnode i (hin i hused)))
    have hdisk' : (load who loaded m).disk = d := ldisk.trans hdisk
    rw [Recorded, hdisk']
    exact ⟨(hfresh i).1, (hfresh i).2.symm⟩

end

end Remount
