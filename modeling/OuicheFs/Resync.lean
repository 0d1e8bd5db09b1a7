import OuicheFs.Remount
import OuicheFs.Lib.Updates

/-!
# Writing back again

A call of `ouichefs_sync_fs` is a list of updates of single blocks that ends at the
first block that cannot be read. A later call that gets to its end makes up for all
earlier ones, and right after a mount there is nothing to write back.
-/
namespace Resync

open CInt Bits ByteBuffer Allocator FileContext Layout Mkfs OuicheInode OuicheSuper OuicheSync
  Ownership VolumeRun Remount InodeStore Updates

/-- The blocks of a bitmap from the `i`-th on, as the loop writes them. -/
def loopWrites (m : Bitmap) (first : Nat) (i n : Nat) : List (Nat × (Buffer → Buffer)) :=
  (List.range' i n).map fun j =>
    (sector (first + j), fun b => blit b 0 blockSize (bitmapBlock m (byteOffset j)))

/-- All blocks that `ouichefs_sync_fs` writes, in order. -/
def syncWrites (sbi : SbInfo) : List (Nat × (Buffer → Buffer)) :=
  (0, putCounters sbi) ::
    (loopWrites sbi.ifreeBitmap (sbi.nrIstoreBlocks + 1) 0 sbi.nrIfreeBlocks ++
      loopWrites sbi.bfreeBitmap (sbi.nrIstoreBlocks + sbi.nrIfreeBlocks + 1) 0 sbi.nrBfreeBlocks)

section

variable {sbi : SbInfo} {readable : Nat → Bool} {m : Bitmap} {first : Nat}

@[simp] theorem loopWrites_length (m : Bitmap) (first i n : Nat) :
    (loopWrites m first i n).length = n := by
  unfold loopWrites
  simp

/-- The loop gets through `k` blocks, and through all if it does not fail. -/
theorem syncLoop_eq (n : Nat) : ∀ (i : Nat) (disk : Store), ∃ k ≤ n,
    (syncLoop m first readable n i disk).1 = apply ((loopWrites m first i n).take k) disk ∧
      ((syncLoop m first readable n i disk).2 = 0 → k = n) := by
  induction n with
  | zero => exact fun i disk => ⟨0, Nat.le_refl 0, rfl, fun _ => rfl⟩
  | succ n ih =>
    intro i disk
    rw [syncLoop]
    by_cases hread : readable (sector (first + i)) = false
    · rw [if_pos hread]
      exact ⟨0, Nat.zero_le _, rfl, fun h => by cases h⟩
    · rw [if_neg hread]
      obtain ⟨k, hk, heq, hall⟩ := ih (i + 1)
        (disk.set (sector (first + i))
          (blit (disk (sector (first + i))) 0 blockSize (bitmapBlock m (byteOffset i))))
      exact ⟨k + 1, Nat.succ_le_succ hk, heq, fun h => congrArg (· + 1) (hall h)⟩

/-- A call gets through `k` of the updates, and through all if it does not fail. -/
theorem ouichefsSyncFs_eq (disk : Store) : ∃ k,
    (ouichefsSyncFs sbi readable disk).1 = apply ((syncWrites sbi).take k) disk ∧
      ((ouichefsSyncFs sbi readable disk).2 = 0 → (syncWrites sbi).take k = syncWrites sbi) := by
  unfold ouichefsSyncFs
  by_cases hread : readable 0 = false
  · have hfirst : syncSbInfo sbi readable disk = (disk, -errIo) := if_pos hread
    rw [hfirst]
    exact ⟨0, rfl, fun h => by cases h⟩
  have hfirst : syncSbInfo sbi readable disk = (apply [(0, putCounters sbi)] disk, 0) :=
    if_neg hread
  rw [hfirst]
  obtain ⟨k, hk, hi, hialls⟩ := syncLoop_eq
    sbi.nrIfreeBlocks 0 (apply [(0, putCounters sbi)] disk)
  change (syncIfree sbi readable _).1 = _ at hi
  change (syncIfree sbi readable _).2 = 0 → _ at hialls
  simp only [ne_eq, not_true_eq_false, if_false]
  by_cases hret : (syncIfree sbi readable (apply [(0, putCounters sbi)] disk)).2 = 0
  · obtain rfl := hialls hret
    rw [List.take_of_length_le (by simp)] at hi
    rw [if_neg (not_not.mpr hret), hi, ← apply_append]
    obtain ⟨k, hk, hb, hball⟩ := syncLoop_eq sbi.nrBfreeBlocks 0
      (apply ((0, putCounters sbi) ::
        loopWrites sbi.ifreeBitmap (sbi.nrIstoreBlocks + 1) 0 sbi.nrIfreeBlocks) disk)
    change (syncBfree sbi readable _).1 = _ at hb
    change (syncBfree sbi readable _).2 = 0 → _ at hball
    refine ⟨sbi.nrIfreeBlocks + k + 1, ?_, ?_⟩
    · have hfst : ∀ r : Store × Int, (if ¬r.2 = 0 then r else (r.1, 0)).1 = r.1 := by
        intro r
        by_cases hr : r.2 = 0
        · rw [if_neg (not_not.mpr hr)]
        · rw [if_pos hr]
      rw [syncWrites, List.take_succ_cons, List.take_append, loopWrites_length,
        Nat.add_sub_cancel_left, List.take_of_length_le (by simp)]
      refine (hfst _).trans (hb.trans ?_)
      rw [← apply_append]
      rfl
    · intro hzero
      by_cases hr : (syncBfree sbi readable (apply ((0, putCounters sbi) ::
          loopWrites sbi.ifreeBitmap (sbi.nrIstoreBlocks + 1) 0 sbi.nrIfreeBlocks) disk)).2 = 0
      · obtain rfl := hball hr
        refine List.take_of_length_le ?_
        simp [syncWrites]
      · exact absurd ((congrArg Prod.snd (if_pos hr)).symm.trans hzero) hr
  · rw [if_pos hret, hi, ← apply_append]
    refine ⟨k + 1, ?_, fun h => absurd h hret⟩
    rw [syncWrites, List.take_succ_cons, List.take_append_of_le_length (by simpa using hk)]
    rfl

theorem ouichefsSyncFs_all (reads : ∀ b, readable b = true) (disk : Store) :
    (ouichefsSyncFs sbi readable disk).1 = apply (syncWrites sbi) disk := by
  obtain ⟨k, heq, hall⟩ := ouichefsSyncFs_eq disk
  rw [heq, hall (congrArg Prod.snd (ouichefsSyncFs_eq_bfree reads))]

/-! ## Once is enough -/

theorem putCounters_congr {a b : Buffer} {i : Nat} (h : i < 4 ∨ 32 ≤ i → a i = b i) :
    putCounters sbi a i = putCounters sbi b i := by
  unfold putCounters putLe32
  refine blit_congr fun h₇ => blit_congr fun h₆ => blit_congr fun h₅ => blit_congr fun h₄ =>
    blit_congr fun h₃ => blit_congr fun h₂ => blit_congr fun h₁ => h ?_
  omega

theorem putCounters_outside (b : Buffer) {i : Nat} (h : i < 4 ∨ 32 ≤ i) :
    putCounters sbi b i = b i := by
  unfold putCounters
  simp (disch := omega) only [putLe32_outside]

theorem mem_loopWrites {i n : Nat} {q : Nat × (Buffer → Buffer)} (h : q ∈ loopWrites m first i n) :
    ∃ j, i ≤ j ∧ j < i + n ∧
      q = (sector (first + j), fun b => blit b 0 blockSize (bitmapBlock m (byteOffset j))) := by
  obtain ⟨j, hj, rfl⟩ := List.mem_map.mp h
  obtain ⟨hle, hlt⟩ := List.mem_range'_1.mp hj
  exact ⟨j, hle, hlt, rfl⟩

/-- An update leaves a byte alone or overwrites it. -/
theorem syncWrites_byte {p : Nat × (Buffer → Buffer)} (mem : p ∈ syncWrites sbi) {b b' : Buffer}
    {i : Nat} (h : b i = b' i) : p.2 b i = p.2 b' i := by
  have hloop : ∀ {m : Bitmap} {first n : Nat}, p ∈ loopWrites m first 0 n → p.2 b i = p.2 b' i := by
    intro m first n hmem
    obtain ⟨j, _, _, rfl⟩ := mem_loopWrites hmem
    exact blit_congr fun _ => h
  rw [syncWrites, List.mem_cons, List.mem_append] at mem
  rcases mem with rfl | hmem | hmem
  · exact putCounters_congr fun _ => h
  · exact hloop hmem
  · exact hloop hmem

/-- An update `f` overwrites what another one has done to the bytes from `lo` to `hi` of
the same block, whatever comes after it. -/
theorem syncWrites_overwrites {x lo hi : Nat} {f g : Buffer → Buffer}
    (mem : (x, f) ∈ syncWrites sbi) (inside : ∀ b b' i, lo ≤ i → i < hi → f b i = f b' i)
    (outside : ∀ b i, ¬ (lo ≤ i ∧ i < hi) → g b i = b i) (b : Buffer) :
    seen (syncWrites sbi) x (g b) = seen (syncWrites sbi) x b := by
  refine seen_congr (fun b b' => ∀ i, ¬ (lo ≤ i ∧ i < hi) → b i = b' i) mem ?_ ?_ (outside b)
  · intro b b' h
    funext i
    by_cases hi : lo ≤ i ∧ i < hi
    · exact inside b b' i hi.1 hi.2
    · exact syncWrites_byte mem (h i hi)
  · exact fun p hp b b' h i hi => syncWrites_byte hp (h i hi)

/-- What a volume with the same areas had to write back is overwritten, however far
it got. -/
theorem syncWrites_absorbs {sbi' : SbInfo} (layout : SameLayout sbi sbi') (k : Nat) :
    Absorbs (syncWrites sbi) ((syncWrites sbi').take k) := by
  intro q hq
  have hmem := List.mem_of_mem_take hq
  have hloop : ∀ (m : Bitmap) (first n j : Nat), j < n →
      (∀ p ∈ loopWrites m first 0 n, p ∈ syncWrites sbi) →
      ∀ (m' : Bitmap) (b : Buffer), seen (syncWrites sbi) (sector (first + j))
        (blit b 0 blockSize (bitmapBlock m' (byteOffset j))) =
          seen (syncWrites sbi) (sector (first + j)) b := by
    intro m first n j hj hsub m' b
    refine @syncWrites_overwrites sbi _ 0 blockSize
      (fun b => blit b 0 blockSize (bitmapBlock m (byteOffset j)))
      (fun b => blit b 0 blockSize (bitmapBlock m' (byteOffset j)))
      (hsub _ (List.mem_map.mpr ⟨j, List.mem_range'_1.mpr ⟨Nat.zero_le _, by omega⟩, rfl⟩)) ?_ ?_ b
    · intro b b' i _ hi
      rw [blit_inside _ _ (Nat.zero_le _) (by omega), blit_inside _ _ (Nat.zero_le _) (by omega)]
    · exact fun b i hi => blit_outside _ _ (by omega)
  rw [syncWrites, List.mem_cons, List.mem_append] at hmem
  rcases hmem with rfl | hmem | hmem
  · refine @syncWrites_overwrites sbi 0 4 32 (putCounters sbi) (putCounters sbi')
      List.mem_cons_self ?_ ?_
    · exact fun b b' i _ _ => putCounters_congr fun _ => by omega
    · exact fun b i hi => putCounters_outside b (by omega)
  · obtain ⟨j, _, hj, rfl⟩ := mem_loopWrites hmem
    rw [layout.nrIfreeBlocks] at hj
    rw [layout.nrIstoreBlocks]
    exact hloop sbi.ifreeBitmap _ sbi.nrIfreeBlocks j (by omega)
      (fun p hp => List.mem_cons_of_mem _ (List.mem_append_left _ hp)) _
  · obtain ⟨j, _, hj, rfl⟩ := mem_loopWrites hmem
    rw [layout.nrBfreeBlocks] at hj
    rw [layout.nrIstoreBlocks, layout.nrIfreeBlocks]
    exact hloop sbi.bfreeBitmap _ sbi.nrBfreeBlocks j (by omega)
      (fun p hp => List.mem_cons_of_mem _ (List.mem_append_right _ hp)) _

end

/-- Whatever earlier calls have written back, with other counters and bitmaps, and
wherever a read stopped them: after a call that does not fail the volume is what it
would be if it had been the only one. -/
theorem sync_retried (sbi : SbInfo) (attempts : List (SbInfo × (Nat → Bool)))
    (readable : Nat → Bool) (disk : Store) (layouts : ∀ a ∈ attempts, SameLayout sbi a.1)
    (ok : (ouichefsSyncFs sbi readable
      (attempts.foldl (fun d a => (ouichefsSyncFs a.1 a.2 d).1) disk)).2 = 0) :
    (ouichefsSyncFs sbi readable
      (attempts.foldl (fun d a => (ouichefsSyncFs a.1 a.2 d).1) disk)).1 =
      (ouichefsSyncFs sbi (fun _ => true) disk).1 := by
  have hattempts : ∀ d, apply (syncWrites sbi)
      (attempts.foldl (fun d a => (ouichefsSyncFs a.1 a.2 d).1) d) = apply (syncWrites sbi) d := by
    clear ok
    induction attempts with
    | nil => exact fun _ => rfl
    | cons a attempts ih =>
      intro d
      obtain ⟨ha, hrest⟩ := List.forall_mem_cons.mp layouts
      obtain ⟨k, heq, _⟩ := @ouichefsSyncFs_eq a.1 a.2 d
      rw [List.foldl_cons, ih hrest, heq, (syncWrites_absorbs ha k).apply_eq]
  obtain ⟨k, heq, hall⟩ := @ouichefsSyncFs_eq sbi readable
    (attempts.foldl (fun d a => (ouichefsSyncFs a.1 a.2 d).1) disk)
  rw [heq, hall ok, hattempts, ouichefsSyncFs_all fun _ => rfl]

/-- A call that cannot read the bitmaps, and one that can. -/
theorem sync_retried_once :
    let old : SbInfo := ⟨100, 100, 2, 1, 1, 99, 95, fun _ => true, fun _ => true⟩
    let new : SbInfo := { old with nrFreeInodes := 98, ifreeBitmap := fun k => decide (2 < k) }
    let disk : Store := fun _ _ => 0
    (ouichefsSyncFs new (fun _ => true) (ouichefsSyncFs old (fun b => decide (b < 3)) disk).1).1 =
      (ouichefsSyncFs new (fun _ => true) disk).1 := by
  intro old new disk
  refine sync_retried new [(old, fun b => decide (b < 3))] (fun _ => true) disk ?_
    (congrArg Prod.snd (ouichefsSyncFs_eq_bfree fun _ => rfl))
  intro a ha
  rw [List.mem_singleton] at ha
  subst ha
  exact ⟨rfl, rfl, rfl, rfl, rfl⟩

/-! ## Nothing to write back -/

section

variable {disk : Store} {w : World} {who : Caller}

/-- A block of a bitmap in memory is the block it was copied from. -/
theorem bitmapBlock_copy {first n j : Nat} (few : n ≤ 524288) (low : first + n ≤ 2147483648)
    (h : j < n) : blit (disk (sector (first + j))) 0 blockSize
      (bitmapBlock (copyBitmap disk first n) (byteOffset j)) = disk (sector (first + j)) := by
  rw [sector_eq (by omega), byteOffset_eq (by omega)]
  funext i
  by_cases hi : i < blockSize
  · rw [blit_inside _ _ (Nat.zero_le _) (by omega), Nat.sub_zero]
    apply BitVec.eq_of_getLsbD_eq
    intro t ht
    have hblock : (8 * (blockSize * j + i) + t) / (8 * blockSize) = j := by
      unfold blockSize at hi ⊢
      omega
    have hbit : (8 * (blockSize * j + i) + t) % (8 * blockSize) = 8 * i + t := by
      unfold blockSize at hi ⊢
      omega
    refine (byteOf_bit _ ht).trans ?_
    rw [copyBitmap_apply few low, hblock, hbit, if_pos h]
    unfold bit
    rw [show (8 * i + t) / 8 = i by omega, show (8 * i + t) % 8 = t by omega]
  · exact blit_outside _ _ (Or.inr (by omega))

theorem putCounters_copy (disk : Store) : putCounters (sbInfoOf disk) (disk 0) = disk 0 := by
  have hword : ∀ i, BitVec.ofNat 32 (csb disk i) = le32 (disk 0) (4 * i) := fun i =>
    BitVec.ofNat_toNat _ _
  unfold putCounters sbInfoOf
  simp only [hword, putLe32_le32]

/-- Until something changes, `ouichefs_sync_fs` writes what is there. -/
theorem synced_mounted (sbi : w.sbi = sbInfoOf w.disk) (counted : Counted w.sbi)
    (readable : Nat → Bool) : (synced w readable).disk = w.disk := by
  have hi := counted.ifree
  have hb := counted.bfree
  have hblocks := counted.blocks
  obtain ⟨k, heq, _⟩ := ouichefsSyncFs_eq w.disk
  refine heq.trans (apply_fixed fun p hp => ?_)
  have hmem := List.mem_of_mem_take hp
  rw [sbi] at hi hb hblocks
  have hlow : 1 + csb w.disk 3 + csb w.disk 4 + csb w.disk 5 ≤ 2147483648 := hblocks
  rw [sbi, syncWrites, List.mem_cons, List.mem_append] at hmem
  rcases hmem with rfl | hmem | hmem
  · exact putCounters_copy w.disk
  · obtain ⟨j, _, hj, rfl⟩ := mem_loopWrites hmem
    exact @bitmapBlock_copy w.disk (csb w.disk 3 + 1) (csb w.disk 4) j hi (by omega)
      (hj.trans_eq (Nat.zero_add _))
  · obtain ⟨j, _, hj, rfl⟩ := mem_loopWrites hmem
    exact @bitmapBlock_copy w.disk (csb w.disk 3 + csb w.disk 4 + 1) (csb w.disk 5) j hb (by omega)
      (hj.trans_eq (Nat.zero_add _))

theorem diskInode_inodeAt {b : Buffer} {off : Nat} (mode : (le32 b off).toNat < 65536) :
    diskInode b off (inodeAt b off) = b := by
  have hword : ∀ o, BitVec.ofNat 32 (le32 b o).toNat = le32 b o := fun o => BitVec.ofNat_toNat _ _
  have hsec : ∀ o, BitVec.ofInt 32 ((le32 b o).toNat : Int) = le32 b o := fun o => by
    rw [BitVec.ofInt_natCast, hword]
  have hnsec : ∀ o, BitVec.ofInt 64 (le64 b o).toInt = le64 b o := fun o => BitVec.ofInt_toInt
  unfold diskInode inodeAt
  simp only [Nat.mod_eq_of_lt mode, hword, hsec, hnsec, putLe32_le32, putLe64_le64]

/-- What a session may do that only looks at the volume: inodes are fetched, any but the
root are written back, and the superblock information is. Any read may fail. -/
inductive IdleStep : World → World → Prop
  | iget (w w' : World) (who : Caller) (ok : Bool) (ino : Nat) :
      ouichefsIget w who ok ino = .ok w' → IdleStep w w'
  | writeInode (w : World) (ok : Bool) (ino : Nat) (node : Inode) :
      w.icache ino = some node → ino ≠ 1 → IdleStep w (ouichefsWriteInode w ok ino node).1
  | syncFs (w : World) (readable : Nat → Bool) : IdleStep w (synced w readable)

/-- Nothing but the inode cache has changed, and it holds what is stored. -/
structure Idle (image : Store) (w : World) : Prop where
  disk : w.disk = image
  sbi : w.sbi = sbInfoOf image
  cached : ∀ i n, i ≠ 1 → w.icache i = some n → n = stored image i

theorem Idle.iget {image : Store} {w' : World} {ok : Bool} {ino : Nat} (h : Idle image w)
    (run : ouichefsIget w who ok ino = .ok w') : Idle image w' := by
  unfold ouichefsIget at run
  obtain ⟨_, run⟩ := guard_ok run
  obtain ⟨_, run⟩ := guard_ok run
  split at run
  · cases run
    exact h
  · obtain ⟨_, run⟩ := guard_ok run
    cases run
    refine ⟨h.disk, h.sbi, fun i n hne hc => ?_⟩
    change (if i = ino then some _ else w.icache i) = some n at hc
    by_cases hi : i = ino
    · rw [if_pos hi] at hc
      rw [← Option.some.inj hc, hi, ← h.disk]
      rfl
    · rw [if_neg hi] at hc
      exact h.cached i n hne hc

theorem Idle.writeInode {image : Store} {ok : Bool} {ino : Nat} {node : Inode} (h : Idle image w)
    (cached : w.icache ino = some node) (ne : ino ≠ 1)
    (mode : ino < csb image 2 →
      (le32 (image (ino / inodesPerBlock + 1)) (80 * (ino % inodesPerBlock))).toNat < 65536) :
    (ouichefsWriteInode w ok ino node).1 = w := by
  obtain rfl := h.cached ino node ne cached
  unfold ouichefsWriteInode
  by_cases hge : ino ≥ w.sbi.nrInodes
  · rw [if_pos hge]
  rw [if_neg hge]
  by_cases hok : ok = false
  · rw [if_pos hok]
  · rw [if_neg hok]
    have hmode := mode (by rw [h.sbi] at hge; exact Nat.not_le.mp hge)
    unfold stored World.setBlock
    rw [← h.disk] at hmode ⊢
    simp only [diskInode_inodeAt hmode, set_same]

end

/-- A session that only looks at a volume leaves every byte of it as it was, whatever
fails. -/
theorem idle_session (image : Store) (who : Caller) (readable : Nat → Bool) (memory : Fin 4 → Bool)
    (w w' : World) (mount : ouichefsFillSuper image who readable memory = .ok w)
    (counted : Counted (sbInfoOf image))
    (modes : ∀ i, i < csb image 2 →
      (le32 (image (i / inodesPerBlock + 1)) (80 * (i % inodesPerBlock))).toNat < 65536)
    (run : Relation.ReflTransGen IdleStep w w') : w'.disk = image := by
  obtain ⟨hsbi, hdisk, _, uid, gid, hcache⟩ := ouichefsFillSuper_ok mount
  suffices hidle : Idle image w' from hidle.disk
  induction run with
  | refl =>
    refine ⟨hdisk, hsbi, fun i n hne hc => ?_⟩
    rw [hcache] at hc
    exact absurd ((if_neg hne).symm.trans hc) (by simp)
  | tail _ step ih =>
    cases step with
    | iget _ who ok ino run => exact ih.iget run
    | writeInode ok ino node cached ne => rwa [ih.writeInode cached ne (modes ino)]
    | syncFs readable =>
      have hsame := synced_mounted (ih.sbi.trans (congrArg sbInfoOf ih.disk.symm))
        (ih.sbi ▸ counted) readable
      exact ⟨hsame.trans ih.disk, ih.sbi, ih.cached⟩

/-- Inode 2 is fetched and written back, and two blocks cannot be read. -/
theorem idle_session_formatted : ∃ image w w₁,
    mkfs (fun _ => true) 409600 (fun _ => zeroBlock) = some image ∧
    ouichefsFillSuper image ⟨0, 0, true⟩ (fun _ => true) (fun _ => true) = .ok w ∧
    ouichefsIget w ⟨0, 0, true⟩ true 2 = .ok w₁ ∧ w₁.icache 2 ≠ none ∧
    ∀ node, w₁.icache 2 = some node →
      (synced (ouichefsWriteInode (synced w₁ fun b => decide (b < 4)) true 2 node).1
        fun b => decide (b < 5)).disk = image := by
  have hsample : sampleRun.map (fun p => decide (p.1.sbi.nrInodes = 149) &&
      (List.range 149).all fun i => decide
        ((le32 (p.1.disk (i / inodesPerBlock + 1)) (80 * (i % inodesPerBlock))).toNat < 65536)) =
      some true := by
    decide +kernel
  obtain ⟨p, hp, hall⟩ := Option.map_eq_some_iff.mp hsample
  rw [Bool.and_eq_true, decide_eq_true_iff, List.all_eq_true] at hall
  obtain ⟨hnr, hmodes⟩ := hall
  obtain ⟨image, _, himage, hw, _⟩ := newFileOver_run hp
  obtain ⟨hsbi, hdisk, _, _, _, hcache⟩ := ouichefsFillSuper_ok hw
  have hareas := formatted_areas himage hw (by decide)
  have hnone : p.1.icache 2 = none := by
    rw [hcache]
    rfl
  have hget := @ouichefsIget_uncached p.1 ⟨0, 0, true⟩ 2 (by rw [hnr]; decide) rfl hnone
  refine ⟨image, p.1, _, himage, hw, hget, by simp [World.cache], fun node hnode => ?_⟩
  refine idle_session image _ _ _ p.1 _ hw (hsbi ▸ hareas.counted) (fun i hi => ?_)
    (.tail (.tail (.tail (.single (.iget p.1 _ _ true 2 hget)) (.syncFs _ _))
      (.writeInode _ true 2 node hnode (by decide))) (.syncFs _ _))
  rw [← hdisk]
  exact of_decide_eq_true (hmodes i (List.mem_range.mpr (by
    rw [hsbi] at hnr
    exact hnr ▸ hi)))

end Resync
