import OuicheFs.File
import OuicheFs.Layout

/-!
# The end of a page-cache write

`ouichefs_write_end` recomputes the block count from the size. A file of the
insert mode has more blocks than its size calls for, so the count can go down,
and the entries behind it are dropped. Every other path that frees a block takes
the number out of the entry first; here `put_block` gets the entry itself.
-/
namespace WriteEnd

open CInt Bits ByteBuffer IndexEntry Allocator FileContext OuicheFile Layout

/-! ## The loop -/

/-- The entries from slot `i` on, `n` of them. -/
def entriesFrom (s : Ctx) (i n : Nat) : List Word := (List.range' i n).map s.blocks

/-- The numbers among the words that `put_block` accepts. -/
def accepted (nrBlocks : Nat) (words : List Word) : List Nat :=
  (words.map BitVec.toNat).filter (· ≤ nrBlocks)

theorem dropLoop_released (n : Nat) : ∀ (i : Nat) (s : Ctx),
    Released s.sbi (dropLoop n i s).sbi (accepted s.sbi.nrBlocks (entriesFrom s i n)) := by
  induction n with
  | zero => exact fun i s => Released.nil s.sbi
  | succ n ih =>
    intro i s
    obtain ⟨t, ht⟩ : ∃ t, t = ({ s with sbi := putBlock s.sbi (s.blocks i).toNat } : Ctx).setBlocks i 0 :=
      ⟨_, rfl⟩
    have hsbi : t.sbi = putBlock s.sbi (s.blocks i).toNat := by rw [ht]; rfl
    have hrest : entriesFrom t (i + 1) n = entriesFrom s (i + 1) n := by
      apply List.map_congr_left
      intro j hj
      rw [List.mem_range'_1] at hj
      rw [ht, blocks_setBlocks_of_ne _ _ (by omega)]
      rfl
    have hall : entriesFrom s i (n + 1) = s.blocks i :: entriesFrom s (i + 1) n := by
      rw [entriesFrom, List.range'_succ]
      rfl
    have hnext := ih (i + 1) t
    rw [hrest, hsbi] at hnext
    rw [dropLoop, ← ht, hall, accepted, List.map_cons]
    rcases Nat.lt_or_ge s.sbi.nrBlocks (s.blocks i).toNat with hgt | hle
    · rw [putBlock_refused hgt] at hnext
      rw [List.filter_cons_of_neg (by simpa using hgt)]
      exact hnext
    · have hgiven := putBlock_given hle
      rw [hgiven.layout.nrBlocks] at hnext
      rw [List.filter_cons_of_pos (by simpa using hle)]
      exact Released.cons hgiven hnext

theorem dropLoop_blocks (n : Nat) : ∀ (i j : Nat) (s : Ctx),
    (dropLoop n i s).blocks j = if i ≤ j ∧ j < i + n then 0 else s.blocks j := by
  induction n with
  | zero =>
    intro i j s
    rw [if_neg (by omega)]
    rfl
  | succ n ih =>
    intro i j s
    rw [dropLoop, ih]
    by_cases hj : j = i
    · subst hj
      rw [if_neg (by omega), if_pos (by omega), blocks_setBlocks_self]
    · rw [blocks_setBlocks_of_ne _ _ hj]
      by_cases hin : i + 1 ≤ j ∧ j < i + 1 + n
      · rw [if_pos hin, if_pos (by omega)]
      · rw [if_neg hin, if_neg (by omega)]
        rfl

/-! ## The call -/

/-- The index of a file on a volume in order: an entry is zero, or it names a block
in use that no other entry names. -/
structure IndexOk (s : Ctx) : Prop where
  blocks : BlocksOk s.sbi
  used : ∀ i, i < s.node.iBlocks - 1 → s.blocks i ≠ 0 → Used s.sbi (getBlockNumber (s.blocks i))
  distinct : ∀ i j, i < s.node.iBlocks - 1 → j < s.node.iBlocks - 1 → s.blocks i ≠ 0 →
    s.blocks j ≠ 0 → getBlockNumber (s.blocks i) = getBlockNumber (s.blocks j) → i = j

/-- The write is complete, the file has fewer blocks than before, and the index
can be read. -/
structure Lowers (genericWriteEnd : Inode → Nat → Nat → Nat → Nat × Int) (s : Ctx)
    (pos len copied : Nat) : Prop where
  complete : len ≤ u32 (genericWriteEnd s.node pos len copied).2
  fewer : blocksOfSize (genericWriteEnd s.node pos len copied).1 < s.node.iBlocks
  range : s.node.iBlocks < 4294967296
  read : s.io.bread 0 = true

/-- What becomes of the entries from slot `lo` up to slot `hi`. -/
structure FreesDropped (s t : Ctx) (lo hi : Nat) : Prop where
  zeroed : ∀ i, lo ≤ i → i < hi → t.blocks i = 0
  freed : ∀ i, lo ≤ i → i < hi → s.blocks i ≠ 0 →
    t.sbi.bfreeBitmap (getBlockNumber (s.blocks i)) = true
  count : t.sbi.nrFreeBlocks =
    s.sbi.nrFreeBlocks + (entriesFrom s lo (hi - lo)).countP (fun e => e ≠ 0)
  others : ∀ b, (∀ i, lo ≤ i → i < hi → s.blocks i ≠ 0 → getBlockNumber (s.blocks i) ≠ b) →
    t.sbi.bfreeBitmap b = s.sbi.bfreeBitmap b

/-- A nonzero entry that is a block number and nothing else. -/
structure Plain (e : Word) : Prop where
  nonzero : e ≠ 0
  number : e.toNat = getBlockNumber e

theorem blocksOfSize_pos (iSize : Nat) : 0 < blocksOfSize iSize := by
  unfold blocksOfSize
  split
  · exact Nat.succ_pos _
  · exact Nat.succ_pos _

section

variable {genericWriteEnd : Inode → Nat → Nat → Nat → Nat × Int} {s : Ctx} {pos len copied : Nat}

/-- What the call does to the entries it drops and to the bitmap. -/
structure Dropped (s t : Ctx) (lo hi : Nat) : Prop where
  zeroed : ∀ i, lo ≤ i → i < hi → t.blocks i = 0
  released : Released s.sbi t.sbi (accepted s.sbi.nrBlocks (entriesFrom s lo (hi - lo)))

theorem ouichefsWriteEnd_dropped (call : Lowers genericWriteEnd s pos len copied) :
    Dropped s (ouichefsWriteEnd genericWriteEnd s pos len copied).1
      (blocksOfSize (genericWriteEnd s.node pos len copied).1 - 1) (s.node.iBlocks - 1) := by
  have hold : u32 (s.node.iBlocks : Int) = s.node.iBlocks := u32_natCast call.range
  have hpos := blocksOfSize_pos (genericWriteEnd s.node pos len copied).1
  have hfewer := call.fewer
  obtain ⟨u, hrun, hsbi, hblocks⟩ : ∃ u : Ctx,
      (ouichefsWriteEnd genericWriteEnd s pos len copied).1 =
        dropLoop (s.node.iBlocks - blocksOfSize (genericWriteEnd s.node pos len copied).1)
          (blocksOfSize (genericWriteEnd s.node pos len copied).1 - 1) u ∧
      u.sbi = s.sbi ∧ u.blocks = s.blocks := by
    unfold ouichefsWriteEnd
    simp only
    rw [if_neg (Nat.not_lt.mpr call.complete), hold, if_pos call.fewer,
      if_neg (by simp [call.read])]
    exact ⟨_, rfl, rfl, rfl⟩
  generalize blocksOfSize (genericWriteEnd s.node pos len copied).1 = n at hpos hfewer hrun ⊢
  have hcount : s.node.iBlocks - n = s.node.iBlocks - 1 - (n - 1) := by omega
  rw [hrun, hcount]
  constructor
  · intro i hlo hhi
    rw [dropLoop_blocks, if_pos (by omega)]
  · have hreleased := dropLoop_released (s.node.iBlocks - 1 - (n - 1)) (n - 1) u
    rw [hsbi, entriesFrom, hblocks] at hreleased
    exact hreleased

end

section

variable {s t : Ctx} {lo hi : Nat}

theorem mem_entriesFrom {e : Word} {i n : Nat} :
    e ∈ entriesFrom s i n ↔ ∃ j, i ≤ j ∧ j < i + n ∧ s.blocks j = e := by
  simp [entriesFrom, List.mem_range'_1, and_assoc]

theorem mem_accepted {nrBlocks b : Nat} {words : List Word} :
    b ∈ accepted nrBlocks words ↔ b ≤ nrBlocks ∧ ∃ e ∈ words, e.toNat = b := by
  simp [accepted, and_comm]

/-- The dropped entries are plain if what they name has been freed and nothing
else. -/
theorem FreesDropped.plain (h : FreesDropped s t lo hi) (ok : IndexOk s) (d : Dropped s t lo hi)
    (bound : hi ≤ s.node.iBlocks - 1) {i : Nat} (ge : lo ≤ i) (lt : i < hi) :
    Plain (s.blocks i) := by
  have hbits := d.released.bitmap
  have hne : s.blocks i ≠ 0 := by
    intro hz
    -- the word 0 frees block 0, which no entry names
    have hzero : 0 ∈ accepted s.sbi.nrBlocks (entriesFrom s lo (hi - lo)) :=
      mem_accepted.mpr ⟨Nat.zero_le _, 0, mem_entriesFrom.mpr ⟨i, ge, by omega, hz⟩, rfl⟩
    have hsame := h.others 0 (fun j hlo hhi hj => Nat.ne_of_gt (ok.used j (by omega) hj).pos)
    rw [hbits, ok.blocks.zero_used, decide_eq_true hzero] at hsame
    cases hsame
  refine ⟨hne, ?_⟩
  have hused := ok.used i (by omega) hne
  have hfreed := h.freed i ge lt hne
  rw [hbits, hused.taken, Bool.false_or, decide_eq_true_iff] at hfreed
  obtain ⟨_, e, he, heq⟩ := mem_accepted.mp hfreed
  obtain ⟨j, hlo, hhi, rfl⟩ := mem_entriesFrom.mp he
  -- the entry whose word is the number names the same block, so it is this one
  have hnum : getBlockNumber (s.blocks j) = getBlockNumber (s.blocks i) := by
    have hsmall : getBlockNumber (s.blocks i) < 524288 := by
      rw [getBlockNumber_eq_mod]
      omega
    rw [getBlockNumber_eq_mod, heq]
    omega
  have hjne : s.blocks j ≠ 0 := by
    apply ne_zero_of_getBlockNumber_pos
    rw [hnum]
    exact hused.pos
  obtain rfl := ok.distinct j i (by omega) (by omega) hjne hne hnum
  exact heq

/-- Plain entries are the numbers of their blocks. -/
theorem accepted_plain (ok : IndexOk s) (bound : hi ≤ s.node.iBlocks - 1)
    (plain : ∀ i, lo ≤ i → i < hi → Plain (s.blocks i)) :
    accepted s.sbi.nrBlocks (entriesFrom s lo (hi - lo)) = numbers (entriesFrom s lo (hi - lo)) := by
  have hmap : (entriesFrom s lo (hi - lo)).map BitVec.toNat = numbers (entriesFrom s lo (hi - lo)) := by
    apply List.map_congr_left
    intro e he
    obtain ⟨j, hlo, hhi, rfl⟩ := mem_entriesFrom.mp he
    exact (plain j hlo (by omega)).number
  rw [accepted, hmap, List.filter_eq_self]
  intro b hb
  obtain ⟨e, he, rfl⟩ := List.mem_map.mp hb
  obtain ⟨j, hlo, hhi, rfl⟩ := mem_entriesFrom.mp he
  have hused := ok.used j (by omega) (plain j hlo (by omega)).nonzero
  exact decide_eq_true (Nat.le_of_lt hused.lt)

theorem numbers_nodup (ok : IndexOk s) (bound : hi ≤ s.node.iBlocks - 1)
    (plain : ∀ i, lo ≤ i → i < hi → Plain (s.blocks i)) :
    (numbers (entriesFrom s lo (hi - lo))).Nodup := by
  rw [numbers, entriesFrom, List.map_map]
  refine List.Nodup.map_on ?_ List.nodup_range'
  intro i hi' j hj heq
  rw [List.mem_range'_1] at hi' hj
  exact ok.distinct i j (by omega) (by omega) (plain i hi'.1 (by omega)).nonzero
    (plain j hj.1 (by omega)).nonzero heq

theorem Dropped.frees (d : Dropped s t lo hi) (ok : IndexOk s) (bound : hi ≤ s.node.iBlocks - 1)
    (plain : ∀ i, lo ≤ i → i < hi → Plain (s.blocks i)) : FreesDropped s t lo hi := by
  have hreleased := d.released
  rw [accepted_plain ok bound plain] at hreleased
  have hmem : ∀ b, b ∈ numbers (entriesFrom s lo (hi - lo)) ↔
      ∃ i, lo ≤ i ∧ i < hi ∧ getBlockNumber (s.blocks i) = b := by
    intro b
    constructor
    · intro hb
      obtain ⟨e, he, rfl⟩ := List.mem_map.mp hb
      obtain ⟨j, hlo, hhi, rfl⟩ := mem_entriesFrom.mp he
      exact ⟨j, hlo, by omega, rfl⟩
    · rintro ⟨i, hlo, hhi, rfl⟩
      exact List.mem_map.mpr ⟨_, mem_entriesFrom.mpr ⟨i, hlo, by omega, rfl⟩, rfl⟩
  refine ⟨d.zeroed, ?_, ?_, ?_⟩
  · intro i hlo hhi hne
    rw [hreleased.bitmap, decide_eq_true ((hmem _).mpr ⟨i, hlo, hhi, rfl⟩), Bool.or_true]
  · have hall : (entriesFrom s lo (hi - lo)).countP (fun e => e ≠ 0) =
        (numbers (entriesFrom s lo (hi - lo))).length := by
      rw [numbers, List.length_map, List.countP_eq_length]
      intro e he
      obtain ⟨j, hlo, hhi, rfl⟩ := mem_entriesFrom.mp he
      exact decide_eq_true (plain j hlo (by omega)).nonzero
    have hinsert := popcount_insert (numbers_nodup ok bound plain)
      (by
        intro b hb
        obtain ⟨i, hlo, hhi, rfl⟩ := (hmem b).mp hb
        have hused := ok.used i (by omega) (plain i hlo hhi).nonzero
        exact ⟨hused.lt, hused.taken⟩)
    have hle := popcount_le (fun i => s.sbi.bfreeBitmap i ||
      decide (i ∈ numbers (entriesFrom s lo (hi - lo)))) s.sbi.nrBlocks
    have hrange := ok.blocks.range
    have hcounter := ok.blocks.counter
    rw [hall]
    exact hreleased.count (by omega)
  · intro b hb
    have hnot : b ∉ numbers (entriesFrom s lo (hi - lo)) := by
      intro hin
      obtain ⟨i, hlo, hhi, heq⟩ := (hmem b).mp hin
      exact hb i hlo hhi (plain i hlo hhi).nonzero heq
    rw [hreleased.bitmap, decide_eq_false hnot, Bool.or_false]

end

/-- A page-cache write that leaves the file with fewer blocks frees the blocks of the
entries it drops, and nothing else, if and only if each of these entries is a plain
block number. -/
theorem write_end_frees_iff {genericWriteEnd : Inode → Nat → Nat → Nat → Nat × Int} {s : Ctx}
    {pos len copied : Nat} (ok : IndexOk s) (call : Lowers genericWriteEnd s pos len copied) :
    FreesDropped s (ouichefsWriteEnd genericWriteEnd s pos len copied).1
        (blocksOfSize (genericWriteEnd s.node pos len copied).1 - 1) (s.node.iBlocks - 1) ↔
      ∀ i, blocksOfSize (genericWriteEnd s.node pos len copied).1 - 1 ≤ i →
        i < s.node.iBlocks - 1 → Plain (s.blocks i) := by
  have hdropped := ouichefsWriteEnd_dropped call
  constructor
  · intro h i hlo hhi
    exact h.plain ok hdropped (Nat.le_refl _) hlo hhi
  · intro hplain
    exact hdropped.frees ok (Nat.le_refl _) hplain

/-- `generic_write_end` when all bytes have been copied: the size only grows. -/
def fullWriteEnd (node : Inode) (pos _len copied : Nat) : Nat × Int :=
  (max node.iSize (pos + copied), copied)

/-- A volume of 100 blocks, of which the last 70 are free. -/
def volumeSbi : SbInfo :=
  ⟨100, 149, 3, 1, 1, 139, 70, fun i => decide (10 ≤ i), fun b => decide (30 ≤ b)⟩

/-- An inode with 30 bytes and three data blocks. -/
def shortNode : Inode := ⟨0o100644, 0, 0, 30, ⟨0, 0⟩, ⟨0, 0⟩, ⟨0, 0⟩, 4, 1, 10⟩

/-- A file of 30 bytes in the blocks 20, 21 and 22, each with `size` bytes recorded
in its entry. -/
def threeBlocks (size : Int) : Ctx where
  sbi := volumeSbi
  disk := fun b => if b = 10 then
    ofWords32 (fun i => if i < 3 then setBlockSize (BitVec.ofNat 32 (20 + i)) size else 0)
    else fun _ => 0
  node := shortNode
  io := calmIo
  touched := []

theorem threeBlocks_blocks (size : Int) (i : Nat) : (threeBlocks size).blocks i =
    if i < 3 then setBlockSize (BitVec.ofNat 32 (20 + i)) size else 0 := by
  unfold Ctx.blocks
  simp only [threeBlocks, shortNode, if_true]
  rw [le32_ofWords32]

theorem threeBlocks_number (size : Int) {i : Nat} (lt : i < 3) :
    getBlockNumber ((threeBlocks size).blocks i) = 20 + i := by
  rw [threeBlocks_blocks, if_pos lt, getBlockNumber_setBlockSize, getBlockNumber_eq_mod,
    BitVec.toNat_ofNat]
  omega

theorem threeBlocks_ok (size : Int) : IndexOk (threeBlocks size) := by
  have hsbi : BlocksOk volumeSbi := ⟨rfl, by decide, by decide⟩
  refine ⟨hsbi, ?_, ?_⟩
  · intro i hi _
    replace hi : i < 3 := hi
    rw [threeBlocks_number size hi]
    have hused : Used volumeSbi (20 + i) := by
      refine ⟨by omega, ?_, decide_eq_false (by omega)⟩
      change 20 + i < 100
      omega
    exact hused
  · intro i j hi hj _ _ heq
    rw [threeBlocks_number size hi, threeBlocks_number size hj] at heq
    omega

theorem threeBlocks_lowers (size : Int) : Lowers fullWriteEnd (threeBlocks size) 0 5 5 := by
  have hfewer : blocksOfSize (fullWriteEnd shortNode 0 5 5).1 < shortNode.iBlocks := by decide
  have hcomplete : 5 ≤ u32 (fullWriteEnd shortNode 0 5 5).2 := by decide
  have hrange : shortNode.iBlocks < 4294967296 := by decide
  exact ⟨hcomplete, hfewer, hrange, rfl⟩

/-- With plain entries a write of five bytes frees the blocks 21 and 22. -/
theorem write_end_frees_plain :
    FreesDropped (threeBlocks 0) (ouichefsWriteEnd fullWriteEnd (threeBlocks 0) 0 5 5).1 1 3 := by
  refine (write_end_frees_iff (threeBlocks_ok 0) (threeBlocks_lowers 0)).mpr ?_
  intro i hlo hhi
  have hi : i < 3 := hhi
  have hword : (threeBlocks 0).blocks i = freshEntry (20 + i) := by
    rw [threeBlocks_blocks, if_pos hi, freshEntry, setBlockNumber_zero]
  have hnumber : (freshEntry (20 + i)).toNat = 20 + i := freshEntry_toNat (by omega)
  rw [hword]
  refine ⟨?_, ?_⟩
  · intro hz
    rw [hz] at hnumber
    simp at hnumber
    omega
  · rw [hnumber, getBlockNumber_freshEntry_of_lt (by omega)]

/-- With ten bytes recorded in each entry the same write loses them. -/
theorem write_end_leaks_sized :
    IndexOk (threeBlocks 10) ∧ Lowers fullWriteEnd (threeBlocks 10) 0 5 5 ∧
      (ouichefsWriteEnd fullWriteEnd (threeBlocks 10) 0 5 5).1.blocks 1 = 0 ∧
      (ouichefsWriteEnd fullWriteEnd (threeBlocks 10) 0 5 5).1.sbi.bfreeBitmap 21 = false ∧
      ¬ FreesDropped (threeBlocks 10) (ouichefsWriteEnd fullWriteEnd (threeBlocks 10) 0 5 5).1 1 3 := by
  have hdropped := ouichefsWriteEnd_dropped (threeBlocks_lowers 10)
  refine ⟨threeBlocks_ok 10, threeBlocks_lowers 10, hdropped.zeroed 1 (by decide) (by decide),
    by decide +kernel, ?_⟩
  intro h
  have hplain := h.plain (threeBlocks_ok 10) hdropped (Nat.le_refl _)
    (show 1 ≤ 1 by decide) (show 1 < 3 by decide)
  have hword := hplain.number
  rw [threeBlocks_number 10 (by decide), threeBlocks_blocks] at hword
  revert hword
  decide +kernel

end WriteEnd
