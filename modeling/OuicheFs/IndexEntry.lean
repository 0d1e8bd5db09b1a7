import Mathlib.Data.Nat.Bitwise

/-!
# Packed index entries

An entry of a file's index block packs a block number (19 bits), the number of
recorded bytes minus one (12 bits) and a flag that is clear when the block
holds no byte. The word 0 stands for an unallocated slot.
-/
namespace IndexEntry

abbrev Word := BitVec 32

def maskBlockSize : Word := 0x7ff80000#32
def maskBlockNum : Word := 0x0007ffff#32
def maskBlockFlag : Word := 0x80000000#32

def getBlockNumber (block : Word) : Nat := (block &&& maskBlockNum).toNat

def blockEmpty (block : Word) : Bool := !(block &&& maskBlockFlag == maskBlockFlag)

def getBlockSize (block : Word) : Nat :=
  if blockEmpty block then 0 else ((block &&& maskBlockSize) >>> 19).toNat + 1

def setBlockSize (block : Word) (size : Int) : Word :=
  let size := min size 4096
  if 0 < size then
    ((block ||| maskBlockFlag) &&& ~~~maskBlockSize) |||
      (BitVec.ofNat 32 (size - 1).toNat <<< 19)
  else
    block &&& ~~~(maskBlockFlag ||| maskBlockSize)

def setBlockNumber (block : Word) (bno : Nat) : Word :=
  (block &&& ~~~maskBlockNum) ||| BitVec.ofNat 32 bno

def subBlockSize (block : Word) (value : Int) : Word :=
  setBlockSize block (getBlockSize block - value)

def addBlockSize (block : Word) (value : Int) : Word :=
  setBlockSize block (getBlockSize block + value)

theorem maskBlockNum_bit : ∀ i : Fin 32,
    maskBlockNum.getLsbD i.val = decide (i.val < 19) := by decide

theorem maskBlockSize_bit : ∀ i : Fin 32,
    maskBlockSize.getLsbD i.val = decide (19 ≤ i.val ∧ i.val < 31) := by decide

theorem maskBlockFlag_bit : ∀ i : Fin 32,
    maskBlockFlag.getLsbD i.val = decide (i.val = 31) := by decide

/-- The mask bits for an index that is only known to be in range. -/
theorem mask_bits {i : Nat} (hi : i < 32) :
    maskBlockNum.getLsbD i = decide (i < 19) ∧
    maskBlockSize.getLsbD i = decide (19 ≤ i ∧ i < 31) ∧
    maskBlockFlag.getLsbD i = decide (i = 31) :=
  ⟨maskBlockNum_bit ⟨i, hi⟩, maskBlockSize_bit ⟨i, hi⟩, maskBlockFlag_bit ⟨i, hi⟩⟩

theorem getBlockNumber_eq_mod (block : Word) :
    getBlockNumber block = block.toNat % 524288 := by
  have h := Nat.and_two_pow_sub_one_eq_mod block.toNat 19
  simpa [getBlockNumber, maskBlockNum] using h

@[simp] theorem getBlockNumber_zero : getBlockNumber 0 = 0 := rfl

@[simp] theorem getBlockSize_zero : getBlockSize 0 = 0 := rfl

theorem ne_zero_of_getBlockNumber_pos {block : Word} (h : 0 < getBlockNumber block) :
    block ≠ 0 := by
  intro hz
  rw [hz, getBlockNumber_zero] at h
  omega

/-! ## The fields as arithmetic -/

theorem and_maskBlockSize (block : Word) :
    (block &&& maskBlockSize).toNat = 524288 * (block.toNat / 524288 % 4096) := by
  have hword : block &&& maskBlockSize =
      BitVec.ofNat 32 (2 ^ 19 * (block.toNat / 2 ^ 19 % 2 ^ 12)) := by
    apply BitVec.eq_of_getLsbD_eq
    intro i hi
    rw [BitVec.getLsbD_and, (mask_bits hi).2.1, BitVec.getLsbD_ofNat, Nat.testBit_two_pow_mul,
      Nat.testBit_mod_two_pow, Nat.testBit_div_two_pow]
    by_cases h19 : 19 ≤ i
    · have h12 : i - 19 < 12 ↔ i < 31 := by omega
      rw [Nat.sub_add_cancel h19]
      simp [h19, hi, h12, Bool.and_comm, BitVec.testBit_toNat]
    · simp [h19]
  rw [hword, BitVec.toNat_ofNat]
  omega

theorem sizeField_toNat (block : Word) :
    ((block &&& maskBlockSize) >>> 19).toNat = block.toNat / 524288 % 4096 := by
  rw [BitVec.toNat_ushiftRight, and_maskBlockSize, Nat.shiftRight_eq_div_pow]
  omega

theorem blockEmpty_iff_lt (block : Word) : blockEmpty block = true ↔ block.toNat < 2147483648 := by
  have hlast : block.getLsbD 31 = decide (2147483648 ≤ block.toNat) := BitVec.getLsbD_last block
  have hflag : block &&& maskBlockFlag = maskBlockFlag ↔ block.getLsbD 31 = true := by
    constructor
    · intro h
      have hbit := congrArg (fun w : Word => w.getLsbD 31) h
      simpa [(mask_bits (show 31 < 32 by omega)).2.2] using hbit
    · intro h
      apply BitVec.eq_of_getLsbD_eq
      intro i hi
      rw [BitVec.getLsbD_and, (mask_bits hi).2.2]
      by_cases h31 : i = 31
      · subst h31
        simp [h]
      · simp [h31]
  rw [hlast, decide_eq_true_iff] at hflag
  rw [blockEmpty, Bool.not_eq_true', beq_eq_false_iff_ne, ne_eq, hflag, Nat.not_le]

theorem getBlockSize_eq (block : Word) : getBlockSize block =
    if block.toNat < 2147483648 then 0 else block.toNat / 524288 % 4096 + 1 := by
  rw [getBlockSize, sizeField_toNat]
  simp only [blockEmpty_iff_lt]

/-- A block number that fits its field takes the place of the old one, and the bits
above it stay. -/
theorem setBlockNumber_toNat (block : Word) {bno : Nat} (lt : bno < 524288) :
    (setBlockNumber block bno).toNat = 524288 * (block.toNat / 524288) + bno := by
  have hblock := block.isLt
  have hword : setBlockNumber block bno =
      BitVec.ofNat 32 (524288 * (block.toNat / 524288) + bno) := by
    apply BitVec.eq_of_getLsbD_eq
    intro i hi
    have hsplit : (524288 * (block.toNat / 524288) + bno).testBit i =
        if i < 19 then bno.testBit i else (block.toNat / 524288).testBit (i - 19) :=
      Nat.testBit_two_pow_mul_add (block.toNat / 524288) (i := 19) lt i
    simp only [setBlockNumber, BitVec.getLsbD_or, BitVec.getLsbD_and, BitVec.getLsbD_not,
      BitVec.getLsbD_ofNat, (mask_bits hi).1, hsplit, hi, decide_true, Bool.true_and]
    by_cases h19 : i < 19
    · simp [h19]
    · have hlow : bno.testBit i = false := by
        apply Nat.testBit_eq_false_of_lt
        exact lt_of_lt_of_le lt (Nat.pow_le_pow_right (n := 2) (by omega) (show 19 ≤ i by omega))
      have hhigh : (block.toNat / 524288).testBit (i - 19) = block.getLsbD i := by
        rw [show 524288 = 2 ^ 19 from rfl, Nat.testBit_div_two_pow, Nat.sub_add_cancel (by omega)]
        rfl
      simp [h19, hlow, hhigh]
  rw [hword, BitVec.toNat_ofNat, Nat.mod_eq_of_lt (by omega)]

/-- A positive size: the flag, the field of the size and the old block number. -/
theorem setBlockSize_toNat_pos (block : Word) {size : Int} (pos : 0 < size) :
    (setBlockSize block size).toNat =
      2147483648 + 524288 * (min size 4096 - 1).toNat + block.toNat % 524288 := by
  obtain ⟨k, hk⟩ : ∃ k, k = (min size 4096 - 1).toNat := ⟨_, rfl⟩
  have hlt : k < 4096 := by omega
  have hset : setBlockSize block size =
      ((block ||| maskBlockFlag) &&& ~~~maskBlockSize) ||| (BitVec.ofNat 32 k <<< 19) := by
    rw [hk]
    exact if_pos (show 0 < min size 4096 by omega)
  have hword : setBlockSize block size =
      BitVec.ofNat 32 (2 ^ 19 * (2 ^ 12 * 1 + k) + block.toNat % 2 ^ 19) := by
    rw [hset]
    apply BitVec.eq_of_getLsbD_eq
    intro i hi
    have hm := mask_bits hi
    simp only [BitVec.getLsbD_or, BitVec.getLsbD_and, BitVec.getLsbD_not, BitVec.getLsbD_shiftLeft,
      BitVec.getLsbD_ofNat, hm.2.1, hm.2.2]
    rw [Nat.testBit_two_pow_mul_add _ (Nat.mod_lt _ (by decide)), Nat.testBit_mod_two_pow,
      Nat.testBit_two_pow_mul_add 1 hlt]
    by_cases h19 : i < 19
    · have h31 : i ≠ 31 := by omega
      have hnot : ¬ 19 ≤ i := by omega
      simp [hi, h19, h31, hnot, BitVec.testBit_toNat]
    by_cases h31 : i < 31
    · have hne : i ≠ 31 := by omega
      have h12 : i - 19 < 12 := by omega
      have hle : 19 ≤ i := by omega
      have h32 : i - 19 < 32 := by omega
      simp [hi, h19, h31, hne, hle, h12, h32]
    · obtain rfl : i = 31 := by omega
      simp
  rw [hword, BitVec.toNat_ofNat, ← hk]
  omega

/-- Any other size: the block number alone. -/
theorem setBlockSize_toNat_nonpos (block : Word) {size : Int} (h : size ≤ 0) :
    (setBlockSize block size).toNat = block.toNat % 524288 := by
  have hset : setBlockSize block size = block &&& ~~~(maskBlockFlag ||| maskBlockSize) :=
    if_neg (show ¬ 0 < min size 4096 by omega)
  have hmask : ~~~(maskBlockFlag ||| maskBlockSize) = maskBlockNum := by decide
  rw [hset, hmask]
  exact getBlockNumber_eq_mod block

/-! ## Reading back -/

theorem getBlockSize_le (block : Word) : getBlockSize block ≤ 4096 := by
  rw [getBlockSize_eq]
  split
  · omega
  · omega

theorem blockEmpty_iff (block : Word) : blockEmpty block = true ↔ getBlockSize block = 0 := by
  unfold getBlockSize
  split
  · simp [*]
  · simp [*]

@[simp] theorem getBlockNumber_setBlockNumber (block : Word) {bno : Nat} (lt : bno < 524288) :
    getBlockNumber (setBlockNumber block bno) = bno := by
  rw [getBlockNumber_eq_mod, setBlockNumber_toNat block lt]
  omega

@[simp] theorem getBlockSize_setBlockNumber (block : Word) {bno : Nat} (lt : bno < 524288) :
    getBlockSize (setBlockNumber block bno) = getBlockSize block := by
  have hfield : (524288 * (block.toNat / 524288) + bno) / 524288 = block.toNat / 524288 := by omega
  have hflag : 524288 * (block.toNat / 524288) + bno < 2147483648 ↔ block.toNat < 2147483648 := by
    omega
  simp only [getBlockSize_eq, setBlockNumber_toNat block lt, hfield, hflag]

@[simp] theorem getBlockNumber_setBlockSize (block : Word) (size : Int) :
    getBlockNumber (setBlockSize block size) = getBlockNumber block := by
  rw [getBlockNumber_eq_mod, getBlockNumber_eq_mod]
  by_cases h : 0 < size
  · rw [setBlockSize_toNat_pos block h]
    omega
  · rw [setBlockSize_toNat_nonpos block (by omega)]
    omega

/-- The size reads back clamped to `0..4096`. -/
theorem getBlockSize_setBlockSize (block : Word) (size : Int) :
    getBlockSize (setBlockSize block size) = (max 0 (min size 4096)).toNat := by
  rw [getBlockSize_eq]
  by_cases h : 0 < size
  · rw [setBlockSize_toNat_pos block h, if_neg (by omega)]
    omega
  · rw [setBlockSize_toNat_nonpos block (by omega), if_pos (by omega)]
    omega

@[simp] theorem getBlockSize_setBlockSize_nat (block : Word) {n : Nat} (h : n ≤ 4096) :
    getBlockSize (setBlockSize block n) = n := by
  rw [getBlockSize_setBlockSize]
  omega

theorem setBlockNumber_zero (bno : Nat) : setBlockNumber 0 bno = BitVec.ofNat 32 bno := by
  simp [setBlockNumber]

/-- The word an allocation leaves in an unallocated slot. -/
def freshEntry (bno : Nat) : Word := setBlockSize (setBlockNumber 0 bno) 0

@[simp] theorem getBlockSize_freshEntry (bno : Nat) : getBlockSize (freshEntry bno) = 0 :=
  getBlockSize_setBlockSize _ 0

/-- The number field keeps only the low 19 bits of an allocated number. -/
theorem getBlockNumber_freshEntry (bno : Nat) :
    getBlockNumber (freshEntry bno) = bno % 524288 := by
  rw [freshEntry, getBlockNumber_setBlockSize, setBlockNumber_zero, getBlockNumber_eq_mod,
    BitVec.toNat_ofNat]
  omega

theorem getBlockNumber_freshEntry_of_lt {bno : Nat} (h : bno < 524288) :
    getBlockNumber (freshEntry bno) = bno := by
  rw [getBlockNumber_freshEntry, Nat.mod_eq_of_lt h]

/-- A fresh word is the plain block number, as long as the field holds it. -/
theorem freshEntry_of_lt {bno : Nat} (h : bno < 524288) : freshEntry bno = BitVec.ofNat 32 bno := by
  apply BitVec.eq_of_toNat_eq
  rw [freshEntry, setBlockSize_toNat_nonpos _ (Int.le_refl 0), setBlockNumber_zero,
    BitVec.toNat_ofNat]
  omega

theorem freshEntry_toNat {bno : Nat} (h : bno < 524288) : (freshEntry bno).toNat = bno := by
  rw [freshEntry_of_lt h, BitVec.toNat_ofNat, Nat.mod_eq_of_lt (by omega)]

end IndexEntry
