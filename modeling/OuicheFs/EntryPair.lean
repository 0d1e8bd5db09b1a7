import OuicheFs.IndexEntry

/-!
# A packed entry as a pair

The word of an index entry stands for a block number and a number of bytes that
change independently of each other. The pair determines the word as long as the
word is canonical: an entry that holds no byte has no bit of a size left over.
All words that the operations build from 0 are, so that 0, the unallocated slot,
is the only one of them with number 0 and size 0.
-/
namespace IndexEntry

/-! ## Canonical words -/

/-- With the flag clear all bits of the size are zero. -/
def Canonical (block : Word) : Prop := blockEmpty block = true → block &&& maskBlockSize = 0

theorem canonical_iff_lt (block : Word) :
    Canonical block ↔ (block.toNat < 2147483648 → block.toNat < 524288) := by
  have hzero : block &&& maskBlockSize = 0 ↔ block.toNat / 524288 % 4096 = 0 := by
    rw [← BitVec.toNat_inj, and_maskBlockSize]
    simp
  rw [Canonical, blockEmpty_iff_lt, hzero]
  constructor
  · intro h hlt
    have := h hlt
    omega
  · intro h hlt
    have := h hlt
    omega

/-- A canonical word is determined by its number and its size. -/
theorem Canonical.ext {a b : Word} (ha : Canonical a) (hb : Canonical b)
    (number : getBlockNumber a = getBlockNumber b) (size : getBlockSize a = getBlockSize b) :
    a = b := by
  rw [canonical_iff_lt] at ha hb
  rw [getBlockNumber_eq_mod, getBlockNumber_eq_mod] at number
  rw [getBlockSize_eq, getBlockSize_eq] at size
  have hlt := a.isLt
  have hlt' := b.isLt
  apply BitVec.eq_of_toNat_eq
  split at size
  · split at size
    · omega
    · omega
  · split at size
    · omega
    · omega

theorem canonical_zero : Canonical 0 := fun _ => rfl

/-- The word 0 is the only canonical one with number 0 and size 0. -/
theorem Canonical.eq_zero_iff {block : Word} (h : Canonical block) :
    block = 0 ↔ getBlockNumber block = 0 ∧ getBlockSize block = 0 := by
  constructor
  · rintro rfl
    exact ⟨rfl, rfl⟩
  · rintro ⟨hnumber, hsize⟩
    exact h.ext canonical_zero hnumber hsize

/-- Bits of a size without the flag: not 0, but nothing else to tell it from 0 by. -/
example : (0x00080000#32 : Word) ≠ 0 ∧ getBlockNumber 0x00080000#32 = 0 ∧
    getBlockSize 0x00080000#32 = 0 := by
  decide

/-- Setting the size leaves a canonical word behind, whatever the word was before. -/
theorem canonical_setBlockSize (block : Word) (size : Int) : Canonical (setBlockSize block size) := by
  rw [canonical_iff_lt]
  by_cases h : 0 < size
  · rw [setBlockSize_toNat_pos block h]
    omega
  · rw [setBlockSize_toNat_nonpos block (by omega)]
    omega

theorem Canonical.setBlockNumber {block : Word} (h : Canonical block) {bno : Nat}
    (lt : bno < 524288) : Canonical (setBlockNumber block bno) := by
  rw [canonical_iff_lt] at h ⊢
  rw [setBlockNumber_toNat block lt]
  omega

/-! ## The pair and its encoding -/

/-- What an entry records. -/
@[ext] structure Pair where
  number : Nat
  size : Nat
  number_lt : number < 524288
  size_le : size ≤ 4096

namespace Pair

/-- Another size, as near to it as a block allows. -/
def resize (p : Pair) (size : Int) : Pair where
  number := p.number
  size := (max 0 (min size 4096)).toNat
  number_lt := p.number_lt
  size_le := by omega

def renumber (p : Pair) (bno : Nat) (lt : bno < 524288) : Pair where
  number := bno
  size := p.size
  number_lt := lt
  size_le := p.size_le

/-- The word of a pair. -/
def encode (p : Pair) : Word := setBlockSize (setBlockNumber 0 p.number) p.size

end Pair

def pairOf (block : Word) : Pair where
  number := getBlockNumber block
  size := getBlockSize block
  number_lt := by
    rw [getBlockNumber_eq_mod]
    omega
  size_le := getBlockSize_le block

theorem pairOf_setBlockSize (block : Word) (size : Int) :
    pairOf (setBlockSize block size) = (pairOf block).resize size := by
  apply Pair.ext
  · exact getBlockNumber_setBlockSize block size
  · exact getBlockSize_setBlockSize block size

theorem pairOf_setBlockNumber (block : Word) {bno : Nat} (lt : bno < 524288) :
    pairOf (setBlockNumber block bno) = (pairOf block).renumber bno lt := by
  apply Pair.ext
  · exact getBlockNumber_setBlockNumber block lt
  · exact getBlockSize_setBlockNumber block lt

theorem pairOf_encode (p : Pair) : pairOf p.encode = p := by
  apply Pair.ext
  · change getBlockNumber p.encode = p.number
    rw [Pair.encode, getBlockNumber_setBlockSize, getBlockNumber_setBlockNumber 0 p.number_lt]
  · exact getBlockSize_setBlockSize_nat _ p.size_le

/-- The canonical words are the encodings of the pairs. -/
theorem canonical_iff_encode (block : Word) : Canonical block ↔ (pairOf block).encode = block := by
  constructor
  · intro h
    have hpair := pairOf_encode (pairOf block)
    exact Canonical.ext (canonical_setBlockSize _ _) h (congrArg Pair.number hpair)
      (congrArg Pair.size hpair)
  · intro h
    rw [← h]
    exact canonical_setBlockSize _ _

/-! ## Sequences of updates -/

/-- A call of one of the four operations on an entry. Where a sum leaves the range of
`int`, whatever number is stored instead makes the call a `setSize`. -/
inductive Update where
  | setSize (size : Int)
  | setNumber (bno : Nat) (lt : bno < 524288)
  | addSize (value : Int)
  | subSize (value : Int)

namespace Update

def apply : Update → Word → Word
  | .setSize size, block => setBlockSize block size
  | .setNumber bno _, block => setBlockNumber block bno
  | .addSize value, block => addBlockSize block value
  | .subSize value, block => subBlockSize block value

/-- What the call is meant to do to the pair. -/
def onPair : Update → Pair → Pair
  | .setSize size, p => p.resize size
  | .setNumber bno lt, p => p.renumber bno lt
  | .addSize value, p => p.resize (p.size + value)
  | .subSize value, p => p.resize (p.size - value)

theorem pairOf_apply (u : Update) (block : Word) :
    pairOf (u.apply block) = u.onPair (pairOf block) := by
  cases u with
  | setSize size => exact pairOf_setBlockSize block size
  | setNumber bno lt => exact pairOf_setBlockNumber block lt
  | addSize value => exact pairOf_setBlockSize block _
  | subSize value => exact pairOf_setBlockSize block _

theorem canonical_apply (u : Update) {block : Word} (h : Canonical block) :
    Canonical (u.apply block) := by
  cases u with
  | setSize size => exact canonical_setBlockSize block size
  | setNumber bno lt => exact h.setBlockNumber lt
  | addSize value => exact canonical_setBlockSize block _
  | subSize value => exact canonical_setBlockSize block _

/-- The word after a sequence of calls. -/
def run (us : List Update) (block : Word) : Word := us.foldl (fun block u => u.apply block) block

theorem canonical_run (us : List Update) : ∀ {block : Word}, Canonical block →
    Canonical (run us block) := by
  induction us with
  | nil => exact fun h => h
  | cons u us ih =>
    intro block h
    exact ih (u.canonical_apply h)

/-- A sequence of calls does to the word what it does to the pair. -/
theorem pairOf_run (us : List Update) (block : Word) :
    pairOf (run us block) = us.foldl (fun p u => u.onPair p) (pairOf block) := by
  induction us generalizing block with
  | nil => rfl
  | cons u us ih =>
    have hrest := ih (u.apply block)
    rw [pairOf_apply] at hrest
    exact hrest

/-- A word that is built from 0 is the encoding of the pair that the calls make. -/
theorem run_zero_eq_encode (us : List Update) :
    run us 0 = (us.foldl (fun p u => u.onPair p) (pairOf 0)).encode := by
  rw [← pairOf_run]
  exact ((canonical_iff_encode _).mp (canonical_run us canonical_zero)).symm

end Update

/-- The number and the size of an entry are independent of each other, sizes are clamped
to a block, and every word that is built from 0 is canonical. -/
theorem packed_entry_is_pair :
    (∀ (block : Word) (size : Int),
      getBlockSize (setBlockSize block size) = (max 0 (min size 4096)).toNat ∧
        getBlockNumber (setBlockSize block size) = getBlockNumber block) ∧
    (∀ (block : Word) (bno : Nat), bno < 2 ^ 19 →
      getBlockNumber (setBlockNumber block bno) = bno ∧
        getBlockSize (setBlockNumber block bno) = getBlockSize block) ∧
    (∀ (block : Word) (value : Int),
      getBlockSize (addBlockSize block value) =
          (max 0 (min (getBlockSize block + value) 4096)).toNat ∧
        getBlockNumber (addBlockSize block value) = getBlockNumber block) ∧
    (∀ (block : Word) (value : Int),
      getBlockSize (subBlockSize block value) =
          (max 0 (min (getBlockSize block - value) 4096)).toNat ∧
        getBlockNumber (subBlockSize block value) = getBlockNumber block) ∧
    ∀ us : List Update,
      (blockEmpty (Update.run us 0) = true → Update.run us 0 &&& maskBlockSize = 0) ∧
        (Update.run us 0 = 0 ↔
          getBlockNumber (Update.run us 0) = 0 ∧ getBlockSize (Update.run us 0) = 0) := by
  refine ⟨?_, ?_, ?_, ?_, ?_⟩
  · intro block size
    exact ⟨getBlockSize_setBlockSize block size, getBlockNumber_setBlockSize block size⟩
  · intro block bno lt
    exact ⟨getBlockNumber_setBlockNumber block lt, getBlockSize_setBlockNumber block lt⟩
  · intro block value
    exact ⟨getBlockSize_setBlockSize block _, getBlockNumber_setBlockSize block _⟩
  · intro block value
    exact ⟨getBlockSize_setBlockSize block _, getBlockNumber_setBlockSize block _⟩
  · intro us
    have hcanonical : Canonical (Update.run us 0) := Update.canonical_run us canonical_zero
    exact ⟨hcanonical, hcanonical.eq_zero_iff⟩

end IndexEntry
