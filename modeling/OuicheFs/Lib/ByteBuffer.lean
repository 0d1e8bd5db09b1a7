import Mathlib.Data.List.Range
import Mathlib.Data.Nat.Basic

/-!
# Byte buffers and little-endian fields

A buffer is the memory seen from its first byte on. Offsets past the length a
program gives it stand for whatever memory follows, so a read out of range
yields an arbitrary byte and a write out of range leaves the buffer itself
alone. A store is a family of buffers indexed by number.
-/
namespace ByteBuffer

abbrev Byte := BitVec 8

abbrev Buffer := Nat → Byte

abbrev Store := Nat → Buffer

/-- Replace `len` bytes from `off` on; `src` is read at the old contents, so an
overlapping copy towards lower addresses is a forward copy. -/
def blit (b : Buffer) (off len : Nat) (src : Nat → Byte) : Buffer :=
  fun i => if off ≤ i ∧ i < off + len then src (i - off) else b i

def fill (b : Buffer) (off len : Nat) (x : Byte) : Buffer :=
  blit b off len (fun _ => x)

def le32 (b : Buffer) (off : Nat) : BitVec 32 :=
  b (off + 3) ++ b (off + 2) ++ b (off + 1) ++ b off

def putLe32 (b : Buffer) (off : Nat) (w : BitVec 32) : Buffer :=
  blit b off 4 (fun k => w.extractLsb' (8 * k) 8)

def le64 (b : Buffer) (off : Nat) : BitVec 64 := le32 b (off + 4) ++ le32 b off

def putLe64 (b : Buffer) (off : Nat) (w : BitVec 64) : Buffer :=
  putLe32 (putLe32 b off (w.extractLsb' 0 32)) (off + 4) (w.extractLsb' 32 32)

/-- The buffer whose 64-bit little-endian words are `ws`. -/
def ofWords (ws : Nat → BitVec 64) : Buffer :=
  fun i => (ws (i / 8)).extractLsb' (8 * (i % 8)) 8

/-- The buffer whose 32-bit little-endian words are `ws`. -/
def ofWords32 (ws : Nat → BitVec 32) : Buffer :=
  fun i => (ws (i / 4)).extractLsb' (8 * (i % 4)) 8

/-- Bit `i` of a buffer used as a little-endian bitmap. -/
def bit (b : Buffer) (i : Nat) : Bool := (b (i / 8)).getLsbD (i % 8)

/-- `len` bytes from offset `off` on. -/
def slice (b : Buffer) (off len : Nat) : List Byte :=
  (List.range len).map (fun k => b (off + k))

def Store.set (d : Store) (n : Nat) (b : Buffer) : Store :=
  fun m => if m = n then b else d m

@[simp] theorem set_self (d : Store) (n : Nat) (b : Buffer) : d.set n b n = b := by
  simp [Store.set]

theorem set_of_ne (d : Store) {n m : Nat} (b : Buffer) (h : m ≠ n) :
    d.set n b m = d m := by
  simp [Store.set, h]

theorem set_same (d : Store) (n : Nat) : d.set n (d n) = d := by
  funext m
  by_cases h : m = n
  · rw [h, set_self]
  · exact set_of_ne d _ h

theorem blit_inside (b : Buffer) {off len i : Nat} (src : Nat → Byte)
    (lo : off ≤ i) (hi : i < off + len) : blit b off len src i = src (i - off) := by
  simp [blit, lo, hi]

theorem blit_outside (b : Buffer) {off len i : Nat} (src : Nat → Byte)
    (h : i < off ∨ off + len ≤ i) : blit b off len src i = b i := by
  have : ¬ (off ≤ i ∧ i < off + len) := by omega
  simp [blit, this]

/-- What was at the place of the new bytes is gone. -/
theorem blit_congr {a b : Buffer} {off len i : Nat} {src : Nat → Byte}
    (h : i < off ∨ off + len ≤ i → a i = b i) : blit a off len src i = blit b off len src i := by
  unfold blit
  by_cases hi : off ≤ i ∧ i < off + len
  · rw [if_pos hi, if_pos hi]
  · rw [if_neg hi, if_neg hi]
    exact h (by omega)

theorem le32_congr {a b : Buffer} {off : Nat}
    (h : ∀ i, off ≤ i → i < off + 4 → a i = b i) : le32 a off = le32 b off := by
  simp only [le32]
  rw [h off (by omega) (by omega), h (off + 1) (by omega) (by omega),
    h (off + 2) (by omega) (by omega), h (off + 3) (by omega) (by omega)]

/-- The bytes of a little-endian word. -/
theorem extract_le32 (b : Buffer) (off : Nat) {k : Nat} (h : k < 4) :
    (le32 b off).extractLsb' (8 * k) 8 = b (off + k) := by
  have hk : k = 0 ∨ k = 1 ∨ k = 2 ∨ k = 3 := by omega
  apply BitVec.eq_of_getLsbD_eq
  intro i hi
  simp only [le32, BitVec.getLsbD_extractLsb', BitVec.getLsbD_append]
  rcases hk with rfl | rfl | rfl | rfl
  · simp [hi]
  · simp [hi, show ¬ 8 + i < 8 by omega]
  · simp [hi, show ¬ 16 + i < 8 by omega, show ¬ 16 + i - 8 < 8 by omega,
      show 16 + i - 8 - 8 = i by omega]
  · simp [hi, show ¬ 24 + i < 8 by omega, show ¬ 24 + i - 8 < 8 by omega,
      show ¬ 24 + i - 8 - 8 < 8 by omega, show 24 + i - 8 - 8 - 8 = i by omega]

/-- A field that is stored as it is changes nothing. -/
theorem putLe32_le32 (b : Buffer) (off : Nat) : putLe32 b off (le32 b off) = b := by
  funext i
  by_cases hi : off ≤ i ∧ i < off + 4
  · refine (blit_inside b _ hi.1 hi.2).trans ?_
    rw [extract_le32 b off (show i - off < 4 by omega), show off + (i - off) = i by omega]
  · exact blit_outside b _ (by omega)

theorem extract_append_self (w : BitVec 32) :
    (w.extractLsb' 24 8 ++ w.extractLsb' 16 8 ++ w.extractLsb' 8 8 ++
      w.extractLsb' 0 8 : BitVec 32) = w := by
  apply BitVec.eq_of_getLsbD_eq
  intro i hi
  simp only [BitVec.getLsbD_append, BitVec.getLsbD_extractLsb']
  by_cases h8 : i < 8
  · simp [h8]
  by_cases h16 : i - 8 < 8
  · have : 8 + (i - 8) = i := by omega
    simp [h8, h16, this]
  by_cases h24 : i - 8 - 8 < 8
  · have : 16 + (i - 8 - 8) = i := by omega
    simp [h8, h16, h24, this]
  · have h32 : i - 8 - 8 - 8 < 8 := by omega
    have : 24 + (i - 8 - 8 - 8) = i := by omega
    simp [h8, h16, h24, h32, this]

@[simp] theorem le32_putLe32_self (b : Buffer) (off : Nat) (w : BitVec 32) :
    le32 (putLe32 b off w) off = w := by
  have h : ∀ k, k < 4 → putLe32 b off w (off + k) = w.extractLsb' (8 * k) 8 := by
    intro k hk
    rw [putLe32, blit_inside b _ (by omega) (by omega), Nat.add_sub_cancel_left]
  have h0 := h 0 (by omega)
  rw [Nat.add_zero] at h0
  rw [le32, h 3 (by omega), h 2 (by omega), h 1 (by omega), h0]
  exact extract_append_self w

@[simp] theorem le32_ofWords32 (ws : Nat → BitVec 32) (i : Nat) :
    le32 (ofWords32 ws) (4 * i) = ws i := by
  have h : ∀ k, k < 4 → ofWords32 ws (4 * i + k) = (ws i).extractLsb' (8 * k) 8 := by
    intro k hk
    have hd : (4 * i + k) / 4 = i := by omega
    have hm : (4 * i + k) % 4 = k := by omega
    simp only [ofWords32, hd, hm]
  have h0 := h 0 (by omega)
  rw [Nat.add_zero] at h0
  rw [le32, h 3 (by omega), h 2 (by omega), h 1 (by omega), h0]
  exact extract_append_self (ws i)

theorem le32_blit_of_disjoint (b : Buffer) {off len at_ : Nat} (src : Nat → Byte)
    (h : at_ + 4 ≤ off ∨ off + len ≤ at_) : le32 (blit b off len src) at_ = le32 b at_ :=
  le32_congr fun i lo hi => blit_outside b src (by omega)

theorem le32_putLe32_of_disjoint (b : Buffer) {off at_ : Nat} (w : BitVec 32)
    (h : at_ + 4 ≤ off ∨ off + 4 ≤ at_) : le32 (putLe32 b off w) at_ = le32 b at_ :=
  le32_blit_of_disjoint b _ h

theorem le32_putLe64_of_disjoint (b : Buffer) {off at_ : Nat} (w : BitVec 64)
    (h : at_ + 4 ≤ off ∨ off + 8 ≤ at_) : le32 (putLe64 b off w) at_ = le32 b at_ := by
  unfold putLe64
  rw [le32_putLe32_of_disjoint _ _ (by omega), le32_putLe32_of_disjoint _ _ (by omega)]

@[simp] theorem le64_putLe64_self (b : Buffer) (off : Nat) (w : BitVec 64) :
    le64 (putLe64 b off w) off = w := by
  unfold le64 putLe64
  rw [le32_putLe32_self, le32_putLe32_of_disjoint _ _ (by omega), le32_putLe32_self]
  apply BitVec.eq_of_getLsbD_eq
  intro i hi
  rw [BitVec.getLsbD_append]
  by_cases hlow : i < 32
  · simp [hlow]
  · have hback : 32 + (i - 32) = i := by omega
    simp [hlow, hback, show i - 32 < 32 by omega]

theorem le64_putLe32_of_disjoint (b : Buffer) {off at_ : Nat} (w : BitVec 32)
    (h : at_ + 8 ≤ off ∨ off + 4 ≤ at_) : le64 (putLe32 b off w) at_ = le64 b at_ := by
  unfold le64
  rw [le32_putLe32_of_disjoint _ _ (by omega), le32_putLe32_of_disjoint _ _ (by omega)]

theorem le64_putLe64_of_disjoint (b : Buffer) {off at_ : Nat} (w : BitVec 64)
    (h : at_ + 8 ≤ off ∨ off + 8 ≤ at_) : le64 (putLe64 b off w) at_ = le64 b at_ := by
  unfold le64
  rw [le32_putLe64_of_disjoint _ _ (by omega), le32_putLe64_of_disjoint _ _ (by omega)]

theorem putLe32_outside (b : Buffer) {off i : Nat} (w : BitVec 32) (h : i < off ∨ off + 4 ≤ i) :
    putLe32 b off w i = b i :=
  blit_outside b _ h

theorem putLe64_outside (b : Buffer) {off i : Nat} (w : BitVec 64) (h : i < off ∨ off + 8 ≤ i) :
    putLe64 b off w i = b i := by
  unfold putLe64
  rw [putLe32_outside _ _ (by omega), putLe32_outside _ _ (by omega)]

theorem putLe64_le64 (b : Buffer) (off : Nat) : putLe64 b off (le64 b off) = b := by
  have hlow : (le64 b off).extractLsb' 0 32 = le32 b off := by
    unfold le64
    exact BitVec.extractLsb'_append_eq_right
  have hhigh : (le64 b off).extractLsb' 32 32 = le32 b (off + 4) := by
    unfold le64
    exact BitVec.extractLsb'_append_eq_left
  unfold putLe64
  rw [hlow, hhigh, putLe32_le32, putLe32_le32]

theorem bit_ofWords (ws : Nat → BitVec 64) (i : Nat) :
    bit (ofWords ws) i = (ws (i / 64)).getLsbD (i % 64) := by
  have hw : i / 8 / 8 = i / 64 := by omega
  have hb : 8 * (i / 8 % 8) + i % 8 = i % 64 := by omega
  have hi : i % 8 < 8 := Nat.mod_lt _ (by omega)
  simp [bit, ofWords, hw, hb, hi]

@[simp] theorem slice_length (b : Buffer) (off len : Nat) :
    (slice b off len).length = len := by
  simp [slice]

@[simp] theorem slice_zero (b : Buffer) (off : Nat) : slice b off 0 = [] := rfl

theorem slice_congr {a b : Buffer} {off off' len : Nat}
    (h : ∀ k, k < len → a (off + k) = b (off' + k)) : slice a off len = slice b off' len := by
  apply List.map_congr_left
  intro k hk
  exact h k (List.mem_range.mp hk)

theorem slice_append (b : Buffer) (off m n : Nat) :
    slice b off m ++ slice b (off + m) n = slice b off (m + n) := by
  simp only [slice, List.range_add, List.map_append, List.map_map]
  congr 1
  apply List.map_congr_left
  intro k _
  simp [Nat.add_assoc]

theorem slice_take (b : Buffer) (off : Nat) {m n : Nat} (h : m ≤ n) :
    (slice b off n).take m = slice b off m := by
  obtain ⟨k, rfl⟩ := Nat.exists_eq_add_of_le h
  rw [← slice_append, List.take_append_of_le_length (by simp)]
  rw [List.take_of_length_le (by simp)]

theorem slice_drop (b : Buffer) (off : Nat) {m n : Nat} (h : m ≤ n) :
    (slice b off n).drop m = slice b (off + m) (n - m) := by
  obtain ⟨k, rfl⟩ := Nat.exists_eq_add_of_le h
  rw [← slice_append, List.drop_append_of_le_length (by simp)]
  rw [List.drop_of_length_le (by simp)]
  simp

/-- Reading back bytes that were just placed from a list. -/
theorem slice_blit_list (b : Buffer) (off : Nat) (xs : List Byte) (from_ len : Nat)
    (h : from_ + len ≤ xs.length) :
    slice (blit b off len (fun k => xs.getD (from_ + k) 0)) off len =
      (xs.drop from_).take len := by
  apply List.ext_getElem
  · simp
    omega
  · intro k hk _
    have hk' : k < len := by simpa using hk
    simp only [slice, List.getElem_map, List.getElem_range, List.getElem_take,
      List.getElem_drop]
    rw [blit_inside b _ (by omega) (by omega), Nat.add_sub_cancel_left]
    simp [List.getElem?_eq_getElem (show from_ + k < xs.length by omega)]

end ByteBuffer
