import Mathlib.Data.Nat.Count
import Mathlib.Data.List.Range

/-!
# Bitmaps with a free counter

A bitmap is a function from bit numbers to `Bool`. `popcount` counts the set
bits below a size; setting or clearing one bit in range moves it by one.
-/
namespace Bits

abbrev Bitmap := Nat → Bool

def setBit (m : Bitmap) (i : Nat) : Bitmap := fun j => if j = i then true else m j

def clearBit (m : Bitmap) (i : Nat) : Bitmap := fun j => if j = i then false else m j

/-- The number of the first set bit, or `size` if there is none below it. -/
def findFirstBit (m : Bitmap) (size : Nat) : Nat := (List.range size).findIdx m

def popcount (m : Bitmap) (size : Nat) : Nat := Nat.count (fun i => m i = true) size

@[simp] theorem setBit_self (m : Bitmap) (i : Nat) : setBit m i i = true := by
  simp [setBit]

@[simp] theorem clearBit_self (m : Bitmap) (i : Nat) : clearBit m i i = false := by
  simp [clearBit]

theorem setBit_of_ne (m : Bitmap) {i j : Nat} (h : j ≠ i) : setBit m i j = m j := by
  simp [setBit, h]

theorem clearBit_of_ne (m : Bitmap) {i j : Nat} (h : j ≠ i) : clearBit m i j = m j := by
  simp [clearBit, h]

theorem findFirstBit_le (m : Bitmap) (size : Nat) : findFirstBit m size ≤ size := by
  simpa [findFirstBit] using @List.findIdx_le_length _ m (List.range size)

theorem findFirstBit_set {m : Bitmap} {size : Nat} (h : findFirstBit m size < size) :
    m (findFirstBit m size) = true := by
  have hl : (List.range size).findIdx m < (List.range size).length := by
    simpa [findFirstBit] using h
  have hs := List.findIdx_getElem (w := hl)
  simpa [findFirstBit] using hs

theorem findFirstBit_below {m : Bitmap} {size i : Nat} (h : i < findFirstBit m size) :
    m i = false := by
  have hs := List.not_of_lt_findIdx h
  simpa using hs

theorem findFirstBit_eq {m : Bitmap} {size i : Nat} (hi : i < size) (set : m i = true)
    (below : ∀ j, j < i → m j = false) : findFirstBit m size = i := by
  have hle : findFirstBit m size ≤ i := by
    by_contra hlt
    have hbad := @findFirstBit_below m size i (by omega)
    rw [set] at hbad
    cases hbad
  rcases Nat.lt_or_eq_of_le hle with hlt | heq
  · have hset := @findFirstBit_set m size (by omega)
    rw [below _ hlt] at hset
    cases hset
  · exact heq

theorem findFirstBit_eq_size_iff (m : Bitmap) (size : Nat) :
    findFirstBit m size = size ↔ ∀ i, i < size → m i = false := by
  constructor
  · intro h i hi
    exact @findFirstBit_below _ size _ (by omega)
  · intro h
    by_contra hne
    have hlt : findFirstBit m size < size := by
      have := findFirstBit_le m size
      omega
    have hset := findFirstBit_set hlt
    rw [h _ hlt] at hset
    cases hset

theorem popcount_congr {m m' : Bitmap} {size : Nat} (h : ∀ i, i < size → m i = m' i) :
    popcount m size = popcount m' size := by
  induction size with
  | zero => rfl
  | succ n ih =>
    have hn := ih (fun i hi => h i (by omega))
    unfold popcount at hn ⊢
    rw [Nat.count_succ, Nat.count_succ, hn, h n (by omega)]

/-- A bitmap whose bits are set from `u` on. -/
theorem popcount_above {m : Bitmap} {u size : Nat} (h : ∀ i, i < size → m i = decide (u ≤ i)) :
    popcount m size = size - u := by
  induction size with
  | zero => simp [popcount]
  | succ n ih =>
    have hn := ih (fun i hi => h i (by omega))
    unfold popcount at hn ⊢
    rw [Nat.count_succ, hn, h n (by omega)]
    by_cases hu : u ≤ n
    · rw [if_pos (decide_eq_true hu)]
      omega
    · rw [if_neg (by simpa using hu)]
      omega

theorem popcount_le (m : Bitmap) (size : Nat) : popcount m size ≤ size :=
  Nat.count_le _

theorem popcount_clearBit {m : Bitmap} {size i : Nat} (hi : i < size) (set : m i = true) :
    popcount (clearBit m i) size + 1 = popcount m size := by
  induction size with
  | zero => omega
  | succ n ih =>
    simp only [popcount, Nat.count_succ] at ih ⊢
    by_cases h : i = n
    · subst h
      have below := @popcount_congr (clearBit m i) m i
        (fun j hj => clearBit_of_ne m (by omega))
      unfold popcount at below
      simp [below, set]
    · have hn := ih (by omega)
      rw [clearBit_of_ne m (show n ≠ i by omega)]
      omega

theorem popcount_setBit {m : Bitmap} {size i : Nat} (hi : i < size) (clear : m i = false) :
    popcount (setBit m i) size = popcount m size + 1 := by
  have hback : ∀ j, j < size → clearBit (setBit m i) i j = m j := by
    intro j _
    by_cases h : j = i
    · subst h
      simp [clear]
    · rw [clearBit_of_ne _ h, setBit_of_ne _ h]
  have h := popcount_clearBit (m := setBit m i) hi (setBit_self m i)
  rw [popcount_congr hback] at h
  exact h.symm

theorem popcount_pos_iff (m : Bitmap) (size : Nat) :
    0 < popcount m size ↔ ∃ i, i < size ∧ m i = true := by
  constructor
  · intro h
    by_contra hn
    have hall : ∀ i, i < size → m i = (fun _ => false : Bitmap) i := by
      intro i hi
      cases hm : m i with
      | false => rfl
      | true => exact absurd ⟨i, hi, hm⟩ hn
    rw [popcount_congr hall] at h
    simp [popcount] at h
  · rintro ⟨i, hi, hm⟩
    have := popcount_clearBit hi hm
    omega

theorem popcount_le_clearBit (m : Bitmap) (i size : Nat) :
    popcount m size ≤ popcount (clearBit m i) size + 1 := by
  by_cases h : i < size ∧ m i = true
  · exact (popcount_clearBit h.1 h.2).ge
  · have hsame : ∀ j, j < size → m j = clearBit m i j := by
      intro j hj
      by_cases hji : j = i
      · subst hji
        simpa [hj] using h
      · rw [clearBit_of_ne m hji]
    rw [popcount_congr hsame]
    omega

/-- Clearing the bits of a list loses no more than its length. -/
theorem popcount_le_remove (m : Bitmap) (xs : List Nat) (size : Nat) :
    popcount m size ≤ popcount (fun i => m i && !decide (i ∈ xs)) size + xs.length := by
  induction xs generalizing m with
  | nil => simp
  | cons x xs ih =>
    have hrest := ih (clearBit m x)
    have hone := popcount_le_clearBit m x size
    have hsame : ∀ j, j < size → (clearBit m x j && !decide (j ∈ xs)) =
        (m j && !decide (j ∈ x :: xs)) := by
      intro j _
      by_cases hj : j = x
      · subst hj
        simp
      · rw [clearBit_of_ne m hj]
        simp [hj]
    rw [popcount_congr hsame] at hrest
    simp only [List.length_cons]
    omega

/-- Setting the clear bits of a list without repetition adds its length. -/
theorem popcount_insert {m : Bitmap} {xs : List Nat} {size : Nat} (nodup : xs.Nodup)
    (clear : ∀ x ∈ xs, x < size ∧ m x = false) :
    popcount (fun i => m i || decide (i ∈ xs)) size = popcount m size + xs.length := by
  induction xs generalizing m with
  | nil => simp
  | cons x xs ih =>
    obtain ⟨hx, hxs⟩ := List.nodup_cons.mp nodup
    obtain ⟨hlt, hclear⟩ := clear x List.mem_cons_self
    have hrest := ih (m := setBit m x) hxs (by
      intro y hy
      obtain ⟨hy₁, hy₂⟩ := clear y (List.mem_cons_of_mem x hy)
      refine ⟨hy₁, ?_⟩
      rw [setBit_of_ne m (by rintro rfl; exact hx hy)]
      exact hy₂)
    have hsame : ∀ j, j < size → (setBit m x j || decide (j ∈ xs)) =
        (m j || decide (j ∈ x :: xs)) := by
      intro j _
      by_cases hj : j = x
      · subst hj
        simp
      · rw [setBit_of_ne m hj]
        simp [hj]
    rw [popcount_congr hsame, popcount_setBit hlt hclear] at hrest
    rw [hrest, List.length_cons]
    omega

end Bits
