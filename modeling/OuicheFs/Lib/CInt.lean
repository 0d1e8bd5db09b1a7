import Mathlib.Data.Int.Basic
import Mathlib.Tactic.Ring

/-!
# Fixed-width C integers

Conversions between mathematical integers and the C types they are stored in.
Arithmetic is done on `Int` or `Nat`; a conversion is written only where the C
code stores or compares a value in a narrower or an unsigned type.
-/
namespace CInt

/-- Conversion to `uint32_t`. -/
def u32 (x : Int) : Nat := (x % 4294967296).toNat

/-- Conversion to a 64-bit unsigned type (`size_t`, `blkcnt_t`). -/
def u64 (x : Int) : Nat := (x % 18446744073709551616).toNat

/-- Conversion to `int`, two's complement. -/
def i32 (x : Int) : Int := Int.bmod x 4294967296

/-- Rounded-up quotient, as the C helpers compute it. -/
def idivCeil (a b : Nat) : Nat :=
  if a % b ≠ 0 then a / b + 1 else a / b

theorem u32_natCast {n : Nat} (h : n < 4294967296) : u32 (n : Int) = n := by
  unfold u32
  omega

/-- A counter of 32 bits that is not zero goes down by one. -/
theorem u32_pred {n : Nat} (pos : 0 < n) (h : n < 4294967296) : u32 ((n : Int) - 1) = n - 1 := by
  rw [← Nat.cast_one, ← Nat.cast_sub (by omega), u32_natCast (by omega)]

/-- A counter of 32 bits that goes down and up again. -/
theorem u32_down_up {n : Nat} (h : n < 4294967296) : u32 ((u32 ((n : Int) - 1) : Int) + 1) = n := by
  unfold u32
  omega

theorem u64_natCast {n : Nat} (h : n < 18446744073709551616) : u64 (n : Int) = n := by
  unfold u64
  omega

theorem u64_sub {m n : Nat} (le : n ≤ m) (h : m < 18446744073709551616) :
    u64 ((m : Int) - n) = m - n := by
  rw [← Nat.cast_sub le, u64_natCast (by omega)]

theorem u64_pred {n : Nat} (pos : 0 < n) (h : n < 18446744073709551616) :
    u64 ((n : Int) - 1) = n - 1 :=
  u64_sub pos h

theorem i32_eq_self {x : Int} (lo : -2147483648 ≤ x) (hi : x < 2147483648) :
    i32 x = x := by
  unfold i32
  rw [Int.bmod_def]
  omega

theorem idivCeil_mul_ge (a : Nat) {b : Nat} (hb : 0 < b) : a ≤ idivCeil a b * b := by
  have hd := Nat.div_add_mod a b
  have hm := Nat.mod_lt a hb
  unfold idivCeil
  split
  · rw [Nat.add_mul, Nat.mul_comm]
    omega
  · rename_i h
    have hz : a % b = 0 := by simpa using h
    rw [Nat.mul_comm]
    omega

theorem idivCeil_pred_mul_lt {a b : Nat} (hb : 0 < b) (ha : 0 < idivCeil a b) :
    (idivCeil a b - 1) * b < a := by
  have hd := Nat.div_add_mod a b
  unfold idivCeil at ha ⊢
  split
  · rename_i h
    rw [Nat.add_sub_cancel, Nat.mul_comm]
    omega
  · rename_i h
    simp only [h, if_false] at ha
    obtain ⟨q, hq⟩ := Nat.exists_eq_succ_of_ne_zero (Nat.pos_iff_ne_zero.mp ha)
    rw [hq] at hd ⊢
    have : b * (q + 1) = q * b + b := by ring
    simp only [Nat.succ_eq_add_one, Nat.add_sub_cancel]
    simp only [Nat.succ_eq_add_one] at hd
    omega

end CInt
