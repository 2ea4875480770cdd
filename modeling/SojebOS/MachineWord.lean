import Mathlib.Data.Nat.Bitwise
import Mathlib.Tactic.NormNum

/-!
# Unsigned 32-bit arithmetic on naturals

`u32` is the wrap-around of C's unsigned arithmetic. Masks and disjoint unions of bits
are turned into remainders, multiples and sums, which linear arithmetic decides.
-/
namespace MachineWord

def u32 (n : ℕ) : ℕ := n % 2 ^ 32

theorem u32_lt (n : ℕ) : u32 n < 2 ^ 32 := Nat.mod_lt _ (by norm_num)

theorem u32_of_lt {n : ℕ} (h : n < 2 ^ 32) : u32 n = n := Nat.mod_eq_of_lt h

/-- Unsigned subtraction, which wraps below zero. -/
def sub32 (a b : ℕ) : ℕ := u32 (a + (2 ^ 32 - b))

theorem sub32_of_le {a b : ℕ} (h : b ≤ a) (ha : a < 2 ^ 32) : sub32 a b = a - b := by
  unfold sub32 u32
  omega

/-- A loop whose only state is a 32-bit word, and that writes nothing, meets a state
again within this many rounds if it does not leave before. -/
abbrev wordCount : ℕ := 2 ^ 32

theorem and_low_mask (x k : ℕ) : x &&& (2 ^ k - 1) = x % 2 ^ k :=
  Nat.and_two_pow_sub_one_eq_mod x k

theorem and_high_mask {x w k : ℕ} (hx : x < 2 ^ w) (hk : k ≤ w) :
    x &&& (2 ^ w - 2 ^ k) = x / 2 ^ k * 2 ^ k := by
  have hm : 2 ^ w - 2 ^ k = (2 ^ (w - k) - 1) <<< k := by
    rw [Nat.shiftLeft_eq, Nat.sub_mul, one_mul, ← pow_add, Nat.sub_add_cancel hk]
  have hq : x / 2 ^ k < 2 ^ (w - k) := by
    apply Nat.div_lt_of_lt_mul
    rw [← pow_add, Nat.add_sub_cancel' hk]
    exact hx
  rw [hm, ← Nat.shiftLeft_eq, ← Nat.shiftRight_eq_div_pow]
  apply Nat.eq_of_testBit_eq
  intro i
  simp only [Nat.testBit_and, Nat.testBit_shiftLeft, Nat.testBit_two_pow_sub_one,
    Nat.testBit_shiftRight]
  by_cases hi : k ≤ i
  · by_cases hw : i - k < w - k
    · simp [hi, hw, Nat.add_sub_cancel' hi]
    · have hz : x.testBit i = false :=
        Nat.testBit_lt_two_pow (lt_of_lt_of_le hx (Nat.pow_le_pow_right (by norm_num) (by omega)))
      simp [hi, hz, Nat.add_sub_cancel' hi]
  · simp [hi]

theorem or_eq_add {a b k : ℕ} (hb : b < 2 ^ k) : a * 2 ^ k ||| b = a * 2 ^ k + b := by
  rw [Nat.mul_comm]
  exact (Nat.two_pow_add_eq_or_of_lt hb a).symm

theorem shiftLeft_or_eq_add {a b k : ℕ} (hb : b < 2 ^ k) : a <<< k ||| b = a * 2 ^ k + b := by
  rw [Nat.shiftLeft_eq, or_eq_add hb]

end MachineWord
