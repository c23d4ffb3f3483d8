import Mathlib.Algebra.Group.Nat.Defs
import Mathlib.Tactic.Common

/-! Unsigned machine arithmetic on natural numbers: a value of width `w` is a number below
`2 ^ w`, and sums and differences wrap. -/

namespace Plos

/-- Addition of `w`-bit words. -/
def addW (w a b : Nat) : Nat := (a + b) % 2 ^ w

/-- Subtraction of `w`-bit words. -/
def subW (w a b : Nat) : Nat := (a + (2 ^ w - b)) % 2 ^ w

abbrev add64 (a b : Nat) : Nat := addW 64 a b
abbrev sub64 (a b : Nat) : Nat := subW 64 a b
abbrev add32 (a b : Nat) : Nat := addW 32 a b
abbrev sub32 (a b : Nat) : Nat := subW 32 a b

/-- The complement of a 64-bit word. -/
def not64 (a : Nat) : Nat := 2 ^ 64 - 1 - a

variable {w a b : Nat}

theorem addW_of_lt (h : a + b < 2 ^ w) : addW w a b = a + b := Nat.mod_eq_of_lt h

theorem subW_of_le (ha : a < 2 ^ w) (h : b ≤ a) : subW w a b = a - b := by
  unfold subW
  rw [show a + (2 ^ w - b) = a - b + 2 ^ w by omega, Nat.add_mod_right]
  exact Nat.mod_eq_of_lt (by omega)

theorem add64_of_lt (h : a + b < 2 ^ 64) : add64 a b = a + b := addW_of_lt h

theorem sub64_of_le (ha : a < 2 ^ 64) (h : b ≤ a) : sub64 a b = a - b := subW_of_le ha h

theorem add64_lt : add64 a b < 2 ^ 64 := Nat.mod_lt _ (Nat.two_pow_pos 64)

/-- A sum that wraps. -/
theorem add64_of_le (ha : a < 2 ^ 64) (hb : b < 2 ^ 64) (h : 2 ^ 64 ≤ a + b) :
    add64 a b = a + b - 2 ^ 64 := by
  rw [add64, addW, Nat.mod_eq_sub_mod h]
  exact Nat.mod_eq_of_lt (by omega)

/-- A word whose bits lie between `k` and `k + w` keeps them under the mask of those bits. -/
theorem and_bitField {f k w : Nat} (hmod : f % 2 ^ k = 0) (hlt : f < 2 ^ (k + w)) :
    f &&& ((2 ^ w - 1) <<< k) = f := by
  apply Nat.eq_of_testBit_eq
  intro i
  rw [Nat.testBit_and, Nat.testBit_shiftLeft, Nat.testBit_two_pow_sub_one]
  by_cases hi : i < k
  · have hbit : (f % 2 ^ k).testBit i = false := by rw [hmod, Nat.zero_testBit]
    rw [Nat.testBit_mod_two_pow] at hbit
    simp only [hi, decide_true, Bool.true_and] at hbit
    rw [hbit, Bool.false_and]
  · by_cases hi' : i < k + w
    · have hw : i - k < w := by omega
      simp [Nat.le_of_not_lt hi, hw]
    · have hle : 2 ^ (k + w) ≤ 2 ^ i := Nat.pow_le_pow_right (by decide) (Nat.le_of_not_lt hi')
      rw [Nat.testBit_lt_two_pow (Nat.lt_of_lt_of_le hlt hle), Bool.false_and]

end Plos
