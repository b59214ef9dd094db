import Mathlib.Data.Nat.Notation
import Mathlib.Algebra.Order.Group.Nat
import Mathlib.Data.Nat.Log

set_option autoImplicit false

/-! # Natural numbers as doubles

The conversion of an integer to a double keeps 53 bits and rounds to the nearest, ties to the even
one. Its relative error is at most `2^-52`. -/

namespace Double

/-- `(double)n`, as a number. -/
def ofNat (n : ℕ) : ℕ :=
  if n < 2 ^ 53 then n
  else
    let e := n.log2 - 52
    if 2 * (n % 2 ^ e) < 2 ^ e ∨ (2 * (n % 2 ^ e) = 2 ^ e ∧ n / 2 ^ e % 2 = 0) then
      n / 2 ^ e * 2 ^ e
    else (n / 2 ^ e + 1) * 2 ^ e

/-- Above `2^53` the result is one of the two neighbours in steps that are small against `n`. -/
theorem ofNat_near (n : ℕ) : ∃ d, 2 ^ 52 * d ≤ n ∧ ofNat n ≤ n + d ∧ n ≤ ofNat n + d := by
  by_cases h : n < 2 ^ 53
  · refine ⟨0, Nat.zero_le _, ?_, ?_⟩ <;> rw [ofNat, if_pos h] <;> omega
  · have hn : n ≠ 0 := by omega
    have hlog : 53 ≤ n.log2 := (Nat.le_log2 hn).2 (Nat.le_of_not_lt h)
    have hpow : 2 ^ 52 * 2 ^ (n.log2 - 52) ≤ n := by
      rw [← Nat.pow_add, Nat.add_sub_cancel' (by omega)]
      exact Nat.log2_self_le hn
    have hdiv : n / 2 ^ (n.log2 - 52) * 2 ^ (n.log2 - 52) + n % 2 ^ (n.log2 - 52) = n :=
      Nat.div_add_mod' n _
    have hmod : n % 2 ^ (n.log2 - 52) < 2 ^ (n.log2 - 52) :=
      Nat.mod_lt _ (Nat.two_pow_pos _)
    refine ⟨2 ^ (n.log2 - 52), hpow, ?_⟩
    rw [ofNat, if_neg h]
    simp only
    split
    · omega
    · rw [Nat.add_mul, Nat.one_mul]
      omega

end Double
