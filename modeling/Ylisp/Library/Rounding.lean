import Mathlib.Algebra.Group.Nat.Defs
import Mathlib.Data.Nat.Log

/-!
# Rounding to a number of bits

`round p n` is the number nearest to `n` of the form `m * 2 ^ e` with `m < 2 ^ p`, or `m = 2 ^ p`
when it has been rounded up; of two that are as near, the one with an even `m`. It is `n` where
`n` has the form, and it does not pass a power of two.
-/

namespace Rounding

variable {p n m e k : ℕ}

def excess (p n : ℕ) : ℕ := Nat.log 2 n + 1 - p

def roundTo (e n : ℕ) : ℕ :=
  let q := n / 2 ^ e
  let r := n % 2 ^ e
  if 2 * r < 2 ^ e ∨ 2 * r = 2 ^ e ∧ q % 2 = 0 then q * 2 ^ e else (q + 1) * 2 ^ e

def round (p n : ℕ) : ℕ := roundTo (excess p n) n

theorem roundTo_of_dvd (h : 2 ^ e ∣ n) : roundTo e n = n := by
  have hr : n % 2 ^ e = 0 := Nat.mod_eq_zero_of_dvd h
  rw [roundTo, hr, if_pos (.inl (Nat.two_pow_pos e)), Nat.div_mul_cancel h]

theorem roundTo_le (h : n < k * 2 ^ e) : roundTo e n ≤ k * 2 ^ e := by
  have hq : n / 2 ^ e < k := Nat.div_lt_of_lt_mul (Nat.mul_comm k _ ▸ h)
  rw [roundTo]
  split
  · exact Nat.mul_le_mul_right _ (Nat.le_of_lt hq)
  · exact Nat.mul_le_mul_right _ hq

theorem two_pow_excess_dvd (h : m < 2 ^ p) (e : ℕ) : 2 ^ excess p (m * 2 ^ e) ∣ m * 2 ^ e := by
  rcases Nat.eq_zero_or_pos m with rfl | hm
  · rw [Nat.zero_mul]
    exact Nat.dvd_zero _
  · have hne : m * 2 ^ e ≠ 0 := Nat.mul_ne_zero hm.ne' (Nat.two_pow_pos e).ne'
    have hlt : m * 2 ^ e < 2 ^ (p + e) := by
      rw [Nat.pow_add]
      exact Nat.mul_lt_mul_of_pos_right h (Nat.two_pow_pos e)
    have hlog := Nat.log_lt_of_lt_pow hne hlt
    have hle : excess p (m * 2 ^ e) ≤ e := by
      rw [excess]
      omega
    exact Nat.dvd_trans (Nat.pow_dvd_pow 2 hle) (Nat.dvd_mul_left _ _)

theorem round_of_lt (h : m < 2 ^ p) (e : ℕ) : round p (m * 2 ^ e) = m * 2 ^ e :=
  roundTo_of_dvd (two_pow_excess_dvd h e)

theorem round_le_two_pow (hp : 0 < p) (h : n ≤ 2 ^ k) : round p n ≤ 2 ^ k := by
  rcases Nat.lt_or_eq_of_le h with hlt | rfl
  · have hle : excess p n ≤ k := by
      rw [excess]
      rcases Nat.eq_zero_or_pos n with rfl | hn
      · rw [Nat.log_zero_right]
        omega
      · have hlog := Nat.log_lt_of_lt_pow hn.ne' hlt
        omega
    have hsplit : 2 ^ (k - excess p n) * 2 ^ excess p n = 2 ^ k := by
      rw [← Nat.pow_add, Nat.sub_add_cancel hle]
    rw [← hsplit] at hlt ⊢
    exact roundTo_le hlt
  · have hone := round_of_lt (m := 1) (Nat.one_lt_two_pow hp.ne') k
    rw [Nat.one_mul] at hone
    exact Nat.le_of_eq hone

end Rounding
