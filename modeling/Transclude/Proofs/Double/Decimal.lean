import Mathlib.Algebra.Order.Field.Power
import Transclude.Double.Decimal
import Transclude.Proofs.Double.Integer

namespace Transclude

namespace Rank

variable {q : ℚ}

theorem magnitude_infinity_le {k : ℕ} (h : infinity.units ≤ 10 ^ k * unitsPerOne) :
    infinity.magnitude ≤ 10 ^ k := by
  have hone := unitsPerOne_cast_pos
  rw [magnitude, div_le_iff₀ hone]
  exact_mod_cast h

theorem isNearest_infinity (h : infinity.magnitude ≤ q) : IsNearest q infinity := by
  apply isNearest_of_midpoints
  · intro s hs
    have hlt := magnitude_strictMono hs
    exact ⟨by linarith, fun heq ↦ by linarith⟩
  · intro s hs
    have hval := val_infinity
    have hlt : infinity.val < s.val := hs
    have hle := s.isLt
    omega

theorem isNearest_zero (h : 2 * q * unitsPerOne < 1) : IsNearest q zero := by
  have hone := unitsPerOne_cast_pos
  apply isNearest_of_midpoints
  · intro s hs
    exact absurd hs (Nat.not_lt_zero _)
  · intro s hs
    have hunits : 1 ≤ s.units := by
      have hmono := unitsAt_strictMono (show zero.val < s.val from hs)
      rw [← units_eq, ← units_eq] at hmono
      exact Nat.succ_le_of_lt (Nat.zero_lt_of_lt hmono)
    have hleast : 1 ≤ s.magnitude * unitsPerOne := by
      rw [magnitude, div_mul_cancel₀ _ hone.ne']
      exact_mod_cast hunits
    have hlt : 2 * q < s.magnitude := by
      rw [← mul_lt_mul_iff_left₀ hone]
      linarith
    rw [magnitude_zero, zero_add]
    exact ⟨hlt.le, fun heq ↦ by linarith⟩

end Rank

namespace Decimal

def number (d : Decimal) : ℚ := d.digits * 10 ^ d.exponent

variable {n : ℕ}

theorem lt_pow_digitCount (n : ℕ) : n < 10 ^ digitCount n :=
  (Nat.length_toDigits_le_iff (by decide) Nat.length_toDigits_pos).1 le_rfl

theorem pow_digitCount_le (hn : n ≠ 0) : 10 ^ (digitCount n - 1) ≤ n := by
  by_contra hlt
  by_cases hone : digitCount n - 1 = 0
  · rw [hone, pow_zero] at hlt
    omega
  · have hle := (Nat.length_toDigits_le_iff (by decide) (Nat.pos_of_ne_zero hone)).2 (not_le.1 hlt)
    unfold digitCount at *
    omega

variable {d : Decimal}

theorem number_lt (d : Decimal) : d.number < 10 ^ ((digitCount d.digits : ℤ) + d.exponent) := by
  have hten : (0 : ℚ) < 10 ^ d.exponent := by positivity
  have hlt : (d.digits : ℚ) < 10 ^ digitCount d.digits := by
    exact_mod_cast lt_pow_digitCount d.digits
  rw [number, zpow_add₀ (by norm_num), zpow_natCast]
  exact mul_lt_mul_of_pos_right hlt hten

theorem le_number (hd : d.digits ≠ 0) :
    10 ^ ((digitCount d.digits : ℤ) - 1 + d.exponent) ≤ d.number := by
  have hten : (0 : ℚ) ≤ 10 ^ d.exponent := by positivity
  have hpos : 0 < digitCount d.digits := Nat.length_toDigits_pos
  have hle : (10 : ℚ) ^ (digitCount d.digits - 1) ≤ d.digits := by
    exact_mod_cast pow_digitCount_le hd
  have hexponent : (digitCount d.digits : ℤ) - 1 = (digitCount d.digits - 1 : ℕ) := by omega
  rw [number, hexponent, zpow_add₀ (by norm_num), zpow_natCast]
  exact mul_le_mul_of_nonneg_right hle hten

theorem isNearest_infinity (hd : d.digits ≠ 0)
    (hlarge : 311 < (digitCount d.digits : ℤ) + d.exponent) :
    Rank.infinity.IsNearest d.number := by
  apply Rank.isNearest_infinity
  calc Rank.infinity.magnitude ≤ 10 ^ 311 := Rank.magnitude_infinity_le (by decide +kernel)
    _ = 10 ^ (311 : ℤ) := (zpow_natCast 10 311).symm
    _ ≤ 10 ^ ((digitCount d.digits : ℤ) - 1 + d.exponent) :=
      zpow_le_zpow_right₀ (by norm_num) (by omega)
    _ ≤ d.number := le_number hd

theorem isNearest_zero (hsmall : (digitCount d.digits : ℤ) + d.exponent < -330) :
    Rank.zero.IsNearest d.number := by
  apply Rank.isNearest_zero
  have hlt : d.number < 10 ^ (-331 : ℤ) :=
    d.number_lt.trans_le (zpow_le_zpow_right₀ (by norm_num) (by omega))
  have hcast : ∀ k, 2 * unitsPerOne ≤ 10 ^ k → 2 * (unitsPerOne : ℚ) ≤ 10 ^ k := by
    intro k h
    exact_mod_cast h
  have hpow := hcast 331 (by decide +kernel)
  have hunits : (0 : ℚ) < 2 * unitsPerOne := by
    exact_mod_cast Nat.mul_pos Nat.two_pos unitsPerOne_pos
  calc 2 * d.number * unitsPerOne = d.number * (2 * unitsPerOne) := by ring
    _ < 10 ^ (-331 : ℤ) * (2 * unitsPerOne) := mul_lt_mul_of_pos_right hlt hunits
    _ ≤ 10 ^ (-331 : ℤ) * 10 ^ 331 := mul_le_mul_of_nonneg_left hpow (by positivity)
    _ = 1 := by rw [← zpow_natCast, ← zpow_add₀ (by norm_num)]; rfl

theorem number_of_neg (h : d.exponent < 0) :
    d.number = (d.digits * unitsPerOne : ℕ) /
      ((Nat.pow 10 (-d.exponent).toNat : ℕ) * (unitsPerOne : ℚ)) := by
  have hone := unitsPerOne_cast_pos.ne'
  have hexponent : d.exponent = -((-d.exponent).toNat : ℤ) := by omega
  rw [Nat.cast_mul, mul_div_mul_right _ _ hone, number]
  nth_rewrite 1 [hexponent]
  rw [zpow_neg, zpow_natCast, Nat.pow_eq, Nat.cast_pow, div_eq_mul_inv]
  rfl

theorem number_of_nonneg (h : 0 ≤ d.exponent) :
    d.number = (d.digits * Nat.pow 10 d.exponent.toNat * unitsPerOne : ℕ) /
      ((1 : ℕ) * (unitsPerOne : ℚ)) := by
  have hone := unitsPerOne_cast_pos.ne'
  have hexponent : d.exponent = (d.exponent.toNat : ℤ) := by omega
  rw [Nat.cast_mul, Nat.cast_one, one_mul, mul_div_cancel_right₀ _ hone, Nat.cast_mul, number]
  nth_rewrite 1 [hexponent]
  rw [zpow_natCast, Nat.pow_eq, Nat.cast_pow]
  rfl

theorem isNearest_nearest (d : Decimal) : d.nearest.IsNearest d.number := by
  unfold nearest
  dsimp only
  split
  · next hzero =>
    have hnumber : d.number = Rank.zero.magnitude := by
      rw [number, hzero, Nat.cast_zero, zero_mul, Rank.magnitude_zero]
    rw [hnumber]
    exact Rank.isNearest_magnitude _
  · next hdigits =>
    split
    · next hlarge => exact isNearest_infinity hdigits hlarge
    · split
      · next hsmall => exact isNearest_zero hsmall
      · split
        · next hneg =>
          rw [number_of_neg hneg]
          exact Rank.isNearest_nearest (Nat.pow_pos (by decide))
        · next hnonneg =>
          rw [number_of_nonneg (not_lt.1 hnonneg)]
          exact Rank.isNearest_nearest Nat.one_pos

end Decimal

end Transclude
