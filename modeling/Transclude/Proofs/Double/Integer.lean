import Mathlib.Algebra.Order.Floor.Ring
import Mathlib.Data.Rat.Floor
import Transclude.Double.Arithmetic
import Transclude.Proofs.Double.Nearest

namespace Transclude

namespace Rank

variable {r : Rank} {n : ℕ}

theorem val_infinity : infinity.val = infinityRank := Nat.min_self _

theorem ne_infinity_iff : r ≠ infinity ↔ r.val < infinityRank := by
  have hlt := r.isLt
  have hinfinity := val_infinity
  rw [ne_eq, Fin.ext_iff]
  omega

theorem magnitude_nonneg (r : Rank) : 0 ≤ r.magnitude := by
  unfold magnitude
  positivity

theorem magnitude_zero : zero.magnitude = 0 := by
  have hunits : zero.units = 0 := rfl
  rw [magnitude, hunits, Nat.cast_zero, zero_div]

theorem magnitude_eq_iff : r.magnitude = n ↔ r.units = n * unitsPerOne := by
  have hone := unitsPerOne_cast_pos.ne'
  rw [magnitude, div_eq_iff hone]
  exact_mod_cast Iff.rfl

theorem exists_magnitude_eq (hn : n < 2 ^ 53) : ∃ r : Rank, r ≠ infinity ∧ r.magnitude = n := by
  obtain rfl | hpos := Nat.eq_zero_or_pos n
  · exact ⟨zero, by decide, magnitude_zero⟩
  have hlog : Nat.log2 n < 53 := (Nat.log2_lt hpos.ne').2 hn
  -- Scaled to 53 bits, the natural is a place in its binade.
  have hlow : 2 ^ 52 ≤ n * 2 ^ (52 - Nat.log2 n) := by
    have hself := Nat.mul_le_mul_right (2 ^ (52 - Nat.log2 n)) (Nat.log2_self_le hpos.ne')
    rwa [← Nat.pow_add, Nat.add_sub_cancel' (by omega)] at hself
  have hhigh : n * 2 ^ (52 - Nat.log2 n) < 2 ^ 53 := by
    have hscale := Nat.two_pow_pos (52 - Nat.log2 n)
    have hself := (Nat.mul_lt_mul_right hscale).2 (Nat.lt_log2_self (n := n))
    rwa [← Nat.pow_add, show Nat.log2 n + 1 + (52 - Nat.log2 n) = 53 by omega] at hself
  have hplace : (1022 + Nat.log2 n) * perBinade + n * 2 ^ (52 - Nat.log2 n) < infinityRank := by
    unfold perBinade infinityRank
    omega
  refine ⟨⟨_, hplace.trans (Nat.lt_succ_self _)⟩, ne_infinity_iff.2 hplace, ?_⟩
  have hunits : unitsAt ((1022 + Nat.log2 n) * perBinade + n * 2 ^ (52 - Nat.log2 n)) =
      n * unitsPerOne := by
    rw [unitsAt_add hhigh.le (.inr hlow), Nat.mul_assoc, ← Nat.pow_add, unitsPerOne_eq]
    congr 2
    omega
  rw [magnitude_eq_iff, units_eq]
  exact hunits

theorem isNearest_natCast (n : ℕ) : IsNearest n (nearest (n * unitsPerOne) 1) := by
  have hone := unitsPerOne_cast_pos.ne'
  have h : IsNearest ((n * unitsPerOne : ℕ) / ((1 : ℕ) * unitsPerOne))
      (nearest (n * unitsPerOne) 1) :=
    isNearest_nearest Nat.one_pos
  rwa [Nat.cast_mul, Nat.cast_one, one_mul, mul_div_cancel_right₀ _ hone] at h

theorem nearest_of_magnitude (h : r.magnitude = n) : nearest (n * unitsPerOne) 1 = r := by
  have hself := isNearest_magnitude r
  rw [h] at hself
  exact (isNearest_natCast n).unique hself

end Rank

def integerPart (q : ℚ) : ℤ := if q < 0 then ⌈q⌉ else ⌊q⌋

namespace Double

/-- The double of a sign that is nearest to a number, of which the magnitude is given. -/
inductive Rounds (negative : Bool) (q : ℚ) : Double → Prop
  | nearest {r : Rank} : r.IsNearest q → Rounds negative q (.signed negative r)

theorem Rounds.unique {negative : Bool} {q : ℚ} {x y : Double} (hx : Rounds negative q x)
    (hy : Rounds negative q y) : x = y := by
  obtain ⟨hr⟩ := hx
  obtain ⟨hs⟩ := hy
  rw [hr.unique hs]

theorem Rounds.ne_nan {negative : Bool} {q : ℚ} {x : Double} (h : Rounds negative q x) :
    x ≠ .nan := by
  obtain ⟨-⟩ := h
  exact Double.noConfusion

theorem rounds_ofNat (n : ℕ) : Rounds false n (ofNat n) :=
  .nearest (Rank.isNearest_natCast n)

def toRat? : Double → Option ℚ
  | .nan => none
  | .signed negative rank =>
    if rank = .infinity then none
    else some (if negative then -rank.magnitude else rank.magnitude)

theorem toRat?_ofInt_of_magnitude {n : ℤ} {r : Rank} (hr : r ≠ .infinity)
    (h : r.magnitude = n.natAbs) : (ofInt n).toRat? = some (n : ℚ) := by
  rw [ofInt, Rank.nearest_of_magnitude h, toRat?, if_neg hr, h]
  congr 1
  by_cases hneg : n < 0
  · have habs : (n.natAbs : ℤ) = -n := Int.ofNat_natAbs_of_nonpos hneg.le
    rw [if_pos (by simpa using hneg), ← Int.cast_natCast, habs, Int.cast_neg, neg_neg]
  · have habs : (n.natAbs : ℤ) = n := Int.natAbs_of_nonneg (not_lt.1 hneg)
    rw [if_neg (by simpa using hneg), ← Int.cast_natCast, habs]

theorem toRat?_ofInt {n : ℤ} (hn : n.natAbs < 2 ^ 53) : (ofInt n).toRat? = some (n : ℚ) := by
  obtain ⟨r, hr, h⟩ := Rank.exists_magnitude_eq hn
  exact toRat?_ofInt_of_magnitude hr h

theorem toRat?_ofNat {n : ℕ} (hn : n < 2 ^ 53) : (ofNat n).toRat? = some (n : ℚ) := by
  obtain ⟨r, hr, h⟩ := Rank.exists_magnitude_eq hn
  rw [ofNat, Rank.nearest_of_magnitude h, toRat?, if_neg hr, h]
  rfl

theorem exists_signed {x : Double} {n : ℤ} (hx : x.toRat? = some (n : ℚ)) :
    ∃ negative r, x = .signed negative r ∧ r ≠ .infinity ∧ r.magnitude = n.natAbs := by
  cases x with
  | nan => cases hx
  | signed negative r =>
    rw [toRat?] at hx
    split at hx
    · cases hx
    · next hr =>
      refine ⟨negative, r, rfl, hr, ?_⟩
      rw [Nat.cast_natAbs, Int.cast_abs, ← Option.some.inj hx, ← abs_of_nonneg r.magnitude_nonneg]
      cases negative <;> simp

theorem isInteger_of_magnitude {r : Rank} {k : ℕ} (hr : r ≠ .infinity) (h : r.magnitude = k)
    (negative : Bool) : (signed negative r).isInteger = true := by
  rw [isInteger, Rank.magnitude_eq_iff.1 h, Nat.mul_mod_left, bne_iff_ne.2 hr]
  rfl

theorem floor_magnitude (r : Rank) : ⌊r.magnitude⌋ = ((r.units / unitsPerOne : ℕ) : ℤ) := by
  rw [Rank.magnitude, Rat.floor_natCast_div_natCast]
  rfl

theorem trunc?_eq (x : Double) : x.trunc? = x.toRat?.map integerPart := by
  cases x with
  | nan => rfl
  | signed negative r =>
    unfold trunc? toRat?
    dsimp only
    split
    · rfl
    · have hnonneg := r.magnitude_nonneg
      rw [Option.map_some, integerPart, ← floor_magnitude]
      cases negative with
      | false => simp [not_lt.2 hnonneg]
      | true =>
        obtain hzero | hpos := hnonneg.eq_or_lt
        · simp [← hzero]
        · simp [hpos, Int.ceil_neg]

end Double

end Transclude
