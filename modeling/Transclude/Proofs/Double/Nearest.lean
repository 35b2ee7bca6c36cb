import Mathlib.Algebra.Order.Field.Rat
import Mathlib.Tactic.Linarith
import Mathlib.Tactic.Positivity
import Mathlib.Tactic.Ring
import Transclude.Double.Basic

namespace Transclude

/-- The magnitude at a place of the ranking in units, as if the ranks went on without end. -/
def unitsAt (n : ℕ) : ℕ :=
  (n - (n / Rank.perBinade - 1) * Rank.perBinade) * 2 ^ (n / Rank.perBinade - 1)

theorem unitsAt_add {s m : ℕ} (hm : m ≤ 2 * Rank.perBinade) (hs : s = 0 ∨ Rank.perBinade ≤ m) :
    unitsAt (s * Rank.perBinade + m) = m * 2 ^ s := by
  unfold unitsAt
  obtain hlow | hmid | rfl : m < Rank.perBinade ∨
      (Rank.perBinade ≤ m ∧ m < 2 * Rank.perBinade) ∨ m = 2 * Rank.perBinade := by omega
  · obtain rfl : s = 0 := by omega
    simp [Nat.div_eq_of_lt hlow]
  · have hdiv : (s * Rank.perBinade + m) / Rank.perBinade - 1 = s := by
      unfold Rank.perBinade at *
      omega
    rw [hdiv, Nat.add_sub_cancel_left]
  · -- The end of a binade is the beginning of the next one.
    have hdiv : (s * Rank.perBinade + 2 * Rank.perBinade) / Rank.perBinade - 1 = s + 1 := by
      unfold Rank.perBinade
      omega
    have hsub : s * Rank.perBinade + 2 * Rank.perBinade - (s + 1) * Rank.perBinade =
        Rank.perBinade := by
      unfold Rank.perBinade
      omega
    rw [hdiv, hsub]
    ring

theorem exists_eq_add (n : ℕ) :
    ∃ m, n = (n / Rank.perBinade - 1) * Rank.perBinade + m ∧ m < 2 * Rank.perBinade ∧
      (n / Rank.perBinade - 1 = 0 ∨ Rank.perBinade ≤ m) := by
  refine ⟨n - (n / Rank.perBinade - 1) * Rank.perBinade, ?_⟩
  unfold Rank.perBinade
  omega

theorem unitsAt_succ (n : ℕ) : unitsAt (n + 1) = unitsAt n + 2 ^ (n / Rank.perBinade - 1) := by
  obtain ⟨m, hn, hm, hs⟩ := exists_eq_add n
  generalize n / Rank.perBinade - 1 = s at hn hs
  subst hn
  rw [Nat.add_assoc, unitsAt_add hm (by omega), unitsAt_add hm.le hs, Nat.succ_mul]

theorem unitsAt_strictMono : StrictMono unitsAt := by
  apply strictMono_nat_of_lt_succ
  intro n
  rw [unitsAt_succ]
  exact Nat.lt_add_of_pos_right (Nat.two_pow_pos _)

theorem Rank.units_eq (r : Rank) : r.units = unitsAt r.val := by
  unfold Rank.units unitsAt
  split
  · next h => simp [Nat.div_eq_of_lt h]
  · next h =>
    have hr := Nat.div_add_mod r.val perBinade
    congr 1
    unfold perBinade at *
    omega

/-- `m` is nearest to `num / den`, and it is even if another natural is as near. -/
structure RoundsTo (num den m : ℕ) : Prop where
  above : 2 * num ≤ 2 * (m * den) + den
  below : 2 * (m * den) ≤ 2 * num + den
  even : 2 * num = 2 * (m * den) + den ∨ 2 * (m * den) = 2 * num + den → m % 2 = 0

variable {num den n s m t : ℕ}

theorem roundDiv_cases (num den : ℕ) :
    roundDiv num den = num / den ∨ roundDiv num den = num / den + 1 := by
  unfold roundDiv
  dsimp only
  split
  · exact .inl rfl
  · split
    · exact .inr rfl
    · omega

theorem roundsTo_roundDiv (hden : 0 < den) : RoundsTo num den (roundDiv num den) := by
  have hnum : num / den * den + num % den = num := Nat.div_add_mod' num den
  have hlt := Nat.mod_lt num hden
  have hsucc := Nat.add_one_mul (num / den) den
  unfold roundDiv
  dsimp only
  generalize num / den = q at *
  generalize num % den = r at *
  split
  · constructor <;> omega
  · split
    · constructor <;> omega
    · obtain hq | hq := Nat.mod_two_eq_zero_or_one q
      · rw [hq, Nat.add_zero]
        constructor <;> omega
      · rw [hq]
        constructor <;> omega

def place (num den : ℕ) : ℕ :=
  let s := Nat.log2 (num / den) - 52
  s * Rank.perBinade + roundDiv num (den * 2 ^ s)

theorem Rank.nearest_eq (num den : ℕ) : Rank.nearest num den = .ofNat (place num den) := rfl

/-- The place `n` is the rounded quotient `m` in the binade with steps of `2 ^ s` units. -/
structure Placed (num den n s m : ℕ) : Prop where
  eq : n = s * Rank.perBinade + m
  le : m ≤ 2 * Rank.perBinade
  normal : s = 0 ∨ Rank.perBinade ≤ m ∧ Rank.perBinade * 2 ^ s * den ≤ num
  rounds : RoundsTo num (den * 2 ^ s) m

theorem exists_placed (num : ℕ) (hden : 0 < den) :
    ∃ s m, Placed num den (place num den) s m := by
  have hpow : Rank.perBinade = 2 ^ 52 := rfl
  unfold place
  dsimp only
  generalize hs : Nat.log2 (num / den) - 52 = s
  have hfloor : num / (den * 2 ^ s) = num / den / 2 ^ s := (Nat.div_div_eq_div_mul ..).symm
  have hcases := roundDiv_cases num (den * 2 ^ s)
  rw [hfloor] at hcases
  have hbelow : num / den / 2 ^ s < 2 * Rank.perBinade := by
    have hlt : num / den < 2 ^ (Nat.log2 (num / den) + 1) := Nat.lt_log2_self
    have hle : 2 ^ (Nat.log2 (num / den) + 1) ≤ 2 ^ (53 + s) :=
      Nat.pow_le_pow_right Nat.two_pos (by omega)
    rw [Nat.pow_add 2 53] at hle
    exact (Nat.div_lt_iff_lt_mul (Nat.two_pow_pos _)).2 (hlt.trans_le hle)
  refine ⟨s, _, rfl, by omega, ?_, roundsTo_roundDiv (Nat.mul_pos hden (Nat.two_pow_pos s))⟩
  by_cases hzero : s = 0
  · exact .inl hzero
  · have hne : num / den ≠ 0 := by
      intro h
      rw [h] at hs
      exact hzero hs.symm
    have hleast : Rank.perBinade * 2 ^ s ≤ num / den := by
      have hlog : 52 + s = Nat.log2 (num / den) := by omega
      rw [hpow, ← Nat.pow_add, hlog]
      exact Nat.log2_self_le hne
    have hlow := (Nat.le_div_iff_mul_le (Nat.two_pow_pos s)).2 hleast
    exact .inr ⟨by omega, (Nat.le_div_iff_mul_le hden).1 hleast⟩

namespace Placed

theorem units_eq (h : Placed num den n s m) : unitsAt n = m * 2 ^ s := by
  rw [h.eq]
  exact unitsAt_add h.le (h.normal.imp_right And.left)

theorem units_mul (h : Placed num den n s m) : unitsAt n * den = m * (den * 2 ^ s) := by
  rw [h.units_eq]
  ring

theorem mod_two (h : Placed num den n s m) : n % 2 = m % 2 := by
  have heq := h.eq
  unfold Rank.perBinade at heq
  omega

theorem above (h : Placed num den n s m) (ht : n < t) :
    2 * num ≤ (unitsAt n + unitsAt t) * den ∧
      (2 * num = (unitsAt n + unitsAt t) * den → n % 2 = 0) := by
  have hgap : unitsAt n + 2 ^ s ≤ unitsAt t := by
    have hmono := unitsAt_strictMono.monotone (Nat.succ_le_of_lt ht)
    rw [unitsAt_succ] at hmono
    refine le_trans (Nat.add_le_add_left (Nat.pow_le_pow_right Nat.two_pos ?_) _) hmono
    have heq := h.eq
    have hnormal := h.normal.imp_right And.left
    unfold Rank.perBinade at *
    omega
  have hscaled := Nat.mul_le_mul_right den hgap
  have hunits := h.units_mul
  have habove := h.rounds.above
  rw [Nat.add_mul, Nat.mul_comm (2 ^ s)] at hscaled
  rw [Nat.add_mul, h.mod_two]
  refine ⟨by omega, ?_⟩
  intro heq
  exact h.rounds.even (.inl (by omega))

theorem below (h : Placed num den n s m) (ht : t < n) :
    (unitsAt t + unitsAt n) * den ≤ 2 * num ∧
      ((unitsAt t + unitsAt n) * den = 2 * num → n % 2 = 0) := by
  have hunits := h.units_mul
  rw [Nat.add_mul, h.mod_two]
  by_cases hedge : s ≠ 0 ∧ m = Rank.perBinade
  · -- Below a power of two the steps are half as wide, but no quotient below it was rounded to it.
    obtain ⟨hs, rfl⟩ := hedge
    have hlt := Nat.mul_le_mul_right den (unitsAt_strictMono ht).le
    have hnum : unitsAt n * den ≤ num := by
      rw [h.units_eq]
      exact (h.normal.resolve_left hs).2
    exact ⟨by omega, fun _ ↦ rfl⟩
  · have hgap : unitsAt t + 2 ^ s ≤ unitsAt n := by
      obtain ⟨p, rfl⟩ : ∃ p, n = p + 1 := ⟨n - 1, by omega⟩
      have hmono := unitsAt_strictMono.monotone (Nat.le_of_lt_succ ht)
      rw [unitsAt_succ]
      refine Nat.add_le_add hmono (Nat.pow_le_pow_right Nat.two_pos ?_)
      have heq := h.eq
      have hnormal := h.normal.imp_right And.left
      unfold Rank.perBinade at *
      omega
    have hscaled := Nat.mul_le_mul_right den hgap
    have hbelow := h.rounds.below
    rw [Nat.add_mul, Nat.mul_comm (2 ^ s)] at hscaled
    refine ⟨by omega, ?_⟩
    intro heq
    exact h.rounds.even (.inr (by omega))

end Placed

theorem unitsPerOne_eq : unitsPerOne = 2 ^ 1074 := by
  unfold unitsPerOne
  generalize 1074 = k
  rfl

theorem unitsPerOne_pos : 0 < unitsPerOne := by
  rw [unitsPerOne_eq]
  generalize 1074 = k
  exact Nat.two_pow_pos k

theorem unitsPerOne_cast_pos : (0 : ℚ) < unitsPerOne := by
  exact_mod_cast unitsPerOne_pos

namespace Rank

/-- The number that a rank stands for. Infinity counts as the first power of two beyond the finite
doubles: what lies nearer to that power than to any of them is rounded to it. -/
def magnitude (r : Rank) : ℚ := r.units / unitsPerOne

/-- No double lies nearer to the number, and the rank is even if another one lies as near. -/
structure IsNearest (q : ℚ) (r : Rank) : Prop where
  le : ∀ s : Rank, |r.magnitude - q| ≤ |s.magnitude - q|
  even : ∀ s : Rank, s ≠ r → |s.magnitude - q| = |r.magnitude - q| → r.val % 2 = 0

theorem magnitude_strictMono : StrictMono magnitude := by
  intro r s hrs
  have hunits : (r.units : ℚ) < s.units := by
    rw [units_eq, units_eq]
    exact_mod_cast unitsAt_strictMono hrs
  have hone := unitsPerOne_cast_pos
  exact div_lt_div_of_pos_right hunits hone

variable {q : ℚ} {r s : Rank}

theorem isNearest_of_midpoints
    (hbelow : ∀ s < r, s.magnitude + r.magnitude ≤ 2 * q ∧
      (s.magnitude + r.magnitude = 2 * q → r.val % 2 = 0))
    (habove : ∀ s, r < s → 2 * q ≤ r.magnitude + s.magnitude ∧
      (2 * q = r.magnitude + s.magnitude → r.val % 2 = 0)) : IsNearest q r := by
  constructor
  · intro s
    rcases lt_trichotomy s r with hs | rfl | hs
    · have hlt := magnitude_strictMono hs
      have hmid := (hbelow s hs).1
      rw [abs_of_nonpos (show s.magnitude - q ≤ 0 by linarith), abs_le]
      constructor <;> linarith
    · exact le_refl _
    · have hlt := magnitude_strictMono hs
      have hmid := (habove s hs).1
      rw [abs_of_nonneg (show 0 ≤ s.magnitude - q by linarith), abs_le]
      constructor <;> linarith
  · intro s hne heq
    -- Two numbers at the same distance lie on both sides of the third one.
    have hsum : s.magnitude + r.magnitude = 2 * q := by
      rcases abs_eq_abs.1 heq with h | h
      · exact absurd (magnitude_strictMono.injective (by linarith)) hne
      · linarith
    rcases lt_or_gt_of_ne hne with hs | hs
    · exact (hbelow s hs).2 hsum
    · exact (habove s hs).2 (by linarith)

/-- Of two nearest ranks one would be odd, or a third one would lie between them. -/
theorem IsNearest.unique (hr : IsNearest q r) (hs : IsNearest q s) : r = s := by
  by_contra hne
  wlog hlt : r < s generalizing r s
  · exact this hs hr (Ne.symm hne) (lt_of_le_of_ne (not_lt.1 hlt) (Ne.symm hne))
  have heq : |r.magnitude - q| = |s.magnitude - q| := le_antisymm (hr.le s) (hs.le r)
  have hrs := magnitude_strictMono hlt
  have hsum : r.magnitude + s.magnitude = 2 * q := by
    rcases abs_eq_abs.1 heq with h | h <;> linarith
  have hreven := hr.even s (Ne.symm hne) heq.symm
  have hseven := hs.even r hne heq
  obtain ⟨t, hrt, hts⟩ : ∃ t : Rank, r < t ∧ t < s := by
    have hval : r.val < s.val := hlt
    refine ⟨⟨r.val + 1, by omega⟩, ?_, ?_⟩
    · exact Nat.lt_succ_self r.val
    · show r.val + 1 < s.val
      omega
  have hrt := magnitude_strictMono hrt
  have hts := magnitude_strictMono hts
  have hcloser : |t.magnitude - q| < |r.magnitude - q| := by
    rw [abs_of_nonpos (show r.magnitude - q ≤ 0 by linarith), abs_lt]
    constructor <;> linarith
  exact absurd (hr.le t) (not_le.2 hcloser)

theorem isNearest_magnitude (r : Rank) : IsNearest r.magnitude r := by
  constructor
  · intro s
    rw [sub_self, abs_zero]
    exact abs_nonneg _
  · intro s hne heq
    rw [sub_self, abs_zero, abs_eq_zero, sub_eq_zero] at heq
    exact absurd (magnitude_strictMono.injective heq) hne

theorem magnitude_add_mul (r s : Rank) :
    (r.magnitude + s.magnitude) * (den * unitsPerOne) =
      ((unitsAt r.val + unitsAt s.val) * den : ℕ) := by
  have hone := unitsPerOne_cast_pos.ne'
  rw [magnitude, magnitude, ← add_div, mul_comm (den : ℚ), ← mul_assoc, div_mul_cancel₀ _ hone,
    units_eq, units_eq]
  push_cast
  rfl

theorem isNearest_of_units (hden : 0 < den)
    (hbelow : ∀ t < r.val, (unitsAt t + unitsAt r.val) * den ≤ 2 * num ∧
      ((unitsAt t + unitsAt r.val) * den = 2 * num → r.val % 2 = 0))
    (habove : ∀ t, r.val < t → t ≤ infinityRank → 2 * num ≤ (unitsAt r.val + unitsAt t) * den ∧
      (2 * num = (unitsAt r.val + unitsAt t) * den → r.val % 2 = 0)) :
    IsNearest (num / (den * unitsPerOne)) r := by
  have hscale : (0 : ℚ) < den * unitsPerOne := by
    exact_mod_cast Nat.mul_pos hden unitsPerOne_pos
  have hq : 2 * (num / (den * unitsPerOne)) * (den * unitsPerOne) = ((2 * num : ℕ) : ℚ) := by
    rw [mul_assoc, div_mul_cancel₀ _ hscale.ne']
    push_cast
    rfl
  apply isNearest_of_midpoints
  · intro s hs
    rw [← mul_le_mul_iff_left₀ hscale, ← mul_left_inj' hscale.ne', magnitude_add_mul, hq]
    exact_mod_cast hbelow s.val hs
  · intro s hs
    rw [← mul_le_mul_iff_left₀ hscale, ← mul_left_inj' hscale.ne', magnitude_add_mul, hq]
    exact_mod_cast habove s.val hs (Nat.le_of_lt_succ s.isLt)

/-- Rounding gives the double nearest to a quotient of units. -/
theorem isNearest_nearest (hden : 0 < den) :
    IsNearest (num / (den * unitsPerOne)) (nearest num den) := by
  obtain ⟨s, m, hplaced⟩ := exists_placed num hden
  rw [nearest_eq]
  generalize place num den = n at hplaced
  by_cases hn : n ≤ infinityRank
  · have hval : (ofNat n).val = n := Nat.min_eq_left hn
    apply isNearest_of_units hden
    · intro t ht
      rw [hval] at ht ⊢
      exact hplaced.below ht
    · intro t ht _
      rw [hval] at ht ⊢
      exact hplaced.above ht
  · -- What is placed beyond infinity lies at infinity or beyond it.
    have hlt := Nat.lt_of_not_le hn
    have hval : (ofNat n).val = infinityRank := Nat.min_eq_right hlt.le
    apply isNearest_of_units hden
    · intro t ht
      rw [hval] at ht ⊢
      have hmono := unitsAt_strictMono (ht.trans hlt)
      refine ⟨le_trans (Nat.mul_le_mul_right den ?_) (hplaced.below hlt).1, fun _ ↦ rfl⟩
      omega
    · intro t ht hle
      rw [hval] at ht
      omega

end Rank

end Transclude
