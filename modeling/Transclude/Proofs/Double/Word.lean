import Transclude.Proofs.Double.Integer

namespace Transclude

namespace Rank

variable {r : Rank} {n : ℕ}

/-- What rounding makes of an integer of at most 53 bits. -/
structure Holds (r : Rank) (n : ℕ) : Prop where
  finite : r ≠ infinity
  units : r.units = n * unitsPerOne

theorem holds_nearest (hn : n < 2 ^ 53) : (nearest (n * unitsPerOne) 1).Holds n := by
  obtain ⟨r, hr, h⟩ := exists_magnitude_eq hn
  rw [nearest_of_magnitude h]
  exact ⟨hr, magnitude_eq_iff.1 h⟩

theorem Holds.eq_zero_iff (h : r.Holds n) : r.val = 0 ↔ n = 0 := by
  have hmagnitude : r.magnitude = n := magnitude_eq_iff.2 h.units
  have hzero : r = zero ↔ n = 0 := by
    rw [← magnitude_strictMono.injective.eq_iff, magnitude_zero, hmagnitude, Nat.cast_eq_zero]
  rw [← hzero, Fin.ext_iff]
  rfl

theorem units_mod_of_le (h : 2 ^ 53 ≤ r.units / unitsPerOne) : r.units % unitsPerOne = 0 := by
  have hone := unitsPerOne_pos
  have hle : 2 ^ 53 * unitsPerOne ≤ r.units := (Nat.le_div_iff_mul_le hone).1 h
  have hmod := Nat.mod_lt r.val (show 0 < perBinade by decide)
  unfold units at hle ⊢
  split
  · next hlow =>
    rw [if_pos hlow] at hle
    unfold perBinade at hlow
    omega
  · next hhigh =>
    rw [if_neg hhigh] at hle
    have hpow : unitsPerOne < 2 ^ (r.val / perBinade - 1) := by
      have hlt : perBinade + r.val % perBinade < 2 ^ 53 := by
        unfold perBinade at *
        omega
      exact Nat.lt_of_mul_lt_mul_left
        (hle.trans_lt ((Nat.mul_lt_mul_right (Nat.two_pow_pos _)).2 hlt))
    obtain ⟨k, hk⟩ : ∃ k, unitsPerOne = 2 ^ k := ⟨1074, unitsPerOne_eq⟩
    rw [hk] at hpow ⊢
    have hdvd := Nat.pow_dvd_pow 2 ((Nat.pow_lt_pow_iff_right Nat.one_lt_two).1 hpow).le
    exact Nat.mod_eq_zero_of_dvd (hdvd.mul_left _)

theorem holds_trunc (hr : r ≠ infinity) :
    (nearest (r.units / unitsPerOne * unitsPerOne) 1).Holds (r.units / unitsPerOne) := by
  by_cases hlt : r.units / unitsPerOne < 2 ^ 53
  · exact holds_nearest hlt
  · have hwhole : r.units = r.units / unitsPerOne * unitsPerOne := by
      have hmod := units_mod_of_le (not_lt.1 hlt)
      have hdiv := Nat.div_add_mod' r.units unitsPerOne
      omega
    rw [nearest_of_magnitude (magnitude_eq_iff.2 hwhole)]
    exact ⟨hr, hwhole⟩

end Rank

namespace Double

variable {r s : Rank} {n m : ℕ}

theorem rem_of_holds (hr : r.Holds n) (hs : s.Holds m) (hm : m ≠ 0) (negative negative' : Bool) :
    (signed negative r).rem (signed negative' s) =
      signed negative (.nearest (n % m * unitsPerOne) 1) := by
  have hzero : s ≠ .zero := by
    rintro rfl
    exact hm (hs.eq_zero_iff.1 rfl)
  rw [rem, if_neg (by simp [hr.finite, hzero]), if_neg hs.finite, hr.units, hs.units,
    Nat.mul_mod_mul_right]

theorem compare?_zero_iff (hr : r.Holds n) (negative : Bool) :
    (signed negative r).compare? zero = some .lt ↔ negative = true ∧ n ≠ 0 := by
  have hcompare : (signed negative r).compare? zero =
      some (compare (signedRank negative r) 0) := rfl
  have hval := hr.eq_zero_iff
  rw [hcompare, Option.some_inj, compare_lt_iff_lt]
  cases negative with
  | false =>
    rw [signedRank]
    simp
  | true =>
    simp only [signedRank, true_and]
    omega

theorem add_of_holds (hr : r.Holds n) (hs : s.Holds m) (hlt : n < m) :
    (signed true r).add (signed false s) = signed false (.nearest ((m - n) * unitsPerOne) 1) := by
  have htotal : signedUnits true r + signedUnits false s = ((m - n) * unitsPerOne : ℕ) := by
    have hle := Nat.mul_le_mul_right unitsPerOne hlt.le
    simp only [signedUnits, hr.units, hs.units, Nat.sub_mul, Nat.cast_sub hle]
    simp only [if_true, Bool.false_eq_true, if_false]
    omega
  have hpos : 0 < (m - n) * unitsPerOne := Nat.mul_pos (Nat.sub_pos_of_lt hlt) unitsPerOne_pos
  rw [add, if_neg hr.finite, if_neg hs.finite, htotal]
  dsimp only
  rw [if_neg (by omega), Int.natAbs_natCast, decide_eq_false (by omega)]

theorem clampWord_of_holds (hr : r.Holds n) (hn : n < 2 ^ 32) :
    (signed false r).clampWord = BitVec.ofNat 32 n := by
  rw [clampWord, hr.units, Nat.mul_div_cancel n unitsPerOne_pos, min_eq_left (by simp; omega)]
  rfl

theorem toWord_eq (x : Double) :
    x.toWord = match x.trunc? with
      | none => 0
      | some n => BitVec.ofInt 32 n := by
  cases x with
  | nan => rfl
  | signed negative r =>
    by_cases hr : r = .infinity
    · simp [toWord, isFinite, trunc?, hr]
    have htrunc := Rank.holds_trunc hr
    have hword : (Rank.nearest (Nat.pow 2 32 * unitsPerOne) 1).Holds (2 ^ 32) :=
      Rank.holds_nearest (by decide)
    generalize hk : r.units / unitsPerOne = k at htrunc
    have hrest : (Rank.nearest (k % 2 ^ 32 * unitsPerOne) 1).Holds (k % 2 ^ 32) :=
      Rank.holds_nearest (by omega)
    have hrem : (signed negative r).trunc.rem (ofNat (Nat.pow 2 32)) =
        signed negative (.nearest (k % 2 ^ 32 * unitsPerOne) 1) := by
      rw [trunc, if_neg hr, hk, ofNat, rem_of_holds htrunc hword (by decide)]
    have hresult : (signed negative r).toWord =
        ((signed negative r).trunc.remEuclid (ofNat (Nat.pow 2 32))).clampWord := by
      simp [toWord, isFinite, hr]
    rw [hresult, remEuclid, hrem, trunc?, if_neg hr, hk]
    dsimp only
    by_cases hneg : negative = true ∧ k % 2 ^ 32 ≠ 0
    · obtain ⟨rfl, hne⟩ := hneg
      have hsum := Rank.holds_nearest (n := 2 ^ 32 - k % 2 ^ 32) (by omega)
      rw [if_pos ((compare?_zero_iff hrest true).2 ⟨rfl, hne⟩), ofNat, abs,
        add_of_holds hrest hword (by omega), clampWord_of_holds hsum (by omega)]
      refine BitVec.eq_of_toNat_eq ?_
      rw [BitVec.toNat_ofNat, BitVec.toNat_ofInt]
      simp only [if_true]
      omega
    · rw [if_neg (hneg ∘ (compare?_zero_iff hrest negative).1)]
      refine BitVec.eq_of_toNat_eq ?_
      cases negative with
      | false =>
        rw [clampWord_of_holds hrest (by omega), BitVec.toNat_ofNat, BitVec.toNat_ofInt]
        simp only [Bool.false_eq_true, if_false]
        omega
      | true =>
        have hzero : k % 2 ^ 32 = 0 := by simpa using hneg
        change 0 = (BitVec.ofInt 32 (-(k : ℤ))).toNat
        rw [BitVec.toNat_ofInt]
        omega

end Double

end Transclude
