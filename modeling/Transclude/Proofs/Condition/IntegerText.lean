import Transclude.Condition.Basic
import Transclude.Proofs.Condition.Coercion

namespace Transclude

open Text Numeral

variable {x y : Double} {n m : ℤ}

theorem isNatural_toDigits (n : ℕ) : IsNatural 10 (Nat.toDigits 10 n) n := by
  have hdigits : List.Forall₂ (Digit 10) (Nat.toDigits 10 n)
      ((Nat.toDigits 10 n).map digitValue) := by
    rw [List.forall₂_map_right_iff, List.forall₂_same]
    intro c hc
    refine digit_ten.2 ⟨?_, rfl⟩
    exact Nat.isDigit_of_mem_toDigits (by decide) (by decide) hc
  refine ⟨_, ⟨Nat.toDigits_ne_nil, hdigits⟩, ?_⟩
  rw [← foldl_eq_value, ← digitsValue_eq hdigits]
  exact Nat.ofDigitChars_ten_toDigits.symm

theorem toList_toString (n : ℤ) :
    ∃ sign, IsSign sign (n < 0) ∧
      (toString n).toList = sign ++ Nat.toDigits 10 n.natAbs := by
  rw [Int.toString_eq_repr, Int.repr_eq_if]
  by_cases hn : 0 ≤ n
  · refine ⟨[], ?_, ?_⟩
    · rw [decide_eq_false (not_lt.2 hn)]
      exact .absent
    · have habs : n.toNat = n.natAbs := by omega
      rw [if_pos hn, Nat.toList_repr, List.nil_append, habs]
  · refine ⟨['-'], ?_, ?_⟩
    · rw [decide_eq_true (lt_of_not_ge hn)]
      exact .minus
    · have habs : (-n).toNat = n.natAbs := by omega
      rw [if_neg hn, String.toList_append, Nat.toList_repr, habs]
      rfl

theorem isBlank_of_isDecimal {c : Char} (h : isDecimal c = true) : isBlank c = false := by
  rcases isDecimal_cases h with hdigit | rfl | rfl | rfl | rfl | rfl | rfl
  · exact (Literal.plain_of_isDigit hdigit).2
  all_goals decide

theorem numberOfText_toString (n : ℤ) : numberOfText (toString n) = .ofInt n := by
  obtain ⟨sign, hsign, htext⟩ := toList_toString n
  obtain ⟨ds, hds, hvalue⟩ := isNatural_toDigits n.natAbs
  have hq : Denotes (Digits 10) (Digits 10) (Nat.toDigits 10 n.natAbs) (value 10 ds) :=
    .of_whole hds
  rw [← hvalue] at hq
  apply numberOfText_of_reads
  have hblank := fun c hc ↦ isBlank_of_isDecimal (isDecimal_of_signed hsign hq c hc)
  rw [htext, trimChars_eq_self hblank]
  exact .decimal hsign hq (.nearest (Rank.isNearest_natCast _))

theorem textOfNumber_of_integer (hx : x.toRat? = some (n : ℚ)) (hn : n.natAbs < 10 ^ 21) :
    textOfNumber x = toString (clampWord n) := by
  have htrunc : x.trunc? = some n := by
    rw [Double.trunc?_eq, hx, Option.map_some, integerPart]
    simp
  obtain ⟨negative, r, rfl, hr, hmagnitude⟩ := Double.exists_signed hx
  have hinteger := Double.isInteger_of_magnitude hr hmagnitude negative
  unfold textOfNumber
  dsimp only
  rw [if_neg hr, htrunc, hinteger]
  dsimp only
  rw [if_pos]
  simpa using hn

theorem toRat?_bound (hn : n.natAbs = 2 ^ 63) : (Double.ofInt n).toRat? = some (n : ℚ) := by
  have hunits : (Rank.ofNat 0x43E0000000000000).units = 2 ^ 63 * unitsPerOne := by decide +kernel
  rw [← hn] at hunits
  exact Double.toRat?_ofInt_of_magnitude (by decide) (Rank.magnitude_eq_iff.2 hunits)

/-- An integer, or the bound of 64-bit words that it exceeds. -/
def bounded (n : ℤ) : ℤ := max (-2 ^ 63) (min (2 ^ 63) n)

theorem toRat?_numberOfText (hx : x.toRat? = some (n : ℚ)) (hn : n.natAbs < 10 ^ 21) :
    (numberOfText (textOfNumber x)).toRat? = some (bounded n : ℚ) := by
  obtain ⟨negative, r, rfl, hr, hmagnitude⟩ := Double.exists_signed hx
  rw [textOfNumber_of_integer hx hn, numberOfText_toString]
  unfold clampWord bounded
  rcases lt_or_ge n (-2 ^ 63) with hlow | hlow
  · have hword : max (-0x8000000000000000) (min 0x7FFFFFFFFFFFFFFF n) = -2 ^ 63 := by omega
    have hbound : max (-2 ^ 63) (min (2 ^ 63) n) = -2 ^ 63 := by omega
    rw [hword, hbound]
    exact toRat?_bound (by decide)
  · rcases lt_or_ge n (2 ^ 63) with hhigh | hhigh
    · have hword : max (-0x8000000000000000) (min 0x7FFFFFFFFFFFFFFF n) = n := by omega
      have hbound : max (-2 ^ 63) (min (2 ^ 63) n) = n := by omega
      rw [hword, hbound]
      exact Double.toRat?_ofInt_of_magnitude hr hmagnitude
    · -- The greatest word is no double, and the nearest one is the bound itself.
      have hword : max (-0x8000000000000000) (min 0x7FFFFFFFFFFFFFFF n) = 2 ^ 63 - 1 := by omega
      have hbound : max (-2 ^ 63) (min (2 ^ 63) n) = 2 ^ 63 := by omega
      have hround : Double.ofInt (2 ^ 63 - 1) = Double.ofInt (2 ^ 63) := by decide +kernel
      rw [hword, hbound, hround]
      exact toRat?_bound (by decide)

theorem textOfNumber_eq_iff (hx : x.toRat? = some (n : ℚ)) (hn : n.natAbs < 10 ^ 21)
    (hy : y.toRat? = some (m : ℚ)) (hm : m.natAbs < 10 ^ 21) :
    textOfNumber x = textOfNumber y ↔ bounded n = bounded m := by
  constructor
  · intro h
    have hread := toRat?_numberOfText hx hn
    rw [h, toRat?_numberOfText hy hm] at hread
    exact_mod_cast (Option.some.inj hread).symm
  · intro h
    have hword : clampWord n = clampWord m := by
      unfold bounded at h
      unfold clampWord
      omega
    rw [textOfNumber_of_integer hx hn, textOfNumber_of_integer hy hm, hword]

namespace Condition

def valueOf (source : String) (options : Json) : Except ConditionError Value :=
  (compile source).map fun c ↦ c.expr.eval options

theorem valueOf_comparison {options : Json} (hx : Expr.lookup options "x" = .number x)
    (hy : Expr.lookup options "y" = .number y) :
    valueOf "'' + x === '' + y" options =
      .ok (.boolean (decide (textOfNumber x = textOfNumber y))) := by
  have hcompile : compile "'' + x === '' + y" = .ok ⟨"'' + x === '' + y",
      .binary .identical
        (.binary .add (.literal "''" (.text "")) (.option "x"))
        (.binary .add (.literal "''" (.text "")) (.option "y"))⟩ := by
    decide +kernel
  rw [valueOf, hcompile]
  have hplus : ∀ z : Double, (Value.string "").plus (.number z) = .string (textOfNumber z) := by
    intro z
    rw [Value.plus, Value.toText, String.empty_append]
  simp only [Except.map, Expr.eval, hx, hy, BinaryOp.apply, Literal.toValue, hplus, Value.identical,
    Value.string.injEq]

/-- Integers below `10 ^ 21` are read back from their texts as they are up to `2 ^ 63`, so that two
of them that lie within this bound are never written alike. -/
theorem integers_apart {options : Json} (hx : x.toRat? = some (n : ℚ)) (hn : n.natAbs < 10 ^ 21)
    (hy : y.toRat? = some (m : ℚ)) (hm : m.natAbs < 10 ^ 21)
    (hoptions : Expr.lookup options "x" = .number x ∧ Expr.lookup options "y" = .number y) :
    (numberOfText (textOfNumber x)).toRat? = some (bounded n : ℚ) ∧
    valueOf "'' + x === '' + y" options = .ok (.boolean (decide (bounded n = bounded m))) ∧
    (n.natAbs ≤ 2 ^ 63 → (numberOfText (textOfNumber x)).toRat? = x.toRat?) ∧
    (n.natAbs ≤ 2 ^ 63 → m.natAbs ≤ 2 ^ 63 → n ≠ m →
      valueOf "'' + x === '' + y" options = .ok (.boolean false)) := by
  have hread := toRat?_numberOfText hx hn
  have hvalue := valueOf_comparison hoptions.1 hoptions.2
  have hself : ∀ k : ℤ, k.natAbs ≤ 2 ^ 63 → bounded k = k := by
    intro k hk
    unfold bounded
    omega
  simp only [textOfNumber_eq_iff hx hn hy hm] at hvalue
  refine ⟨hread, hvalue, ?_, ?_⟩
  · intro hbound
    rw [hread, hself n hbound, hx]
  · intro hn hm hne
    rw [hvalue, hself n hn, hself m hm, decide_eq_false hne]

def pair (x y : Double) : Json :=
  .object [("x", .number (.double x)), ("y", .number (.double y))]

theorem lookup_pair (x y : Double) :
    Expr.lookup (pair x y) "x" = .number x ∧ Expr.lookup (pair x y) "y" = .number y :=
  ⟨rfl, rfl⟩

theorem integers_apart_bound :
    (numberOfText (textOfNumber (.ofInt (2 ^ 63)))).toRat? = (Double.ofInt (2 ^ 63)).toRat? ∧
    valueOf "'' + x === '' + y" (pair (.ofInt (2 ^ 63)) (.ofInt (1 - 2 ^ 53))) =
      .ok (.boolean false) := by
  have hx : (Double.ofInt (2 ^ 63)).toRat? = some ((2 ^ 63 : ℤ) : ℚ) := toRat?_bound (by decide)
  have hy : (Double.ofInt (1 - 2 ^ 53)).toRat? = some ((1 - 2 ^ 53 : ℤ) : ℚ) :=
    Double.toRat?_ofInt (by decide)
  obtain ⟨-, -, hread, hapart⟩ :=
    integers_apart hx (by decide) hy (by decide) (lookup_pair _ _)
  exact ⟨hread (by decide), hapart (by decide) (by decide) (by decide)⟩

/-- Beyond the bound the digits are those of the greatest word, whatever the integer is. -/
theorem integers_not_apart :
    (Double.ofInt (10 ^ 19)).toRat? = some ((10 ^ 19 : ℤ) : ℚ) ∧
    (Double.ofInt (10 ^ 20)).toRat? = some ((10 ^ 20 : ℤ) : ℚ) ∧
    (numberOfText (textOfNumber (.ofInt (10 ^ 19)))).toRat? ≠ (Double.ofInt (10 ^ 19)).toRat? ∧
    valueOf "'' + x === '' + y" (pair (.ofInt (10 ^ 19)) (.ofInt (10 ^ 20))) =
      .ok (.boolean true) := by
  have hxunits : (Rank.ofNat 0x43E158E460913D00).units = (10 ^ 19 : ℤ).natAbs * unitsPerOne := by
    decide +kernel
  have hyunits : (Rank.ofNat 0x4415AF1D78B58C40).units = (10 ^ 20 : ℤ).natAbs * unitsPerOne := by
    decide +kernel
  have hx := Double.toRat?_ofInt_of_magnitude (by decide) (Rank.magnitude_eq_iff.2 hxunits)
  have hy := Double.toRat?_ofInt_of_magnitude (by decide) (Rank.magnitude_eq_iff.2 hyunits)
  have hvalue := valueOf_comparison (lookup_pair (.ofInt (10 ^ 19)) (.ofInt (10 ^ 20))).1
    (lookup_pair (.ofInt (10 ^ 19)) (.ofInt (10 ^ 20))).2
  simp only [textOfNumber_eq_iff hx (by decide) hy (by decide)] at hvalue
  refine ⟨hx, hy, ?_, hvalue⟩
  rw [toRat?_numberOfText hx (by decide), hx]
  intro h
  have heq : bounded (10 ^ 19) = 10 ^ 19 := by exact_mod_cast Option.some.inj h
  exact absurd heq (by decide)

end Condition

end Transclude
