import Mathlib.Algebra.Order.Ring.Int
import Transclude.Condition.Eval
import Transclude.Proofs.Double.Word

namespace Transclude

namespace Value

/-- The integer part of the number modulo `2 ^ 32`, zero for NaN and the infinities. -/
def pattern (v : Value) : ℕ :=
  match v.toNumber.toRat? with
  | none => 0
  | some q => (integerPart q % 2 ^ 32).toNat

/-- The integer of a pattern in two's complement. -/
def representative (n : ℕ) : ℤ := if n < 2 ^ 31 then n else n - 2 ^ 32

def IsSigned (v : Value) (n : ℤ) : Prop :=
  (∃ x, v = .number x ∧ x.toRat? = some (n : ℚ)) ∧ -2 ^ 31 ≤ n ∧ n < 2 ^ 31

def IsUnsigned (v : Value) (n : ℕ) : Prop :=
  (∃ x, v = .number x ∧ x.toRat? = some (n : ℚ)) ∧ n < 2 ^ 32

theorem toNat_toWord (v : Value) : v.toWord.toNat = v.pattern := by
  unfold toWord pattern
  rw [Double.toWord_eq, Double.trunc?_eq]
  cases v.toNumber.toRat? with
  | none => rfl
  | some q => exact BitVec.toNat_ofInt ..

theorem toInt_eq_representative (w : BitVec 32) : w.toInt = representative w.toNat := by
  unfold representative
  rw [BitVec.toInt_eq_toNat_cond]
  split <;> split <;> omega

theorem isSigned_ofSigned (w : BitVec 32) : IsSigned (ofSigned w) (representative w.toNat) := by
  have hlow := BitVec.le_toInt w
  have hhigh := BitVec.toInt_lt (x := w)
  rw [← toInt_eq_representative]
  refine ⟨⟨_, rfl, Double.toRat?_ofInt ?_⟩, hlow, hhigh⟩
  omega

theorem isUnsigned_ofUnsigned (w : BitVec 32) : IsUnsigned (ofUnsigned w) w.toNat := by
  have hlt := w.isLt
  refine ⟨⟨_, rfl, Double.toRat?_ofNat ?_⟩, hlt⟩
  omega

/-- The bitwise operators and the shifts on the patterns of their operands. -/
theorem operators_on_words (v w : Value) :
    IsSigned (UnaryOp.complement.apply v) (representative (2 ^ 32 - 1 - v.pattern)) ∧
    IsSigned (BinaryOp.bitAnd.apply v w) (representative (v.pattern &&& w.pattern)) ∧
    IsSigned (BinaryOp.bitOr.apply v w) (representative (v.pattern ||| w.pattern)) ∧
    IsSigned (BinaryOp.bitXor.apply v w) (representative (v.pattern ^^^ w.pattern)) ∧
    IsSigned (BinaryOp.shiftLeft.apply v w)
      (representative (v.pattern * 2 ^ (w.pattern % 32) % 2 ^ 32)) ∧
    IsSigned (BinaryOp.shiftRight.apply v w)
      (representative v.pattern / 2 ^ (w.pattern % 32)) ∧
    IsUnsigned (BinaryOp.shiftRightUnsigned.apply v w) (v.pattern / 2 ^ (w.pattern % 32)) := by
  simp only [← toNat_toWord]
  refine ⟨?_, ?_, ?_, ?_, ?_, ?_, ?_⟩
  · rw [← BitVec.toNat_not]
    exact isSigned_ofSigned _
  · rw [← BitVec.toNat_and]
    exact isSigned_ofSigned _
  · rw [← BitVec.toNat_or]
    exact isSigned_ofSigned _
  · rw [← BitVec.toNat_xor]
    exact isSigned_ofSigned _
  · rw [← Nat.shiftLeft_eq, ← BitVec.toNat_shiftLeft]
    exact isSigned_ofSigned _
  · have hshift : representative v.toWord.toNat / 2 ^ (w.toWord.toNat % 32) =
        representative (v.toWord.sshiftRight (w.toWord.toNat % 32)).toNat := by
      rw [← toInt_eq_representative, ← toInt_eq_representative, BitVec.toInt_sshiftRight,
        Int.shiftRight_eq_div_pow]
      norm_cast
    rw [hshift]
    exact isSigned_ofSigned _
  · rw [← Nat.shiftRight_eq_div_pow, ← BitVec.toNat_ushiftRight]
    exact isUnsigned_ofUnsigned _

end Value

end Transclude
