import Transclude.Proofs.Condition.IntegerText
import Transclude.Proofs.Text.Units

namespace Transclude

open Text

namespace Double

theorem swap_compare? (x y : Double) : (compare? x y).map Ordering.swap = compare? y x := by
  cases x with
  | nan => cases y <;> rfl
  | signed n r =>
    cases y with
    | nan => rfl
    | signed m s => rw [compare?, compare?, Option.map_some, Int.compare_swap]

theorem compare?_self {x : Double} (hx : x ≠ .nan) : compare? x x = some .eq := by
  cases x with
  | nan => exact absurd rfl hx
  | signed n r => rw [compare?, Int.compare_eq_eq.2 rfl]

end Double

namespace Value

variable {v w : Value}

theorem swap_compare? (v w : Value) : (v.compare? w).map Ordering.swap = w.compare? v := by
  unfold Value.compare?
  split
  · exact congrArg some (swap_compareUnits _ _)
  · next hnot =>
    split
    · next s t => exact absurd rfl (hnot t s rfl)
    · exact Double.swap_compare? _ _

theorem compare?_comm {o : Ordering} : v.compare? w = some o ↔ w.compare? v = some o.swap := by
  rw [← swap_compare? v w]
  cases v.compare? w with
  | none => simp
  | some p => cases o <;> cases p <;> simp

/-- An object and the text to which objects are converted, in either order. -/
def IsObjectText (v w : Value) : Prop :=
  v = .object ∧ w = .string object.toText ∨ v = .string object.toText ∧ w = .object

theorem IsObjectText.symm (h : IsObjectText v w) : IsObjectText w v := by
  obtain ⟨rfl, rfl⟩ | ⟨rfl, rfl⟩ := h
  · exact .inr ⟨rfl, rfl⟩
  · exact .inl ⟨rfl, rfl⟩

theorem compare?_object (w : Value) : object.compare? w = none := by
  cases w <;> rfl

theorem IsObjectText.compare?_eq (h : IsObjectText v w) : v.compare? w = none := by
  obtain ⟨rfl, -⟩ | ⟨-, rfl⟩ := h
  · exact compare?_object w
  · rw [← swap_compare?, compare?_object]
    rfl

def isNullish : Value → Bool
  | .undefined | .null => true
  | _ => false

theorem equals_of_isNullish (hv : v.isNullish = true) (w : Value) : v.equals w = w.isNullish := by
  cases v with
  | undefined | null => cases w <;> rfl
  | boolean | number | string | object => cases hv

theorem equals_isNullish (hw : w.isNullish = true) (v : Value) : v.equals w = v.isNullish := by
  cases w with
  | undefined | null => cases v <;> rfl
  | boolean | number | string | object => cases hw

theorem object_equals (hw : w.isNullish = false) :
    object.equals w = true ↔ w = .string object.toText := by
  cases w with
  | undefined | null => cases hw
  | boolean | number | object => exact iff_of_false Bool.false_ne_true nofun
  | string s =>
    have hequals : object.equals (.string s) = decide (s = object.toText) := rfl
    rw [hequals, decide_eq_true_iff, string.injEq]

theorem equals_object (hv : v.isNullish = false) :
    v.equals .object = true ↔ v = .string object.toText := by
  cases v with
  | undefined | null => cases hv
  | boolean | number | object => exact iff_of_false Bool.false_ne_true nofun
  | string s =>
    have hequals : (string s).equals .object = decide (s = object.toText) := rfl
    rw [hequals, decide_eq_true_iff, string.injEq]

theorem equals_eq_compare? (hv : v.isNullish = false) (hw : w.isNullish = false)
    (hvobject : v ≠ .object) (hwobject : w ≠ .object) :
    v.equals w = (v.compare? w == some .eq) := by
  cases v with
  | undefined | null => cases hv
  | object => exact absurd rfl hvobject
  | boolean b =>
    cases w with
    | undefined | null => cases hw
    | object => exact absurd rfl hwobject
    | boolean | number | string => rfl
  | number x =>
    cases w with
    | undefined | null => cases hw
    | object => exact absurd rfl hwobject
    | boolean | number | string => rfl
  | string s =>
    cases w with
    | undefined | null => cases hw
    | object => exact absurd rfl hwobject
    | boolean | number => rfl
    | string t =>
      have hequals : (string s).equals (.string t) = decide (string s = string t) := rfl
      have hcompare : (string s).compare? (.string t) = some (compareUnits (units s) (units t)) :=
        rfl
      rw [hequals, hcompare, Bool.eq_iff_iff, decide_eq_true_iff, beq_iff_eq, Option.some.injEq,
        compareUnits_eq_eq, string.injEq]

theorem equals_iff (hv : v.isNullish = false) (hw : w.isNullish = false) :
    v.equals w = true ↔ v.compare? w = some .eq ∨ IsObjectText v w := by
  by_cases hvobject : v = .object
  · subst hvobject
    rw [object_equals hw, compare?_object]
    simp [IsObjectText]
  by_cases hwobject : w = .object
  · subst hwobject
    rw [equals_object hv, compare?_comm, compare?_object]
    simp [IsObjectText]
  rw [equals_eq_compare? hv hw hvobject hwobject, beq_iff_eq]
  simp [IsObjectText, hvobject, hwobject]

theorem equals_comm (v w : Value) : v.equals w = w.equals v := by
  cases hv : v.isNullish with
  | true => rw [equals_of_isNullish hv, equals_isNullish hv]
  | false =>
    cases hw : w.isNullish with
    | true => rw [equals_of_isNullish hw, equals_isNullish hw]
    | false =>
      rw [Bool.eq_iff_iff, equals_iff hv hw, equals_iff hw hv, compare?_comm]
      exact or_congr Iff.rfl ⟨.symm, .symm⟩

theorem identical_iff : v.identical w = true ↔
    (∃ x y, v = .number x ∧ w = .number y ∧ Double.compare? x y = some .eq) ∨
      v = w ∧ v ≠ .object ∧ ∀ x, v ≠ .number x := by
  unfold identical
  split
  · next x y =>
    rw [Double.equals, beq_iff_eq]
    simp
  · simp
  · next hnumbers hobjects =>
    rw [decide_eq_true_iff]
    constructor
    · intro h
      subst h
      exact .inr ⟨rfl, fun hv ↦ hobjects hv hv, fun x hv ↦ hnumbers x x hv hv⟩
    · rintro (⟨x, y, hv, hw, -⟩ | ⟨hvw, -⟩)
      · exact absurd hw (hnumbers x y hv)
      · exact hvw

theorem identical_comm (v w : Value) : v.identical w = w.identical v := by
  suffices h : ∀ v w : Value, v.identical w = true → w.identical v = true from
    Bool.eq_iff_iff.2 ⟨h v w, h w v⟩
  intro v w h
  obtain ⟨x, y, rfl, rfl, hxy⟩ | ⟨rfl, hobject, hnumber⟩ := identical_iff.1 h
  · have hyx : Double.compare? y x = some .eq := by
      rw [← Double.swap_compare? x y, hxy]
      rfl
    exact identical_iff.2 (.inl ⟨y, x, rfl, rfl, hyx⟩)
  · exact h

theorem equals_of_identical (h : v.identical w = true) : v.equals w = true := by
  obtain ⟨x, y, rfl, rfl, hxy⟩ | ⟨rfl, hobject, hnumber⟩ := identical_iff.1 h
  · exact (equals_iff rfl rfl).2 (.inl hxy)
  · cases v with
    | undefined | null => rfl
    | number x => exact absurd rfl (hnumber x)
    | object => exact absurd rfl hobject
    | boolean b =>
      exact (equals_iff rfl rfl).2 (.inl (Double.compare?_self (Double.rounds_ofNat _).ne_nan))
    | string s =>
      exact (equals_iff rfl rfl).2 (.inl (congrArg some (compareUnits_eq_eq.2 rfl)))

theorem lessEq_and_greaterEq_iff :
    BinaryOp.lessEq.apply v w = .boolean true ∧ BinaryOp.greaterEq.apply v w = .boolean true ↔
      v.compare? w = some .eq := by
  simp only [BinaryOp.apply, boolean.injEq]
  cases v.compare? w with
  | none => simp
  | some o => cases o <;> simp

/-- Values other than `undefined` and `null` are equal exactly if each is at most the other, an
object and its text apart. These are equal too, but neither is at most the other. -/
theorem equal_iff_ordered {v w : Value} (hv : v.isNullish = false) (hw : w.isNullish = false) :
    (BinaryOp.equal.apply v w = .boolean true ↔
      BinaryOp.lessEq.apply v w = .boolean true ∧ BinaryOp.greaterEq.apply v w = .boolean true ∨
        IsObjectText v w) ∧
    (IsObjectText v w →
      BinaryOp.lessEq.apply v w = .boolean false ∧
        BinaryOp.greaterEq.apply v w = .boolean false) := by
  constructor
  · rw [lessEq_and_greaterEq_iff, ← equals_iff hv hw, BinaryOp.apply, boolean.injEq]
  · intro h
    simp only [BinaryOp.apply, h.compare?_eq]
    exact ⟨rfl, rfl⟩

theorem equal_iff_ordered_hexadecimal :
    BinaryOp.lessEq.apply (.boolean true) (.string " 0x1 ") = .boolean true ∧
      BinaryOp.greaterEq.apply (.boolean true) (.string " 0x1 ") = .boolean true := by
  have hequal : BinaryOp.equal.apply (.boolean true) (.string " 0x1 ") = .boolean true := by
    decide +kernel
  obtain hordered | hobject := (equal_iff_ordered rfl rfl).1.1 hequal
  · exact hordered
  · exact absurd hobject (by simp [IsObjectText])

theorem equal_not_ordered :
    Condition.valueOf "o == '[object Object]'" (.object [("o", .object [])]) =
      .ok (.boolean true) ∧
    Condition.valueOf "o <= '[object Object]'" (.object [("o", .object [])]) =
      .ok (.boolean false) ∧
    Condition.valueOf "o >= '[object Object]'" (.object [("o", .object [])]) =
      .ok (.boolean false) := by
  decide +kernel

theorem greater_swap (v w : Value) : BinaryOp.greater.apply w v = BinaryOp.less.apply v w := by
  have hcomm : w.compare? v = some .gt ↔ v.compare? w = some .lt := compare?_comm
  simp only [BinaryOp.apply, boolean.injEq]
  rw [Bool.eq_iff_iff, beq_iff_eq, beq_iff_eq, hcomm]

theorem greaterEq_swap (v w : Value) :
    BinaryOp.greaterEq.apply w v = BinaryOp.lessEq.apply v w := by
  simp only [BinaryOp.apply, boolean.injEq]
  rw [← swap_compare? v w]
  cases v.compare? w with
  | none => rfl
  | some o => cases o <;> rfl

theorem less_iff : BinaryOp.less.apply v w = .boolean true ↔ v.compare? w = some .lt := by
  rw [BinaryOp.apply, boolean.injEq, beq_iff_eq]

theorem lessEq_of_less (h : BinaryOp.less.apply v w = .boolean true) :
    BinaryOp.lessEq.apply v w = .boolean true ∧ BinaryOp.less.apply w v = .boolean false := by
  have hless := less_iff.1 h
  have hgreater : w.compare? v = some .gt := compare?_comm.1 hless
  simp only [BinaryOp.apply, hless, hgreater]
  exact ⟨rfl, rfl⟩

theorem less_string_iff {s t : String} :
    BinaryOp.less.apply (.string s) (.string t) = .boolean true ↔ units s < units t := by
  rw [less_iff, Value.compare?, Option.some.injEq, compareUnits_eq_lt]

end Value

namespace Expr

def Judges (options : Json) (op : BinaryOp) (e f : Expr) (b : Bool) : Prop :=
  (binary op e f).eval options = .boolean b

/-- Equality does not depend on the order of its operands and follows from identity, an order turns
round with its operands, and texts are in the linear order of their code units. -/
theorem comparison_laws (options : Json) (e f : Expr) :
    (∃ b, Judges options .equal e f b ∧ Judges options .equal f e b ∧
      Judges options .notEqual e f !b) ∧
    (∃ b, Judges options .identical e f b ∧ Judges options .identical f e b ∧
      Judges options .notIdentical e f !b) ∧
    (Judges options .identical e f true → Judges options .equal e f true) ∧
    (∃ b, Judges options .less e f b ∧ Judges options .greater f e b) ∧
    (∃ b, Judges options .lessEq e f b ∧ Judges options .greaterEq f e b) ∧
    (Judges options .less e f true →
      Judges options .lessEq e f true ∧ Judges options .less f e false) ∧
    ∀ g s t u, e.eval options = .string s → f.eval options = .string t →
      g.eval options = .string u →
      (Judges options .less e f true ↔ units s < units t) ∧
      (Judges options .less e f true → Judges options .less f g true →
        Judges options .less e g true) ∧
      (Judges options .less e f true ∨ s = t ∨ Judges options .less f e true) := by
  unfold Judges
  simp only [eval]
  generalize e.eval options = v
  generalize f.eval options = w
  refine ⟨?_, ?_, ?_, ?_, ?_, ?_, ?_⟩
  · refine ⟨v.equals w, rfl, ?_, rfl⟩
    rw [BinaryOp.apply, Value.equals_comm]
  · refine ⟨v.identical w, rfl, ?_, rfl⟩
    rw [BinaryOp.apply, Value.identical_comm]
  · intro h
    exact congrArg Value.boolean (Value.equals_of_identical (Value.boolean.inj h))
  · refine ⟨v.compare? w == some .lt, rfl, ?_⟩
    rw [Value.greater_swap]
    rfl
  · refine ⟨(v.compare? w).any (· != .gt), rfl, ?_⟩
    rw [Value.greaterEq_swap]
    rfl
  · exact Value.lessEq_of_less
  · intro g s t u hs ht hu
    rw [hs, ht, hu]
    simp only [Value.less_string_iff, true_and]
    refine ⟨lt_trans, ?_⟩
    rw [← units_injective.eq_iff]
    exact lt_trichotomy _ _

def characters : Json := .object [("a", .string "z"), ("b", .string "😀"), ("c", .string "\ue000")]

theorem comparison_laws_surrogates :
    Judges characters .less (.option "a") (.option "b") true ∧
    Judges characters .less (.option "b") (.option "c") true ∧
    Judges characters .less (.option "a") (.option "c") true := by
  obtain ⟨-, -, -, -, -, -, htexts⟩ := comparison_laws characters (.option "a") (.option "b")
  obtain ⟨-, htrans, -⟩ := htexts (.option "c") "z" "😀" "\ue000" rfl rfl rfl
  have hab : Judges characters .less (.option "a") (.option "b") true := by
    unfold Judges
    decide
  have hbc : Judges characters .less (.option "b") (.option "c") true := by
    unfold Judges
    decide
  exact ⟨hab, hbc, htrans hab hbc⟩

end Expr

end Transclude
