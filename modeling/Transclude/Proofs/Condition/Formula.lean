import Transclude.Proofs.Condition.Phrase

namespace Transclude

open Text

def Json.truth : Json → Bool
  | .null => false
  | .boolean b => b
  | .number n => n.toDouble.isNonzero
  | .string s => s != ""
  | .array _ | .object _ => true

/-- The truth value of a name. A name without an option is false unless every record has it. -/
def Json.assigned (options : Json) (name : String) : Bool :=
  match options.field? name with
  | some value => value.truth
  | none => inheritedMembers.contains name

/-- A name that a condition can read as an option. -/
structure OptionName where
  text : String
  isName : isName text = true := by decide
  not_literal : text ∉ wordLiterals.map (·.1) := by decide
  not_reserved : text ∉ reservedWords := by decide

inductive Formula where
  | option (name : OptionName)
  | not (f : Formula)
  | and (f g : Formula)
  | or (f g : Formula)

namespace Formula

def truth (assigned : String → Bool) : Formula → Bool
  | .option name => assigned name.text
  | .not f => !f.truth assigned
  | .and f g => f.truth assigned && g.truth assigned
  | .or f g => f.truth assigned || g.truth assigned

/-- How tightly the outermost operator of a text binds. -/
inductive Tier where
  | disjunction
  | conjunction
  | operand

/-- The texts of a formula. Blanks may stand before every token and parentheses around every part;
an operand that binds less tightly than its operator must have parentheses. -/
inductive Writes : Tier → Formula → List Char → Prop
  | option {gap : List Char} (name : OptionName) : gap.all isBlank = true →
      Writes .operand (.option name) (gap ++ name.text.toList)
  | not {f : Formula} {gap cs : List Char} : gap.all isBlank = true → Writes .operand f cs →
      Writes .operand (.not f) (gap ++ ("!".toList ++ cs))
  | group {f : Formula} {gap cs close : List Char} : gap.all isBlank = true →
      Writes .disjunction f cs → close.all isBlank = true →
      Writes .operand f (gap ++ '(' :: (cs ++ (close ++ [')'])))
  | operand {f : Formula} {cs : List Char} : Writes .operand f cs → Writes .conjunction f cs
  | and {f g : Formula} {cs gap ds : List Char} : Writes .conjunction f cs →
      gap.all isBlank = true → Writes .conjunction g ds →
      Writes .conjunction (.and f g) (cs ++ (gap ++ ("&&".toList ++ ds)))
  | conjunction {f : Formula} {cs : List Char} : Writes .conjunction f cs → Writes .disjunction f cs
  | or {f g : Formula} {cs gap ds : List Char} : Writes .disjunction f cs →
      gap.all isBlank = true → Writes .disjunction g ds →
      Writes .disjunction (.or f g) (cs ++ (gap ++ ("||".toList ++ ds)))

def IsWrittenAs (f : Formula) (source : String) : Prop :=
  ∃ cs trail, source.toList = cs ++ trail ∧ Writes .disjunction f cs ∧ trail.all isBlank = true

def Tier.category : Tier → Category
  | .disjunction => .level 0
  | .conjunction => .level 1
  | .operand => .unary

def Means (category : Category) (cs : List Char) (f : Formula) : Prop :=
  ∃ e, IsPhrase category cs e ∧
    ∀ options, (e.eval options).isTruthy = f.truth options.assigned

end Formula

theorem Expr.isTruthy_lookup (options : Json) (name : String) :
    (lookup options name).isTruthy = options.assigned name := by
  unfold lookup Json.assigned
  cases options.field? name with
  | some value => cases value <;> rfl
  | none =>
    by_cases h : name ∈ inheritedMembers
    · simp [h, Value.isTruthy]
    · simp [h, Value.isTruthy]

namespace BinaryOp

variable (u v w : Value)

theorem apply_and_assoc : and.apply (and.apply u v) w = and.apply u (and.apply v w) := by
  unfold apply
  cases hu : u.isTruthy <;> simp [hu]

theorem apply_or_assoc : or.apply (or.apply u v) w = or.apply u (or.apply v w) := by
  unfold apply
  cases hu : u.isTruthy <;> simp [hu]

theorem isTruthy_apply_and : (and.apply v w).isTruthy = (v.isTruthy && w.isTruthy) := by
  unfold apply
  cases hv : v.isTruthy <;> simp [hv]

theorem isTruthy_apply_or : (or.apply v w).isTruthy = (v.isTruthy || w.isTruthy) := by
  unfold apply
  cases hv : v.isTruthy <;> simp [hv]

end BinaryOp

namespace Formula

variable {category : Category} {f g : Formula} {cs ds gap close : List Char}

theorem means_option (name : OptionName) :
    Means .unary name.text.toList (.option name) := by
  refine ⟨.option name.text, .option ⟨name.isName, name.not_literal, name.not_reserved⟩, ?_⟩
  intro options
  exact Expr.isTruthy_lookup options name.text

theorem Means.blanks (hgap : gap.all isBlank = true) (h : Means category cs f) :
    Means category (gap ++ cs) f := by
  obtain ⟨e, he, htruth⟩ := h
  exact ⟨e, he.blanks hgap, htruth⟩

theorem Means.group (h : Means (.level 0) cs f) (hclose : close.all isBlank = true) :
    Means .unary ('(' :: (cs ++ (close ++ [')']))) f := by
  obtain ⟨e, he, htruth⟩ := h
  exact ⟨e, he.group hclose, htruth⟩

theorem Means.not (h : Means .unary cs f) : Means .unary ("!".toList ++ cs) (.not f) := by
  obtain ⟨e, he, htruth⟩ := h
  have hall : (Token.prolongations "!").all (fun c ↦
      decide (c ∈ ['=', '<', '>', '&', '|', '*'])) = true := by
    decide
  refine ⟨.unary .not e, he.unary .not ?_, ?_⟩
  · intro c hc hmem
    exact he.not_mem_head c hc (of_decide_eq_true (List.all_eq_true.1 hall c hmem))
  · intro options
    rw [truth, ← htruth]
    rfl

theorem Means.exists_chain {n : Nat} (op : BinaryOp) (hop : levelOperators n = [(op.symbol, op)])
    (hassoc : ∀ u v w, op.apply (op.apply u v) w = op.apply u (op.apply v w))
    (hsign : op.symbol ∉ ["+", "-"]) (hf : Means (.level n) cs f) (hgap : gap.all isBlank = true)
    (hg : Means (.level n) ds g) :
    ∃ e, IsPhrase (.level n) (cs ++ (gap ++ (op.symbol.toList ++ ds))) e ∧
      ∀ options, ∃ v w, e.eval options = op.apply v w ∧
        v.isTruthy = f.truth options.assigned ∧ w.isTruthy = g.truth options.assigned := by
  obtain ⟨left, hleft, hltruth⟩ := hf
  obtain ⟨right, hright, hrtruth⟩ := hg
  obtain ⟨e, he, heval⟩ := IsPhrase.exists_chain op hop hassoc hsign hleft hgap hright
  exact ⟨e, he, fun options ↦ ⟨_, _, heval options, hltruth options, hrtruth options⟩⟩

theorem Means.and (hf : Means (.level 1) cs f) (hgap : gap.all isBlank = true)
    (hg : Means (.level 1) ds g) :
    Means (.level 1) (cs ++ (gap ++ ("&&".toList ++ ds))) (.and f g) := by
  obtain ⟨e, he, heval⟩ :=
    hf.exists_chain .and rfl BinaryOp.apply_and_assoc (by decide) hgap hg
  refine ⟨e, he, ?_⟩
  intro options
  obtain ⟨v, w, heq, hv, hw⟩ := heval options
  rw [heq, BinaryOp.isTruthy_apply_and, hv, hw, truth]

theorem Means.or (hf : Means (.level 0) cs f) (hgap : gap.all isBlank = true)
    (hg : Means (.level 0) ds g) :
    Means (.level 0) (cs ++ (gap ++ ("||".toList ++ ds))) (.or f g) := by
  obtain ⟨e, he, heval⟩ :=
    hf.exists_chain .or rfl BinaryOp.apply_or_assoc (by decide) hgap hg
  refine ⟨e, he, ?_⟩
  intro options
  obtain ⟨v, w, heq, hv, hw⟩ := heval options
  rw [heq, BinaryOp.isTruthy_apply_or, hv, hw, truth]

theorem Writes.means {tier : Tier} (h : Writes tier f cs) : Means tier.category cs f := by
  induction h with
  | option name hgap => exact (means_option name).blanks hgap
  | not hgap _ ih => exact ih.not.blanks hgap
  | group hgap _ hclose ih => exact (ih.group hclose).blanks hgap
  | operand _ ih =>
    obtain ⟨e, he, htruth⟩ := ih
    exact ⟨e, he.level (by decide), htruth⟩
  | and _ hgap _ ihf ihg => exact ihf.and hgap ihg
  | conjunction _ ih =>
    obtain ⟨e, he, htruth⟩ := ih
    exact ⟨e, he.looser (Nat.zero_le 1), htruth⟩
  | or _ hgap _ ihf ihg => exact ihf.or hgap ihg

theorem exists_writes (f : Formula) : ∃ cs, Writes .operand f cs := by
  have hnone : [].all isBlank = true := rfl
  induction f with
  | option name => exact ⟨_, .option name hnone⟩
  | not f ih =>
    obtain ⟨cs, h⟩ := ih
    exact ⟨_, .not hnone h⟩
  | and f g ihf ihg =>
    obtain ⟨cs, hf⟩ := ihf
    obtain ⟨ds, hg⟩ := ihg
    exact ⟨_, .group hnone (.conjunction (.and (.operand hf) hnone (.operand hg))) hnone⟩
  | or f g ihf ihg =>
    obtain ⟨cs, hf⟩ := ihf
    obtain ⟨ds, hg⟩ := ihg
    have hor := Writes.or (.conjunction (.operand hf)) hnone (.conjunction (.operand hg))
    exact ⟨_, .group hnone hor hnone⟩

end Formula

/-- Every formula can be written, and each of its texts is a condition that holds exactly if the
formula is true. -/
theorem Condition.holds_eq_truth (f : Formula) :
    (∃ source, f.IsWrittenAs source) ∧
      ∀ source, f.IsWrittenAs source →
        ∃ c, compile source = .ok c ∧ ∀ options, c.holds options = f.truth options.assigned := by
  constructor
  · obtain ⟨cs, h⟩ := f.exists_writes
    refine ⟨String.ofList cs, cs, [], ?_, .conjunction (.operand h), rfl⟩
    rw [String.toList_ofList, List.append_nil]
  · rintro source ⟨cs, trail, hsource, hwrites, htrail⟩
    obtain ⟨e, he, htruth⟩ := hwrites.means
    exact ⟨⟨trim source, e⟩, he.compile htrail hsource, htruth⟩

theorem Condition.holds_eq_truth_inherited :
    ∃ c, compile "x && valueOf&&! ( ( z )||w)\t" = .ok c ∧
      c.holds (.object [("x", .string "0"), ("w", .number (.natural 0))]) = true ∧
      c.holds .null = false := by
  have hnone : [].all isBlank = true := rfl
  have hspace : [' '].all isBlank = true := by decide
  have hgrouped : Formula.Writes .operand (.option { text := "z" }) " ( z )".toList :=
    .group hspace (.conjunction (.operand (.option _ hspace))) hspace
  have hnegated : Formula.Writes .operand
      (.not (.or (.option { text := "z" }) (.option { text := "w" }))) "! ( ( z )||w)".toList :=
    .not hnone (.group hspace
      (.or (.conjunction (.operand hgrouped)) hnone
        (.conjunction (.operand (.option _ hnone)))) hnone)
  have hwritten : Formula.IsWrittenAs
      (.and (.option { text := "x" }) (.and (.option { text := "valueOf" })
        (.not (.or (.option { text := "z" }) (.option { text := "w" })))))
      "x && valueOf&&! ( ( z )||w)\t" := by
    refine ⟨"x && valueOf&&! ( ( z )||w)".toList, ['\t'], by decide, .conjunction ?_, by decide⟩
    exact .and (.operand (.option _ hnone)) hspace
      (.and (.operand (.option _ hspace)) hnone (.operand hnegated))
  obtain ⟨c, hc, hholds⟩ := (holds_eq_truth _).2 _ hwritten
  refine ⟨c, hc, ?_, ?_⟩
  · rw [hholds]
    decide +kernel
  · rw [hholds]
    decide +kernel

end Transclude
