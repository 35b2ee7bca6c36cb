import Transclude.Proofs.Condition.Comparison
import Transclude.Proofs.Condition.Phrase

namespace Transclude

open Text Numeral

variable {cs : List Char} {q : ℚ} {x : Double}

namespace Literal

theorem IsNumber.forall_mem (h : IsNumber cs q) :
    ∀ c ∈ cs, isNamePart c = true ∨ c ∈ ['.', '+', '-'] := by
  intro c hc
  cases h with
  | decimal h =>
    rcases isDecimal_cases ((denotes_whole_iff.2 h).1.isDecimal c hc) with
      hdigit | rfl | rfl | rfl | rfl | rfl | rfl
    · exact .inl (isNamePart_of_isDigit hdigit)
    all_goals decide
  | @radix mark radix body ds hmark hds =>
    refine .inl ?_
    rcases List.mem_cons.1 hc with rfl | hc
    · decide
    rcases List.mem_cons.1 hc with rfl | hc
    · exact isNamePart_of_radixOfMark? (mem_marks.1 hmark)
    · have hbody := List.all_eq_true.1 (hds.all_isBody (radix_le hmark)) c hc
      rcases Bool.or_eq_true_iff.1 hbody with hdigit | hseparator
      · exact isNamePart_of_isRadixDigit hdigit
      · rw [beq_iff_eq.1 hseparator]
        decide

theorem IsNumber.reads (h : IsNumber cs q) (hnone : '_' ∉ cs) (hx : x.Rounds false q) :
    Reads IsWord cs x := by
  cases h with
  | decimal h =>
    have hdigits := denotes_digits_iff.2 ⟨(denotes_whole_iff.2 h).1, hnone⟩
    exact Reads.decimal .absent hdigits hx
  | @radix mark radix body ds hmark hds hlt =>
    have hbody : '_' ∉ body := fun hc ↦ hnone (by simp [hc])
    have hnatural : IsNatural radix body (value radix ds) :=
      ⟨ds, digits_iff.2 ⟨hds, hbody⟩, rfl⟩
    exact Reads.radix hmark ⟨⟨[], by decide, body, rfl, hnatural⟩, hlt⟩ hx

theorem IsNumber.isBlank_eq_false (h : IsNumber cs q) : ∀ c ∈ cs, isBlank c = false := by
  intro c hc
  rcases h.forall_mem c hc with hpart | hmark
  · exact isBlank_of_isNamePart hpart
  · have hall : ['.', '+', '-'].all (fun c ↦ decide (isBlank c = false)) = true := by decide
    exact of_decide_eq_true (List.all_eq_true.1 hall c hmark)

theorem numberOfText_of_isNumber {s : String} (h : IsNumber s.toList q) (hnone : '_' ∉ s.toList)
    (hx : x.Rounds false q) : numberOfText s = x := by
  apply numberOfText_of_reads
  rw [trimChars_eq_self h.isBlank_eq_false]
  exact h.reads hnone hx

theorem isNumber_of_scan {s : String} (h : Token.scan s = .ok [⟨.number x, s, 0⟩]) :
    ∃ q, IsNumber s.toList q ∧ x.Rounds false q := by
  obtain ⟨start, c, cs, n, hlexeme, hspelling, -⟩ :=
    Token.lexeme_of_mem_scanFrom h List.mem_cons_self
  have hfound := Token.found_of_lexeme hlexeme
  cases hfound with
  | number _ hstarts hread =>
    obtain ⟨hplus, hminus⟩ := unsigned_of_startsNumber hstarts
    dsimp only at hspelling
    rw [hspelling]
    exact isNumber_of_readNumber hread hplus hminus

theorem items_plain {quote : Char} (h : ∀ c ∈ cs, c ∉ [quote, '\\', '\n', '\r']) :
    Items (Accepted quote) cs cs := by
  induction cs with
  | nil => exact .nil
  | cons c cs ih =>
    rw [List.forall_mem_cons] at h
    exact Items.cons (.inl (.plain h.1)) (ih h.2)

end Literal

theorem Token.lexes_quoted {quote : Char} (hquote : quote = '\x22' ∨ quote = '\x27') {s : String}
    (h : ∀ c ∈ s.toList, c ∉ [quote, '\\', '\n', '\r']) (rest : List Char) :
    Lexes (.text s) (quote :: (s.toList ++ [quote])) rest := by
  refine lexes_iff_found.2 ⟨?_, ?_⟩
  · rcases hquote with rfl | rfl <;> decide
  · intro offset
    apply Found.text hquote
    rw [Literal.readString_eq_ok (Literal.ne_backslash hquote)]
    refine ⟨s.toList, rest, ?_, ?_, Literal.items_plain h⟩
    · rw [List.append_assoc, List.singleton_append]
    · rw [List.length_append, List.length_singleton]

theorem Literal.IsNumber.not_mem {quote : Char} (hquote : quote = '\x22' ∨ quote = '\x27')
    (h : IsNumber cs q) : ∀ c ∈ cs, c ∉ [quote, '\\', '\n', '\r'] := by
  have hall : ['\x22', '\x27', '\\', '\n', '\r'].all (fun d ↦
      decide ¬(isNamePart d = true ∨ d ∈ ['.', '+', '-'])) = true := by
    decide
  intro c hc hmem
  have hspecial : c ∈ ['\x22', '\x27', '\\', '\n', '\r'] := by
    rcases List.mem_cons.1 hmem with rfl | hother
    · rcases hquote with rfl | rfl <;> decide
    · exact List.mem_cons_of_mem _ (List.mem_cons_of_mem _ hother)
  exact of_decide_eq_true (List.all_eq_true.1 hall c hspecial) (h.forall_mem c hc)

namespace Condition

def quoted (quote : Char) (s : String) : String := String.ofList (quote :: (s.toList ++ [quote]))

variable {n : String} {quote : Char} {gap : List Char}

theorem wellSpelled_number (h : Token.scan n = .ok [⟨.number x, n, 0⟩]) :
    (Expr.literal n (.number x)).WellSpelled := by
  have hd : Derives .primary [⟨.number x, n, 0⟩] (.literal n (.number x)) := .number rfl
  exact Expr.wellSpelled_of_derives h hd fun _ ht ↦ ht

theorem wellSpelled_quoted (hquote : quote = '\x22' ∨ quote = '\x27') {s : String}
    (h : ∀ c ∈ s.toList, c ∉ [quote, '\\', '\n', '\r']) :
    (Expr.literal (quoted quote s) (.text s)).WellSpelled := by
  refine ⟨fun rest _ ↦ ?_, fun _ ↦ .text rfl⟩
  rw [quoted, String.toList_ofList]
  exact Token.lexes_quoted hquote h rest

theorem equals_self (hx : x ≠ .nan) : x.equals x = true := by
  rw [Double.equals, Double.compare?_self hx]
  rfl

theorem valueOf_comparison_of_isPhrase (op : BinaryOp) {cs ds : List Char} {e f : Expr}
    {source : String} (hop : op.precedence = 6) (hleft : IsPhrase .unary cs e)
    (hgap : gap.all isBlank = true) (hright : IsPhrase .unary ds f)
    (hsource : source.toList = cs ++ (gap ++ (op.symbol.toList ++ (gap ++ ds)))) (options : Json) :
    valueOf source options = .ok (op.apply (e.eval options) (f.eval options)) := by
  have hsign : op.symbol ∉ ["+", "-"] := by
    cases op <;> first | decide | cases hop
  have hphrase := IsPhrase.binary hop hsign (hleft.level (by decide)) hgap
    ((hright.blanks hgap).level (by decide))
  rw [valueOf, (hphrase.looser (Nat.zero_le _)).compile rfl (by rw [hsource, List.append_nil])]
  rfl

/-- A number literal without separators is the number of its text, so that the literal equals the
quoted text and is identical with its conversion. -/
theorem literal_equals_text (h : Token.scan n = .ok [⟨.number x, n, 0⟩]) (hnone : '_' ∉ n.toList)
    (hquote : quote = '\x22' ∨ quote = '\x27') (hgap : gap.all isBlank = true) (options : Json) :
    numberOfText n = x ∧
      valueOf (n ++ String.ofList gap ++ "==" ++ String.ofList gap ++ quoted quote n) options =
        .ok (.boolean true) ∧
      valueOf ("+" ++ quoted quote n ++ String.ofList gap ++ "===" ++ String.ofList gap ++ n)
        options = .ok (.boolean true) := by
  obtain ⟨q, hq, hx⟩ := Literal.isNumber_of_scan h
  have hnumber := Literal.numberOfText_of_isNumber hq hnone hx
  have hself := equals_self hx.ne_nan
  have hliteral := IsPhrase.literal (wellSpelled_number h)
  have htext := IsPhrase.literal (wellSpelled_quoted hquote (hq.not_mem hquote))
  have hsigned : IsPhrase .unary ("+".toList ++ (quoted quote n).toList)
      (.unary .plus (.literal (quoted quote n) (.text n))) := by
    refine htext.unary .plus ?_
    intro c hc
    rw [quoted, String.toList_ofList] at hc
    obtain rfl := Option.some.inj hc
    rcases hquote with rfl | rfl <;> decide
  refine ⟨hnumber, ?_, ?_⟩
  · rw [valueOf_comparison_of_isPhrase .equal rfl hliteral hgap htext
      (by simp [BinaryOp.symbol])]
    change Except.ok (Value.boolean (x.equals (numberOfText n))) = _
    rw [hnumber, hself]
  · rw [valueOf_comparison_of_isPhrase .identical rfl hsigned hgap hliteral
      (by simp [BinaryOp.symbol])]
    change Except.ok (Value.boolean ((numberOfText n).equals x)) = _
    rw [hnumber, hself]

theorem literal_equals_text_exponent :
    numberOfText "1.e5" = .ofNat 100000 ∧
      valueOf "1.e5 == \"1.e5\"" .null = .ok (.boolean true) ∧
      valueOf "+\"1.e5\" === 1.e5" .null = .ok (.boolean true) := by
  have hscan : (Token.scan "1.e5").toOption = some [⟨.number (.ofNat 100000), "1.e5", 0⟩] := by
    decide +kernel
  have hgap : [' '].all isBlank = true := by decide
  exact literal_equals_text (eq_ok_of_toOption hscan) (by decide) (.inl rfl) hgap .null

end Condition

end Transclude
