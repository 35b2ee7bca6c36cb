import Transclude.Proofs.Condition.Grammar

namespace Transclude

open Text

namespace Token

def opening? (t : Token) : Option Construct :=
  match t.kind with
  | .name word => if word ∈ reservedWords then some (.keyword word) else none
  | .punct "[" => some .arrayLiteral
  | .punct "\x7b" => some .objectLiteral
  | .punct "++" | .punct "--" => some .update
  | .backtick => some .templateLiteral
  | _ => none

end Token

namespace Expr

/-- The errors of the parser, with the tokens that they are about. -/
inductive Blames (source : String) (tokens : List Token) : ConditionError → Prop
  | ended {expected : Expected} : Blames source tokens (.unexpectedEnd expected)
  | token {t : Token} : t ∈ tokens → Blames source tokens (.unexpectedToken t.spelling t.start)
  | opening {t : Token} {construct : Construct} : t ∈ tokens → t.opening? = some construct →
      Blames source tokens (.unsupported construct (fragmentFrom source t))
  | suffix {front used rest : List Token} {t u : Token} {construct : Construct} :
      tokens = front ++ t :: (used ++ u :: rest) → u.suffix? = some construct →
      Blames source tokens (.unsupported construct (fragmentThrough source t.start (u :: rest)))
  | continuation {t : Token} {construct : Construct} : t ∈ tokens →
      t.continuation? = some construct →
      Blames source tokens (.unsupported construct (trim source))

variable {source : String} {tokens : List Token} {e : ConditionError}

theorem blames_trailing {t : Token} (ht : t ∈ tokens) :
    Blames source tokens (trailing source t) := by
  unfold trailing
  split
  · next construct hconstruct => exact .continuation ht hconstruct
  · exact .token ht

theorem blames_of_atom {t : Token} (ht : t ∈ tokens) (h : atom source t = .error e) :
    Blames source tokens e := by
  unfold atom at h
  split at h
  case h_4 word _ _ _ hkind =>
    split at h
    · next hword =>
      cases h
      exact .opening ht (by simp [Token.opening?, hkind, hword])
    · cases h
  case h_7 hkind | h_8 hkind | h_9 hkind | h_10 hkind | h_11 hkind =>
    cases h
    exact .opening ht (by simp [Token.opening?, hkind])
  case h_12 =>
    cases h
    exact .token ht
  all_goals cases h

theorem operand_error {t : Token} {ts : List Token}
    (h : operand source (t :: ts) = .error e) :
    atom source t = .error e ∨ climb source 0 ts = .error e ∨
      ∃ inner, climb source 0 ts = .ok inner ∧
        ((∃ expected, e = .unexpectedEnd expected) ∨
          ∃ close rest, inner.rest = close :: rest ∧ e = trailing source close) := by
  rw [operand] at h
  split at h
  · rcases bind_error h with h | ⟨inner, hinner, h⟩
    · exact .inr (.inl h)
    · refine .inr (.inr ⟨inner, hinner, ?_⟩)
      split at h
      · exact .inl ⟨_, (Except.error.inj h).symm⟩
      · next close rest hrest =>
        split at h
        · cases h
        · exact .inr ⟨close, rest, hrest, (Except.error.inj h).symm⟩
  · rcases bind_error h with h | ⟨_, _, h⟩
    · exact .inl h
    · cases h

theorem checkSuffix_error {start : Nat} {ts : List Token}
    (h : checkSuffix source start ts = .error e) :
    ∃ u rest construct, ts = u :: rest ∧ u.suffix? = some construct ∧
      e = .unsupported construct (fragmentThrough source start ts) := by
  unfold checkSuffix at h
  split at h
  · next construct hconstruct =>
    cases ts with
    | nil => cases hconstruct
    | cons u rest => exact ⟨u, rest, construct, rfl, hconstruct, (Except.error.inj h).symm⟩
  · cases h

theorem unaryChain_error {ts : List Token} (h : unaryChain source ts = .error e) :
    (∃ op, ts.head?.bind Token.unaryOp? = some op ∧ unaryChain source ts.tail = .error e) ∨
    operand source ts = .error e ∨
    ∃ p, operand source ts = .ok p ∧
      checkSuffix source ((ts.head?.map Token.start).getD 0) p.rest = .error e := by
  rw [unaryChain] at h
  split at h
  · next op hop =>
    rcases bind_error h with h | ⟨_, _, h⟩
    · exact .inl ⟨op, hop, h⟩
    · cases h
  · rcases bind_error h with h | ⟨p, hp, h⟩
    · exact .inr (.inl h)
    · rcases bind_error h with h | ⟨_, _, h⟩
      · exact .inr (.inr ⟨p, hp, h⟩)
      · cases h

theorem climb_error {ts : List Token} {least : Nat} (h : climb source least ts = .error e) :
    unaryChain source ts = .error e ∨ ∃ first, unaryChain source ts = .ok first ∧
      extend source least first.expr first.rest = .error e := by
  rw [climb] at h
  rcases bind_error h with h | ⟨first, hfirst, h⟩
  · exact .inl h
  · rcases bind_error h with h | ⟨_, _, h⟩
    · exact .inr ⟨first, hfirst, h⟩
    · cases h

theorem extend_error {ts : List Token} {least : Nat} {left : Expr}
    (h : extend source least left ts = .error e) :
    ∃ op, ts.head?.bind Token.binaryOp? = some op ∧
      (climb source (op.precedence + 1) ts.tail = .error e ∨
        ∃ right, climb source (op.precedence + 1) ts.tail = .ok right ∧
          extend source least (.binary op left right.expr) right.rest = .error e) := by
  rw [extend] at h
  split at h
  · next op hop =>
    refine ⟨op, (operatorFrom?_eq_some.1 hop).1, ?_⟩
    rcases bind_error h with h | ⟨right, hright, h⟩
    · exact .inl h
    · rcases bind_error h with h | ⟨_, _, h⟩
      · exact .inr ⟨right, hright, h⟩
      · cases h
  · cases h

theorem suffix_of_sound {ts used rest : List Token} (hts : ts <:+ tokens) (h : ts = used ++ rest) :
    rest <:+ tokens :=
  List.IsSuffix.trans ⟨used, h.symm⟩ hts

mutual

theorem blames_of_operand {ts : List Token} (hts : ts <:+ tokens)
    (h : operand source ts = .error e) : Blames source tokens e := by
  match ts, hts, h with
  | [], _, h =>
    rw [operand] at h
    cases h
    exact .ended
  | t :: ts, hts, h =>
    have htail : ts <:+ tokens := (List.suffix_cons t ts).trans hts
    rcases operand_error h with h | h | ⟨inner, hinner, h⟩
    · exact blames_of_atom (hts.subset List.mem_cons_self) h
    · exact blames_of_climb htail h
    · obtain ⟨used, hused, -, -⟩ := climb_sound (Nat.zero_le _) hinner
      have hrest := suffix_of_sound htail hused
      rcases h with ⟨expected, rfl⟩ | ⟨close, rest, hclose, rfl⟩
      · exact .ended
      · rw [hclose] at hrest
        exact blames_trailing (hrest.subset List.mem_cons_self)
termination_by 3 * ts.length

theorem blames_of_unaryChain {ts : List Token} (hts : ts <:+ tokens)
    (h : unaryChain source ts = .error e) : Blames source tokens e := by
  rcases unaryChain_error h with ⟨op, hop, h⟩ | h | ⟨p, hp, h⟩
  · obtain ⟨t, hcons, -⟩ := unaryOp?_eq_some hop
    have hlt : ts.tail.length < ts.length := by
      rw [hcons]
      exact Nat.lt_succ_self _
    exact blames_of_unaryChain ((List.tail_suffix ts).trans hts) h
  · exact blames_of_operand hts h
  · -- The operand has a first token, and the offending one comes right behind it.
    obtain ⟨used, hused, hderives⟩ := operand_sound hp
    obtain ⟨t, used, rfl⟩ := List.exists_cons_of_ne_nil hderives.ne_nil
    obtain ⟨front, hfront⟩ := hts
    obtain ⟨u, rest, construct, hrest, hsuffix, rfl⟩ := checkSuffix_error h
    have hstart : (ts.head?.map Token.start).getD 0 = t.start := by
      rw [hused]
      rfl
    rw [hused, hrest] at hfront
    rw [hstart, hrest]
    exact .suffix hfront.symm hsuffix
termination_by 3 * ts.length + 1

theorem blames_of_climb {ts : List Token} {least : Nat} (hts : ts <:+ tokens)
    (h : climb source least ts = .error e) : Blames source tokens e := by
  rcases climb_error h with h | ⟨first, hfirst, h⟩
  · exact blames_of_unaryChain hts h
  · have hlt := first.shorter
    obtain ⟨used, hused, -⟩ := unaryChain_sound hfirst
    exact blames_of_extend (suffix_of_sound hts hused) h
termination_by 3 * ts.length + 2

theorem blames_of_extend {ts : List Token} {least : Nat} {left : Expr} (hts : ts <:+ tokens)
    (h : extend source least left ts = .error e) : Blames source tokens e := by
  obtain ⟨op, hop, h⟩ := extend_error h
  obtain ⟨t, hcons, -⟩ := binaryOp?_eq_some hop
  have htail : ts.tail.length < ts.length := by
    rw [hcons]
    exact Nat.lt_succ_self _
  have hsuffix := (List.tail_suffix ts).trans hts
  rcases h with h | ⟨right, hright, h⟩
  · exact blames_of_climb hsuffix h
  · have hlt := Nat.lt_trans right.shorter htail
    have hmax : op.precedence + 1 ≤ 11 := by cases op <;> decide
    obtain ⟨used, hused, -, -⟩ := climb_sound hmax hright
    exact blames_of_extend (suffix_of_sound hsuffix hused) h
termination_by 3 * ts.length + 1

end

theorem parse_error (h : parse source = .error e) :
    Token.scan source = .error e ∨ ∃ tokens, Token.scan source = .ok tokens ∧
      ((tokens = [] ∧ e = .empty) ∨ Blames source tokens e) := by
  rcases bind_error h with h | ⟨tokens, hscan, h⟩
  · exact .inl h
  refine .inr ⟨tokens, hscan, ?_⟩
  split at h
  · next hempty => exact .inl ⟨List.isEmpty_iff.1 hempty, (Except.error.inj h).symm⟩
  · rcases bind_error h with h | ⟨whole, hwhole, h⟩
    · exact .inr (blames_of_climb (List.suffix_refl _) h)
    · obtain ⟨used, hused, -, -⟩ := climb_sound (Nat.zero_le _) hwhole
      split at h
      · cases h
      · next t rest hrest =>
        cases h
        refine .inr (blames_trailing ?_)
        rw [hused, hrest]
        exact List.mem_append_right _ List.mem_cons_self

end Expr

end Transclude
