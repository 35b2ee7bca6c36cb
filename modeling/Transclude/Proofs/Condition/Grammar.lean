import Transclude.Condition.Parser
import Transclude.Result

namespace Transclude

def levelOperators : Nat → List (String × BinaryOp)
  | 0 => [("||", .or)]
  | 1 => [("&&", .and)]
  | 2 => [("|", .bitOr)]
  | 3 => [("^", .bitXor)]
  | 4 => [("&", .bitAnd)]
  | 5 => [("==", .equal), ("!=", .notEqual), ("===", .identical), ("!==", .notIdentical)]
  | 6 => [("<", .less), ("<=", .lessEq), (">", .greater), (">=", .greaterEq)]
  | 7 => [("<<", .shiftLeft), (">>", .shiftRight), (">>>", .shiftRightUnsigned)]
  | 8 => [("+", .add), ("-", .subtract)]
  | 9 => [("*", .multiply), ("/", .divide), ("%", .remainder)]
  | _ => []

def unaryOperators : List (String × UnaryOp) :=
  [("!", .not), ("-", .negate), ("+", .plus), ("~", .complement)]

def wordLiterals : List (String × Literal) :=
  [("true", .boolean true), ("false", .boolean false), ("null", .null)]

/-- The kinds of phrases. A phrase of a level has operators of that level and of those after it;
level 10 has none of its own. -/
inductive Category where
  | primary
  | unary
  | level (n : Nat)

/-- The tokens are a phrase of a category with the given tree. -/
inductive Derives : Category → List Token → Expr → Prop
  | option {t : Token} {word : String} :
      t.kind = .name word → word ∉ wordLiterals.map (·.1) → word ∉ reservedWords →
      Derives .primary [t] (.option word)
  | word {t : Token} {word : String} {value : Literal} :
      t.kind = .name word → (word, value) ∈ wordLiterals →
      Derives .primary [t] (.literal t.spelling value)
  | number {t : Token} {x : Double} :
      t.kind = .number x → Derives .primary [t] (.literal t.spelling (.number x))
  | text {t : Token} {s : String} :
      t.kind = .text s → Derives .primary [t] (.literal t.spelling (.text s))
  | group {t close : Token} {ts : List Token} {e : Expr} :
      t.kind = .punct "(" → Derives (.level 0) ts e → close.kind = .punct ")" →
      Derives .primary (t :: (ts ++ [close])) e
  | primary {ts : List Token} {e : Expr} : Derives .primary ts e → Derives .unary ts e
  | unary {t : Token} {ts : List Token} {symbol : String} {op : UnaryOp} {e : Expr} :
      t.kind = .punct symbol → (symbol, op) ∈ unaryOperators → Derives .unary ts e →
      Derives .unary (t :: ts) (.unary op e)
  | tightest {ts : List Token} {e : Expr} : Derives .unary ts e → Derives (.level 10) ts e
  | tighter {n : Nat} {ts : List Token} {e : Expr} :
      Derives (.level (n + 1)) ts e → Derives (.level n) ts e
  | binary {n : Nat} {t : Token} {ts us : List Token} {symbol : String} {op : BinaryOp}
      {e f : Expr} :
      Derives (.level n) ts e → t.kind = .punct symbol → (symbol, op) ∈ levelOperators n →
      Derives (.level (n + 1)) us f → Derives (.level n) (ts ++ t :: us) (.binary op e f)

theorem levelOperators_of_lt :
    ∀ n < 10, ∀ p ∈ levelOperators n, p.1 = p.2.symbol ∧ p.2.precedence = n + 1 := by
  decide

theorem mem_levelOperators {n : Nat} {symbol : String} {op : BinaryOp} :
    (symbol, op) ∈ levelOperators n ↔ symbol = op.symbol ∧ op.precedence = n + 1 := by
  constructor
  · intro h
    by_cases hn : n < 10
    · exact levelOperators_of_lt n hn _ h
    · obtain ⟨k, rfl⟩ := Nat.exists_eq_add_of_le (Nat.le_of_not_lt hn)
      rw [Nat.add_comm] at h
      cases h
  · rintro ⟨rfl, h⟩
    obtain rfl : n = op.precedence - 1 := by omega
    cases op <;> decide

theorem mem_unaryOperators {symbol : String} {op : UnaryOp} :
    (symbol, op) ∈ unaryOperators ↔ symbol = op.symbol := by
  constructor
  · have hall : ∀ p ∈ unaryOperators, p.1 = p.2.symbol := by decide
    exact fun h ↦ hall _ h
  · rintro rfl
    cases op <;> decide

theorem Derives.ne_nil {c : Category} {ts : List Token} {e : Expr} (h : Derives c ts e) :
    ts ≠ [] := by
  induction h with
  | option | word | number | text | group | unary => simp
  | primary _ ih | tightest _ ih | tighter _ ih => exact ih
  | binary => simp

theorem Derives.looser {n m : Nat} (hnm : n ≤ m) {ts : List Token} {e : Expr}
    (h : Derives (.level m) ts e) : Derives (.level n) ts e := by
  induction hnm with
  | refl => exact h
  | step _ ih => exact ih h.tighter

@[simp]
theorem Extended.expr_after {tokens : List Token} {right : Parsed tokens.tail}
    {whole : Extended right.rest} :
    (Extended.after right whole).expr = whole.expr := rfl

@[simp]
theorem Extended.rest_after {tokens : List Token} {right : Parsed tokens.tail}
    {whole : Extended right.rest} :
    (Extended.after right whole).rest = whole.rest := rfl

namespace Expr

variable {source : String} {tokens : List Token}

def Continues (least : Nat) (tokens : List Token) : Prop :=
  ∃ op, tokens.head?.bind Token.binaryOp? = some op ∧ least ≤ op.precedence

theorem atom_sound {t : Token} {e : Expr} (h : atom source t = .ok e) : Derives .primary [t] e := by
  unfold atom at h
  split at h
  · next hk => cases h; exact .word hk (by decide)
  · next hk => cases h; exact .word hk (by decide)
  · next hk => cases h; exact .word hk (by decide)
  · next word h₁ h₂ h₃ hk =>
    split at h
    · cases h
    · next hw =>
      cases h
      exact .option hk (by simp_all [wordLiterals]) hw
  · next hk => cases h; exact .number hk
  · next hk => cases h; exact .text hk
  all_goals cases h

theorem operand_ok {p : Parsed tokens} (h : operand source tokens = .ok p) :
    ∃ t ts, tokens = t :: ts ∧ ((atom source t = .ok p.expr ∧ p.rest = ts) ∨
      ∃ inner close, t.kind = .punct "(" ∧ climb source 0 ts = .ok inner ∧
        inner.rest = close :: p.rest ∧ close.kind = .punct ")" ∧ p.expr = inner.expr) := by
  cases tokens with
  | nil =>
    rw [operand] at h
    cases h
  | cons t ts =>
    refine ⟨t, ts, rfl, ?_⟩
    rw [operand] at h
    split at h
    · next ht =>
      obtain ⟨inner, hinner, h⟩ := bind_ok h
      split at h
      · cases h
      · next close rest hrest =>
        split at h
        · next hclose =>
          cases h
          exact .inr ⟨inner, close, ht, hinner, hrest, hclose, rfl⟩
        · cases h
    · obtain ⟨e, he, h⟩ := bind_ok h
      cases h
      exact .inl ⟨he, rfl⟩

theorem unaryChain_ok {p : Parsed tokens} (h : unaryChain source tokens = .ok p) :
    (∃ op e, tokens.head?.bind Token.unaryOp? = some op ∧
      unaryChain source tokens.tail = .ok e ∧ p.expr = .unary op e.expr ∧ p.rest = e.rest) ∨
    operand source tokens = .ok p := by
  rw [unaryChain] at h
  split at h
  · next op hop =>
    obtain ⟨e, he, h⟩ := bind_ok h
    cases h
    exact .inl ⟨op, e, hop, he, rfl, rfl⟩
  · obtain ⟨e, he, h⟩ := bind_ok h
    obtain ⟨_, -, h⟩ := bind_ok h
    cases h
    exact .inr he

theorem climb_ok {least : Nat} {p : Parsed tokens} (h : climb source least tokens = .ok p) :
    ∃ first whole, unaryChain source tokens = .ok first ∧
      extend source least first.expr first.rest = .ok whole ∧ p = first.extended whole := by
  rw [climb] at h
  obtain ⟨first, hfirst, h⟩ := bind_ok h
  obtain ⟨whole, hwhole, h⟩ := bind_ok h
  cases h
  exact ⟨first, whole, hfirst, hwhole, rfl⟩

theorem extend_ok {least : Nat} {left : Expr} {p : Extended tokens}
    (h : extend source least left tokens = .ok p) :
    (∃ op right whole, tokens.head?.bind (Token.operatorFrom? least) = some op ∧
      climb source (op.precedence + 1) tokens.tail = .ok right ∧
      extend source least (.binary op left right.expr) right.rest = .ok whole ∧
      p = .after right whole) ∨
    (tokens.head?.bind (Token.operatorFrom? least) = none ∧ p = .nothing left tokens) := by
  rw [extend] at h
  split at h
  · next op hop =>
    obtain ⟨right, hright, h⟩ := bind_ok h
    obtain ⟨whole, hwhole, h⟩ := bind_ok h
    cases h
    exact .inl ⟨op, right, whole, hop, hright, hwhole, rfl⟩
  · next hnone =>
    cases h
    exact .inr ⟨hnone, rfl⟩

theorem operatorFrom?_eq_some {least : Nat} {op : BinaryOp} :
    tokens.head?.bind (Token.operatorFrom? least) = some op ↔
      tokens.head?.bind Token.binaryOp? = some op ∧ least ≤ op.precedence := by
  cases tokens <;> simp [Token.operatorFrom?, Option.filter_eq_some_iff]

theorem operatorFrom?_eq_none {least : Nat} :
    tokens.head?.bind (Token.operatorFrom? least) = none ↔ ¬Continues least tokens := by
  rw [Option.eq_none_iff_forall_ne_some]
  simp only [Continues, ne_eq, operatorFrom?_eq_some, not_exists]

theorem binaryOp?_eq_some {op : BinaryOp} (h : tokens.head?.bind Token.binaryOp? = some op) :
    ∃ t, tokens = t :: tokens.tail ∧ t.kind = .punct op.symbol := by
  cases tokens with
  | nil => cases h
  | cons t ts =>
    refine ⟨t, rfl, ?_⟩
    change t.binaryOp? = some op at h
    unfold Token.binaryOp? at h
    split at h
    · next symbol hk =>
      have hs : op.symbol = symbol := by simpa using List.find?_some h
      rw [hk, hs]
    · cases h

theorem unaryOp?_eq_some {op : UnaryOp} (h : tokens.head?.bind Token.unaryOp? = some op) :
    ∃ t, tokens = t :: tokens.tail ∧ t.kind = .punct op.symbol := by
  cases tokens with
  | nil => cases h
  | cons t ts =>
    refine ⟨t, rfl, ?_⟩
    change t.unaryOp? = some op at h
    unfold Token.unaryOp? at h
    split at h
    · next symbol hk =>
      unfold UnaryOp.ofSymbol? at h
      split at h <;> cases h <;> exact hk
    · cases h

theorem not_continues {least : Nat} (h : 10 < least) (tokens : List Token) :
    ¬Continues least tokens := by
  rintro ⟨op, -, hop⟩
  have hle : op.precedence ≤ 10 := by cases op <;> decide
  omega

mutual

theorem operand_sound {tokens : List Token} {p : Parsed tokens}
    (h : operand source tokens = .ok p) :
    ∃ used, tokens = used ++ p.rest ∧ Derives .primary used p.expr := by
  obtain ⟨t, ts, rfl, ⟨hatom, hrest⟩ | ⟨inner, close, ht, hinner, hrest, hclose, he⟩⟩ :=
    operand_ok h
  · exact ⟨[t], by rw [hrest]; rfl, atom_sound hatom⟩
  · obtain ⟨used, hused, hd, -⟩ := climb_sound (Nat.zero_le _) hinner
    have hts : ts = used ++ close :: p.rest := hrest ▸ hused
    exact ⟨t :: (used ++ [close]), by simpa using hts, he ▸ .group ht hd hclose⟩
termination_by 3 * tokens.length

theorem unaryChain_sound {tokens : List Token} {p : Parsed tokens}
    (h : unaryChain source tokens = .ok p) :
    ∃ used, tokens = used ++ p.rest ∧ Derives .unary used p.expr := by
  rcases unaryChain_ok h with ⟨op, e, hop, he, hexpr, hrest⟩ | hoperand
  · obtain ⟨t, htokens, hk⟩ := unaryOp?_eq_some hop
    have hlt : tokens.tail.length < tokens.length := by rw [htokens]; simp
    obtain ⟨used, hused, hd⟩ := unaryChain_sound he
    refine ⟨t :: used, ?_, hexpr ▸ .unary hk (mem_unaryOperators.2 rfl) hd⟩
    rw [hrest, List.cons_append, ← hused]
    exact htokens
  · obtain ⟨used, hused, hd⟩ := operand_sound hoperand
    exact ⟨used, hused, hd.primary⟩
termination_by 3 * tokens.length + 1

theorem climb_sound {tokens : List Token} {least : Nat} {p : Parsed tokens} (hleast : least ≤ 11)
    (h : climb source least tokens = .ok p) :
    ∃ used, tokens = used ++ p.rest ∧ Derives (.level (least - 1)) used p.expr ∧
      ¬Continues least p.rest := by
  obtain ⟨first, whole, hfirst, hwhole, rfl⟩ := climb_ok h
  have hlt := first.shorter
  obtain ⟨used, hused, hd⟩ := unaryChain_sound hfirst
  obtain ⟨more, hmore, hd, hnext⟩ := extend_sound hd.tightest hleast
    (not_continues (by omega) _) hwhole
  refine ⟨used ++ more, ?_, hd, hnext⟩
  rw [List.append_assoc]
  exact hused.trans (congrArg (used ++ ·) hmore)
termination_by 3 * tokens.length + 2

/-- The left operand is a phrase of level `n`, and no operator that binds tighter than that level
follows it, since the operand before would have taken it. -/
theorem extend_sound {tokens : List Token} {n least : Nat} {used : List Token} {left : Expr}
    {p : Extended tokens} (hleft : Derives (.level n) used left) (hn : least ≤ n + 1)
    (hnext : ¬Continues (n + 2) tokens) (h : extend source least left tokens = .ok p) :
    ∃ more, tokens = more ++ p.rest ∧ Derives (.level (least - 1)) (used ++ more) p.expr ∧
      ¬Continues least p.rest := by
  rcases extend_ok h with ⟨op, right, whole, hop, hright, hwhole, rfl⟩ | ⟨hnone, rfl⟩
  · obtain ⟨hop, hleast⟩ := operatorFrom?_eq_some.1 hop
    obtain ⟨t, htokens, hk⟩ := binaryOp?_eq_some hop
    obtain ⟨m, hm⟩ : ∃ m, op.precedence = m + 1 := by cases op <;> exact ⟨_, rfl⟩
    have hmn : m ≤ n := Nat.le_of_not_lt fun hlt ↦ hnext ⟨op, hop, by omega⟩
    have hmax : op.precedence + 1 ≤ 11 := by cases op <;> decide
    have htail : tokens.tail.length < tokens.length := by rw [htokens]; simp
    have hlt := Nat.lt_trans right.shorter htail
    obtain ⟨usedRight, husedRight, hd, hnextRight⟩ := climb_sound hmax hright
    rw [hm] at hd hnextRight
    have hbinary := (hleft.looser hmn).binary hk (mem_levelOperators.2 ⟨rfl, hm⟩) hd
    obtain ⟨more, hmore, hd, hnext⟩ := extend_sound hbinary (by omega) hnextRight hwhole
    refine ⟨t :: (usedRight ++ more), ?_, by simpa using hd, hnext⟩
    rw [Extended.rest_after, List.cons_append, List.append_assoc, ← hmore, ← husedRight]
    exact htokens
  · refine ⟨[], rfl, ?_, operatorFrom?_eq_none.1 hnone⟩
    rw [List.append_nil]
    exact hleft.looser (by omega)
termination_by 3 * tokens.length + 1

end

theorem operand_atom {t : Token} {e : Expr} (ht : t.kind ≠ .punct "(") (h : atom source t = .ok e)
    (ts : List Token) : operand source (t :: ts) = .ok (.single e t ts) := by
  rw [operand, if_neg ht, h]
  rfl

theorem operand_group {t close : Token} {ts rest : List Token} {inner : Parsed ts}
    (ht : t.kind = .punct "(") (h : climb source 0 ts = .ok inner)
    (hrest : inner.rest = close :: rest) (hclose : close.kind = .punct ")") :
    operand source (t :: ts) = .ok (inner.enclosed t hrest) := by
  rw [operand, if_pos ht, h]
  dsimp only [bind, Except.bind]
  split
  · next hnil => rw [hrest] at hnil; cases hnil
  · next close' rest' hcons =>
    rw [hrest] at hcons
    cases hcons
    rw [if_pos hclose]

theorem unaryChain_unary {op : UnaryOp} {e : Parsed tokens.tail}
    (hop : tokens.head?.bind Token.unaryOp? = some op)
    (h : unaryChain source tokens.tail = .ok e) :
    unaryChain source tokens = .ok (.negated op e) := by
  rw [unaryChain]
  split
  · next op' hop' =>
    rw [hop] at hop'
    cases hop'
    rw [h]
    rfl
  · next hnone => rw [hop] at hnone; cases hnone

theorem unaryChain_operand {p : Parsed tokens} (hop : tokens.head?.bind Token.unaryOp? = none)
    (h : operand source tokens = .ok p) (hsuffix : p.rest.head?.bind Token.suffix? = none) :
    unaryChain source tokens = .ok p := by
  rw [unaryChain]
  split
  · next op hop' => rw [hop] at hop'; cases hop'
  · rw [h]
    change (checkSuffix source _ p.rest >>= fun _ ↦ .ok p) = _
    rw [checkSuffix, hsuffix]
    rfl

theorem climb_extended {least : Nat} {first : Parsed tokens} {whole : Extended first.rest}
    (h : unaryChain source tokens = .ok first)
    (hwhole : extend source least first.expr first.rest = .ok whole) :
    climb source least tokens = .ok (first.extended whole) := by
  rw [climb, h]
  change (extend source least first.expr first.rest >>= fun whole ↦ .ok _) = _
  rw [hwhole]
  rfl

theorem extend_nothing {least : Nat} (h : ¬Continues least tokens) (left : Expr) :
    extend source least left tokens = .ok (.nothing left tokens) := by
  rw [extend]
  split
  · next op hop => exact absurd ⟨op, operatorFrom?_eq_some.1 hop⟩ h
  · rfl

theorem extend_after {least : Nat} {op : BinaryOp} {left : Expr} {right : Parsed tokens.tail}
    {whole : Extended right.rest} (hop : tokens.head?.bind Token.binaryOp? = some op)
    (hleast : least ≤ op.precedence)
    (h : climb source (op.precedence + 1) tokens.tail = .ok right)
    (hwhole : extend source least (.binary op left right.expr) right.rest = .ok whole) :
    extend source least left tokens = .ok (.after right whole) := by
  have hop := operatorFrom?_eq_some.2 ⟨hop, hleast⟩
  rw [extend]
  split
  · next op' hop' =>
    rw [hop] at hop'
    cases hop'
    rw [h]
    change (extend source least _ right.rest >>= fun whole ↦ .ok _) = _
    rw [hwhole]
    rfl
  · next hnone => rw [hop] at hnone; cases hnone

/-- The parser reads the tokens off any rest that cannot continue them. At a level the loop goes on
behind them with whatever it finds there. -/
def Reads (source : String) : Category → List Token → Expr → Prop
  | .primary, ts, e => ∀ rest, ∃ hlt, operand source (ts ++ rest) = .ok ⟨e, rest, hlt⟩
  | .unary, ts, e =>
    ∀ rest, rest.head?.bind Token.suffix? = none →
      ∃ hlt, unaryChain source (ts ++ rest) = .ok ⟨e, rest, hlt⟩
  | .level n, ts, e =>
    ∀ rest least whole, rest.head?.bind Token.suffix? = none → ¬Continues (n + 2) rest →
      least ≤ n + 1 → extend source least e rest = .ok whole →
      ∃ hlt, climb source least (ts ++ rest) = .ok ⟨whole.expr, whole.rest, hlt⟩

theorem reads_atom {t : Token} {e : Expr} (ht : ∀ symbol, t.kind ≠ .punct symbol)
    (h : atom source t = .ok e) : Reads source .primary [t] e :=
  fun rest ↦ ⟨_, operand_atom (ht "(") h rest⟩

theorem atom_name {t : Token} {word : String} (hk : t.kind = .name word)
    (hword : word ∉ wordLiterals.map (·.1)) (hreserved : word ∉ reservedWords) :
    atom source t = .ok (.option word) := by
  unfold atom
  split <;> simp_all [wordLiterals]

theorem atom_word {t : Token} {word : String} {value : Literal} (hk : t.kind = .name word)
    (h : (word, value) ∈ wordLiterals) : atom source t = .ok (.literal t.spelling value) := by
  simp only [wordLiterals, List.mem_cons, Prod.mk.injEq, List.not_mem_nil, or_false] at h
  rcases h with ⟨rfl, rfl⟩ | ⟨rfl, rfl⟩ | ⟨rfl, rfl⟩ <;> simp [atom, hk]

theorem primary_head {ts : List Token} {e : Expr} (h : Derives .primary ts e) (rest : List Token) :
    (ts ++ rest).head?.bind Token.unaryOp? = none := by
  cases h with
  | option hk | word hk | number hk | text hk => simp [Token.unaryOp?, hk]
  | group hk => simp [Token.unaryOp?, hk, UnaryOp.ofSymbol?]

theorem suffix?_operator {t : Token} {op : BinaryOp} (h : t.kind = .punct op.symbol)
    (ts : List Token) : (t :: ts).head?.bind Token.suffix? = none := by
  cases op <;> simp [Token.suffix?, h, BinaryOp.symbol]

theorem binaryOp?_operator {t : Token} {op : BinaryOp} (h : t.kind = .punct op.symbol)
    (ts : List Token) : (t :: ts).head?.bind Token.binaryOp? = some op := by
  simp [Token.binaryOp?, h]

theorem unaryOp?_operator {t : Token} {op : UnaryOp} (h : t.kind = .punct op.symbol)
    (ts : List Token) : (t :: ts).head?.bind Token.unaryOp? = some op := by
  simp [Token.unaryOp?, h]

theorem reads_of_derives (source : String) {c : Category} {ts : List Token} {e : Expr}
    (h : Derives c ts e) : Reads source c ts e := by
  induction h with
  | option hk hword hreserved => exact reads_atom (by simp [hk]) (atom_name hk hword hreserved)
  | word hk h => exact reads_atom (by simp [hk]) (atom_word hk h)
  | number hk => exact reads_atom (by simp [hk]) (by simp [atom, hk])
  | text hk => exact reads_atom (by simp [hk]) (by simp [atom, hk])
  | @group t close ts e ht _ hclose ih =>
    intro rest
    have hnone : close.binaryOp? = none := by
      simp only [Token.binaryOp?, hclose]
      decide
    have hend : ∀ least, ¬Continues least (close :: rest) := by
      rintro least ⟨op, hop, -⟩
      rw [List.head?_cons, Option.bind_some, hnone] at hop
      cases hop
    have hsuffix : (close :: rest).head?.bind Token.suffix? = none := by
      simp [Token.suffix?, hclose]
    obtain ⟨hlt, hinner⟩ := ih (close :: rest) 0 _ hsuffix (hend _) (Nat.zero_le _)
      (extend_nothing (hend 0) e)
    rw [List.cons_append, List.append_assoc]
    exact ⟨_, operand_group ht hinner rfl hclose⟩
  | primary h ih =>
    intro rest hsuffix
    obtain ⟨hlt, hp⟩ := ih rest
    exact ⟨hlt, unaryChain_operand (primary_head h _) hp hsuffix⟩
  | unary hk hop _ ih =>
    intro rest hsuffix
    rw [mem_unaryOperators.1 hop] at hk
    obtain ⟨hlt, hp⟩ := ih rest hsuffix
    exact ⟨_, unaryChain_unary (unaryOp?_operator hk _) hp⟩
  | tightest _ ih =>
    intro rest least whole hsuffix _ _ hwhole
    obtain ⟨hlt, hp⟩ := ih rest hsuffix
    exact ⟨_, climb_extended hp hwhole⟩
  | tighter _ ih =>
    intro rest least whole hsuffix hnext hleast hwhole
    refine ih rest least whole hsuffix ?_ (by omega) hwhole
    rintro ⟨op, hop, hle⟩
    exact hnext ⟨op, hop, by omega⟩
  | @binary n t ts us symbol op e f _ hk hop _ ihe ihf =>
    intro rest least whole hsuffix hnext hleast hwhole
    obtain ⟨rfl, hprecedence⟩ := mem_levelOperators.1 hop
    -- The right operand ends where the phrase does: what follows binds no tighter than `op`.
    have hend : ¬Continues (op.precedence + 1) rest := by rwa [hprecedence]
    obtain ⟨hlt, hright⟩ := ihf rest (op.precedence + 1) _ hsuffix
      (fun ⟨op', hop', hle⟩ ↦ hend ⟨op', hop', by omega⟩) (by omega) (extend_nothing hend f)
    have hhead := binaryOp?_operator hk (us ++ rest)
    have hloop := extend_after hhead (by omega) hright hwhole
    have hnext' : ¬Continues (n + 2) (t :: (us ++ rest)) := by
      rintro ⟨op', hop', hle⟩
      obtain rfl := Option.some.inj (hhead.symm.trans hop')
      omega
    rw [List.append_assoc]
    exact ihe _ least _ (suffix?_operator hk _) hnext' hleast hloop

theorem derives_of_parse {tokens : List Token} (hscan : Token.scan source = .ok tokens) {e : Expr}
    (h : parse source = .ok e) : Derives (.level 0) tokens e := by
  obtain ⟨ts, hts, h⟩ := bind_ok h
  obtain rfl := Except.ok.inj (hscan.symm.trans hts)
  split at h
  · cases h
  · obtain ⟨whole, hwhole, h⟩ := bind_ok h
    obtain ⟨used, hused, hd, -⟩ := climb_sound (Nat.zero_le _) hwhole
    split at h
    · next hrest =>
      cases h
      rw [hrest, List.append_nil] at hused
      exact hused ▸ hd
    · cases h

theorem parse_of_derives {tokens : List Token} (hscan : Token.scan source = .ok tokens) {e : Expr}
    (h : Derives (.level 0) tokens e) : parse source = .ok e := by
  have hne : ¬tokens.isEmpty := by simpa using h.ne_nil
  have hend : ∀ least, ¬Continues least [] := by simp [Continues]
  have hclimb := reads_of_derives source h [] 0 _ rfl (hend _) (Nat.zero_le _)
    (extend_nothing (hend 0) e)
  rw [List.append_nil] at hclimb
  obtain ⟨hlt, hclimb⟩ := hclimb
  rw [parse, hscan]
  change (if tokens.isEmpty then _ else _) = _
  rw [if_neg hne, hclimb]
  rfl

/-- The parser accepts exactly the sentences of the grammar, each with its own tree. -/
theorem parse_eq_ok_iff {source : String} {tokens : List Token}
    (hscan : Token.scan source = .ok tokens) (e : Expr) :
    parse source = .ok e ↔ Derives (.level 0) tokens e :=
  ⟨derives_of_parse hscan, parse_of_derives hscan⟩

theorem parse_redundant_parentheses :
    ∃ tokens, Token.scan "((a)) - -b*(c) || null" = .ok tokens ∧
      Derives (.level 0) tokens
        (.binary .or
          (.binary .subtract (.option "a")
            (.binary .multiply (.unary .negate (.option "b")) (.option "c")))
          (.literal "null" .null)) := by
  have hparse : (parse "((a)) - -b*(c) || null").toOption = some
        (.binary .or
          (.binary .subtract (.option "a")
            (.binary .multiply (.unary .negate (.option "b")) (.option "c")))
          (.literal "null" .null)) := by
    decide +kernel
  have hparse := eq_ok_of_toOption hparse
  obtain ⟨tokens, hscan, -⟩ := bind_ok hparse
  exact ⟨tokens, hscan, (parse_eq_ok_iff hscan _).1 hparse⟩

end Expr

end Transclude
