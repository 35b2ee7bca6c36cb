import Transclude.Condition.Expr
import Transclude.Condition.Token

namespace Transclude

open Text

def reservedWords : List String :=
  ["typeof", "void", "delete", "new", "this", "function", "class", "await", "yield", "super", "in",
    "instanceof"]

/-- An expression read off the front of a list of tokens, and the tokens left. -/
structure Parsed (tokens : List Token) where
  expr : Expr
  rest : List Token
  shorter : rest.length < tokens.length

/-- An expression continued by tokens off the front of a list, maybe none, and the tokens left. -/
structure Extended (tokens : List Token) where
  expr : Expr
  rest : List Token
  notLonger : rest.length ≤ tokens.length

namespace Parsed

def single (e : Expr) (t : Token) (ts : List Token) : Parsed (t :: ts) := ⟨e, ts, by simp⟩

def enclosed {ts rest : List Token} {close : Token} (t : Token) (inner : Parsed ts)
    (h : inner.rest = close :: rest) : Parsed (t :: ts) :=
  ⟨inner.expr, rest, by have := inner.shorter; simp_all; omega⟩

def negated {tokens : List Token} (op : UnaryOp) (e : Parsed tokens.tail) : Parsed tokens :=
  ⟨.unary op e.expr, e.rest, by have := e.shorter; simp at this; omega⟩

def extended {tokens : List Token} (first : Parsed tokens) (whole : Extended first.rest) :
    Parsed tokens :=
  ⟨whole.expr, whole.rest, Nat.lt_of_le_of_lt whole.notLonger first.shorter⟩

end Parsed

namespace Extended

def nothing (e : Expr) (tokens : List Token) : Extended tokens := ⟨e, tokens, Nat.le_refl _⟩

def after {tokens : List Token} (right : Parsed tokens.tail) (whole : Extended right.rest) :
    Extended tokens :=
  ⟨whole.expr, whole.rest, by
    have hr := right.shorter
    have hw := whole.notLonger
    rw [List.length_tail] at hr
    omega⟩

end Extended

namespace Token

def suffix? (t : Token) : Option Construct :=
  match t.kind with
  | .punct "(" => some .call
  | .punct "." | .punct "?." => some .member
  | .punct "[" => some .computedMember
  | .punct "++" | .punct "--" => some .update
  | .backtick => some .taggedTemplate
  | _ => none

def continuation? (t : Token) : Option Construct :=
  match t.kind with
  | .punct "?" => some .conditional
  | .punct "??" => some .nullishCoalescing
  | .punct "**" => some .exponentiation
  | .punct "," => some .sequence
  | .punct "=>" => some .arrowFunction
  | .punct ";" => some .statements
  | .punct symbol => if symbol ∈ assignments then some .assignment else none
  | .name word => if word ∈ reservedWords then some (.keyword word) else none
  | _ => none
where
  assignments : List String :=
    ["=", "+=", "-=", "*=", "/=", "%=", "&=", "|=", "^=", "<<=", ">>=", ">>>=", "**="]

def unaryOp? (t : Token) : Option UnaryOp :=
  match t.kind with
  | .punct symbol => UnaryOp.ofSymbol? symbol
  | _ => none

def binaryOp? (t : Token) : Option BinaryOp :=
  match t.kind with
  | .punct symbol => BinaryOp.ofSymbol? symbol
  | _ => none

def operatorFrom? (least : Nat) (t : Token) : Option BinaryOp :=
  t.binaryOp?.filter (least ≤ ·.precedence)

end Token

namespace Expr

def trailing (source : String) (t : Token) : ConditionError :=
  match t.continuation? with
  | some construct => .unsupported construct (trim source)
  | none => .unexpectedToken t.spelling t.start

def fragmentFrom (source : String) (t : Token) : String :=
  trim (slice t.start (size source.toList) source)

/-- Where a fragment ends that goes through the token after the first of `tokens`. -/
def fragmentStop (source : String) : List Token → Nat
  | _ :: t :: _ => t.stop
  | [t] => t.stop
  | [] => size source.toList

def fragmentThrough (source : String) (start : Nat) (tokens : List Token) : String :=
  trim (slice start (fragmentStop source tokens) source)

def atom (source : String) (t : Token) : Except ConditionError Expr :=
  match t.kind with
  | .name "true" => .ok (.literal t.spelling (.boolean true))
  | .name "false" => .ok (.literal t.spelling (.boolean false))
  | .name "null" => .ok (.literal t.spelling .null)
  | .name word =>
    if word ∈ reservedWords then .error (.unsupported (.keyword word) (fragmentFrom source t))
    else .ok (.option word)
  | .number x => .ok (.literal t.spelling (.number x))
  | .text s => .ok (.literal t.spelling (.text s))
  | .punct "[" => .error (.unsupported .arrayLiteral (fragmentFrom source t))
  | .punct "\x7b" => .error (.unsupported .objectLiteral (fragmentFrom source t))
  | .punct "++" | .punct "--" => .error (.unsupported .update (fragmentFrom source t))
  | .backtick => .error (.unsupported .templateLiteral (fragmentFrom source t))
  | .punct _ => .error (.unexpectedToken t.spelling t.start)

def checkSuffix (source : String) (start : Nat) (tokens : List Token) :
    Except ConditionError Unit :=
  match tokens.head?.bind Token.suffix? with
  | some construct => .error (.unsupported construct (fragmentThrough source start tokens))
  | none => .ok ()

mutual

def operand (source : String) (tokens : List Token) : Except ConditionError (Parsed tokens) :=
  match tokens with
  | [] => .error (.unexpectedEnd .operand)
  | t :: ts =>
    if t.kind = .punct "(" then do
      let inner ← climb source 0 ts
      match h : inner.rest with
      | [] => .error (.unexpectedEnd .closingParenthesis)
      | close :: rest =>
        if close.kind = .punct ")" then
          .ok (inner.enclosed t h)
        else .error (trailing source close)
    else do
      let e ← atom source t
      .ok (.single e t ts)
termination_by 3 * tokens.length
decreasing_by
  simp only [List.length_cons]
  omega

def unaryChain (source : String) (tokens : List Token) : Except ConditionError (Parsed tokens) :=
  match _h : tokens.head?.bind Token.unaryOp? with
  | some op => do
    let e ← unaryChain source tokens.tail
    .ok (.negated op e)
  | none => do
    let e ← operand source tokens
    checkSuffix source ((tokens.head?.map Token.start).getD 0) e.rest
    .ok e
termination_by 3 * tokens.length + 1
decreasing_by
  · cases tokens with
    | nil => simp at _h
    | cons t ts => simp only [List.length_cons, List.tail_cons]; omega
  · omega

/-- Precedence climbing: an expression whose operators outside parentheses bind at least as tightly
as `least`. -/
def climb (source : String) (least : Nat) (tokens : List Token) :
    Except ConditionError (Parsed tokens) := do
  let first ← unaryChain source tokens
  let whole ← extend source least first.expr first.rest
  .ok (first.extended whole)
termination_by 3 * tokens.length + 2
decreasing_by
  · omega
  · have := first.shorter
    omega

/-- Continues a left operand by the operators that follow it, as far as they bind at least as
tightly as `least`. A right operand only has operators that bind tighter than its own. -/
def extend (source : String) (least : Nat) (left : Expr) (tokens : List Token) :
    Except ConditionError (Extended tokens) :=
  match _h : tokens.head?.bind (Token.operatorFrom? least) with
  | some op => do
    let right ← climb source (op.precedence + 1) tokens.tail
    let whole ← extend source least (.binary op left right.expr) right.rest
    .ok (.after right whole)
  | none => .ok (.nothing left tokens)
termination_by 3 * tokens.length + 1
decreasing_by
  · cases tokens with
    | nil => simp at _h
    | cons t ts => simp only [List.length_cons, List.tail_cons]; omega
  · have := right.shorter
    rw [List.length_tail] at this
    omega

end

def parse (source : String) : Except ConditionError Expr := do
  let tokens ← Token.scan source
  if tokens.isEmpty then .error .empty
  else
    let whole ← climb source 0 tokens
    match whole.rest with
    | [] => .ok whole.expr
    | t :: _ => .error (trailing source t)

end Expr

end Transclude
