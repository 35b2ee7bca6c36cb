import Transclude.Condition.Literal
import Transclude.Text.Character

namespace Transclude

open Text

inductive TokenKind where
  | name (name : String)
  | number (value : Double)
  | text (value : String)
  | punct (symbol : String)
  | backtick
  deriving DecidableEq

structure Token where
  kind : TokenKind
  spelling : String
  start : Nat
  deriving DecidableEq

namespace Token

def stop (t : Token) : Nat := t.start + size t.spelling.toList

/-- The punctuators, longer ones before their own beginnings. Those that no condition may contain
are known too, so that an error can name what was meant. -/
def punctuators : List String :=
  [">>>=", "===", "!==", ">>>", "<<=", ">>=", "**=", "...", "==", "!=", "<=", ">=", "&&", "||",
    "<<", ">>", "++", "--", "+=", "-=", "*=", "/=", "%=", "&=", "|=", "^=", "=>", "??", "?.",
    "**", "+", "-", "*", "/", "%", "<", ">", "!", "~", "&", "|", "^", "(", ")", "[", "]", "\x7b",
    "\x7d", ".", ",", "?", ":", "=", ";"]

def punctuator? (cs : List Char) : Option String :=
  punctuators.find? fun p ↦ p.toList.isPrefixOf cs

/-- A kind of token, and the number of characters that the token has after its first one. -/
structure Lexeme where
  kind : TokenKind
  tail : Nat

def lexeme (offset : Nat) (c : Char) (cs : List Char) : Except ConditionError Lexeme :=
  if isNameStart c then
    let part := cs.takeWhile isNamePart
    .ok ⟨.name (String.ofList (c :: part)), part.length⟩
  else if isDigit c || (c == '.' && cs.head?.any isDigit) then
    (Literal.readNumber c cs).map fun (x, n) ↦ ⟨.number x, n⟩
  else if c = '\x22' ∨ c = '\x27' then
    (Literal.readString c offset cs).map fun (s, n) ↦ ⟨.text s, n⟩
  else if c = '\x60' then .ok ⟨.backtick, 0⟩
  else
    match punctuator? (c :: cs) with
    | some p => .ok ⟨.punct p, p.toList.length - 1⟩
    | none => .error (.unexpectedCharacter c offset)

def scanFrom (offset : Nat) (cs : List Char) : Except ConditionError (List Token) :=
  match cs with
  | [] => .ok []
  | c :: cs =>
    if isBlank c then scanFrom (offset + c.utf8Size) cs
    else do
      let found ← lexeme offset c cs
      let spelling := c :: cs.take found.tail
      let rest ← scanFrom (offset + size spelling) (cs.drop found.tail)
      return ⟨found.kind, String.ofList spelling, offset⟩ :: rest
termination_by cs.length
decreasing_by all_goals (simp only [List.length_cons, List.length_drop]; omega)

def scan (source : String) : Except ConditionError (List Token) := scanFrom 0 source.toList

end Token

end Transclude
