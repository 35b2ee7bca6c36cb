namespace Transclude

/-- Constructs that are expressions elsewhere and that conditions do not have. -/
inductive Construct where
  | call
  | member
  | computedMember
  | update
  | taggedTemplate
  | arrayLiteral
  | objectLiteral
  | templateLiteral
  | conditional
  | nullishCoalescing
  | exponentiation
  | sequence
  | arrowFunction
  | assignment
  | statements
  | keyword (word : String)
  deriving DecidableEq

def Construct.name : Construct → String
  | .call => "function call"
  | .member => "member access"
  | .computedMember => "computed member access"
  | .update => "update expression"
  | .taggedTemplate => "tagged template"
  | .arrayLiteral => "array literal"
  | .objectLiteral => "object literal"
  | .templateLiteral => "template literal"
  | .conditional => "conditional expression"
  | .nullishCoalescing => "nullish coalescing"
  | .exponentiation => "exponentiation"
  | .sequence => "sequence expression"
  | .arrowFunction => "arrow function"
  | .assignment => "assignment"
  | .statements => "multiple statements"
  | .keyword word => word ++ " expression"

inductive Expected where
  | operand
  | closingParenthesis
  deriving DecidableEq

def Expected.name : Expected → String
  | .operand => "an expression"
  | .closingParenthesis => "')'"

/-- Offsets are byte offsets into the condition. -/
inductive ConditionError where
  | empty
  | unexpectedToken (found : String) (offset : Nat)
  | unexpectedCharacter (found : Char) (offset : Nat)
  | unexpectedEnd (expected : Expected)
  | unterminatedString (offset : Nat)
  | invalidEscape (offset : Nat)
  | invalidNumber (literal : String)
  | unsupported (construct : Construct) (fragment : String)
  deriving DecidableEq

def ConditionError.message : ConditionError → String
  | .empty => "condition is empty"
  | .unexpectedToken found offset => s!"unexpected '{found}' at offset {offset}"
  | .unexpectedCharacter found offset => s!"unexpected character '{found}' at offset {offset}"
  | .unexpectedEnd expected => s!"unexpected end of condition, expected {expected.name}"
  | .unterminatedString offset => s!"unterminated string literal starting at offset {offset}"
  | .invalidEscape offset => s!"invalid escape sequence at offset {offset}"
  | .invalidNumber literal => s!"invalid number literal '{literal}'"
  | .unsupported construct fragment => s!"unsupported {construct.name} in '{fragment}'"

end Transclude
