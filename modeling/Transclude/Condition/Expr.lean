import Transclude.Double.Basic

namespace Transclude

inductive Literal where
  | number (value : Double)
  | text (value : String)
  | boolean (value : Bool)
  | null
  deriving DecidableEq

inductive UnaryOp where
  | not
  | negate
  | plus
  | complement
  deriving DecidableEq

inductive BinaryOp where
  | multiply
  | divide
  | remainder
  | add
  | subtract
  | shiftLeft
  | shiftRight
  | shiftRightUnsigned
  | less
  | lessEq
  | greater
  | greaterEq
  | equal
  | notEqual
  | identical
  | notIdentical
  | bitAnd
  | bitXor
  | bitOr
  | and
  | or
  deriving DecidableEq

/-- A literal keeps the text it was written as. -/
inductive Expr where
  | literal (spelling : String) (value : Literal)
  | option (name : String)
  | unary (op : UnaryOp) (operand : Expr)
  | binary (op : BinaryOp) (left right : Expr)
  deriving DecidableEq

namespace UnaryOp

def symbol : UnaryOp → String
  | .not => "!"
  | .negate => "-"
  | .plus => "+"
  | .complement => "~"

def ofSymbol? : String → Option UnaryOp
  | "!" => some .not
  | "-" => some .negate
  | "+" => some .plus
  | "~" => some .complement
  | _ => none

@[simp]
theorem ofSymbol?_symbol (op : UnaryOp) : ofSymbol? op.symbol = some op := by
  cases op <;> rfl

end UnaryOp

namespace BinaryOp

def symbol : BinaryOp → String
  | .multiply => "*"
  | .divide => "/"
  | .remainder => "%"
  | .add => "+"
  | .subtract => "-"
  | .shiftLeft => "<<"
  | .shiftRight => ">>"
  | .shiftRightUnsigned => ">>>"
  | .less => "<"
  | .lessEq => "<="
  | .greater => ">"
  | .greaterEq => ">="
  | .equal => "=="
  | .notEqual => "!="
  | .identical => "==="
  | .notIdentical => "!=="
  | .bitAnd => "&"
  | .bitXor => "^"
  | .bitOr => "|"
  | .and => "&&"
  | .or => "||"

def all : List BinaryOp :=
  [.multiply, .divide, .remainder, .add, .subtract, .shiftLeft, .shiftRight, .shiftRightUnsigned,
    .less, .lessEq, .greater, .greaterEq, .equal, .notEqual, .identical, .notIdentical, .bitAnd,
    .bitXor, .bitOr, .and, .or]

def ofSymbol? (symbol : String) : Option BinaryOp := all.find? (·.symbol == symbol)

/-- How tightly an operator binds: `||` has precedence 1, products have precedence 10. Operators of
one precedence associate to the left. -/
def precedence : BinaryOp → Nat
  | .multiply | .divide | .remainder => 10
  | .add | .subtract => 9
  | .shiftLeft | .shiftRight | .shiftRightUnsigned => 8
  | .less | .lessEq | .greater | .greaterEq => 7
  | .equal | .notEqual | .identical | .notIdentical => 6
  | .bitAnd => 5
  | .bitXor => 4
  | .bitOr => 3
  | .and => 2
  | .or => 1

@[simp]
theorem ofSymbol?_symbol (op : BinaryOp) : ofSymbol? op.symbol = some op := by
  cases op <;> decide

end BinaryOp

namespace Expr

def addNames : Expr → List String → List String
  | .literal .., names => names
  | .option name, names => if name ∈ names then names else names ++ [name]
  | .unary _ operand, names => operand.addNames names
  | .binary _ left right, names => right.addNames (left.addNames names)

def names (e : Expr) : List String := e.addNames []

/-- Whether an operator and a text that follows it would read as an increment or a decrement. -/
def merges (symbol right : List Char) : Bool :=
  match symbol.getLast?, right.head? with
  | some c, some d => c == d && (c == '+' || c == '-')
  | _, _ => false

/-- The expression as text, an option being a member of the record named `record`. -/
def printChars (record : List Char) : Expr → List Char
  | .literal spelling _ => spelling.toList
  | .option name => record ++ '.' :: name.toList
  | .unary op operand => op.symbol.toList ++ '(' :: operand.printChars record ++ [')']
  | .binary op left right =>
    let symbol := op.symbol.toList
    let text := right.printChars record
    '(' :: left.printChars record ++ symbol ++
      (if merges symbol text then ' ' :: text else text) ++ [')']

def print (record : String) (e : Expr) : String := String.ofList (e.printChars record.toList)

end Expr

end Transclude
