import Transclude.Condition.Expr
import Transclude.Condition.Value
import Transclude.Text.Encoding

namespace Transclude

open Text

namespace Value

def compare? : Value → Value → Option Ordering
  | .string s, .string t => some (compareUnits (units s) (units t))
  | v, w => Double.compare? v.toNumber w.toNumber

/-- Equality without conversion. No object is identical to another. -/
def identical : Value → Value → Bool
  | .number x, .number y => x.equals y
  | .object, .object => false
  | v, w => v = w

def equalsPlain : Value → Value → Bool
  | .undefined, .undefined | .undefined, .null | .null, .undefined | .null, .null => true
  | .undefined, _ | .null, _ | _, .undefined | _, .null => false
  | .number x, .string s => x.equals (numberOfText s)
  | .string s, .number x => (numberOfText s).equals x
  | .object, .string s | .string s, .object => s = "[object Object]"
  | .object, .number _ | .number _, .object => false
  | v, w => v.identical w

def unboolean : Value → Value
  | .boolean b => .number (.ofNat b.toNat)
  | v => v

/-- Equality with conversion: booleans count as numbers, texts are read as numbers beside a number,
and `undefined` and `null` equal only each other. -/
def equals (v w : Value) : Bool := equalsPlain v.unboolean w.unboolean

/-- A sum of numbers, or the joined texts if one operand is a text or an object. -/
def plus : Value → Value → Value
  | .string s, w => .string (s ++ w.toText)
  | .object, w => .string (Value.object.toText ++ w.toText)
  | v, .string t => .string (v.toText ++ t)
  | v, .object => .string (v.toText ++ Value.object.toText)
  | v, w => .number (v.toNumber.add w.toNumber)

def ofSigned (w : BitVec 32) : Value := .number (.ofInt w.toInt)

def ofUnsigned (w : BitVec 32) : Value := .number (.ofNat w.toNat)

def shift (v : Value) : Nat := v.toWord.toNat % 32

end Value

namespace UnaryOp

def apply (op : UnaryOp) (v : Value) : Value :=
  match op with
  | .not => .boolean !v.isTruthy
  | .negate => .number v.toNumber.neg
  | .plus => .number v.toNumber
  | .complement => .ofSigned (~~~v.toWord)

end UnaryOp

namespace BinaryOp

def apply (op : BinaryOp) (v w : Value) : Value :=
  match op with
  | .multiply => .number (v.toNumber.mul w.toNumber)
  | .divide => .number (v.toNumber.div w.toNumber)
  | .remainder => .number (v.toNumber.rem w.toNumber)
  | .add => v.plus w
  | .subtract => .number (v.toNumber.sub w.toNumber)
  | .shiftLeft => .ofSigned (v.toWord <<< w.shift)
  | .shiftRight => .ofSigned (v.toWord.sshiftRight w.shift)
  | .shiftRightUnsigned => .ofUnsigned (v.toWord >>> w.shift)
  | .less => .boolean (v.compare? w == some .lt)
  | .lessEq => .boolean ((v.compare? w).any (· != .gt))
  | .greater => .boolean (v.compare? w == some .gt)
  | .greaterEq => .boolean ((v.compare? w).any (· != .lt))
  | .equal => .boolean (v.equals w)
  | .notEqual => .boolean !v.equals w
  | .identical => .boolean (v.identical w)
  | .notIdentical => .boolean !v.identical w
  | .bitAnd => .ofSigned (v.toWord &&& w.toWord)
  | .bitXor => .ofSigned (v.toWord ^^^ w.toWord)
  | .bitOr => .ofSigned (v.toWord ||| w.toWord)
  | .and => if v.isTruthy then w else v
  | .or => if v.isTruthy then v else w

end BinaryOp

/-- The members that every options record has unless it defines them itself. -/
def inheritedMembers : List String :=
  ["constructor", "hasOwnProperty", "isPrototypeOf", "propertyIsEnumerable", "toLocaleString",
    "toString", "valueOf", "__proto__", "__defineGetter__", "__defineSetter__", "__lookupGetter__",
    "__lookupSetter__"]

namespace Literal

def toValue : Literal → Value
  | .number x => .number x
  | .text s => .string s
  | .boolean b => .boolean b
  | .null => .null

end Literal

namespace Expr

def lookup (options : Json) (name : String) : Value :=
  match options.field? name with
  | some value => .ofJson value
  | none => if name ∈ inheritedMembers then .object else .undefined

def eval (options : Json) : Expr → Value
  | .literal _ value => value.toValue
  | .option name => lookup options name
  | .unary op operand => op.apply (operand.eval options)
  | .binary op left right => op.apply (left.eval options) (right.eval options)

end Expr

end Transclude
