import Transclude.Double.Arithmetic
import Transclude.Double.Shortest
import Transclude.Json.Basic
import Transclude.Text.Character

namespace Transclude

open Text

/-- All objects and arrays are one value: no operator of conditions can tell them apart. -/
inductive Value where
  | undefined
  | null
  | boolean (value : Bool)
  | number (value : Double)
  | string (value : String)
  | object
  deriving DecidableEq

def radixText? : List Char → Option (Nat × List Char)
  | '0' :: 'x' :: cs | '0' :: 'X' :: cs => some (16, cs)
  | '0' :: 'o' :: cs | '0' :: 'O' :: cs => some (8, cs)
  | '0' :: 'b' :: cs | '0' :: 'B' :: cs => some (2, cs)
  | _ => none

def isOtherLetter (c : Char) : Bool :=
  (('a' ≤ c && c ≤ 'z') || ('A' ≤ c && c ≤ 'Z')) && c != 'e' && c != 'E'

/-- The number that a text denotes, blanks around it aside: zero if there is nothing else, NaN if
it is no numeral. -/
def numberOfText (s : String) : Double :=
  let cs := trimChars s.toList
  if cs.isEmpty then .zero
  else
    match radixText? cs with
    | some (radix, digits) =>
      match radixNumberBelow? (Nat.pow 2 64) radix digits with
      | some n => .ofNat n
      | none => .nan
    | none =>
      if cs = "Infinity".toList ∨ cs = "+Infinity".toList then .infinity false
      else if cs = "-Infinity".toList then .infinity true
      else if cs.any isOtherLetter then .nan
      else (Double.ofDecimal? cs).getD .nan

def clampWord (n : Int) : Int := max (-0x8000000000000000) (min 0x7FFFFFFFFFFFFFFF n)

/-- A number as text: an integer below `10 ^ 21` in plain digits as far as 64 bits reach, any other
number in the fewest digits that read back, a tie between two such decimals going up. -/
def textOfNumber : Double → String
  | .nan => "NaN"
  | .signed negative rank =>
    if rank = .infinity then if negative then "-Infinity" else "Infinity"
    else
      let x : Double := .signed negative rank
      match x.trunc? with
      | some n =>
        if x.isInteger && n.natAbs < Nat.pow 10 21 then toString (clampWord n)
        else
          (if negative then "-" else "") ++ String.ofList (Decimal.shortest .up rank).positional
      | none => "NaN"

namespace Value

def ofJson : Json → Value
  | .null => .null
  | .boolean b => .boolean b
  | .number n => .number n.toDouble
  | .string s => .string s
  | .array _ | .object _ => .object

def isTruthy : Value → Bool
  | .undefined | .null => false
  | .boolean b => b
  | .number x => x.isNonzero
  | .string s => s != ""
  | .object => true

def toNumber : Value → Double
  | .undefined | .object => .nan
  | .null => .zero
  | .boolean b => .ofNat b.toNat
  | .number x => x
  | .string s => numberOfText s

def toText : Value → String
  | .undefined => "undefined"
  | .null => "null"
  | .boolean b => if b then "true" else "false"
  | .number x => textOfNumber x
  | .string s => s
  | .object => "[object Object]"

def toWord (v : Value) : BitVec 32 := v.toNumber.toWord

end Value

end Transclude
