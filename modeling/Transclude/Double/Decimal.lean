import Transclude.Double.Basic

namespace Transclude

def isDigit (c : Char) : Bool := '0' ≤ c && c ≤ '9'

def digitValue (c : Char) : Nat := c.toNat - '0'.toNat

/-- The number that a run of decimal digits denotes, continued from `start`. -/
def digitsValue (start : Nat) (digits : List Char) : Nat :=
  digits.foldl (fun n c ↦ 10 * n + digitValue c) start

def radixDigit? (radix : Nat) (c : Char) : Option Nat :=
  let value :=
    if isDigit c then some (digitValue c)
    else if 'a' ≤ c && c ≤ 'f' then some (c.toNat - 'a'.toNat + 10)
    else if 'A' ≤ c && c ≤ 'F' then some (c.toNat - 'A'.toNat + 10)
    else none
  value.filter (· < radix)

def isRadixDigit (radix : Nat) (c : Char) : Bool := (radixDigit? radix c).isSome

def radixDigits? (radix : Nat) : (start : Nat) → List Char → Option Nat
  | n, [] => some n
  | n, c :: cs => do
    let d ← radixDigit? radix c
    radixDigits? radix (radix * n + d) cs

/-- An unsigned number in a radix: one or more digits, which a plus sign may precede. -/
def radixNumber? (radix : Nat) : List Char → Option Nat
  | [] => none
  | ['+'] => none
  | '+' :: cs => radixDigits? radix 0 cs
  | cs => radixDigits? radix 0 cs

def radixNumberBelow? (bound radix : Nat) (cs : List Char) : Option Nat :=
  (radixNumber? radix cs).filter (· < bound)

structure Decimal where
  digits : Nat
  exponent : Int
  deriving DecidableEq

namespace Decimal

def digitCount (n : Nat) : Nat := (Nat.toDigits 10 n).length

/-- The nearest magnitude. Above `10 ^ 310` that is infinity and below `10 ^ (-330)` zero, whatever
the digits are. -/
def nearest (d : Decimal) : Rank :=
  if d.digits = 0 then .zero
  else
    let places := (digitCount d.digits : Int) + d.exponent
    if places > 311 then .infinity
    else if places < -330 then .zero
    else if d.exponent < 0 then
      .nearest (d.digits * unitsPerOne) (Nat.pow 10 (-d.exponent).toNat)
    else .nearest (d.digits * Nat.pow 10 d.exponent.toNat * unitsPerOne) 1

def exponent? : List Char → Option Int
  | [] => some 0
  | mark :: cs =>
    if mark = 'e' ∨ mark = 'E' then
      match cs with
      | '-' :: ds => (value ds).map fun n ↦ -(n : Int)
      | '+' :: ds => (value ds).map Int.ofNat
      | ds => (value ds).map Int.ofNat
    else none
where
  value (ds : List Char) : Option Nat :=
    if ds.isEmpty || !ds.all isDigit then none else some (digitsValue 0 ds)

/-- An unsigned decimal numeral. -/
def parse? (cs : List Char) : Option Decimal :=
  let whole := cs.takeWhile isDigit
  let afterWhole := cs.dropWhile isDigit
  let (fraction, rest) :=
    match afterWhole with
    | '.' :: ds => (ds.takeWhile isDigit, ds.dropWhile isDigit)
    | ds => ([], ds)
  if whole.isEmpty && fraction.isEmpty then none
  else
    (exponent? rest).map fun e ↦
      { digits := digitsValue (digitsValue 0 whole) fraction, exponent := e - fraction.length }

end Decimal

namespace Double

def ofDecimal? : List Char → Option Double
  | '-' :: cs => (Decimal.parse? cs).map fun d ↦ .signed true d.nearest
  | '+' :: cs => (Decimal.parse? cs).map fun d ↦ .signed false d.nearest
  | cs => (Decimal.parse? cs).map fun d ↦ .signed false d.nearest

end Double

end Transclude
