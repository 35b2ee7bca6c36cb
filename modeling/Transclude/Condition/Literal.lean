import Transclude.Condition.Error
import Transclude.Double.Decimal
import Transclude.Text.Character
import Transclude.Text.Encoding

namespace Transclude.Literal

open Text

/-- The number of characters that can continue a decimal literal: digits, points, separators, one
exponent mark, and a sign right after it. -/
def decimalRun : (marked afterMark : Bool) → List Char → Nat
  | _, _, [] => 0
  | marked, afterMark, c :: cs =>
    if isDigit c || c == '.' || c == '_' then decimalRun marked false cs + 1
    else if !marked && (c == 'e' || c == 'E') then decimalRun true true cs + 1
    else if afterMark && (c == '+' || c == '-') then decimalRun marked false cs + 1
    else 0

def radixOfMark? : Char → Option Nat
  | 'x' | 'X' => some 16
  | 'o' | 'O' => some 8
  | 'b' | 'B' => some 2
  | _ => none

def radix? (c : Char) (cs : List Char) : Option Nat :=
  match c, cs with
  | '0', mark :: _ => radixOfMark? mark
  | _, _ => none

def separatorsOk (radix : Nat) : (afterDigit : Bool) → List Char → Bool
  | _, [] => true
  | afterDigit, c :: cs =>
    if c = '_' then
      afterDigit && (cs.head?.any (isRadixDigit radix)) && separatorsOk radix false cs
    else separatorsOk radix (isRadixDigit radix c) cs

def zeroLed (raw : List Char) : Bool :=
  raw.head? == some '0' && (sliceFrom 1 raw).head?.any fun c ↦ isDigit c || c == '_'

def radixValue? (radix : Nat) (raw : List Char) : Option Double :=
  if separatorsOk radix false (sliceFrom 2 raw) then
    (radixNumberBelow? (Nat.pow 2 64) radix (sliceFrom 2 (raw.filter (· ≠ '_')))).map .ofNat
  else none

def decimalValue? (raw : List Char) : Option Double :=
  if separatorsOk 10 false raw && !zeroLed raw then Double.ofDecimal? (raw.filter (· ≠ '_'))
  else none

/-- The number of characters of a number literal after the first one. -/
def numberRun (c : Char) (cs : List Char) : Nat :=
  match radix? c cs with
  | some radix =>
    1 + ((sliceFrom 2 (c :: cs)).takeWhile fun d ↦ isRadixDigit radix d || d == '_').length
  | none => decimalRun false false cs

def numberValue? (base : Option Nat) (raw : List Char) : Option Double :=
  match base with
  | some radix => radixValue? radix raw
  | none => decimalValue? raw

/-- Reads a number; a name must not follow it directly. The first character is given apart from the
rest of the text, and the answer counts the characters that the literal has after it, all of which
are of one byte. -/
def readNumber (c : Char) (cs : List Char) : Except ConditionError (Double × Nat) :=
  let text := c :: cs
  let count := numberRun c cs
  let stop := c.utf8Size + count
  let raw := sliceChars 0 stop text
  let rest := sliceFrom stop text
  if rest.head?.any isNameStart then
    let glued := sliceChars 0 (stop + size (rest.takeWhile isNamePart)) text
    .error (.invalidNumber (String.ofList glued))
  else
    match numberValue? (radix? c cs) raw with
    | some x => .ok (x, count)
    | none => .error (.invalidNumber (String.ofList raw))

def escapeWidth? : Char → Option Nat
  | 'x' => some 2
  | 'u' => some 4
  | _ => none

def escaped : Char → Char
  | 'n' => '\n'
  | 't' => '\t'
  | 'r' => '\r'
  | 'b' => '\x08'
  | 'f' => '\x0c'
  | 'v' => '\x0b'
  | '0' => '\x00'
  | c => c

def codePoint? (width : Nat) (digits : List Char) : Option Char :=
  if size digits = width then
    (radixNumber? 16 digits).bind fun n ↦ if n.isValidChar then some (Char.ofNat n) else none
  else none

/-- The rest of a string literal: its decoded characters, and the number of characters up to and
with the closing quote. `start` is the offset of the literal and `offset` that of the text. -/
def stringItems (quote : Char) (start offset : Nat) (cs : List Char) :
    Except ConditionError (List Char × Nat) :=
  match cs with
  | [] => .error (.unterminatedString start)
  | c :: cs =>
    if c = quote then .ok ([], 1)
    else if c = '\n' ∨ c = '\r' then .error (.unterminatedString start)
    else if c = '\\' then
      match cs with
      | [] => .error (.unterminatedString start)
      | e :: rest =>
        match escapeWidth? e with
        | some width =>
          match codePoint? width (rest.take width) with
          | none => .error (.invalidEscape offset)
          | some d =>
            (stringItems quote start (offset + 2 + width) (rest.drop width)).map
              fun (ds, n) ↦ (d :: ds, n + 2 + width)
        | none =>
          (stringItems quote start (offset + 1 + e.utf8Size) rest).map
            fun (ds, n) ↦ (escaped e :: ds, n + 2)
    else
      (stringItems quote start (offset + c.utf8Size) cs).map fun (ds, n) ↦ (c :: ds, n + 1)
termination_by cs.length
decreasing_by all_goals (simp only [List.length_cons, List.length_drop]; omega)

def readString (quote : Char) (offset : Nat) (cs : List Char) :
    Except ConditionError (String × Nat) :=
  (stringItems quote offset (offset + 1) cs).map fun (ds, n) ↦ (String.ofList ds, n)

end Transclude.Literal
