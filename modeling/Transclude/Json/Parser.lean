import Transclude.Double.Decimal
import Transclude.Json.Basic

namespace Transclude.Json

def isSpace (c : Char) : Bool := c == ' ' || c == '\t' || c == '\n' || c == '\r'

def skipSpace (cs : List Char) : List Char := cs.dropWhile isSpace

def hex4? : List Char → Option (Nat × List Char)
  | a :: b :: c :: d :: rest => (radixDigits? 16 0 [a, b, c, d]).map (·, rest)
  | _ => none

/-- The character of a `\u` escape whose first four digits are read: a code point of its own, or
the first of two surrogates. -/
def unicodeEscape? (first : Nat) (cs : List Char) : Option (Char × List Char) :=
  if first < 0xD800 ∨ 0xE000 ≤ first then some (Char.ofNat first, cs)
  else if 0xDC00 ≤ first then none
  else
    match cs with
    | '\\' :: 'u' :: more => do
      let (second, rest) ← hex4? more
      if 0xDC00 ≤ second ∧ second < 0xE000 then
        some (Char.ofNat (0x10000 + (first - 0xD800) * 0x400 + (second - 0xDC00)), rest)
      else none
    | _ => none

def simpleEscape? : Char → Option Char
  | '\x22' => some '\x22'
  | '\\' => some '\\'
  | '/' => some '/'
  | 'b' => some '\x08'
  | 'f' => some '\x0c'
  | 'n' => some '\n'
  | 'r' => some '\r'
  | 't' => some '\t'
  | _ => none

def stringTail? : (budget : Nat) → List Char → Option (List Char × List Char)
  | 0, _ => none
  | _, [] => none
  | budget + 1, c :: cs =>
    if c = '\x22' then some ([], cs)
    else if c.toNat < 0x20 then none
    else if c = '\\' then
      match cs with
      | [] => none
      | 'u' :: more => do
        let (first, rest) ← hex4? more
        let (d, rest) ← unicodeEscape? first rest
        let (ds, rest) ← stringTail? budget rest
        some (d :: ds, rest)
      | e :: more => do
        let d ← simpleEscape? e
        let (ds, rest) ← stringTail? budget more
        some (d :: ds, rest)
    else do
      let (ds, rest) ← stringTail? budget cs
      some (c :: ds, rest)

/-- The text of a number split into its digits before the point, those after it, and its exponent,
with what follows the number. -/
structure Numeral where
  whole : List Char
  fraction : Option (List Char)
  exponent : Option Int

def digits? (cs : List Char) : Option (List Char × List Char) :=
  let ds := cs.takeWhile isDigit
  if ds.isEmpty then none else some (ds, cs.dropWhile isDigit)

def fraction? : List Char → Option (Option (List Char) × List Char)
  | '.' :: cs => (digits? cs).map fun (ds, rest) ↦ (some ds, rest)
  | cs => some (none, cs)

def exponent? : List Char → Option (Option Int × List Char)
  | c :: cs =>
    if c = 'e' ∨ c = 'E' then
      let (negative, cs) :=
        match cs with
        | '-' :: ds => (true, ds)
        | '+' :: ds => (false, ds)
        | ds => (false, ds)
      (digits? cs).map fun (ds, rest) ↦
        let n : Int := digitsValue 0 ds
        (some (if negative then -n else n), rest)
    else some (none, c :: cs)
  | [] => some (none, [])

/-- A number without its sign; a leading zero stands alone before the point. -/
def numeral? (cs : List Char) : Option (Numeral × List Char) := do
  let (whole, rest) ← digits? cs
  if whole.length > 1 ∧ whole.head? = some '0' then none
  else
    let (fraction, rest) ← fraction? rest
    let (exponent, rest) ← exponent? rest
    some (⟨whole, fraction, exponent⟩, rest)

def Numeral.value? (negative : Bool) (n : Numeral) : Option JsonNumber :=
  let whole := digitsValue 0 n.whole
  let fraction := n.fraction.getD []
  let decimal : Decimal :=
    ⟨digitsValue whole fraction, n.exponent.getD 0 - fraction.length⟩
  let double : Option JsonNumber :=
    let rank := decimal.nearest
    if rank = .infinity then none else some (.double (.signed negative rank))
  if n.fraction.isSome || n.exponent.isSome then double
  else if negative then
    if 0 < whole ∧ whole ≤ Nat.pow 2 63 then some (.negative whole) else double
  else if whole < Nat.pow 2 64 then some (.natural whole)
  else double

def number? (cs : List Char) : Option (JsonNumber × List Char) :=
  let (negative, cs) :=
    match cs with
    | '-' :: ds => (true, ds)
    | ds => (false, ds)
  do
    let (n, rest) ← numeral? cs
    let value ← n.value? negative
    some (value, rest)

def word? (word : String) (cs : List Char) : Option (List Char) :=
  if word.toList.isPrefixOf cs then some (cs.drop word.toList.length) else none

mutual

/-- A value, after blanks. `depth` counts the containers that may still open. -/
def value? (depth budget : Nat) (cs : List Char) : Option (Json × List Char) :=
  match budget with
  | 0 => none
  | budget + 1 =>
    match skipSpace cs with
    | [] => none
    | '\x22' :: rest => do
      let (s, rest) ← stringTail? (rest.length + 1) rest
      some (.string (String.ofList s), rest)
    | '[' :: rest =>
      if depth = 0 then none
      else
        match skipSpace rest with
        | ']' :: rest => some (.array [], rest)
        | rest => do
          let (items, rest) ← items? (depth - 1) budget rest
          some (.array items, rest)
    | '\x7b' :: rest =>
      if depth = 0 then none
      else
        match skipSpace rest with
        | '\x7d' :: rest => some (.object [], rest)
        | rest => do
          let (fields, rest) ← fields? (depth - 1) budget rest
          some (.ofFields fields, rest)
    | 'n' :: rest => (word? "ull" rest).map (.null, ·)
    | 't' :: rest => (word? "rue" rest).map (.boolean true, ·)
    | 'f' :: rest => (word? "alse" rest).map (.boolean false, ·)
    | rest => do
      let (n, rest) ← number? rest
      some (.number n, rest)

def items? (depth budget : Nat) (cs : List Char) : Option (List Json × List Char) :=
  match budget with
  | 0 => none
  | budget + 1 => do
    let (item, rest) ← value? depth budget cs
    match skipSpace rest with
    | ']' :: rest => some ([item], rest)
    | ',' :: rest => do
      let (items, rest) ← items? depth budget rest
      some (item :: items, rest)
    | _ => none

def fields? (depth budget : Nat) (cs : List Char) : Option (List (String × Json) × List Char) :=
  match budget with
  | 0 => none
  | budget + 1 =>
    match skipSpace cs with
    | '\x22' :: rest => do
      let (name, rest) ← stringTail? (rest.length + 1) rest
      match skipSpace rest with
      | ':' :: rest => do
        let (value, rest) ← value? depth budget rest
        let field := (String.ofList name, value)
        match skipSpace rest with
        | '\x7d' :: rest => some ([field], rest)
        | ',' :: rest => do
          let (fields, rest) ← fields? depth budget rest
          some (field :: fields, rest)
        | _ => none
      | _ => none
    | _ => none

end

/-- A text that is one JSON value, with blanks around it. Every loop spends one unit of a budget
that starts out larger than the text. -/
def parse? (text : String) : Option Json :=
  let cs := text.toList
  match value? 127 (2 * cs.length + 2) cs with
  | some (value, rest) => if (skipSpace rest).isEmpty then some value else none
  | none => none

end Transclude.Json
