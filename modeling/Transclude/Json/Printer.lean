import Transclude.Double.Shortest
import Transclude.Json.Basic

namespace Transclude.Json

def hexDigit (n : Nat) : Char := (Nat.toDigits 16 (n % 16)).headD '0'

def hexByte (n : Nat) : List Char := [hexDigit (n / 16), hexDigit n]

def quoteChar (c : Char) : List Char :=
  match c with
  | '\x22' => ['\\', '\x22']
  | '\\' => ['\\', '\\']
  | '\x08' => ['\\', 'b']
  | '\x0c' => ['\\', 'f']
  | '\n' => ['\\', 'n']
  | '\r' => ['\\', 'r']
  | '\t' => ['\\', 't']
  | c => if c.toNat < 0x20 then ['\\', 'u', '0', '0'] ++ hexByte c.toNat else [c]

def quote (s : String) : String :=
  "\"" ++ String.ofList (s.toList.flatMap quoteChar) ++ "\""

/-- A finite double: positional with a fraction as long as the first digit stands between the
fifth place after the point and the sixteenth before it, otherwise with an exponent. Of two
shortest decimals at the same distance the one with an even last digit is taken. -/
def doubleChars (rank : Rank) : List Char :=
  if rank = .zero then ['0', '.', '0']
  else
    let d := Decimal.shortest .even rank
    let ds := d.digitText
    let lead := (ds.length : Int) - 1 + d.exponent
    if -5 ≤ lead ∧ lead ≤ 15 then
      if 0 ≤ d.exponent then d.positional ++ ['.', '0'] else d.positional
    else
      let mantissa :=
        match ds with
        | [] => []
        | [c] => [c]
        | c :: more => c :: '.' :: more
      let sign := if lead < 0 then '-' else '+'
      mantissa ++ 'e' :: sign :: Nat.toDigits 10 lead.natAbs

def numberText : JsonNumber → String
  | .natural n => toString n
  | .negative n => "-" ++ toString n
  | .double .nan => "null"
  | .double (.signed negative rank) =>
    (if negative then "-" else "") ++ String.ofList (doubleChars rank)

mutual

def compact : Json → String
  | .null => "null"
  | .boolean b => if b then "true" else "false"
  | .number n => numberText n
  | .string s => quote s
  | .array items => "[" ++ ",".intercalate (compactItems items) ++ "]"
  | .object fields => "\x7b" ++ ",".intercalate (compactFields fields) ++ "\x7d"

def compactItems : List Json → List String
  | [] => []
  | item :: items => compact item :: compactItems items

def compactFields : List (String × Json) → List String
  | [] => []
  | (name, value) :: fields => (quote name ++ ":" ++ compact value) :: compactFields fields

end

/-- The lines of a container between its brackets, or the brackets alone if it is empty. -/
def enclose (opening closing indent : String) (entries : List String) : String :=
  if entries.isEmpty then opening ++ closing
  else
    let inner := "\n" ++ indent ++ "  "
    opening ++ inner ++ ("," ++ inner).intercalate entries ++ "\n" ++ indent ++ closing

mutual

def indented (indent : String) : Json → String
  | .null => "null"
  | .boolean b => if b then "true" else "false"
  | .number n => numberText n
  | .string s => quote s
  | .array items => enclose "[" "]" indent (indentedItems (indent ++ "  ") items)
  | .object fields => enclose "\x7b" "\x7d" indent (indentedFields (indent ++ "  ") fields)

def indentedItems (indent : String) : List Json → List String
  | [] => []
  | item :: items => indented indent item :: indentedItems indent items

def indentedFields (indent : String) : List (String × Json) → List String
  | [] => []
  | (name, value) :: fields =>
    (quote name ++ ": " ++ indented indent value) :: indentedFields indent fields

end

def pretty (j : Json) : String := j.indented ""

end Transclude.Json
