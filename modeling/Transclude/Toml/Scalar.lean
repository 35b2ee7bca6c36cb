import Transclude.Double.Decimal

namespace Transclude.Toml

def isSpace (c : Char) : Bool := c == ' ' || c == '\t'

def isDelimiter (c : Char) : Bool :=
  c == '=' || c == ',' || c == '[' || c == ']' || c == '\x7b' || c == '\x7d' || c == '#' ||
    isSpace c || c == '\r' || c == '\n'

def startsWord : List Char → Bool
  | [] => false
  | c :: _ => !isDelimiter c && c != '\x22' && c != '\x27'

/-- The spelling of a scalar: all words up to the next other token, with the blanks between
them. -/
def spelling : List Char → List Char × List Char
  | [] => ([], [])
  | c :: cs =>
    if !isDelimiter c || isSpace c && startsWord (cs.dropWhile isSpace) then
      let (word, rest) := spelling cs
      (c :: word, rest)
    else ([], c :: cs)

def separatedAfter (digit : Char → Bool) : (after : Bool) → List Char → Bool
  | _, [] => true
  | after, '_' :: cs => after && cs.head?.any digit && separatedAfter digit false cs
  | _, c :: cs => separatedAfter digit (digit c) cs

def separated (digit : Char → Bool) (cs : List Char) : Bool := separatedAfter digit false cs

/-- Digits of a radix after its mark. There may be none. -/
def isRadixTail (radix : Nat) (cs : List Char) : Bool :=
  cs.all (fun c ↦ isRadixDigit radix c || c == '_') && separated (isRadixDigit 16) cs

def digitRun? (cs : List Char) : Option (List Char) :=
  let isPart (c : Char) : Bool := isDigit c || c == '_'
  if (cs.takeWhile isPart).any isDigit then some (cs.dropWhile isPart) else none

def fraction? : List Char → Option (List Char)
  | '.' :: cs => digitRun? cs
  | cs => some cs

def exponent? : List Char → Option (List Char)
  | 'e' :: '+' :: cs | 'e' :: '-' :: cs | 'E' :: '+' :: cs | 'E' :: '-' :: cs => digitRun? cs
  | 'e' :: cs | 'E' :: cs => digitRun? cs
  | cs => some cs

def hasLeadingZero (cs : List Char) : Bool :=
  cs.head? == some '0' &&
    1 < ((cs.takeWhile fun c ↦ isDigit c || c == '_').filter isDigit).length

def isFloat (cs : List Char) : Bool :=
  !hasLeadingZero cs && ((digitRun? cs).bind fraction? |>.bind exponent?) == some []

/-- A number without its sign. Only one without a sign can have a radix. -/
def isNumber (signed : Bool) (cs : List Char) : Bool :=
  let rest := cs.dropWhile isDigit
  match signed, cs with
  | false, '0' :: 'x' :: tail => isRadixTail 16 tail
  | false, '0' :: 'o' :: tail => isRadixTail 8 tail
  | false, '0' :: 'b' :: tail => isRadixTail 2 tail
  | _, _ =>
    if rest.isEmpty then !cs.isEmpty && !hasLeadingZero cs
    else if rest.any fun c ↦ c == '.' || c == 'e' || c == 'E' then
      isFloat cs && separated isDigit cs
    else
      rest.head? == some '_' && cs.head? != some '0' && !rest.contains ' ' &&
        separated (isRadixDigit 16) cs

def fixed? (width : Nat) (cs : List Char) : Option (Nat × List Char) :=
  let digits := cs.take width
  if digits.length = width ∧ digits.all isDigit then some (digitsValue 0 digits, cs.drop width)
  else none

def after? (c : Char) : List Char → Option (List Char)
  | [] => none
  | d :: cs => if d = c then some cs else none

def isLeapYear (year : Nat) : Bool := year % 4 == 0 && (year % 100 != 0 || year % 400 == 0)

def daysOfMonth (year month : Nat) : Nat :=
  if month = 2 then if isLeapYear year then 29 else 28
  else if month ∈ [4, 6, 9, 11] then 30
  else if 1 ≤ month ∧ month ≤ 12 then 31
  else 0

def date? (cs : List Char) : Option (List Char) := do
  let (year, cs) ← fixed? 4 cs
  let (month, cs) ← fixed? 2 (← after? '-' cs)
  let (day, cs) ← fixed? 2 (← after? '-' cs)
  if 1 ≤ day ∧ day ≤ daysOfMonth year month then some cs else none

def hoursMinutes? (cs : List Char) : Option (List Char) := do
  let (hours, cs) ← fixed? 2 cs
  let (minutes, cs) ← fixed? 2 (← after? ':' cs)
  if hours ≤ 23 ∧ minutes ≤ 59 then some cs else none

/-- What follows optional seconds, which alone can have a fraction. There is a leap second. -/
def seconds? : List Char → Option (List Char)
  | ':' :: cs => do
    let (seconds, cs) ← fixed? 2 cs
    if 60 < seconds then none
    else
      match cs with
      | '.' :: cs => if cs.head?.any isDigit then some (cs.dropWhile isDigit) else none
      | cs => some cs
  | cs => some cs

def time? (cs : List Char) : Option (List Char) := (hoursMinutes? cs).bind seconds?

def offset? : List Char → Option (List Char)
  | 'Z' :: cs | 'z' :: cs => some cs
  | '+' :: cs | '-' :: cs => hoursMinutes? cs
  | cs => some cs

def isMoment (cs : List Char) : Bool :=
  match date? cs with
  | none => time? cs == some []
  | some [] => true
  | some (c :: cs) => (c == 'T' || c == 't' || c == ' ') && (time? cs).bind offset? == some []

def isUnboundedOrNaN (cs : List Char) : Bool := cs == ['i', 'n', 'f'] || cs == ['n', 'a', 'n']

/-- Whether a spelling is that of a number, a truth value or a time. An integer may be of any size,
and what follows the first separator of a decimal integer is looked at around separators only. -/
def isScalar (cs : List Char) : Bool :=
  match cs with
  | '+' :: cs | '-' :: cs => isUnboundedOrNaN cs || isNumber true cs
  | cs =>
    cs == ['t', 'r', 'u', 'e'] || cs == ['f', 'a', 'l', 's', 'e'] || isUnboundedOrNaN cs ||
      isNumber false cs || isMoment cs

end Transclude.Toml
