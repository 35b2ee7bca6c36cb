import Transclude.Double.Decimal
import Transclude.Toml.Basic
import Transclude.Toml.Scalar

namespace Transclude.Toml

def isControl (c : Char) : Bool := (c.toNat < 0x20 && c != '\t') || c.toNat == 0x7F

def skipSpace (cs : List Char) : List Char := cs.dropWhile isSpace

def newline? : List Char → Option (List Char)
  | '\n' :: cs => some cs
  | '\r' :: '\n' :: cs => some cs
  | _ => none

def skipComment : List Char → List Char
  | '#' :: cs => cs.dropWhile (!isControl ·)
  | cs => cs

def lineEnd? (cs : List Char) : Option (List Char) :=
  match skipComment (skipSpace cs) with
  | [] => some []
  | cs => newline? cs

def skipBlankLines : (budget : Nat) → List Char → List Char
  | 0, cs => cs
  | budget + 1, cs =>
    match newline? (skipSpace cs) with
    | some rest => skipBlankLines budget rest
    | none => skipSpace cs

def skipLines : (budget : Nat) → List Char → List Char
  | 0, cs => cs
  | budget + 1, cs =>
    let rest := skipComment (skipSpace cs)
    match newline? rest with
    | some rest => skipLines budget rest
    | none => rest

def codePoint? (width : Nat) (cs : List Char) : Option (Char × List Char) := do
  let digits := cs.take width
  let n ← radixDigits? 16 0 digits
  if digits.length = width ∧ n.isValidChar then some (Char.ofNat n, cs.drop width) else none

def escape? : List Char → Option (Char × List Char)
  | 'b' :: cs => some ('\x08', cs)
  | 't' :: cs => some ('\t', cs)
  | 'n' :: cs => some ('\n', cs)
  | 'f' :: cs => some ('\x0c', cs)
  | 'r' :: cs => some ('\r', cs)
  | 'e' :: cs => some ('\x1b', cs)
  | '\x22' :: cs => some ('\x22', cs)
  | '\\' :: cs => some ('\\', cs)
  | 'x' :: cs => codePoint? 2 cs
  | 'u' :: cs => codePoint? 4 cs
  | 'U' :: cs => codePoint? 8 cs
  | _ => none

def basicTail? : (budget : Nat) → List Char → Option (List Char × List Char)
  | 0, _ => none
  | _, [] => none
  | _, '\x22' :: cs => some ([], cs)
  | budget + 1, '\\' :: cs => do
    let (d, rest) ← escape? cs
    let (ds, rest) ← basicTail? budget rest
    some (d :: ds, rest)
  | budget + 1, c :: cs =>
    if isControl c then none
    else do
      let (ds, rest) ← basicTail? budget cs
      some (c :: ds, rest)

def literalTail? (cs : List Char) : Option (List Char × List Char) :=
  match cs.dropWhile (fun c ↦ c != '\x27' && !isControl c) with
  | '\x27' :: rest => some (cs.takeWhile (fun c ↦ c != '\x27' && !isControl c), rest)
  | _ => none

/-- The end of a string over several lines: three quotes, before which at most two more belong to
the string. -/
def closing? (quote : Char) (cs : List Char) : Option (List Char × List Char) :=
  let count := (cs.takeWhile (· == quote)).length
  if count < 3 then none
  else
    let taken := min count 5
    some (List.replicate (taken - 3) quote, cs.drop taken)

def continuation? (cs : List Char) : Option (List Char) :=
  (newline? (skipSpace cs)).map fun rest ↦ skipBlankLines (rest.length + 1) rest

/-- The rest of a string over several lines, with escapes if it is a basic string. Newlines are
kept as they are written. -/
def multilineTail? (quote : Char) (basic : Bool) :
    (budget : Nat) → List Char → Option (List Char × List Char)
  | 0, _ => none
  | _, [] => none
  | budget + 1, c :: cs =>
    match closing? quote (c :: cs) with
    | some (ds, rest) => some (ds, rest)
    | none =>
      if basic && c == '\\' then
        match continuation? cs with
        | some rest => multilineTail? quote basic budget rest
        | none => do
          let (d, rest) ← escape? cs
          let (ds, rest) ← multilineTail? quote basic budget rest
          some (d :: ds, rest)
      else if isControl c && (newline? (c :: cs)).isNone then none
      else do
        let (ds, rest) ← multilineTail? quote basic budget cs
        some (c :: ds, rest)

def afterOpening (cs : List Char) : List Char := (newline? cs).getD cs

def string? (cs : List Char) : Option (List Char × List Char) :=
  let budget := cs.length + 1
  match cs with
  | '\x22' :: '\x22' :: '\x22' :: cs => multilineTail? '\x22' true budget (afterOpening cs)
  | '\x27' :: '\x27' :: '\x27' :: cs => multilineTail? '\x27' false budget (afterOpening cs)
  | '\x22' :: cs => basicTail? budget cs
  | '\x27' :: cs => literalTail? cs
  | _ => none

def isBareKey (c : Char) : Bool :=
  isDigit c || ('a' ≤ c && c ≤ 'z') || ('A' ≤ c && c ≤ 'Z') || c == '_' || c == '-'

def keyPart? (cs : List Char) : Option (String × List Char) :=
  match cs with
  | '\x22' :: rest => (basicTail? cs.length rest).map fun (ds, rest) ↦ (String.ofList ds, rest)
  | '\x27' :: rest => (literalTail? rest).map fun (ds, rest) ↦ (String.ofList ds, rest)
  | cs =>
    let part := cs.takeWhile isBareKey
    if part.isEmpty then none else some (String.ofList part, cs.dropWhile isBareKey)

def maxDepth : Nat := 80

/-- A key of at most `depth` parts between dots, with blanks around them. -/
def keyParts? : (depth : Nat) → List Char → Option (List String × List Char)
  | 0, _ => none
  | depth + 1, cs => do
    let (part, rest) ← keyPart? (skipSpace cs)
    match skipSpace rest with
    | '.' :: rest => do
      let (parts, rest) ← keyParts? depth rest
      some (part :: parts, rest)
    | rest => some ([part], rest)

def key? (cs : List Char) : Option (List String × List Char) := keyParts? maxDepth cs

mutual

/-- A value in which arrays and inline tables are at most `depth` deep. -/
def value? (depth budget : Nat) (cs : List Char) : Option (Toml × List Char) :=
  match depth, budget with
  | _, 0 => none
  | depth, budget + 1 =>
    match depth, cs with
    | depth + 1, '[' :: rest => do
      let (items, rest) ← items? depth budget rest
      some (.array items, rest)
    | depth + 1, '\x7b' :: rest => do
      let (entries, rest) ← entries? depth budget [] rest
      some (.table .inline entries, rest)
    | _, '\x22' :: _ | _, '\x27' :: _ => do
      let (s, rest) ← string? cs
      some (.text (String.ofList s), rest)
    | _, cs =>
      let (word, rest) := spelling cs
      if isScalar word then some (.scalar (String.ofList word), rest) else none

def items? (depth budget : Nat) (cs : List Char) : Option (List Toml × List Char) :=
  match budget with
  | 0 => none
  | budget + 1 =>
    match skipLines (cs.length + 1) cs with
    | ']' :: rest => some ([], rest)
    | cs => do
      let (item, rest) ← value? depth budget cs
      match skipLines (rest.length + 1) rest with
      | ',' :: rest => do
        let (items, rest) ← items? depth budget rest
        some (item :: items, rest)
      | ']' :: rest => some ([item], rest)
      | _ => none

/-- The entries of an inline table up to the closing brace; a comma may stand after the last
one. Lines may end before and after a key, but not in it. -/
def entries? (depth budget : Nat) (done : Entries) (cs : List Char) :
    Option (Entries × List Char) :=
  match budget with
  | 0 => none
  | budget + 1 =>
    match skipLines (cs.length + 1) cs with
    | '\x7d' :: rest => some (done, rest)
    | cs => do
      let (path, rest) ← key? cs
      match skipLines (rest.length + 1) rest with
      | '=' :: rest => do
        let (value, rest) ← value? depth budget (skipLines (rest.length + 1) rest)
        let done ← insert path value done
        match skipLines (rest.length + 1) rest with
        | ',' :: rest => entries? depth budget done rest
        | '\x7d' :: rest => some (done, rest)
        | _ => none
      | _ => none

end

def lines? : (budget : Nat) → (root : Entries) → (header : List String) → List Char →
    Option Entries
  | 0, _, _, _ => none
  | budget + 1, root, header, cs =>
    match skipLines (cs.length + 1) cs with
    | [] => some root
    | '[' :: '[' :: rest => do
      let (path, rest) ← key? rest
      match rest with
      | ']' :: ']' :: rest => do
        let rest ← lineEnd? rest
        lines? budget (← openItem path root) path rest
      | _ => none
    | '[' :: rest => do
      let (path, rest) ← key? rest
      match rest with
      | ']' :: rest => do
        let rest ← lineEnd? rest
        lines? budget (← openTable path root) path rest
      | _ => none
    | cs => do
      let (path, rest) ← key? cs
      match rest with
      | '=' :: rest => do
        let (value, rest) ← value? maxDepth (2 * rest.length + 2) (skipSpace rest)
        let rest ← lineEnd? rest
        lines? budget (← insertUnder header path value root) header rest
      | _ => none

/-- The entries of a document, which may start with a byte order mark. Every loop spends one unit of
a budget that starts out larger than the text. -/
def parse? (text : String) : Option Entries :=
  let cs :=
    match text.toList with
    | '\uFEFF' :: cs => cs
    | cs => cs
  lines? (cs.length + 1) [] [] cs

end Transclude.Toml
