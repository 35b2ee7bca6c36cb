import Transclude.Text.Character
import Transclude.Text.Encoding

namespace Transclude

open Text

/-- A directive and the byte range of its line, terminator included. -/
structure Directive where
  line : String
  start : Nat
  stop : Nat
  reference : String
  condition : Option String
  deriving DecidableEq

namespace Directive

def marker : List Char := "#include ".toList

def separator : List Char := " if ".toList

def isLineEnd (c : Char) : Bool := c == '\n' || c == '\r'

def terminator : List Char → List Char
  | '\r' :: '\n' :: _ => ['\r', '\n']
  | c :: _ => if isLineEnd c then [c] else []
  | [] => []

/-- Whether a line starts after a character, given what follows it: the two characters of a
carriage return with its newline belong together. -/
def endsLine (c : Char) (rest : List Char) : Bool :=
  c == '\n' || (c == '\r' && rest.head? != some '\n')

def splitFirst? (sep : List Char) : List Char → Option (List Char × List Char)
  | [] => if sep.isEmpty then some ([], []) else none
  | c :: cs =>
    if sep.isPrefixOf (c :: cs) then some ([], (c :: cs).drop sep.length)
    else (splitFirst? sep cs).map fun (before, after) ↦ (c :: before, after)

def ofArgument (offset : Nat) (argument ending : List Char) : Directive :=
  let line := marker ++ argument ++ ending
  let (reference, condition) :=
    match splitFirst? separator argument with
    | some (before, after) => (before, some (String.ofList after))
    | none => (argument, none)
  { line := String.ofList line
    start := offset
    stop := offset + size line
    reference := String.ofList (trimChars reference)
    condition }

/-- The argument and the terminator of a directive at the start of a text. -/
def argument? (cs : List Char) : Option (List Char × List Char) :=
  if marker.isPrefixOf cs then
    let argument := (cs.drop marker.length).takeWhile (!isLineEnd ·)
    if argument.isEmpty then none
    else some (argument, terminator (cs.drop (marker.length + argument.length)))
  else none

/-- The directives of the rest of a text. `fresh` says that the rest starts a line. -/
def scanFrom (offset : Nat) (fresh : Bool) (cs : List Char) : List Directive :=
  match cs with
  | [] => []
  | c :: rest =>
    match if fresh then argument? (c :: rest) else none with
    | some (argument, ending) =>
      let line := marker ++ argument ++ ending
      ofArgument offset argument ending ::
        scanFrom (offset + size line) true (rest.drop (line.length - 1))
    | none => scanFrom (offset + c.utf8Size) (endsLine c rest) rest
termination_by cs.length
decreasing_by all_goals (simp only [List.length_cons, List.length_drop]; omega)

def scan (text : String) : List Directive := scanFrom 0 true text.toList

def occursFrom (fresh : Bool) : List Char → Bool
  | [] => false
  | c :: rest => fresh && (argument? (c :: rest)).isSome || occursFrom (endsLine c rest) rest

def occursIn (text : String) : Bool := occursFrom true text.toList

theorem occursFrom_iff (offset : Nat) (fresh : Bool) (cs : List Char) :
    occursFrom fresh cs = true ↔ scanFrom offset fresh cs ≠ [] := by
  induction cs generalizing offset fresh with
  | nil => simp [occursFrom, scanFrom]
  | cons c rest ih =>
    rw [occursFrom, scanFrom, Bool.or_eq_true, ih (offset + c.utf8Size)]
    cases fresh with
    | false => simp
    | true => cases argument? (c :: rest) <;> simp

theorem occursIn_iff (text : String) : occursIn text = true ↔ scan text ≠ [] :=
  occursFrom_iff 0 true text.toList

end Directive

end Transclude
