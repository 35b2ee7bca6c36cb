namespace Transclude

structure Path where
  text : String
  deriving DecidableEq, Inhabited

namespace Path

inductive Component where
  | root
  | current
  | parent
  | normal (name : String)
  deriving DecidableEq

def pieces : List Char → List (List Char)
  | [] => [[]]
  | c :: cs =>
    if c = '/' then [] :: pieces cs
    else
      match pieces cs with
      | [] => [[c]]
      | p :: ps => (c :: p) :: ps

/-- The component that a piece is; none for an empty piece and for `.`. -/
def component? (piece : List Char) : Option Component :=
  if piece = [] ∨ piece = ['.'] then none
  else if piece = ['.', '.'] then some .parent
  else some (.normal (String.ofList piece))

/-- How a path starts: at the root, at an explicit `.`, or with its first name. -/
inductive Lead where
  | root
  | current
  | plain
  deriving DecidableEq

def split (cs : List Char) : Lead × List (List Char) :=
  match cs with
  | '/' :: rest => (.root, pieces rest)
  | ['.'] => (.current, [])
  | '.' :: '/' :: rest => (.current, pieces rest)
  | cs => (.plain, pieces cs)

def Lead.components : Lead → List Component
  | .root => [.root]
  | .current => [.current]
  | .plain => []

def components (p : Path) : List Component :=
  let (lead, body) := split p.text.toList
  lead.components ++ body.filterMap component?

/-- Whether two texts are the same path. -/
def same (p q : Path) : Bool := p.components == q.components

def isAbsolute (p : Path) : Bool := p.text.toList.head? == some '/'

/-- The path followed by a reference, or the reference alone if it is absolute. -/
def join (p : Path) (reference : String) : Path :=
  if (Path.mk reference).isAbsolute || p.text.isEmpty then ⟨reference⟩
  else if p.text.toList.getLast? = some '/' then ⟨p.text ++ reference⟩
  else ⟨p.text ++ "/" ++ reference⟩

def dropIdle (body : List (List Char)) : List (List Char) :=
  (body.reverse.dropWhile fun piece ↦ (component? piece).isNone).reverse

def glue (lead : Lead) (body : List (List Char)) : Path :=
  let rest := List.intercalate ['/'] body
  match lead with
  | .root => ⟨String.ofList ('/' :: rest)⟩
  | .current => if body.isEmpty then ⟨"."⟩ else ⟨String.ofList ('.' :: '/' :: rest)⟩
  | .plain => ⟨String.ofList rest⟩

/-- The path without its last component; none for the root and the empty path. -/
def parent? (p : Path) : Option Path :=
  let (lead, body) := split p.text.toList
  match dropIdle body with
  | [] => if lead = .current then some ⟨""⟩ else none
  | body => some (glue lead (dropIdle body.dropLast))

def fileName? (p : Path) : Option String :=
  match p.components.getLast? with
  | some (.normal name) => some name
  | _ => none

def context (location : Path) : Path := location.parent?.getD ⟨"/"⟩

@[simp]
theorem same_self (p : Path) : p.same p = true := by simp [same]

theorem same_iff {p q : Path} : p.same q ↔ p.components = q.components := by simp [same]

theorem same_symm {p q : Path} (h : p.same q) : q.same p := same_iff.2 (same_iff.1 h).symm

theorem same_trans {p q r : Path} (h : p.same q) (h' : q.same r) : p.same r :=
  same_iff.2 ((same_iff.1 h).trans (same_iff.1 h'))

/-- Adds a component to a normal form, which is kept with its last component first. -/
def reduceStep (stack : List Component) (c : Component) : List Component :=
  match c, stack with
  | .current, stack => stack
  | .parent, .normal _ :: below => below
  | .parent, .root :: below => .root :: below
  | c, stack => c :: stack

def reduce (cs : List Component) : List Component := (cs.foldl reduceStep []).reverse

def Component.text : Component → String
  | .root => "/"
  | .current => "."
  | .parent => ".."
  | .normal name => name

def ofComponents : List Component → Path
  | .root :: cs => ⟨"/" ++ "/".intercalate (cs.map Component.text)⟩
  | cs => ⟨"/".intercalate (cs.map Component.text)⟩

def normalize (p : Path) : Path := ofComponents (reduce p.components)

end Path

end Transclude
