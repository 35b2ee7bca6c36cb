import Transclude.Tree.Basic

namespace Transclude

open Text

inductive Segment where
  | text (text : String)
  | guarded (condition : Condition) (body : List Segment)

abbrev Expansion := List Segment

namespace Expansion

/-- Adds text at the end, joined to the text that is there. -/
def pushText : Expansion → String → Expansion
  | [], s => if s.isEmpty then [] else [.text s]
  | [.text t], s => [.text (t ++ s)]
  | segment :: rest, s => segment :: pushText rest s

def push (e : Expansion) : Segment → Expansion
  | .text s => e.pushText s
  | .guarded c body => e ++ [.guarded c body]

def append (e f : Expansion) : Expansion := f.foldl push e

def isConditional (e : Expansion) : Bool :=
  e.any fun
    | .guarded .. => true
    | .text _ => false

/-- Adds what an include contributes: its expansion, under its condition if it has one. -/
def splice (e : Expansion) (condition : Option Condition) (body : Expansion) : Expansion :=
  match condition with
  | none => e.append body
  | some c => e ++ [.guarded c body]

mutual

def ofNode : Node → Expansion
  | .mk _ _ file children => ofNodes file.text 0 [] children

/-- Continues an expansion by the rest of a text, from an offset on, of which the nodes are the
directives. -/
def ofNodes (text : String) (offset : Nat) (done : Expansion) : List Node → Expansion
  | [] => done.pushText (slice offset (size text.toList) text)
  | n :: rest =>
    let before := done.pushText (slice offset n.directive.start text)
    ofNodes text n.directive.stop (splice before n.condition (ofNode n)) rest

end

def ofTree (t : IncludeTree) : Expansion := ofNodes t.root.text 0 [] t.children

mutual

def renderSegment (options : Json) : Segment → String
  | .text s => s
  | .guarded c body => if c.holds options then render options body else ""

def render (options : Json) : List Segment → String
  | [] => ""
  | s :: rest => renderSegment options s ++ render options rest

end

mutual

/-- The body of a template literal that makes the same choices when it is evaluated, the options
being in a record of the given name. -/
def templateSegment (record : String) : Segment → String
  | .text s => s
  | .guarded c body =>
    "$\x7b" ++ c.print record ++ "?`" ++ templateBody record body ++ "`:\"\"\x7d"

def templateBody (record : String) : List Segment → String
  | [] => ""
  | s :: rest => templateSegment record s ++ templateBody record rest

end

mutual

def leveledSegment (depth : Nat) : Segment → List (Nat × Segment)
  | .text s => [(depth, .text s)]
  | .guarded c body => (depth, .guarded c body) :: leveled (depth + 1) body

def leveled (depth : Nat) : List Segment → List (Nat × Segment)
  | [] => []
  | s :: rest => leveledSegment depth s ++ leveled depth rest

end

end Expansion

end Transclude
