import Transclude.Cache.Basic
import Transclude.Condition.Basic
import Transclude.Directive

namespace Transclude

inductive Node where
  | mk (directive : Directive) (condition : Option Condition) (file : SourceFile)
    (children : List Node)

namespace Node

def directive : Node → Directive
  | .mk d _ _ _ => d

def condition : Node → Option Condition
  | .mk _ c _ _ => c

def file : Node → SourceFile
  | .mk _ _ f _ => f

def children : Node → List Node
  | .mk _ _ _ cs => cs

def location (n : Node) : Path := n.file.location

mutual

/-- A node and all below it, in pre-order, each with its depth. -/
def preorder (depth : Nat) : Node → List (Nat × Node)
  | .mk d c f children => (depth, .mk d c f children) :: preorderList (depth + 1) children

def preorderList (depth : Nat) : List Node → List (Nat × Node)
  | [] => []
  | n :: ns => preorder depth n ++ preorderList depth ns

end

end Node

/-- A root file and the includes of its text. -/
structure IncludeTree where
  root : SourceFile
  children : List Node

namespace IncludeTree

def leveled (t : IncludeTree) : List (Nat × Node) := Node.preorderList 0 t.children

def nodes (t : IncludeTree) : List Node := t.leveled.map (·.2)

/-- Adds a location unless the same path is there. -/
def addLocation (seen : List Path) (location : Path) : List Path :=
  if seen.any (·.same location) then seen else seen ++ [location]

/-- The distinct locations of the nodes, in order of first occurrence. -/
def locations (t : IncludeTree) : List Path :=
  (t.nodes.map Node.location).foldl addLocation []

end IncludeTree

end Transclude
