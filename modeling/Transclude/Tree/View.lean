import Transclude.Json.Printer
import Transclude.Report.Style
import Transclude.Tree.Basic

namespace Transclude

/-- A limit on the depth, and whether files shown above are shown again. -/
structure TreeView where
  depth : Option Nat := none
  dedupe : Bool := true
  color : Bool := false

namespace TreeView

structure Shown where
  locations : List Path := []
  repeated : Bool := false

def hides (v : TreeView) (depth : Nat) : Bool := v.depth.any (· ≤ depth)

def label (v : TreeView) (n : Node) : String :=
  n.directive.reference ++
    match n.condition with
    | some c => " " ++ Style.dim.paint v.color "if" ++ " " ++ Style.yellow.paint v.color c.source
    | none => ""

def connector (last : Bool) : String := if last then "└── " else "├── "

def below (indent : String) (last : Bool) : String := indent ++ if last then "    " else "│   "

mutual

/-- The lines of a node and of all below it. -/
def node (v : TreeView) (indent : String) (last : Bool) (depth : Nat) (shown : Shown) :
    Node → String × Shown
  | .mk d c file children =>
    if v.hides depth then ("", shown)
    else
      let again := v.dedupe && shown.locations.any (·.same file.location)
      let line := indent ++ connector last ++ v.label (.mk d c file children)
      if again then
        (line ++ " " ++ Style.dim.paint v.color "(*)" ++ "\n", { shown with repeated := true })
      else
        let shown := { shown with locations := shown.locations ++ [file.location] }
        let (lines, shown) := v.nodes (below indent last) (depth + 1) shown children
        (line ++ "\n" ++ lines, shown)

def nodes (v : TreeView) (indent : String) (depth : Nat) (shown : Shown) :
    List Node → String × Shown
  | [] => ("", shown)
  | n :: rest =>
    let (first, shown) := v.node indent rest.isEmpty depth shown n
    let (others, shown) := v.nodes indent depth shown rest
    (first ++ others, shown)

end

def lines (v : TreeView) (root : String) (t : IncludeTree) : String :=
  let (body, shown) := v.nodes "" 0 {} t.children
  Style.boldCyan.paint v.color root ++ "\n" ++ body ++
    if shown.repeated then "\n" ++ Style.dim.paint v.color "(*) = included above" ++ "\n" else ""

mutual

def nodeJson (v : TreeView) (depth : Nat) : Node → Json
  | .mk d c file children =>
    let includes := if v.hides (depth + 1) then [] else v.nodesJson (depth + 1) children
    .ofFields <|
      [("reference", .string d.reference), ("location", .string file.location.text),
        ("includes", .array includes)] ++
        (c.toList.map fun c ↦ ("condition", .string c.source))

def nodesJson (v : TreeView) (depth : Nat) : List Node → List Json
  | [] => []
  | n :: rest => v.nodeJson depth n :: v.nodesJson depth rest

end

def json (v : TreeView) (t : IncludeTree) : Json :=
  .ofFields
    [("root", .string t.root.location.text), ("includes", .array (v.nodesJson 0 t.children))]

end TreeView

end Transclude
