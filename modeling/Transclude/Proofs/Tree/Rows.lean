import Transclude.Tree.View

namespace Transclude.TreeView

/-- A line of a view: the node that it shows and the location of the file whose directive that is,
for each node above it and for itself whether it is the last of its siblings, and whether its file
was shown above. -/
structure Row where
  owner : Path
  node : Node
  trail : List Bool
  last : Bool
  marked : Bool

namespace Row

def location (r : Row) : Path := r.node.location

def depth (r : Row) : Nat := r.trail.length

end Row

def indent (trail : List Bool) : String := trail.foldl below ""

def line (v : TreeView) (r : Row) : String :=
  indent r.trail ++ connector r.last ++ v.label r.node ++
    (if r.marked then " " ++ Style.dim.paint v.color "(*)" else "") ++ "\n"

def opened (above : List Row) (location : Path) : Bool :=
  above.any fun r ↦ !r.marked && r.location.same location

mutual

def addNode (v : TreeView) (owner : Path) (trail : List Bool) (last : Bool) (above : List Row) :
    Node → List Row
  | .mk d c file children =>
    if v.hides trail.length then above
    else if v.dedupe && opened above file.location then
      above ++ [⟨owner, .mk d c file children, trail, last, true⟩]
    else
      v.addNodes file.location (trail ++ [last])
        (above ++ [⟨owner, .mk d c file children, trail, last, false⟩]) children

def addNodes (v : TreeView) (owner : Path) (trail : List Bool) (above : List Row) :
    List Node → List Row
  | [] => above
  | n :: rest => v.addNodes owner trail (v.addNode owner trail rest.isEmpty above n) rest

end

def rows (v : TreeView) (t : IncludeTree) : List Row :=
  v.addNodes t.root.location [] [] t.children

/-- All ways to add the rows of nodes: a node beyond the limit has none, one whose file was shown
above has a single one, and any other is followed by what is below it. -/
inductive Prints (v : TreeView) : Path → List Bool → List Row → List Node → List Row → Prop
  | nil {owner : Path} {trail : List Bool} {above : List Row} : Prints v owner trail above [] above
  | hidden {owner : Path} {trail : List Bool} {above rows : List Row} {n : Node}
      {rest : List Node} :
      v.hides trail.length → Prints v owner trail above rest rows →
      Prints v owner trail above (n :: rest) rows
  | again {owner : Path} {trail : List Bool} {above rows : List Row} {n : Node} {rest : List Node} :
      ¬v.hides trail.length → (v.dedupe && opened above n.location) = true →
      Prints v owner trail (above ++ [⟨owner, n, trail, rest.isEmpty, true⟩]) rest rows →
      Prints v owner trail above (n :: rest) rows
  | first {owner : Path} {trail : List Bool} {above through rows : List Row} {n : Node}
      {rest : List Node} :
      ¬v.hides trail.length → (v.dedupe && opened above n.location) = false →
      Prints v n.location (trail ++ [rest.isEmpty])
        (above ++ [⟨owner, n, trail, rest.isEmpty, false⟩]) n.children through →
      Prints v owner trail through rest rows →
      Prints v owner trail above (n :: rest) rows

theorem prints_addNodes (v : TreeView) (owner : Path) (trail : List Bool) (above : List Row)
    (ns : List Node) : Prints v owner trail above ns (v.addNodes owner trail above ns) := by
  match ns with
  | [] => exact .nil
  | .mk d c file children :: rest =>
    have hbelow := prints_addNodes v file.location (trail ++ [rest.isEmpty])
      (above ++ [⟨owner, .mk d c file children, trail, rest.isEmpty, false⟩]) children
    rw [addNodes, addNode]
    split
    · next hhides => exact .hidden hhides (prints_addNodes ..)
    · next hhides =>
      split
      · next hmarked => exact .again hhides hmarked (prints_addNodes ..)
      · next hmarked =>
        exact .first hhides (Bool.eq_false_iff.2 hmarked) hbelow (prints_addNodes ..)
termination_by sizeOf ns

def shownBy (above : List Row) : Shown where
  locations := (above.filter (!·.marked)).map Row.location
  repeated := above.any (·.marked)

def text (v : TreeView) (above : List Row) : String := String.join (above.map v.line)

theorem any_shownBy (above : List Row) (location : Path) :
    (shownBy above).locations.any (·.same location) = opened above location := by
  simp [shownBy, opened, Row.location, List.any_map, List.any_filter, Function.comp_def]

theorem shownBy_append (above : List Row) (r : Row) :
    shownBy (above ++ [r]) =
      if r.marked then { shownBy above with repeated := true }
      else { shownBy above with locations := (shownBy above).locations ++ [r.location] } := by
  cases hmarked : r.marked <;> simp [shownBy, hmarked]

theorem text_append (v : TreeView) (above : List Row) (r : Row) :
    v.text (above ++ [r]) = v.text above ++ v.line r := by
  simp [text, String.join_append]

theorem indent_append (trail : List Bool) (last : Bool) :
    indent (trail ++ [last]) = below (indent trail) last := by
  simp [indent]

theorem node_eq (v : TreeView) (before : String) (last : Bool) (depth : Nat) (shown : Shown)
    (n : Node) :
    v.node before last depth shown n =
      if v.hides depth then ("", shown)
      else if v.dedupe && shown.locations.any (·.same n.location) then
        (before ++ connector last ++ v.label n ++ " " ++ Style.dim.paint v.color "(*)" ++ "\n",
          { shown with repeated := true })
      else
        let (lines, shown) := v.nodes (below before last) (depth + 1)
          { shown with locations := shown.locations ++ [n.location] } n.children
        (before ++ connector last ++ v.label n ++ "\n" ++ lines, shown) := by
  cases n
  rw [node]
  rfl

theorem Prints.nodes_eq {v : TreeView} {owner : Path} {trail : List Bool} {above rows : List Row}
    {ns : List Node} (h : Prints v owner trail above ns rows) :
    v.text rows = v.text above ++ (v.nodes (indent trail) trail.length (shownBy above) ns).1 ∧
      shownBy rows = (v.nodes (indent trail) trail.length (shownBy above) ns).2 := by
  induction h with
  | nil => simp [nodes]
  | hidden hhides _ ih =>
    rw [nodes, node_eq, if_pos hhides]
    simpa using ih
  | again hhides hmarked _ ih =>
    rw [nodes, node_eq, if_neg hhides, any_shownBy, if_pos hmarked]
    rw [text_append, shownBy_append, if_pos rfl, String.append_assoc] at ih
    simpa [line, String.append_assoc] using ih
  | @first _ trail _ _ _ n _ hhides hmarked _ _ ih ih' =>
    rw [nodes, node_eq, if_neg hhides, any_shownBy, if_neg (by simp [hmarked])]
    rw [text_append, shownBy_append, if_neg (by simp), indent_append, List.length_append] at ih
    obtain ⟨htext, hshown⟩ := ih
    obtain ⟨htext', hshown'⟩ := ih'
    rw [hshown] at htext' hshown'
    refine ⟨?_, hshown'⟩
    rw [htext', htext]
    simp [line, String.append_assoc, Row.location]

theorem lines_eq (v : TreeView) (label : String) (t : IncludeTree) :
    v.lines label t =
      Style.boldCyan.paint v.color label ++ "\n" ++ String.join ((v.rows t).map v.line) ++
        if (v.rows t).any (·.marked) then
          "\n" ++ Style.dim.paint v.color "(*) = included above" ++ "\n"
        else "" := by
  obtain ⟨htext, hshown⟩ := (prints_addNodes v t.root.location [] [] t.children).nodes_eq
  have hbody : String.join ((v.rows t).map v.line) = (v.nodes "" 0 {} t.children).1 :=
    htext.trans String.empty_append
  have hrepeated : (v.rows t).any (·.marked) = (v.nodes "" 0 {} t.children).2.repeated :=
    congrArg Shown.repeated hshown
  rw [hbody, hrepeated]
  rfl

end Transclude.TreeView
