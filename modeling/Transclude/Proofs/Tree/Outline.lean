import Transclude.Proofs.CachedHost
import Transclude.Proofs.DirectiveLine
import Transclude.Proofs.Json.Reread
import Transclude.Proofs.Leakage
import Transclude.Proofs.Sharing
import Transclude.Proofs.Tree.Rows

namespace Transclude

open Text

namespace Node

/-- A node, the nodes above it, and for all of them the siblings that come after them. -/
structure Way where
  above : List (Node × List Node)
  node : Node
  later : List Node

mutual

def ways (above : List (Node × List Node)) (later : List Node) : Node → List Way
  | .mk d c f children =>
    ⟨above, .mk d c f children, later⟩ ::
      waysList (above ++ [(.mk d c f children, later)]) children

def waysList (above : List (Node × List Node)) : List Node → List Way
  | [] => []
  | n :: rest => ways above rest n ++ waysList above rest

end

theorem ways_eq (above : List (Node × List Node)) (later : List Node) (n : Node) :
    n.ways above later = ⟨above, n, later⟩ :: waysList (above ++ [(n, later)]) n.children := by
  cases n
  rw [ways]
  rfl

theorem map_waysList (above : List (Node × List Node)) (ns : List Node) :
    (waysList above ns).map (fun w ↦ (w.above.length, w.node)) =
      preorderList above.length ns := by
  match ns with
  | [] => rfl
  | .mk d c f children :: rest =>
    have hbelow := map_waysList (above ++ [(.mk d c f children, rest)]) children
    have hrest := map_waysList above rest
    rw [List.length_append, List.length_singleton] at hbelow
    rw [waysList, preorderList, List.map_append, hrest, ways, preorder, List.map_cons, hbelow]
termination_by sizeOf ns

theorem le_of_mem_preorderList {depth : Nat} {ns : List Node} {p : Nat × Node}
    (h : p ∈ preorderList depth ns) : depth ≤ p.1 := by
  match ns with
  | [] => cases h
  | .mk d c f children :: rest =>
    rw [preorderList, preorder] at h
    rcases List.mem_append.1 h with h | h
    · rcases List.mem_cons.1 h with rfl | h
      · exact Nat.le_refl depth
      · exact Nat.le_of_succ_le (le_of_mem_preorderList h)
    · exact le_of_mem_preorderList h
termination_by sizeOf ns

def caption (n : Node) : String :=
  n.directive.reference ++ (n.condition.elim "" fun c ↦ " if " ++ c.source)

end Node

def IncludeTree.ways (t : IncludeTree) : List Node.Way := Node.waysList [] t.children

namespace Json

/-- The items of the field `includes`. -/
def includes (j : Json) : List Json :=
  match j.field? "includes" with
  | some (.array items) => items
  | _ => []

def caption? (j : Json) : Option String :=
  match j.field? "reference", j.field? "condition" with
  | some (.string reference), none => some reference
  | some (.string reference), some (.string condition) =>
    some (reference ++ " if " ++ condition)
  | _, _ => none

theorem sizeOf_includes (j : Json) : sizeOf j.includes ≤ sizeOf j := by
  rw [includes]
  split
  · next items h =>
    cases j with
    | object fields =>
      obtain ⟨before, after, hfields, -⟩ := List.lookup_eq_some_iff.1 h
      have hfield : ("includes", Json.array items) ∈ fields := by simp [hfields]
      have hsize := List.sizeOf_lt_of_mem hfield
      simp only [Prod.mk.sizeOf_spec, array.sizeOf_spec] at hsize
      rw [object.sizeOf_spec]
      omega
    | _ => cases h
  · cases j <;> simp

/-- The captions of objects and of all that they include, in pre-order, each with its depth. -/
def outline? (depth : Nat) : List Json → Option (List (Nat × String))
  | [] => some []
  | item :: rest => do
    let caption ← item.caption?
    let below ← outline? (depth + 1) item.includes
    let others ← outline? depth rest
    some ((depth, caption) :: (below ++ others))
termination_by items => sizeOf items
decreasing_by
  · have hsize := sizeOf_includes item
    rw [List.cons.sizeOf_spec]
    omega
  · rw [List.cons.sizeOf_spec]
    omega

end Json

namespace TreeView

/-- A line as it is read: which of its groups are blank, whether its connector is the closing one,
and its label. -/
structure Mark where
  blanks : List Bool
  closing : Bool
  label : String
  deriving DecidableEq

def readMark? : List Char → Option Mark
  | '│' :: ' ' :: ' ' :: ' ' :: cs =>
    (readMark? cs).map fun m ↦ { m with blanks := false :: m.blanks }
  | ' ' :: ' ' :: ' ' :: ' ' :: cs =>
    (readMark? cs).map fun m ↦ { m with blanks := true :: m.blanks }
  | '├' :: '─' :: '─' :: ' ' :: cs => some ⟨[], false, String.ofList cs⟩
  | '└' :: '─' :: '─' :: ' ' :: cs => some ⟨[], true, String.ofList cs⟩
  | _ => none

/-- The lines of a text after the first, read one by one. Nothing may stand behind the last
newline. -/
def readLines? (text : String) : Option (List Mark) :=
  match (text.toList.splitOn '\n').reverse with
  | [] :: lines => lines.reverse.tail.mapM readMark?
  | _ => none

def trail (above : List (Node × List Node)) : List Bool := above.map (·.2.isEmpty)

def wayLine (v : TreeView) (w : Node.Way) : String :=
  indent (trail w.above) ++ connector w.later.isEmpty ++ v.label w.node ++ "\n"

variable {v : TreeView}

theorem hides_of_le {depth depth' : Nat} (h : v.hides depth) (hle : depth ≤ depth') :
    v.hides depth' := by
  rw [hides, Option.any_eq_true] at h ⊢
  obtain ⟨limit, hlimit, hdepth⟩ := h
  exact ⟨limit, hlimit, by simpa using (of_decide_eq_true hdepth).trans hle⟩

theorem not_hides (limit : Option Nat) (dedupe color : Bool) (depth : Nat) :
    (!hides ⟨limit, dedupe, color⟩ depth) = limit.all (depth < ·) := by
  cases limit <;> simp [hides, ← decide_not]

theorem filter_waysList (above : List (Node × List Node)) (ns : List Node)
    (h : v.hides above.length) :
    (Node.waysList above ns).filter (fun w ↦ !v.hides w.above.length) = [] := by
  refine List.filter_eq_nil_iff.2 fun w hw ↦ ?_
  have hmem : (w.above.length, w.node) ∈ Node.preorderList above.length ns := by
    rw [← Node.map_waysList]
    exact List.mem_map_of_mem hw
  simp [hides_of_le h (Node.le_of_mem_preorderList hmem)]

theorem filter_preorderList {depth : Nat} (ns : List Node) (h : v.hides depth) :
    (Node.preorderList depth ns).filter (fun p ↦ !v.hides p.1) = [] := by
  refine List.filter_eq_nil_iff.2 fun p hp ↦ ?_
  simp [hides_of_le h (Node.le_of_mem_preorderList hp)]

theorem trail_append (above : List (Node × List Node)) (n : Node) (later : List Node) :
    trail (above ++ [(n, later)]) = trail above ++ [later.isEmpty] := by
  simp [trail]

theorem Prints.map_line (hfull : v.dedupe = false) {owner : Path} {columns : List Bool}
    {before rows : List Row} {ns : List Node} (h : Prints v owner columns before ns rows)
    {above : List (Node × List Node)} (habove : columns = trail above) :
    rows.map (fun r ↦ (v.line r, r.marked)) =
      before.map (fun r ↦ (v.line r, r.marked)) ++
        ((Node.waysList above ns).filter fun w ↦ !v.hides w.above.length).map
          fun w ↦ (v.wayLine w, false) := by
  have hlength {above : List (Node × List Node)} : (trail above).length = above.length := by
    simp [trail]
  induction h generalizing above with
  | nil => simp [Node.waysList]
  | hidden hhides _ ih =>
    rw [habove, hlength] at hhides
    rw [ih habove, filter_waysList above _ hhides, filter_waysList above _ hhides]
  | again _ hmark => simp [hfull] at hmark
  | @first _ _ _ _ _ n rest hhides _ _ _ ih ih' =>
    subst habove
    rw [hlength] at hhides
    rw [ih' rfl, ih (trail_append above n rest).symm, Node.waysList, Node.ways_eq,
      List.filter_append, List.filter_cons_of_pos (by simpa using hhides)]
    simp [line, wayLine]

theorem lines_full (hfull : v.dedupe = false) (hcolor : v.color = false) (label : String)
    (t : IncludeTree) :
    v.lines label t = label ++ "\n" ++
      String.join ((t.ways.filter fun w ↦ !v.hides w.above.length).map v.wayLine) := by
  have hrows : (v.rows t).map (fun r ↦ (v.line r, r.marked)) =
      (t.ways.filter fun w ↦ !v.hides w.above.length).map fun w ↦ (v.wayLine w, false) :=
    (prints_addNodes ..).map_line hfull rfl
  have hlines := congrArg (List.map Prod.fst) hrows
  have hmarks := congrArg (List.any · Prod.snd) hrows
  simp only [List.map_map, List.any_map, Function.comp_def] at hlines hmarks
  rw [lines_eq, hlines, hmarks, Style.paint, hcolor]
  simp

theorem toList_indent (columns : List Bool) :
    (indent columns).toList = columns.flatMap fun blank ↦ (below "" blank).toList := by
  have hfoldl (s : String) : (columns.foldl below s).toList =
      s.toList ++ columns.flatMap fun blank ↦ (below "" blank).toList := by
    induction columns generalizing s with
    | nil => simp
    | cons blank columns ih => simp [ih, below]
  simpa [indent] using hfoldl ""

theorem readMark?_line (columns : List Bool) (last : Bool) (label : String) :
    readMark? (indent columns ++ connector last ++ label).toList = some ⟨columns, last, label⟩ := by
  rw [String.toList_append, String.toList_append, toList_indent]
  induction columns with
  | nil => cases last <;> simp [connector, readMark?]
  | cons blank columns ih =>
    rw [List.flatMap_cons, List.append_assoc, List.append_assoc, ← List.append_assoc]
    cases blank <;> simp_all [below, readMark?]

theorem splitOn_lines {ls : List (List Char)} (h : ∀ l ∈ ls, '\n' ∉ l) :
    (ls.flatMap (· ++ ['\n'])).splitOn '\n' = ls ++ [[]] := by
  induction ls with
  | nil => simp
  | cons l ls ih =>
    obtain ⟨hl, hls⟩ := List.forall_mem_cons.1 h
    have hnewline : ∀ c ∈ l, (c == '\n') = false := by
      intro c hc
      rw [beq_eq_false_iff_ne]
      rintro rfl
      exact hl hc
    rw [List.splitOn] at ih ⊢
    rw [List.flatMap_cons, List.append_assoc, List.singleton_append,
      List.splitOnP_append_cons_of_forall_mem hnewline _ (by simp), ih hls, List.cons_append]

theorem label_eq (hcolor : v.color = false) (n : Node) : v.label n = n.caption := by
  rw [label, Node.caption]
  cases n.condition <;> simp [Style.paint, hcolor]

theorem not_mem_line {columns : List Bool} {last : Bool} {label : String}
    (h : '\n' ∉ label.toList) : '\n' ∉ (indent columns ++ connector last ++ label).toList := by
  have hgroup : ∀ blank, '\n' ∉ (below "" blank).toList := by decide
  have hconnector : '\n' ∉ (connector last).toList := by cases last <;> decide
  rw [String.toList_append, String.toList_append, toList_indent]
  simp [hgroup, hconnector, h]

theorem readLines?_lines (hfull : v.dedupe = false) (hcolor : v.color = false) {label : String}
    (hlabel : '\n' ∉ label.toList) {t : IncludeTree}
    (ht : ∀ w ∈ t.ways, '\n' ∉ w.node.caption.toList) :
    readLines? (v.lines label t) = some ((t.ways.filter fun w ↦ !v.hides w.above.length).map
      fun w ↦ ⟨trail w.above, w.later.isEmpty, w.node.caption⟩) := by
  rw [lines_full hfull hcolor]
  generalize hshown : t.ways.filter (fun w ↦ !v.hides w.above.length) = shown
  have hcaptions : ∀ w ∈ shown, '\n' ∉ w.node.caption.toList := by
    intro w hw
    rw [← hshown] at hw
    exact ht w (List.mem_filter.1 hw).1
  let text (w : Node.Way) : List Char :=
    (indent (trail w.above) ++ connector w.later.isEmpty ++ w.node.caption).toList
  have htext : (label ++ "\n" ++ String.join (shown.map v.wayLine)).toList =
      (label.toList :: shown.map text).flatMap (· ++ ['\n']) := by
    simp [String.toList_join, List.flatMap_map, wayLine, label_eq hcolor, text]
  have hlines : ∀ l ∈ label.toList :: shown.map text, '\n' ∉ l := by
    refine List.forall_mem_cons.2 ⟨hlabel, fun l hl ↦ ?_⟩
    obtain ⟨w, hw, rfl⟩ := List.mem_map.1 hl
    exact not_mem_line (hcaptions w hw)
  rw [readLines?, htext, splitOn_lines hlines, List.reverse_append, List.reverse_singleton,
    List.singleton_append]
  dsimp only
  have hmark : readMark? ∘ text =
      fun w ↦ pure ⟨trail w.above, w.later.isEmpty, w.node.caption⟩ := by
    funext w
    exact readMark?_line ..
  rw [List.reverse_reverse, List.tail_cons, List.mapM_map, hmark, List.mapM_pure]
  rfl

theorem caption?_nodeJson (v : TreeView) (depth : Nat) (n : Node) :
    (v.nodeJson depth n).caption? = some n.caption := by
  obtain ⟨d, c, f, children⟩ := n
  rw [nodeJson, Json.caption?, Json.field?_ofFields, Json.field?_ofFields]
  cases c <;>
    simp [Json.lookup_cons, Node.caption, Node.directive, Node.condition, String.append_assoc]

theorem includes_nodeJson (v : TreeView) (depth : Nat) (n : Node) :
    (v.nodeJson depth n).includes =
      if v.hides (depth + 1) then [] else v.nodesJson (depth + 1) n.children := by
  obtain ⟨d, c, f, children⟩ := n
  rw [nodeJson, Json.includes, Json.field?_ofFields]
  cases c <;> simp [Json.lookup_cons, Node.children]

theorem includes_json (v : TreeView) (t : IncludeTree) :
    (v.json t).includes = v.nodesJson 0 t.children := by
  rw [json, Json.includes, Json.field?_ofFields]
  simp

theorem outline?_nodesJson {depth : Nat} (h : ¬v.hides depth) (ns : List Node) :
    Json.outline? depth (v.nodesJson depth ns) =
      some (((Node.preorderList depth ns).filter fun p ↦ !v.hides p.1).map
        fun p ↦ (p.1, p.2.caption)) := by
  match ns with
  | [] => rw [nodesJson, Json.outline?, Node.preorderList]; rfl
  | .mk d c f children :: rest =>
    have hrest := outline?_nodesJson h rest
    have hbelow : Json.outline? (depth + 1) (v.nodeJson depth (.mk d c f children)).includes =
        some (((Node.preorderList (depth + 1) children).filter fun p ↦ !v.hides p.1).map
          fun p ↦ (p.1, p.2.caption)) := by
      rw [includes_nodeJson]
      by_cases hdeeper : v.hides (depth + 1)
      · rw [if_pos hdeeper, filter_preorderList children hdeeper, Json.outline?]
        rfl
      · rw [if_neg hdeeper]
        exact outline?_nodesJson hdeeper children
    rw [nodesJson, Json.outline?, caption?_nodeJson, hbelow, hrest, Node.preorderList,
      Node.preorder, List.filter_append, List.filter_cons_of_pos (by simpa using h)]
    simp
termination_by sizeOf ns

theorem textual_nodesJson (v : TreeView) (depth : Nat) (ns : List Node) :
    ∀ item ∈ v.nodesJson depth ns, item.Textual := by
  match ns with
  | [] => simp [nodesJson]
  | .mk d c f children :: rest =>
    rw [nodesJson, nodeJson]
    refine List.forall_mem_cons.2 ⟨Json.textual_ofFields ?_, textual_nodesJson v depth rest⟩
    have hincludes : (Json.array (if v.hides (depth + 1) then [] else
        v.nodesJson (depth + 1) children)).Textual := by
      refine .array ?_
      split
      · simp
      · exact textual_nodesJson v (depth + 1) children
    simp [Json.Textual.string, hincludes]
termination_by sizeOf ns

theorem textual_json (v : TreeView) (t : IncludeTree) : (v.json t).Textual := by
  refine Json.textual_ofFields ?_
  have hincludes : (Json.array (v.nodesJson 0 t.children)).Textual :=
    .array (textual_nodesJson v 0 t.children)
  simp [Json.Textual.string, hincludes]

end TreeView

namespace Directive

theorem Parts.reference_subset {argument : List Char} {reference : String}
    {condition : Option String} (h : Parts argument reference condition) :
    reference.toList ⊆ argument := by
  cases h with
  | conditional hargument _ htrims =>
    obtain ⟨⟨lead, trail, hbefore, -⟩, -, -⟩ := htrims
    subst hbefore hargument
    simp
  | plain _ htrims =>
    obtain ⟨⟨lead, trail, hargument, -⟩, -, -⟩ := htrims
    subst hargument
    simp

theorem not_mem_newline {text : String} {d : Directive} (hd : d ∈ scan text) :
    '\n' ∉ d.reference.toList ∧ ∀ expression ∈ d.condition, '\n' ∉ expression.toList := by
  have hcondition := unbroken_of_mem_scan hd
  obtain ⟨offset, argument, ending, hargument, rfl⟩ := exists_argument_of_mem_scan hd
  have hreference := (parts_ofArgument offset argument ending).reference_subset
  refine ⟨fun hmem ↦ ?_, fun expression he hmem ↦ ?_⟩
  · simpa [isLineEnd] using hargument _ (hreference hmem)
  · simpa [isLineEnd] using hcondition expression he _ hmem

end Directive

theorem Condition.source_subset {source : String} {c : Condition} (h : compile source = .ok c) :
    c.source.toList ⊆ source.toList := by
  obtain ⟨e, -, hc⟩ := bind_ok h
  obtain rfl : ⟨trim source, e⟩ = c := Except.ok.inj hc
  obtain ⟨⟨lead, trail, hsource, -⟩, -, -⟩ := trims_trimChars source.toList
  have htrim : (trim source).toList = trimChars source.toList := String.toList_ofList
  rw [htrim]
  intro c hc
  rw [hsource]
  simp [hc]

theorem Passes.not_mem_caption {host : Host} {branch : List Path} {context location : Path}
    {n : Node} (h : Passes host branch context n.directive n.condition location) {text : String}
    (hd : n.directive ∈ Directive.scan text) : '\n' ∉ n.caption.toList := by
  obtain ⟨hreference, hexpression⟩ := Directive.not_mem_newline hd
  have hcompiled := h.compiled
  rw [Node.caption, String.toList_append, List.mem_append, not_or]
  refine ⟨hreference, ?_⟩
  cases hc : n.condition with
  | none => simp
  | some c =>
    rw [hc] at hcompiled
    obtain ⟨expression, he, hcompile⟩ := Option.map_eq_some_iff.1 hcompiled
    have hsource : '\n' ∉ c.source.toList :=
      fun hmem ↦ hexpression expression he (Condition.source_subset hcompile hmem)
    simpa using hsource

theorem Grown.not_mem_captions {host : Host} {branch : List Path} {context : Path}
    {ds : List Directive} {nodes : List Node} (h : Grown host branch context ds nodes)
    {text : String} (hds : ∀ d ∈ ds, d ∈ Directive.scan text) {depth : Nat} :
    ∀ p ∈ Node.preorderList depth nodes, '\n' ∉ p.2.caption.toList := by
  induction h generalizing text depth with
  | nil => simp [Node.preorderList]
  | @cons branch context location d ds condition text' below rest hcompile hres hnew _ _ _ ihbelow
      ihrest =>
    obtain ⟨hd, hds⟩ := List.forall_mem_cons.1 hds
    have hpasses : Passes host branch context d condition location := ⟨hcompile, hres, hnew⟩
    rw [Node.preorderList, Node.preorder]
    refine List.forall_mem_append.2 ⟨List.forall_mem_cons.2 ⟨?_, ?_⟩, ihrest hds⟩
    · exact hpasses.not_mem_caption (n := .mk d condition (.ofText location text') below) hd
    · exact ihbelow fun d hd ↦ hd

namespace TreeView

/-- The lines and the JSON of a tree that was built, read back: both show its nodes up to the limit,
in pre-order and with their depths, and each column of a line is blank, or its connector the closing
one, exactly if no sibling comes after the node of that depth on the way. The JSON is read from its
text with room for its nesting, of which a reader may allow less. -/
theorem views_agree {host : Host} {root : SourceFile} {t : IncludeTree}
    (hbuild : (buildTree host root).1 = .ok t) {limit : Option Nat} (hlimit : limit ≠ some 0)
    {label : String} (hlabel : '\n' ∉ label.toList) (dedupe color : Bool) :
    ∃ marks, readLines? (lines ⟨limit, false, false⟩ label t) = some marks ∧
      (∃ room, ∀ depth budget, room ≤ depth → room ≤ budget →
        Json.value? depth budget ((json ⟨limit, dedupe, color⟩ t).pretty ++ "\n").toList =
          some (json ⟨limit, dedupe, color⟩ t, ['\n'])) ∧
      Json.outline? 0 (json ⟨limit, dedupe, color⟩ t).includes =
        some (marks.map fun m ↦ (m.blanks.length, m.label)) ∧
      marks.map (fun m ↦ (m.blanks.length, m.label)) =
        (t.leveled.filter fun p ↦ limit.all (p.1 < ·)).map (fun p ↦ (p.1, p.2.caption)) ∧
      t.ways.map (fun w ↦ (w.above.length, w.node)) = t.leveled ∧
      marks.map (fun m ↦ (m.blanks, m.closing)) =
        (t.ways.filter fun w ↦ limit.all (w.above.length < ·)).map
          fun w ↦ (w.above.map (·.2.isEmpty), w.later.isEmpty) := by
  obtain ⟨host', -, -, hgrown⟩ := exists_canonical_grown hbuild
  have hleveled : t.ways.map (fun w ↦ (w.above.length, w.node)) = t.leveled :=
    Node.map_waysList [] t.children
  have hcaptions : ∀ w ∈ t.ways, '\n' ∉ w.node.caption.toList := by
    intro w hw
    have hmem : (w.above.length, w.node) ∈ t.leveled := by
      rw [← hleveled]
      exact List.mem_map_of_mem hw
    exact hgrown.not_mem_captions (List.Subset.refl _) (w.above.length, w.node) hmem
  have hread := readLines?_lines (v := ⟨limit, false, false⟩) rfl rfl hlabel hcaptions
  have hfirst : ¬hides ⟨limit, dedupe, color⟩ 0 := by
    cases limit with
    | none => simp [hides]
    | some n => simpa [hides] using hlimit
  have hjson := outline?_nodesJson hfirst t.children
  simp only [not_hides] at hread hjson
  have hshown : ((t.ways.filter fun w ↦ limit.all (w.above.length < ·)).map
      fun w ↦ (w.above.length, w.node.caption)) =
      (t.leveled.filter fun p ↦ limit.all (p.1 < ·)).map fun p ↦ (p.1, p.2.caption) := by
    rw [← hleveled, List.filter_map, List.map_map]
    rfl
  refine ⟨_, hread, ⟨sizeOf (json ⟨limit, dedupe, color⟩ t), fun depth budget hdepth hbudget ↦ ?_⟩,
    ?_, ?_, hleveled, ?_⟩
  · exact (textual_json ..).value?_pretty hdepth hbudget "\n"
  · rw [includes_json, hjson, List.map_map, ← IncludeTree.leveled, ← hshown]
    simp [trail, Function.comp_def]
  · rw [List.map_map, ← hshown]
    simp [trail, Function.comp_def]
  · rw [List.map_map]
    rfl

def pageHost : MemoryHost :=
  .ofEntries [(⟨"/p/top"⟩, "#include nav if user\n"), (⟨"/p/nav"⟩, "#include logo\n"),
    (⟨"/p/end"⟩, "#include logo\n"), (⟨"/p/logo"⟩, "")] []

def pageRoot : SourceFile := ⟨⟨"/p/r"⟩, ⟨"/p"⟩, "#include top\n#include end\n"⟩

theorem views_agree_page :
    ∃ t, (buildTree pageHost.toHost pageRoot).1 = .ok t ∧
      lines ⟨some 2, false, false⟩ "r" t =
        "r\n├── top\n│   └── nav if user\n└── end\n    └── logo\n" ∧
      Json.outline? 0 (json ⟨some 2, true, false⟩ t).includes =
        some [(0, "top"), (1, "nav if user"), (0, "end"), (1, "logo")] := by
  have hlines : (buildTree pageHost.toHost pageRoot).1.map (lines ⟨some 2, false, false⟩ "r") =
      .ok "r\n├── top\n│   └── nav if user\n└── end\n    └── logo\n" := by
    decide +kernel
  have hread : readLines? "r\n├── top\n│   └── nav if user\n└── end\n    └── logo\n" =
      some [⟨[], false, "top"⟩, ⟨[false], true, "nav if user"⟩, ⟨[], true, "end"⟩,
        ⟨[true], true, "logo"⟩] := by
    decide +kernel
  obtain ⟨t, hbuild, hlines⟩ := map_ok hlines
  obtain ⟨marks, hmarks, -, houtline, -, -⟩ :=
    views_agree hbuild (show some 2 ≠ some 0 by decide) (show '\n' ∉ "r".toList by decide)
      true false
  rw [← hlines, hread] at hmarks
  cases hmarks
  exact ⟨t, hbuild, hlines.symm, houtline⟩

end TreeView

end Transclude
