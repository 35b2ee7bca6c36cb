import Transclude.Proofs.Leakage

namespace Transclude

open Text Directive

/-- Empty, or ended by a line terminator. -/
def isTerminated (text : String) : Bool := text.toList.getLast?.all isLineEnd

namespace Line

theorem ending_ne_nil {cs : List Char} (hcs : cs.getLast?.all isLineEnd) :
    ∀ l ∈ cut cs, l.ending ≠ [] := by
  induction cs using lineInduction with
  | nil =>
    intro l hl
    cases hl
  | @line content ending rest hcontent hends hne ih =>
    have hending : ending ≠ [] := by
      rintro rfl
      -- Without a terminator the line is the last one, and it ends with a character of its own.
      cases hends
      rw [List.append_nil] at hne
      obtain ⟨c, hc⟩ := Option.ne_none_iff_exists'.1 (mt List.getLast?_eq_none_iff.1 hne)
      have hend := hcontent c (List.mem_of_getLast? hc)
      simp_all
    have hrest : rest.getLast?.all isLineEnd := by
      rw [← List.append_assoc, List.getLast?_append] at hcs
      cases hlast : rest.getLast? with
      | none => rfl
      | some c => simpa [hlast] using hcs
    rw [cut_append hcontent hends hne]
    exact List.forall_mem_cons.2 ⟨hending, ih hrest⟩

theorem scan_eq_nil_iff {text : String} : scan text = [] ↔ Quiet text.toList := by
  rw [scan_eq]
  exact directivesFrom_eq_nil 0

end Line

theorem endsInMarker_of_isTerminated {text : String} (h : isTerminated text) :
    endsInMarker text = false := by
  refine List.any_eq_false.2 ?_
  intro l hl
  simp [Line.isStub, Line.ending_ne_nil h l hl]

namespace Expansion

theorem quiet_ofNodes {text : String} {nodes : List Node}
    (hdirectives : nodes.map Node.directive = scan text) (hnodes : ∀ n ∈ nodes, TightNode n) :
    (∀ options, Line.Quiet (render options (ofNodes text 0 [] nodes)).toList) ∧
      ∀ record, isName record →
        Line.Quiet (templateBody record (ofNodes text 0 [] nodes)).toList := by
  obtain ⟨done, last, he, hdone, hquiet, -⟩ := ofNodes_text hdirectives hnodes
  rw [he]
  constructor
  · intro options
    rw [render_pushText, String.toList_append, String.toList_ofList]
    exact (closed_render options done hdone).append_quiet hquiet
  · intro record hrecord
    rw [templateBody_pushText, String.toList_append, String.toList_ofList]
    exact (closed_templateBody hrecord done hdone).append_quiet hquiet

end Expansion

theorem Build.children_of_quiet (host : Host) (branch : List Path) {file : SourceFile}
    (h : scan file.text = []) (c : Cache) : children host branch file c = (.ok [], c) := by
  rw [children_eq, h, List.mapM_nil]
  rfl

theorem expand_of_quiet (host : Host) {root : SourceFile} (h : scan root.text = []) :
    ∃ e, expand host root = (.ok e, {}) ∧ ∀ options, Expansion.render options e = root.text := by
  have hbuild : buildTree host root = (.ok ⟨root, []⟩, {}) := by
    rw [buildTree, IncludeTree.build, Build.children_of_quiet host _ h]
  refine ⟨Expansion.ofTree ⟨root, []⟩, by rw [expand, hbuild]; rfl, ?_⟩
  intro options
  have htext : root.text.toList = [] ++ root.text.toList := rfl
  have hnodes : Expansion.ofTree ⟨root, []⟩ = Expansion.pushText [] root.text :=
    (Expansion.ofNodes_nil htext).trans (by rw [String.ofList_toList])
  rw [hnodes, Expansion.render_pushText, Expansion.render, String.empty_append]

/-- If all included files are terminated, the rendered text of a root is left as it is by a second
expansion, and no template body of the root has a directive. -/
theorem expand_render (h : MemoryHost) {root : SourceFile} {tree : IncludeTree} {c : Cache}
    (hbuild : buildTree h.toHost root = (.ok tree, c))
    (hfiles : ∀ n ∈ tree.nodes, isTerminated n.file.text) :
    ∃ e, expand h.toHost root = (.ok e, c) ∧
      (∀ options, ∃ e', expand h.toHost { root with text := Expansion.render options e } =
        (.ok e', {}) ∧
        ∀ options', Expansion.render options' e' = Expansion.render options e) ∧
      ∀ record, isName record → scan (Expansion.templateBody record e) = [] := by
  refine ⟨Expansion.ofTree tree, by rw [expand, hbuild]; rfl, ?_⟩
  obtain ⟨rfl, hgrown⟩ := h.grown_of_buildTree hbuild
  have hstubs : ∀ p ∈ Node.preorderList 0 tree.children, endsInMarker p.2.file.text = false := by
    intro p hp
    exact endsInMarker_of_isTerminated (hfiles p.2 (List.mem_map_of_mem hp))
  have hnodes := hgrown.tightNode (fun d hd ↦ unbroken_of_mem_scan hd) hstubs
  obtain ⟨hrender, hbody⟩ := Expansion.quiet_ofNodes hgrown.map_directive hnodes
  constructor
  · intro options
    exact expand_of_quiet h.toHost (Line.scan_eq_nil_iff.2 (hrender options))
  · intro record hrecord
    exact Line.scan_eq_nil_iff.2 (hbody record hrecord)

def endedHost : MemoryHost :=
  .ofEntries [(⟨"/p/a"⟩, "A\n#include b\n"), (⟨"/p/b"⟩, "#include\r"), (⟨"/p/c"⟩, "")] []

def endedRoot : SourceFile :=
  ⟨⟨"/p/r"⟩, ⟨"/p"⟩, "#include a if on\n\n#include c\n#include b\n#include "⟩

theorem expand_ended :
    ∃ e c, expand endedHost.toHost endedRoot = (.ok e, c) ∧
      Expansion.render (.object [("on", .boolean true)]) e =
        "A\n#include\r\n#include\r#include " ∧
      (∃ e', expand endedHost.toHost
          { endedRoot with text := "A\n#include\r\n#include\r#include " } = (.ok e', {}) ∧
        ∀ options, Expansion.render options e' = "A\n#include\r\n#include\r#include ") ∧
      scan (Expansion.templateBody "o" e) = [] := by
  have hcheck : ((buildTree endedHost.toHost endedRoot).1.map fun t ↦
      (t.nodes.all fun n ↦ isTerminated n.file.text,
        Expansion.render (.object [("on", .boolean true)]) (Expansion.ofTree t))).toOption =
      some (true, "A\n#include\r\n#include\r#include ") := by
    decide +kernel
  cases hbuild : buildTree endedHost.toHost endedRoot with
  | mk result c =>
    rw [hbuild] at hcheck
    cases result with
    | error err => cases hcheck
    | ok tree =>
      obtain ⟨hall, hrender⟩ := Prod.mk.inj (Option.some.inj hcheck)
      have hfiles : ∀ n ∈ tree.nodes, isTerminated n.file.text := by simpa using hall
      obtain ⟨e, hexpand, hagain, hbody⟩ := expand_render endedHost hbuild hfiles
      obtain rfl : e = Expansion.ofTree tree := by
        rw [expand, hbuild] at hexpand
        cases hexpand
        rfl
      obtain ⟨e', hexpand', hsame⟩ := hagain (.object [("on", .boolean true)])
      rw [hrender] at hexpand' hsame
      exact ⟨_, c, hexpand, hrender, ⟨e', hexpand', hsame⟩, hbody "o" (by decide)⟩

end Transclude
