import Transclude.Proofs.Growth
import Transclude.Proofs.Line
import Transclude.Proofs.Rendering

namespace Transclude

open Text Directive

def wanted (options : Json) : Option String → Bool
  | none => true
  | some expression =>
    match Condition.compile expression with
    | .ok c => c.holds options
    | .error _ => false

/-- The text that lines in a directory stand for. -/
inductive Denotes (host : Host) (options : Json) : Path → List Line → String → Prop
  | nil (context : Path) : Denotes host options context [] ""
  | copy {context : Path} {l : Line} {ls : List Line} {s : String} :
      l.directive? = none → Denotes host options context ls s →
      Denotes host options context (l :: ls) (String.ofList l.chars ++ s)
  | skip {context : Path} {l : Line} {ls : List Line} {reference : String}
      {condition : Option String} {s : String} :
      l.directive? = some (reference, condition) → ¬wanted options condition →
      Denotes host options context ls s → Denotes host options context (l :: ls) s
  | enter {context location : Path} {l : Line} {ls : List Line} {reference text : String}
      {condition : Option String} {s t : String} :
      l.directive? = some (reference, condition) → wanted options condition →
      host.resolve context reference = some location → host.read location = .ok text →
      Denotes host options location.context (Line.cut text.toList) s →
      Denotes host options context ls t → Denotes host options context (l :: ls) (s ++ t)

namespace Denotes

variable {host : Host} {options : Json}

theorem unique {context : Path} {ls : List Line} {s t : String}
    (h : Denotes host options context ls s) (h' : Denotes host options context ls t) : s = t := by
  induction h generalizing t with
  | nil =>
    cases h'
    rfl
  | copy hl _ ih =>
    cases h' with
    | copy _ h' => rw [ih h']
    | skip hl' => simp [hl] at hl'
    | enter hl' => simp [hl] at hl'
  | skip hl hw _ ih =>
    cases h' with
    | copy hl' => simp [hl] at hl'
    | skip _ _ h' => exact ih h'
    | enter hl' hw' => simp_all
  | enter hl hw hres hread _ _ ihs iht =>
    cases h' with
    | copy hl' => simp [hl] at hl'
    | skip hl' hw' => simp_all
    | enter hl' _ hres' hread' hs' ht' =>
      obtain ⟨rfl, rfl⟩ := Prod.mk.inj (Option.some.inj (hl.symm.trans hl'))
      obtain rfl := Option.some.inj (hres.symm.trans hres')
      obtain rfl := Except.ok.inj (hread.symm.trans hread')
      rw [ihs hs', iht ht']

end Denotes

theorem wanted_eq (options : Json) {expression : Option String} {condition : Option Condition}
    (h : expression.map Condition.compile = condition.map .ok) :
    wanted options expression = condition.all (·.holds options) := by
  cases expression with
  | none =>
    cases condition with
    | none => rfl
    | some c => cases h
  | some expression =>
    cases condition with
    | none => cases h
    | some c =>
      have hc : Condition.compile expression = .ok c := Option.some.inj h
      simp [wanted, hc]

namespace Expansion

variable {host : Host} {options : Json} {context : Path}

def Renders (host : Host) (options : Json) (n : Node) : Prop :=
  Denotes host options n.file.context (Line.cut n.file.text.toList) (render options (ofNode n))

/-- Lines are read off against the nodes of their directives. The text before the offset is done,
`pending` is copied but not yet added, and the lines follow it. -/
theorem denotes_ofNodes {branch : List Path} {text : String} {ls : List Line} {nodes : List Node}
    (done : Expansion) (before pending : List Char)
    (htext : text.toList = before ++ (pending ++ Line.join ls))
    (hgrown : Grown host branch context
      (Line.directivesFrom (size before + size pending) ls) nodes)
    (hnodes : ∀ n ∈ nodes, Renders host options n) :
    ∃ s, Denotes host options context ls s ∧
      render options (ofNodes text (size before) done nodes) =
        render options done ++ String.ofList pending ++ s := by
  induction ls generalizing nodes done before pending with
  | nil =>
    cases hgrown
    refine ⟨"", .nil _, ?_⟩
    have hslice : sliceChars (size before) (size text.toList) text.toList = pending := by
      have h := sliceChars_append before pending []
      rw [htext]
      simpa [Line.join] using h
    simp [ofNodes, slice, hslice]
  | cons l ls ih =>
    have hjoin : Line.join (l :: ls) = l.chars ++ Line.join ls := rfl
    rw [hjoin] at htext
    cases ha : l.argument? with
    | none =>
      simp only [Line.directivesFrom, ha] at hgrown
      have hsize : size before + size pending + size l.chars =
          size before + size (pending ++ l.chars) := by
        rw [size_append, Nat.add_assoc]
      rw [hsize] at hgrown
      obtain ⟨s, hs, he⟩ := ih done before (pending ++ l.chars) (by simpa using htext) hgrown hnodes
      refine ⟨_, .copy (Line.directive?_eq_none.2 ha) hs, ?_⟩
      rw [he, String.ofList_append]
      simp only [String.append_assoc]
    | some argument =>
      simp only [Line.directivesFrom, ha] at hgrown
      cases hgrown with
      | @cons _ _ location _ _ condition _ _ rest hcompile hres _ hread _ hrest =>
        obtain ⟨hnode, hnodes⟩ := List.forall_mem_cons.1 hnodes
        have hslice : sliceChars (size before) (size before + size pending) text.toList =
            pending := by
          rw [htext, sliceChars_append]
        have hsize : size before + size pending + size l.chars =
            size (before ++ (pending ++ l.chars)) := by
          simp [Nat.add_assoc]
        rw [hsize] at hrest
        have hstep (n : Node) (hd : n.directive = ofArgument (size before + size pending) argument
            l.ending) : ofNodes text (size before) done (n :: rest) =
              ofNodes text (size (before ++ (pending ++ l.chars)))
                ((done.pushText (String.ofList pending)).splice n.condition (ofNode n)) rest := by
          rw [ofNodes, hd, Line.ofArgument_start, Line.ofArgument_stop, slice, hslice,
            ← Line.chars_of_argument? ha, hsize]
        -- The directive's line is done with, and nothing is pending after it.
        obtain ⟨t, ht, he⟩ := ih _ (before ++ (pending ++ l.chars)) [] (by simpa using htext) hrest
          hnodes
        have hdirective := Line.directive?_eq ha (size before + size pending)
        have hwanted := wanted_eq options hcompile
        rw [hstep _ rfl, he, render_splice, render_pushText, Node.condition]
        by_cases hw : condition.all (·.holds options)
        · refine ⟨_, .enter hdirective (hwanted.trans hw) hres hread hnode ht, ?_⟩
          simp [hw, String.append_assoc]
        · refine ⟨_, .skip hdirective (by simpa [hwanted] using hw) ht, ?_⟩
          simp [hw]

theorem denotes_text {branch : List Path} {text : String} {nodes : List Node}
    (hgrown : Grown host branch context (scan text) nodes)
    (hnodes : ∀ n ∈ nodes, Renders host options n) :
    Denotes host options context (Line.cut text.toList)
      (render options (ofNodes text 0 [] nodes)) := by
  have hjoin : text.toList = [] ++ ([] ++ Line.join (Line.cut text.toList)) := by
    simp [Line.join_cut]
  rw [Line.scan_eq] at hgrown
  obtain ⟨s, hs, he⟩ := denotes_ofNodes [] [] [] hjoin hgrown hnodes
  have hrender : render options (ofNodes text 0 [] nodes) = s := by simpa [render] using he
  exact hrender ▸ hs

theorem renders_of_grown (options : Json) {branch : List Path} {ds : List Directive}
    {nodes : List Node} (h : Grown host branch context ds nodes) :
    ∀ n ∈ nodes, Renders host options n := by
  induction h with
  | nil => simp
  | cons _ _ _ _ hbelow _ ihbelow ihrest =>
    refine List.forall_mem_cons.2 ⟨?_, ihrest⟩
    unfold Renders
    rw [ofNode]
    exact denotes_text hbelow ihbelow

end Expansion

/-- The expansion of a root renders to the one meaning of its text. -/
theorem denotes_iff_render (h : MemoryHost) {root : SourceFile} {e : Expansion} {c : Cache}
    (hexpand : expand h.toHost root = (.ok e, c)) (options : Json) (s : String) :
    Denotes h.toHost options root.context (Line.cut root.text.toList) s ↔
      s = Expansion.render options e := by
  obtain ⟨tree, hbuild, rfl⟩ := buildTree_of_expand hexpand
  obtain ⟨rfl, hgrown⟩ := h.grown_of_buildTree hbuild
  have hroot := Expansion.denotes_text hgrown (Expansion.renders_of_grown options hgrown)
  exact ⟨fun hs ↦ hs.unique hroot, fun hs ↦ hs ▸ hroot⟩

def diamondHost : MemoryHost :=
  .ofEntries [(⟨"/p/x.tpl"⟩, "X\r#include y"), (⟨"/p/y"⟩, "Y\n")] []

def diamondRoot : SourceFile :=
  ⟨⟨"/p/r"⟩, ⟨"/p"⟩, "a\r\n#include x.tpl if on\n#include y\n$"⟩

theorem denotes_diamond :
    ∃ e c, expand diamondHost.toHost diamondRoot = (.ok e, c) ∧
      ∀ s, Denotes diamondHost.toHost (.object [("on", .boolean true)]) diamondRoot.context
        (Line.cut diamondRoot.text.toList) s ↔ s = "a\r\nX\rY\nY\n$" := by
  have hrender : ((expand diamondHost.toHost diamondRoot).1.map
      (Expansion.render (.object [("on", .boolean true)]))).toOption =
        some "a\r\nX\rY\nY\n$" := by
    decide +kernel
  cases hexpand : expand diamondHost.toHost diamondRoot with
  | mk result c =>
    rw [hexpand] at hrender
    cases result with
    | error err => cases hrender
    | ok e =>
      refine ⟨e, c, rfl, fun s ↦ ?_⟩
      rw [denotes_iff_render diamondHost hexpand, Option.some.inj hrender]

end Transclude
