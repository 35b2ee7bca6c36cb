import Mathlib.Data.List.Chain
import Transclude.Proofs.CachedHost
import Transclude.Proofs.NormalForm
import Transclude.Proofs.Sharing

namespace Transclude

def Segment.isText : Segment → Bool
  | .text _ => true
  | .guarded .. => false

/-- A node that is reached through includes without a condition. -/
inductive Reached : List Node → Node → Prop
  | here {nodes : List Node} {n : Node} : n ∈ nodes → Reached nodes n
  | deeper {nodes : List Node} {m n : Node} :
      m ∈ nodes → m.directive.condition = none → Reached m.children n → Reached nodes n

theorem reached_cons {n m : Node} {rest : List Node} :
    Reached (n :: rest) m ↔
      m = n ∨ (n.directive.condition = none ∧ Reached n.children m) ∨ Reached rest m := by
  constructor
  · intro h
    cases h with
    | here hm => exact (List.mem_cons.1 hm).imp_right fun hm ↦ .inr (.here hm)
    | deeper hm hcondition hbelow =>
      rcases List.mem_cons.1 hm with rfl | hm
      · exact .inr (.inl ⟨hcondition, hbelow⟩)
      · exact .inr (.inr (.deeper hm hcondition hbelow))
  · rintro (rfl | ⟨hcondition, hbelow⟩ | hrest)
    · exact .here List.mem_cons_self
    · exact .deeper List.mem_cons_self hcondition hbelow
    · cases hrest with
      | here hm => exact .here (List.mem_cons_of_mem _ hm)
      | deeper hm hcondition hbelow => exact .deeper (List.mem_cons_of_mem _ hm) hcondition hbelow

theorem Reached.grafted {host : Host} {branch : List Path} {context : Path} {ds : List Directive}
    {nodes : List Node} {n : Node} (h : Reached nodes n)
    (hgrown : Grown host branch context ds nodes) :
    ∃ branch' context', n.Grafted host branch' context' := by
  induction h generalizing branch context ds with
  | here hn => exact ⟨branch, context, hgrown.grafted _ hn⟩
  | deeper hm _ _ ih => exact ih (hgrown.grafted _ hm).grown

theorem Passes.condition_isSome {host : Host} {branch : List Path} {context location : Path}
    {d : Directive} {condition : Option Condition}
    (h : Passes host branch context d condition location) :
    d.condition.isSome = condition.isSome := by
  have hcompiled := congrArg Option.isSome h.compiled
  rwa [Option.isSome_map, Option.isSome_map] at hcompiled

namespace Expansion

variable {e f body : Expansion} {c : Condition}

/-- No text is empty, and no two texts stand side by side. -/
structure Neat (e : Expansion) : Prop where
  filled : .text "" ∉ e
  apart : e.IsChain fun s s' ↦ ¬(s.isText ∧ s'.isText)

/-- An expansion within another: that one itself, or one within the body of a guarded segment. -/
inductive Within : Expansion → Expansion → Prop
  | whole (e : Expansion) : Within e e
  | body {e f body : Expansion} {c : Condition} :
      .guarded c body ∈ e → Within f body → Within f e

theorem Normal.isChain (h : Normal e) : e.IsChain fun s s' ↦ ¬(s.isText ∧ s'.isText) := by
  induction e with
  | nil => exact .nil
  | cons s e ih =>
    obtain ⟨-, hapart, hrest⟩ := h
    rcases apart_cases hapart with ⟨c, body, rfl⟩ | ⟨t, rfl, rfl | ⟨c, body, rest, rfl⟩⟩
    · exact List.isChain_cons.2 ⟨fun s' _ hboth ↦ Bool.false_ne_true hboth.1, ih hrest⟩
    · exact .singleton _
    · exact List.isChain_cons_cons.2 ⟨fun hboth ↦ Bool.false_ne_true hboth.2, ih hrest⟩

theorem Normal.of_mem (h : Normal e) (hmem : .guarded c body ∈ e) : Normal body := by
  induction e with
  | nil => cases hmem
  | cons s e ih =>
    obtain ⟨hs, -, hrest⟩ := h
    rcases List.mem_cons.1 hmem with rfl | hmem
    · exact hs.2
    · exact ih hrest hmem

theorem Within.normal (h : Within f e) (he : Normal e) : Normal f := by
  induction h with
  | whole => exact he
  | body hmem _ ih => exact ih (he.of_mem hmem)

theorem pushText_cases (e : Expansion) (s : String) :
    (s = "" ∧ e.pushText s = e) ∨
    (∃ before t, e = before ++ [.text t] ∧ e.pushText s = before ++ [.text (t ++ s)]) ∨
    (s ≠ "" ∧ e.pushText s = e ++ [.text s]) := by
  induction e, s using pushText.induct with
  | case1 s hs =>
    obtain rfl : s = "" := by simpa using hs
    exact .inl ⟨rfl, rfl⟩
  | case2 s hs => exact .inr (.inr ⟨by simpa using hs, by simp [pushText, hs]⟩)
  | case3 t s => exact .inr (.inl ⟨[], t, rfl, rfl⟩)
  | case4 segment rest s hlast ih =>
    have happly : pushText (segment :: rest) s = segment :: pushText rest s := by
      rw [pushText]
      exact hlast
    rw [happly]
    rcases ih with ⟨hs, heq⟩ | ⟨before, t, rfl, heq⟩ | ⟨hs, heq⟩
    · exact .inl ⟨hs, by rw [heq]⟩
    · exact .inr (.inl ⟨segment :: before, t, rfl, by rw [heq, List.cons_append]⟩)
    · exact .inr (.inr ⟨hs, by rw [heq, List.cons_append]⟩)

abbrev Filled (e : Expansion) : Prop := .text "" ∉ e

theorem Filled.pushText (h : Filled e) (s : String) : Filled (e.pushText s) := by
  rcases pushText_cases e s with ⟨-, heq⟩ | ⟨before, t, rfl, heq⟩ | ⟨hs, heq⟩
  · rwa [heq]
  · obtain ⟨hbefore, ht⟩ : Filled before ∧ "" ≠ t := by simpa [Filled] using h
    have hlonger : "" ≠ t ++ s := fun hempty ↦
      ht (String.append_eq_empty_iff.1 hempty.symm).1.symm
    simpa [Filled, heq, hlonger] using hbefore
  · simpa [Filled, heq, h] using hs.symm

theorem Filled.append (h : Filled e) (f : Expansion) : Filled (e.append f) := by
  unfold Expansion.append
  induction f generalizing e with
  | nil => exact h
  | cons s f ih =>
    refine ih ?_
    cases s with
    | text t => exact h.pushText t
    | guarded c body => simpa [push, Filled] using h

theorem Filled.splice (h : Filled e) (condition : Option Condition) (body : Expansion) :
    Filled (e.splice condition body) := by
  cases condition with
  | none => exact h.append body
  | some c => simpa [Expansion.splice, Filled] using h

theorem Filled.ofNodes (h : Filled e) (text : String) (offset : Nat) (nodes : List Node) :
    Filled (ofNodes text offset e nodes) := by
  induction nodes generalizing offset e with
  | nil => exact h.pushText _
  | cons n nodes ih =>
    rw [Expansion.ofNodes]
    exact ih ((h.pushText _).splice _ _) _

theorem mem_pushText (s : String) : .guarded c body ∈ e.pushText s ↔ .guarded c body ∈ e := by
  rcases pushText_cases e s with ⟨-, heq⟩ | ⟨before, t, rfl, heq⟩ | ⟨-, heq⟩ <;>
    simp [heq]

theorem mem_append :
    .guarded c body ∈ e.append f ↔ .guarded c body ∈ e ∨ .guarded c body ∈ f := by
  unfold append
  induction f generalizing e with
  | nil => simp
  | cons s f ih =>
    rw [List.foldl_cons, ih]
    cases s with
    | text t => simp [push, mem_pushText]
    | guarded c' body' => simp [push, or_assoc]

theorem mem_splice {condition : Option Condition} :
    .guarded c body ∈ e.splice condition f ↔
      .guarded c body ∈ e ∨ (condition = none ∧ .guarded c body ∈ f) ∨
        (condition = some c ∧ body = f) := by
  cases condition with
  | none => simp [splice, mem_append]
  | some c' => simp [splice, eq_comm]

theorem ofNode_eq (n : Node) : ofNode n = ofNodes n.file.text 0 [] n.children := by
  cases n
  rw [ofNode]
  rfl

/-- The guarded segments of an expansion are those of the conditional nodes that are reached. -/
theorem mem_ofNodes {host : Host} {branch : List Path} {context : Path} {ds : List Directive}
    {nodes : List Node} (h : Grown host branch context ds nodes) (text : String) (offset : Nat) :
    .guarded c body ∈ ofNodes text offset e nodes ↔
      .guarded c body ∈ e ∨ ∃ n, Reached nodes n ∧ n.condition = some c ∧ body = ofNode n := by
  induction h generalizing text offset e with
  | nil =>
    have hnone : ¬∃ n, Reached [] n ∧ n.condition = some c ∧ body = ofNode n := by
      rintro ⟨n, hn, -⟩
      cases hn with
      | here hn | deeper hn => cases hn
    rw [ofNodes, mem_pushText, or_iff_left hnone]
  | @cons branch context location d ds condition text' below rest hcompile hres hnew _ _ _ ihbelow
      ihrest =>
    have hcondition : d.condition = none ↔ condition = none := by
      have hsome := (Passes.mk hcompile hres hnew).condition_isSome
      rw [← Option.not_isSome_iff_eq_none, ← Option.not_isSome_iff_eq_none, hsome]
    have hfile : .guarded c body ∈ ofNode (.mk d condition (.ofText location text') below) ↔
        ∃ n, Reached below n ∧ n.condition = some c ∧ body = ofNode n := by
      rw [ofNode_eq]
      exact (ihbelow _ 0).trans (or_iff_right List.not_mem_nil)
    rw [ofNodes, ihrest, mem_splice, mem_pushText, hfile, or_assoc]
    refine or_congr_right ?_
    simp only [reached_cons, Node.directive, Node.condition, Node.children, hcondition,
      or_and_right, exists_or, exists_eq_left]
    grind

theorem isConditional_iff : e.isConditional ↔ ∃ c body, .guarded c body ∈ e := by
  rw [isConditional, List.any_eq_true]
  constructor
  · rintro ⟨s, hs, hguarded⟩
    cases s with
    | text t => cases hguarded
    | guarded c body => exact ⟨c, body, hs⟩
  · rintro ⟨c, body, hmem⟩
    exact ⟨_, hmem, rfl⟩

section Tree

variable {host : Host} {branch : List Path} {context : Path} {ds : List Directive}
  {nodes : List Node} {text : String} {offset : Nat}

theorem isConditional_ofNodes (h : Grown host branch context ds nodes) :
    (ofNodes text offset [] nodes).isConditional ↔
      ∃ n, Reached nodes n ∧ n.directive.condition.isSome := by
  simp only [isConditional_iff, mem_ofNodes h, List.not_mem_nil, false_or]
  constructor
  · rintro ⟨c, body, n, hreached, hcondition, -⟩
    obtain ⟨_, _, hgrafted⟩ := hreached.grafted h
    exact ⟨n, hreached, by rw [hgrafted.passes.condition_isSome, hcondition]; rfl⟩
  · rintro ⟨n, hreached, hsome⟩
    obtain ⟨_, _, hgrafted⟩ := hreached.grafted h
    rw [hgrafted.passes.condition_isSome] at hsome
    obtain ⟨c, hc⟩ := Option.isSome_iff_exists.1 hsome
    exact ⟨c, _, n, hreached, hc, rfl⟩

theorem Within.filled (h : Within f e) (hgrown : Grown host branch context ds nodes)
    (he : e = ofNodes text offset [] nodes) : Filled f := by
  induction h generalizing branch context ds nodes text offset with
  | whole =>
    rw [he]
    exact Filled.ofNodes (e := []) List.not_mem_nil text offset nodes
  | body hmem _ ih =>
    rw [he, mem_ofNodes hgrown, or_iff_right List.not_mem_nil] at hmem
    obtain ⟨n, hreached, -, rfl⟩ := hmem
    obtain ⟨_, _, hgrafted⟩ := hreached.grafted hgrown
    exact ih hgrafted.grown (ofNode_eq n)

end Tree

theorem Neat.eq_nil_or_text (h : Neat e) (hplain : e.isConditional = false) :
    e = [] ∨ ∃ s, e = [.text s] := by
  have htext {s : Segment} (hs : s ∈ e) : s.isText := by
    cases s with
    | text t => rfl
    | guarded c body =>
      rw [← Bool.not_eq_true, isConditional_iff] at hplain
      exact absurd ⟨c, body, hs⟩ hplain
  match e with
  | [] => exact .inl rfl
  | [.text s] => exact .inr ⟨s, rfl⟩
  | [.guarded c body] => cases htext (List.mem_singleton_self _)
  | s :: s' :: rest =>
    have hapart := (List.isChain_cons_cons.1 h.apart).1
    exact absurd ⟨htext (by simp), htext (by simp)⟩ hapart

/-- The segments of the expansion of a tree that was built: their form at every depth, when there is
a guarded one among them, and what is left of them when there is none. -/
theorem segments_of_build {host : Host} {root : SourceFile} {t : IncludeTree}
    (hbuild : (buildTree host root).1 = .ok t) :
    (∀ f, Within f (ofTree t) → Neat f) ∧
    ((ofTree t).isConditional ↔ ∃ n, Reached t.children n ∧ n.directive.condition.isSome) ∧
    ((ofTree t).isConditional = false → (ofTree t).length ≤ 1 ∧
      ∀ record options, templateBody record (ofTree t) = render options (ofTree t)) := by
  obtain ⟨host', -, -, hgrown⟩ := exists_canonical_grown hbuild
  have hnormal : Normal (ofTree t) := normal_ofTree (Prod.ext hbuild rfl)
  have hneat : ∀ f, Within f (ofTree t) → Neat f :=
    fun f hf ↦ ⟨hf.filled hgrown rfl, (hf.normal hnormal).isChain⟩
  refine ⟨hneat, isConditional_ofNodes hgrown, ?_⟩
  intro hplain
  rcases (hneat _ (.whole _)).eq_nil_or_text hplain with hnil | ⟨s, hs⟩
  · simp [hnil, templateBody, render]
  · simp [hs, templateBody, render, templateSegment, renderSegment]

def scrapHost : MemoryHost :=
  .ofEntries [(⟨"/p/a"⟩, "#include b\n#include c if on\n#include b\n"), (⟨"/p/b"⟩, ""),
    (⟨"/p/c"⟩, "#include b\nC\n")] []

def guardedRoot : SourceFile := ⟨⟨"/p/r"⟩, ⟨"/p"⟩, "#include b\n#include a\n#include c\n"⟩

def plainRoot : SourceFile := ⟨⟨"/p/r"⟩, ⟨"/p"⟩, "x\n#include c\n#include b\n#include c"⟩

theorem segments_scrap :
    (∃ t, (buildTree scrapHost.toHost guardedRoot).1 = .ok t ∧ (ofTree t).isConditional ∧
      (∀ f, Within f (ofTree t) → Neat f) ∧
      ∃ n, Reached t.children n ∧ n.directive.condition.isSome) ∧
    ∃ t, (buildTree scrapHost.toHost plainRoot).1 = .ok t ∧ (ofTree t).isConditional = false ∧
      (ofTree t).length ≤ 1 ∧
      ∀ record options, templateBody record (ofTree t) = render options (ofTree t) := by
  have hguarded : (buildTree scrapHost.toHost guardedRoot).1.map (isConditional ∘ ofTree) =
      .ok true := by
    decide +kernel
  have hplain : (buildTree scrapHost.toHost plainRoot).1.map (isConditional ∘ ofTree) =
      .ok false := by
    decide +kernel
  obtain ⟨t, ht, hconditional⟩ := map_ok hguarded
  obtain ⟨u, hu, hunconditional⟩ := map_ok hplain
  obtain ⟨hneat, hreached, -⟩ := segments_of_build ht
  obtain ⟨-, -, htext⟩ := segments_of_build hu
  have hconditional : (ofTree t).isConditional = true := hconditional.symm
  have hunconditional : (ofTree u).isConditional = false := hunconditional.symm
  exact ⟨⟨t, ht, hconditional, hneat, hreached.1 hconditional⟩, u, hu, hunconditional,
    htext hunconditional⟩

end Expansion

end Transclude
