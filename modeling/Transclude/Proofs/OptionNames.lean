import Mathlib.Data.List.Nodup
import Transclude.Compile
import Transclude.Host.Memory
import Transclude.Result

namespace Transclude

/-- The entries of a list without repetitions, in the order of their first occurrences. -/
structure FirstOccurrences (occurrences names : List String) : Prop where
  nodup : names.Nodup
  mem_iff : ∀ name, name ∈ names ↔ name ∈ occurrences
  ordered : names.Pairwise fun a b ↦ occurrences.idxOf a < occurrences.idxOf b

namespace FirstOccurrences

variable {occurrences names : List String} {name : String}

theorem nil : FirstOccurrences [] [] := ⟨.nil, by simp, .nil⟩

theorem ordered_append (h : FirstOccurrences occurrences names) (later : List String) :
    names.Pairwise fun a b ↦ (occurrences ++ later).idxOf a < (occurrences ++ later).idxOf b := by
  refine h.ordered.imp_of_mem fun {a b} ha hb hlt ↦ ?_
  rwa [List.idxOf_append_of_mem ((h.mem_iff a).1 ha), List.idxOf_append_of_mem ((h.mem_iff b).1 hb)]

theorem repeated (h : FirstOccurrences occurrences names) (hname : name ∈ names) :
    FirstOccurrences (occurrences ++ [name]) names where
  nodup := h.nodup
  mem_iff other := by
    rw [h.mem_iff, List.mem_append, List.mem_singleton]
    refine ⟨.inl, ?_⟩
    rintro (hold | rfl)
    · exact hold
    · exact (h.mem_iff other).1 hname
  ordered := h.ordered_append [name]

theorem added (h : FirstOccurrences occurrences names) (hname : name ∉ names) :
    FirstOccurrences (occurrences ++ [name]) (names ++ [name]) where
  nodup := List.nodup_append.2 ⟨h.nodup, List.nodup_singleton name, fun a ha b hb heq ↦
    hname (List.mem_singleton.1 hb ▸ heq ▸ ha)⟩
  mem_iff other := by simp [h.mem_iff]
  ordered := by
    refine List.pairwise_append.2 ⟨h.ordered_append [name], List.pairwise_singleton _ _, ?_⟩
    intro a ha b hb
    rw [List.mem_singleton.1 hb]
    have hold : a ∈ occurrences := (h.mem_iff a).1 ha
    have hfresh : name ∉ occurrences := fun hmem ↦ hname ((h.mem_iff name).2 hmem)
    rw [List.idxOf_append_of_mem hold, List.idxOf_append_of_notMem hfresh]
    have hlt := List.idxOf_lt_length_of_mem hold
    omega

end FirstOccurrences

namespace Expr

def occurrences : Expr → List String
  | .literal .. => []
  | .option name => [name]
  | .unary _ operand => operand.occurrences
  | .binary _ left right => left.occurrences ++ right.occurrences

theorem firstOccurrences_addNames (e : Expr) {before names : List String}
    (h : FirstOccurrences before names) :
    FirstOccurrences (before ++ e.occurrences) (e.addNames names) := by
  induction e generalizing before names with
  | literal => simpa [occurrences, addNames] using h
  | option name =>
    rw [occurrences, addNames]
    split
    · next hname => exact h.repeated hname
    · next hname => exact h.added hname
  | unary _ operand ih => exact ih h
  | binary _ left right ihleft ihright =>
    rw [occurrences, addNames, ← List.append_assoc]
    exact ihright (ihleft h)

theorem firstOccurrences_names (e : Expr) : FirstOccurrences e.occurrences e.names :=
  firstOccurrences_addNames e .nil

/-- Operators that give back one operand still depend on no name that does not occur. -/
theorem eval_congr {options options' : Json} {e : Expr}
    (h : ∀ name ∈ e.occurrences, options.field? name = options'.field? name) :
    e.eval options = e.eval options' := by
  induction e with
  | literal => rfl
  | option name => simp only [eval, lookup, h name (List.mem_singleton_self name)]
  | unary op operand ih => rw [eval, eval, ih h]
  | binary op left right ihleft ihright =>
    obtain ⟨hleft, hright⟩ := List.forall_mem_append.1 h
    rw [eval, eval, ihleft hleft, ihright hright]

end Expr

theorem Condition.holds_congr {options options' : Json} {c : Condition}
    (h : ∀ name ∈ c.expr.names, options.field? name = options'.field? name) :
    c.holds options = c.holds options' := by
  unfold holds
  rw [Expr.eval_congr fun name hname ↦ ?_]
  exact h name ((c.expr.firstOccurrences_names.mem_iff name).2 hname)

def Segment.conditionNames : Segment → List String
  | .text _ => []
  | .guarded c _ => c.expr.names

namespace Expansion

def conditionNames (e : Expansion) : List String := (leveled 0 e).flatMap (·.2.conditionNames)

theorem render_congr {options options' : Json} (e : Expansion) {depth : Nat}
    (h : ∀ d c body, (d, .guarded c body) ∈ leveled depth e → c.holds options = c.holds options') :
    render options e = render options' e := by
  match e with
  | [] => rfl
  | .text s :: e =>
    have ih := render_congr e fun d c body hc ↦ h d c body (List.mem_append_right _ hc)
    rw [render, render, ih, renderSegment, renderSegment]
  | .guarded c body :: e =>
    have ih := render_congr e fun d c body hc ↦ h d c body (List.mem_append_right _ hc)
    have ihbody := render_congr body fun d c body hc ↦
      h d c body (List.mem_append_left _ (List.mem_cons_of_mem _ hc))
    have hholds := h depth c body (List.mem_append_left _ (List.mem_cons_self ..))
    rw [render, render, ih, renderSegment, renderSegment, ihbody, hholds]
termination_by sizeOf e

/-- The text of an expansion depends only on the options that its conditions name, and every
condition lists its names once, in the order in which they first occur. -/
theorem render_eq_of_agree :
    (∀ (e : Expansion) (options options' : Json),
      (∀ name ∈ e.conditionNames, options.field? name = options'.field? name) →
      render options e = render options' e) ∧
    ∀ e : Expr, FirstOccurrences e.occurrences e.names := by
  refine ⟨fun e options options' hagree ↦ ?_, Expr.firstOccurrences_names⟩
  refine render_congr e fun d c body (hc : (d, _) ∈ leveled 0 e) ↦ ?_
  refine Condition.holds_congr fun name hname ↦ hagree name ?_
  exact List.mem_flatMap.2 ⟨(d, .guarded c body), hc, hname⟩

end Expansion

def nestedHost : MemoryHost :=
  .ofEntries [(⟨"/p/x"⟩, "X\n#include y if !off && level\n"), (⟨"/p/y"⟩, "Y\n")] []

def nestedRoot : SourceFile :=
  ⟨⟨"/p/r"⟩, ⟨"/p"⟩, "#include x if level > 1 || off\nend\n"⟩

theorem render_eq_of_agree_nested :
    ∃ e cache, expand nestedHost.toHost nestedRoot = (.ok e, cache) ∧
      Expansion.conditionNames e = ["level", "off", "off", "level"] ∧
      Expansion.render (.object [("level", .string "2"), ("mode", .null)]) e = "X\nY\nend\n" ∧
      Expansion.render (.object [("level", .string "2"), ("user", .boolean true)]) e =
        "X\nY\nend\n" := by
  have hcheck : ((expand nestedHost.toHost nestedRoot).1.map fun e ↦
      (Expansion.conditionNames e,
        Expansion.render (.object [("level", .string "2"), ("mode", .null)]) e)).toOption =
      some (["level", "off", "off", "level"], "X\nY\nend\n") := by
    decide +kernel
  cases hexpand : expand nestedHost.toHost nestedRoot with
  | mk result cache =>
    rw [hexpand] at hcheck
    cases result with
    | error err => cases hcheck
    | ok e =>
      obtain ⟨hnames, hrender⟩ := Prod.mk.inj (Option.some.inj hcheck)
      refine ⟨e, cache, rfl, hnames, hrender, ?_⟩
      rw [← hrender]
      refine Expansion.render_eq_of_agree.1 e _ _ ?_
      rw [hnames]
      simp only [List.forall_mem_cons]
      exact ⟨rfl, rfl, rfl, rfl, List.forall_mem_nil _⟩

end Transclude
