import Mathlib.Data.List.Forall2
import Transclude.Proofs.Junction
import Transclude.Proofs.Text.Span

namespace Transclude

open Text

namespace Directive

/-- The reference and the condition in an argument. The first separator parts them; the reference
is trimmed, and the condition is left as it is. -/
inductive Parts (argument : List Char) (reference : String) : Option String → Prop
  | conditional {before after : List Char} :
      argument = before ++ (separator ++ after) →
      (∀ before' after', argument = before' ++ (separator ++ after') →
        before.length ≤ before'.length) →
      Trims before reference.toList → Parts argument reference (some (String.ofList after))
  | plain : ¬separator <:+: argument → Trims argument reference.toList →
      Parts argument reference none

variable {sep cs before after argument ending : List Char}

theorem splitFirst?_eq_some (hsplit : splitFirst? sep cs = some (before, after)) :
    cs = before ++ (sep ++ after) ∧
      ∀ before' after', cs = before' ++ (sep ++ after') → before.length ≤ before'.length := by
  induction cs generalizing before with
  | nil =>
    rw [splitFirst?] at hsplit
    split at hsplit
    · next hsep =>
      cases hsplit
      exact ⟨by rw [List.isEmpty_iff.1 hsep]; rfl, fun _ _ _ ↦ Nat.zero_le _⟩
    · cases hsplit
  | cons c cs ih =>
    rw [splitFirst?] at hsplit
    split at hsplit
    · next hsep =>
      cases hsplit
      obtain ⟨rest, hrest⟩ := List.isPrefixOf_iff_prefix.1 hsep
      refine ⟨?_, fun _ _ _ ↦ Nat.zero_le _⟩
      rw [← hrest, List.drop_left]
      rfl
    · next hsep =>
      obtain ⟨⟨before', after'⟩, hrest, hpair⟩ := Option.map_eq_some_iff.1 hsplit
      cases hpair
      obtain ⟨hcs, hfirst⟩ := ih hrest
      refine ⟨by rw [hcs]; rfl, ?_⟩
      intro front back hfront
      cases front with
      | nil =>
        -- A separator at the very start would have been found there.
        rw [List.isPrefixOf_iff_prefix] at hsep
        exact absurd ⟨back, hfront.symm⟩ hsep
      | cons d front =>
        have hlength := hfirst front back (List.cons.inj hfront).2
        simp only [List.length_cons]
        omega

theorem splitFirst?_eq_none (hsplit : splitFirst? sep cs = none) : ¬sep <:+: cs := by
  induction cs with
  | nil =>
    rw [splitFirst?] at hsplit
    split at hsplit
    · cases hsplit
    · next hsep =>
      intro hoccurs
      rw [List.infix_nil] at hoccurs
      simp [hoccurs] at hsep
  | cons c cs ih =>
    rw [splitFirst?] at hsplit
    split at hsplit
    · cases hsplit
    · next hsep =>
      rw [List.isPrefixOf_iff_prefix] at hsep
      intro hoccurs
      rcases List.infix_cons_iff.1 hoccurs with hstart | hlater
      · exact hsep hstart
      · exact ih (Option.map_eq_none_iff.1 hsplit) hlater

theorem parts_ofArgument (offset : Nat) (argument ending : List Char) :
    Parts argument (ofArgument offset argument ending).reference
      (ofArgument offset argument ending).condition := by
  unfold ofArgument
  cases hsplit : splitFirst? separator argument with
  | none =>
    apply Parts.plain (splitFirst?_eq_none hsplit)
    rw [String.toList_ofList]
    exact trims_trimChars _
  | some pair =>
    obtain ⟨hargument, hfirst⟩ := splitFirst?_eq_some hsplit
    apply Parts.conditional hargument hfirst
    rw [String.toList_ofList]
    exact trims_trimChars _

theorem ofArgument_line (offset : Nat) (argument ending : List Char) :
    (ofArgument offset argument ending).line = String.ofList (marker ++ argument ++ ending) := by
  unfold ofArgument
  cases splitFirst? separator argument <;> rfl

end Directive

namespace Line

open Directive

def isDirective (l : Line) : Bool :=
  marker.isPrefixOf l.content && marker.length < l.content.length

def placedFrom (offset : Nat) : List Line → List (Nat × Line)
  | [] => []
  | l :: ls => (offset, l) :: placedFrom (offset + size l.chars) ls

/-- What is reported of a line that starts at an offset of a text. -/
structure Reports (text : String) (offset : Nat) (l : Line) (d : Directive) : Prop where
  start : d.start = offset
  stop : d.stop = offset + size l.chars
  nonempty : d.start < d.stop
  line : d.line = String.ofList l.chars
  slice : slice d.start d.stop text = d.line
  isRange : IsRange text d.start d.stop
  parts : ∃ argument, l.content = marker ++ argument ∧ argument ≠ [] ∧
    Parts argument d.reference d.condition

variable {l : Line} {ls : List Line} {text : String} {before argument : List Char} {offset : Nat}

theorem argument?_eq_some (h : l.isDirective = true) :
    ∃ argument, l.argument? = some argument ∧ l.content = marker ++ argument ∧ argument ≠ [] := by
  have hargument : l.argument? = some (l.content.drop marker.length) := if_pos h
  have hcontent := content_of_argument? hargument
  refine ⟨_, hargument, hcontent, ?_⟩
  have hlength : marker.length < l.content.length := by
    simpa using (Bool.and_eq_true_iff.1 h).2
  intro hnil
  rw [hcontent, hnil, List.append_nil] at hlength
  exact Nat.lt_irrefl _ hlength

theorem argument?_eq_none : l.argument? = none ↔ l.isDirective = false := by
  rw [argument?, ite_eq_right_iff, ← Bool.not_eq_true]
  exact ⟨fun h hl ↦ Option.some_ne_none _ (h hl), fun h hl ↦ absurd hl h⟩

theorem reports_ofArgument (hstands : StandsAt text offset l.chars)
    (hargument : l.argument? = some argument) (hne : argument ≠ []) :
    Reports text offset l (ofArgument offset argument l.ending) := by
  have hchars := chars_of_argument? hargument
  have hpos : 0 < size l.chars := by
    apply size_pos
    rw [hchars]
    simp [hne]
  constructor
  · exact ofArgument_start _ _ _
  · rw [ofArgument_stop, hchars]
  · rw [ofArgument_start, ofArgument_stop, ← hchars]
    omega
  · rw [ofArgument_line, hchars]
  · rw [ofArgument_start, ofArgument_stop, ofArgument_line, ← hchars]
    exact hstands.slice_eq
  · rw [ofArgument_start, ofArgument_stop, ← hchars]
    exact hstands.isRange
  · exact ⟨argument, content_of_argument? hargument, hne, parts_ofArgument _ _ _⟩

theorem reports_directivesFrom (htext : text.toList = before ++ join ls) :
    List.Forall₂ (fun p d ↦ Reports text p.1 p.2 d)
      ((placedFrom (size before) ls).filter (·.2.isDirective))
      (directivesFrom (size before) ls) := by
  induction ls generalizing before with
  | nil => exact .nil
  | cons l ls ih =>
    have hjoin : join (l :: ls) = l.chars ++ join ls := rfl
    have hsplit : text.toList = (before ++ l.chars) ++ join ls := by
      rw [htext, hjoin, List.append_assoc]
    have hrest := ih hsplit
    rw [size_append] at hrest
    rw [placedFrom, directivesFrom]
    cases hl : l.isDirective with
    | false =>
      rw [List.filter_cons_of_neg (by simp [hl]), argument?_eq_none.2 hl]
      exact hrest
    | true =>
      obtain ⟨argument, hargument, -, hne⟩ := argument?_eq_some hl
      rw [List.filter_cons_of_pos (by simp [hl]), hargument]
      have hstands : StandsAt text (size before) l.chars :=
        ⟨before, join ls, by rw [htext, hjoin], rfl⟩
      exact .cons (reports_ofArgument hstands hargument hne) hrest

theorem le_start_of_mem {d : Directive} (hd : d ∈ directivesFrom offset ls) : offset ≤ d.start := by
  induction ls generalizing offset with
  | nil => cases hd
  | cons l ls ih =>
    rw [directivesFrom] at hd
    cases hargument : l.argument? with
    | none =>
      rw [hargument] at hd
      have hle := ih hd
      omega
    | some argument =>
      rw [hargument] at hd
      rcases List.mem_cons.1 hd with rfl | hd
      · exact Nat.le_of_eq (ofArgument_start _ _ _).symm
      · have hle := ih hd
        omega

theorem pairwise_directivesFrom :
    (directivesFrom offset ls).Pairwise (fun d e ↦ d.stop ≤ e.start) := by
  induction ls generalizing offset with
  | nil => exact .nil
  | cons l ls ih =>
    rw [directivesFrom]
    cases hargument : l.argument? with
    | none => exact ih
    | some argument =>
      refine List.pairwise_cons.2 ⟨?_, ih⟩
      intro d hd
      rw [ofArgument_stop, ← chars_of_argument? hargument]
      exact le_start_of_mem hd

/-- The scanner reports the directive lines of a text and nothing else, one after the other. -/
theorem scan_reports (text : String) :
    List.Forall₂ (fun p d ↦ Reports text p.1 p.2 d)
      ((placedFrom 0 (cut text.toList)).filter (·.2.isDirective)) (scan text) ∧
    (scan text).Pairwise (fun d e ↦ d.stop ≤ e.start) ∧
    (occursIn text = true ↔ scan text ≠ []) ∧
    (occursIn text = true ↔ ∃ l ∈ cut text.toList, l.isDirective = true) := by
  have htext : text.toList = [] ++ join (cut text.toList) := (join_cut _).symm
  have hreports := reports_directivesFrom htext
  have hpairwise : (directivesFrom 0 (cut text.toList)).Pairwise (fun d e ↦ d.stop ≤ e.start) :=
    pairwise_directivesFrom
  rw [size_nil, ← scan_eq] at hreports
  rw [← scan_eq] at hpairwise
  refine ⟨hreports, hpairwise, occursIn_iff text, ?_⟩
  rw [← Bool.not_eq_false, occursIn_eq_false_iff, Quiet]
  simp only [argument?_eq_none, not_forall, exists_prop, Bool.not_eq_false]

end Line

end Transclude
