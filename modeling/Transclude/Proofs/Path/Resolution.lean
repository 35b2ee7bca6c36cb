import Transclude.Host.Memory
import Transclude.Proofs.Path.Reduction

namespace Transclude

namespace Path

structure IsNormal (p : Path) : Prop where
  fixed : p.normalize = p
  no_current : .current ∉ p.components
  absolute : p.isAbsolute → .parent ∉ p.components
  relative : ¬p.isAbsolute → ∃ (ups : Nat) (names : List String),
    p.components = List.replicate ups .parent ++ names.map .normal

theorem isAbsolute_normalize (p : Path) : p.normalize.isAbsolute = p.isAbsolute := by
  rw [Bool.eq_iff_iff, isAbsolute_iff, isAbsolute_iff, components_normalize, reduce_reduce]

theorem isNormal_of_normalize_eq {p : Path} (h : p.normalize = p) : p.IsNormal := by
  obtain ⟨ups, names, hreduced⟩ := reduced_components p
  rw [← components_normalize, h] at hreduced
  refine ⟨h, ?_, fun habsolute ↦ ?_, fun hrelative ↦ ⟨ups, names, ?_⟩⟩
  · rw [hreduced]
    cases p.isAbsolute <;> simp [base]
  · rw [hreduced, habsolute]
    simp [base]
  · rw [hreduced, Bool.eq_false_iff.2 hrelative]
    rfl

end Path

namespace MemoryHost

open Transclude.Path

theorem normalize_of_mem_foldl {entries files : List (Path × String)}
    (h : ∀ file ∈ files, file.1.normalize = file.1) :
    ∀ file ∈ entries.foldl (fun acc (p, text) ↦ insertFile acc p.normalize text) files,
      file.1.normalize = file.1 := by
  induction entries generalizing files with
  | nil => exact h
  | cons entry entries ih =>
    refine ih fun file hfile ↦ ?_
    rcases List.mem_append.1 hfile with hold | hnew
    · exact h file (List.mem_of_mem_filter hold)
    · rw [List.mem_singleton.1 hnew, normalize_normalize]

theorem normalize_of_mem_locations (files : List (Path × String)) (unreadable : List Path) :
    ∀ location ∈ (ofEntries files unreadable).locations, location.normalize = location := by
  intro location hlocation
  rcases List.mem_append.1 hlocation with hfile | hunreadable
  · obtain ⟨file, hmem, rfl⟩ := List.mem_map.1 hfile
    refine normalize_of_mem_foldl ?_ file hmem
    simp
  · obtain ⟨path, -, rfl⟩ := List.mem_map.1 hunreadable
    exact normalize_normalize path

theorem resolve_eq_some_iff {h : MemoryHost}
    (hnormal : ∀ location ∈ h.locations, location.normalize = location) {context location : Path}
    {reference : String} :
    h.resolve context reference = some location ↔
      location = (context.join reference).normalize ∧ location ∈ h.locations := by
  have hsame : ∀ l ∈ h.locations, l.same (context.join reference).normalize →
      l = (context.join reference).normalize := by
    intro l hl hl'
    rw [same_iff, components_normalize] at hl'
    rw [← hnormal l hl, normalize_eq_iff, hl', reduce_reduce]
  unfold resolve
  refine ⟨fun hresolve ↦ ?_, ?_⟩
  · have hmem := List.mem_of_find?_eq_some hresolve
    have hfound := List.find?_some hresolve
    exact ⟨hsame location hmem (by simpa using hfound), hmem⟩
  · rintro ⟨rfl, hmem⟩
    cases hfind : h.locations.find? (·.same (context.join reference).normalize) with
    | none => exact absurd (same_self _) (List.find?_eq_none.1 hfind _ hmem)
    | some l =>
      have hfound := List.find?_some hfind
      rw [hsame l (List.mem_of_find?_eq_some hfind) (by simpa using hfound)]

theorem resolve_congr (h : MemoryHost) {context context' : Path} {reference reference' : String}
    (hpath : (context.join reference).normalize = (context'.join reference').normalize) :
    h.resolve context reference = h.resolve context' reference' := by
  unfold resolve
  rw [hpath]

/-- How a path is spelled has no influence on what is found. -/
structure IgnoresSpelling (h : MemoryHost) : Prop where
  context : ∀ context reference,
    h.resolve context reference = h.resolve context.normalize reference
  location : ∀ {context reference location},
    h.resolve context reference = some location → location.IsNormal
  joined : ∀ {context reference context' reference'},
    reduce (context.join reference).components = reduce (context'.join reference').components →
    h.resolve context reference = h.resolve context' reference'
  reference : ∀ context {reference reference'},
    reduce (Path.mk reference).components = reduce (Path.mk reference').components →
    h.resolve context reference = h.resolve context reference'
  same : ∀ {context reference location context' reference' location'},
    h.resolve context reference = some location →
    h.resolve context' reference' = some location' →
    (location.same location' ↔
      reduce (context.join reference).components = reduce (context'.join reference').components)

theorem ignoresSpelling_ofEntries (files : List (Path × String)) (unreadable : List Path) :
    (ofEntries files unreadable).IgnoresSpelling where
  context context reference := resolve_congr _ (normalize_join_congr (by simp) rfl)
  location hlocation :=
    isNormal_of_normalize_eq (normalize_of_mem_locations files unreadable _
      (List.mem_of_find?_eq_some hlocation))
  joined hjoined := resolve_congr _ (normalize_eq_iff.2 hjoined)
  reference context _ _ hreference := resolve_congr _ (normalize_join_congr rfl hreference)
  same hlocation hlocation' := by
    have hnormal := normalize_of_mem_locations files unreadable
    obtain ⟨rfl, -⟩ := (resolve_eq_some_iff hnormal).1 hlocation
    obtain ⟨rfl, -⟩ := (resolve_eq_some_iff hnormal).1 hlocation'
    rw [same_iff, components_normalize, components_normalize]

end MemoryHost

/-- Normal forms of paths are canonical. -/
theorem Path.normalize_canonical (a b : Path) (reference : String) (files : List (Path × String))
    (unreadable : List Path) :
    a.normalize.normalize = a.normalize ∧
    a.normalize.IsNormal ∧
    a.normalize.isAbsolute = a.isAbsolute ∧
    (a.normalize = b.normalize ↔ Relation.EqvGen Shortens a.components b.components) ∧
    (a.join reference).normalize = (a.normalize.join reference).normalize ∧
    (MemoryHost.ofEntries files unreadable).IgnoresSpelling :=
  ⟨normalize_normalize a, isNormal_of_normalize_eq (normalize_normalize a), isAbsolute_normalize a,
    normalize_eq_iff.trans eqvGen_shortens_iff.symm, normalize_join_congr (by simp) rfl,
    MemoryHost.ignoresSpelling_ofEntries files unreadable⟩

end Transclude
