import Transclude.Proofs.Path.Resolution

namespace Transclude

theorem mem_of_mem_closestNames {wanted name : String} {names : List String}
    (h : name ∈ closestNames wanted names) : name ∈ names := by
  obtain ⟨scored, hscored, rfl⟩ := List.mem_map.1 h
  have hsorted := List.mem_mergeSort.1 (List.mem_of_mem_take hscored)
  obtain ⟨name, hname, rfl⟩ := List.mem_map.1 (List.mem_of_mem_filter hsorted)
  exact hname

namespace Path

theorem components_of_fileName? {p : Path} {name : String} (h : p.fileName? = some name) :
    p.components = p.components.dropLast ++ [.normal name] := by
  unfold fileName? at h
  split at h
  · next last hlast =>
    cases h
    obtain ⟨init, hinit⟩ := List.getLast?_eq_some_iff.1 hlast
    rw [hinit, List.dropLast_concat]
  · cases h

theorem map_components_parent?_of_concat {p : Path} {init : List Component} {name : String}
    (h : p.components = init ++ [.normal name]) : p.parent?.map components = some init := by
  rw [map_components_parent?, h, List.dropLast_concat, if_neg]
  rintro (hnil | hroot)
  · simp at hnil
  · cases init <;> simp at hroot

theorem components_of_parent? {p parent : Path} (h : p.parent? = some parent) :
    parent.components = p.components.dropLast := by
  have hmap := map_components_parent? p
  rw [h, Option.map_some] at hmap
  split at hmap
  · cases hmap
  · exact Option.some.inj hmap

@[simp]
theorem reduce_concat_normal (cs : List Component) (name : String) :
    reduce (cs ++ [.normal name]) = reduce cs ++ [.normal name] := by
  simp [reduce, reduceStep]

theorem reduce_join_normal {reference name : String}
    (h : reduce (Path.mk reference).components = [.normal name]) (p : Path) :
    reduce (p.join reference).components = reduce p.components ++ [.normal name] := by
  have hrelative : (Path.mk reference).isAbsolute = false := by
    rw [Bool.eq_false_iff, Ne, isAbsolute_iff, h]
    simp
  rw [reduce_join hrelative, reduce_append, h, reduce_concat_normal, reduce_reduce]

theorem reduce_join_concat {p q : Path} {name : String}
    (h : reduce p.components = reduce q.components ++ [.normal name]) (context : Path) :
    reduce (context.join p.text).components =
      reduce (context.join q.text).components ++ [.normal name] := by
  have habsolute : (Path.mk p.text).isAbsolute = (Path.mk q.text).isAbsolute := by
    rw [Bool.eq_iff_iff, isAbsolute_iff, isAbsolute_iff, h]
    cases reduce q.components <;> simp
  cases hq : (Path.mk q.text).isAbsolute with
  | true => rw [join_of_isAbsolute hq, join_of_isAbsolute (habsolute ▸ hq), h]
  | false =>
    rw [reduce_join hq, reduce_join (habsolute ▸ hq), reduce_append, h, ← List.append_assoc,
      reduce_concat_normal, ← reduce_append]

theorem Component.IsPiece.components_eq {name : String} (h : (Component.normal name).IsPiece) :
    (Path.mk name).components = [.normal name] := by
  have htext : Path.mk name = ofComponents [.normal name] := rfl
  rw [htext, components_ofComponents (List.forall_mem_singleton.2 h)]

theorem reduce_join_fileName {location : Path} {init : List Component} {name : String}
    (h : location.components = init ++ [.normal name]) (p : Path) :
    reduce (p.join name).components = reduce p.components ++ [.normal name] := by
  have hpiece : (Component.normal name).IsPiece :=
    isPiece_of_mem_reduce (p := location) (by simp [h]) (by simp)
  exact reduce_join_normal (by simp [hpiece.components_eq, reduce, reduceStep]) p

end Path

namespace MemoryHost

open Transclude.Path

/-- A reference leads to a location exactly if its path is reduced to the components of the
location. -/
theorem resolve_iff_reduce {h : MemoryHost}
    (hnormal : ∀ location ∈ h.locations, location.normalize = location) {context location : Path}
    {reference : String} (hlocation : location ∈ h.locations) :
    h.resolve context reference = some location ↔
      reduce (context.join reference).components = location.components := by
  have hfixed := hnormal location hlocation
  rw [resolve_eq_some_iff hnormal, and_iff_left hlocation]
  nth_rewrite 1 [← hfixed]
  rw [normalize_eq_iff, ← components_normalize location, hfixed, eq_comm]

theorem resolve_fileName_iff {h : MemoryHost}
    (hnormal : ∀ location ∈ h.locations, location.normalize = location)
    {context directory location : Path} {name : String} (hlocation : location ∈ h.locations)
    (hcomponents : location.components = directory.components ++ [.normal name]) :
    h.resolve context name = some location ↔ reduce context.components = directory.components := by
  rw [resolve_iff_reduce hnormal hlocation, reduce_join_fileName hcomponents, hcomponents,
    List.append_left_inj]

theorem exists_of_mem_suggest {h : MemoryHost} {context : Path} {reference name : String}
    (hname : name ∈ h.suggest context reference) :
    ∃ directory location, (context.join reference).normalize.parent? = some directory ∧
      location ∈ h.files.map (·.1) ∧ location.fileName? = some name ∧
      location.components = directory.components ++ [.normal name] := by
  obtain ⟨file, hfile, hfileName⟩ := List.mem_filterMap.1 (mem_of_mem_closestNames hname)
  obtain ⟨hfile, hparent⟩ := List.mem_filter.1 hfile
  have hcomponents := components_of_fileName? hfileName
  have hparent : file.1.parent?.map components =
      (context.join reference).normalize.parent?.map components := by
    simpa [sameParent] using hparent
  rw [map_components_parent?_of_concat hcomponents] at hparent
  obtain ⟨directory, hdirectory, hinit⟩ := Option.map_eq_some_iff.1 hparent.symm
  exact ⟨directory, file.1, hdirectory, List.mem_map_of_mem hfile, hfileName, hinit ▸ hcomponents⟩

/-- A suggested name resolves to the file that it was taken from exactly if the directory to which
the reference leads is that of the including file, and with the directory part of the reference
before it always. -/
theorem suggest_resolves {files : List (Path × String)} {unreadable : List Path} {context : Path}
    {reference name : String}
    (hname : name ∈ (ofEntries files unreadable).suggest context reference) :
    ∃ directory location,
      (context.join reference).normalize.parent? = some directory ∧
      location ∈ (ofEntries files unreadable).files.map (·.1) ∧
      location.fileName? = some name ∧
      (ofEntries files unreadable).resolve directory name = some location ∧
      ((ofEntries files unreadable).resolve context name = some location ↔
        context.normalize.same directory) ∧
      (∀ wanted, reduce (Path.mk reference).components = [.normal wanted] →
        (ofEntries files unreadable).resolve context name = some location) ∧
      ∀ wanted, (Path.mk reference).fileName? = some wanted →
        ∃ parent, (Path.mk reference).parent? = some parent ∧
          (ofEntries files unreadable).resolve context (parent.join name).text = some location := by
  have hnormal := normalize_of_mem_locations files unreadable
  obtain ⟨directory, location, hparent, hfile, hfileName, hcomponents⟩ :=
    exists_of_mem_suggest hname
  have hlocation : location ∈ (ofEntries files unreadable).locations :=
    List.mem_append_left _ hfile
  have hresolve (p : Path) : (ofEntries files unreadable).resolve p name = some location ↔
      reduce p.components = directory.components :=
    resolve_fileName_iff hnormal hlocation hcomponents
  have hdirectory :
      directory.components = (reduce (context.join reference).components).dropLast := by
    rw [components_of_parent? hparent, components_normalize]
  refine ⟨directory, location, hparent, hfile, hfileName, (hresolve directory).2 ?_, ?_, ?_, ?_⟩
  · have hreduced : reduce location.components = location.components := by
      rw [← components_normalize, hnormal location hlocation]
    rw [hcomponents, reduce_concat_normal] at hreduced
    exact (List.append_left_inj _).1 hreduced
  · rw [hresolve, same_iff, components_normalize]
  · intro wanted hwanted
    rw [hresolve, hdirectory, reduce_join_normal hwanted, List.dropLast_concat]
  · intro wanted hwanted
    have hlast := components_of_fileName? hwanted
    obtain ⟨parent, hreference, hinit⟩ :=
      Option.map_eq_some_iff.1 (map_components_parent?_of_concat hlast)
    have hstep : reduce (Path.mk reference).components =
        reduce parent.components ++ [.normal wanted] := by
      rw [hlast, reduce_concat_normal, hinit]
    refine ⟨parent, hreference, ?_⟩
    rw [resolve_iff_reduce hnormal hlocation,
      reduce_join_concat (reduce_join_fileName hcomponents parent), hcomponents, hdirectory,
      reduce_join_concat (p := ⟨reference⟩) hstep, List.dropLast_concat]

theorem suggest_resolves_sibling :
    "menu" ∈ (ofEntries [(⟨"/p/menu"⟩, "M")] []).suggest ⟨"/p/parts/.."⟩ "./men" ∧
    (ofEntries [(⟨"/p/menu"⟩, "M")] []).resolve ⟨"/p/parts/.."⟩ "menu" = some ⟨"/p/menu"⟩ := by
  have hname : "menu" ∈ (ofEntries [(⟨"/p/menu"⟩, "M")] []).suggest ⟨"/p/parts/.."⟩ "./men" := by
    decide +kernel
  obtain ⟨directory, location, -, hfile, -, -, -, hplain, -⟩ := suggest_resolves hname
  obtain rfl : location = ⟨"/p/menu"⟩ := by
    have hfiles : (ofEntries [(⟨"/p/menu"⟩, "M")] []).files.map (·.1) = [⟨"/p/menu"⟩] := by
      decide +kernel
    exact List.mem_singleton.1 (hfiles ▸ hfile)
  exact ⟨hname, hplain "men" (by decide +kernel)⟩

theorem suggest_unresolved :
    (ofEntries [(⟨"/p/s/menu"⟩, "M")] []).resolve ⟨"/p"⟩ "s/men" = none ∧
    (ofEntries [(⟨"/p/s/menu"⟩, "M")] []).suggest ⟨"/p"⟩ "s/men" = ["menu"] ∧
    (ofEntries [(⟨"/p/s/menu"⟩, "M")] []).resolve ⟨"/p"⟩ "menu" = none ∧
    (ofEntries [(⟨"/p/s/menu"⟩, "M")] []).resolve ⟨"/p"⟩ "s/menu" = some ⟨"/p/s/menu"⟩ := by
  decide +kernel

end MemoryHost

end Transclude
