import Transclude.Disk.Basic
import Transclude.Host.Basic
import Transclude.Host.Search

namespace Transclude

namespace Disk

def lookup (d : Disk) : FileLookup where
  isFile := d.isFile
  canonical? p := (d.canonicalize p).toOption

def locations (d : Disk) : List Path := d.entries.map fun e ↦ pathOf e.1

def referenceParent (reference : String) : Path := (Path.mk reference).parent?.getD ⟨""⟩

/-- The file names close to the last component of an unresolved reference, in the directory that
the reference leads to. -/
def suggest (d : Disk) (context : Path) (reference : String) : List String :=
  match (Path.mk reference).fileName? with
  | none => []
  | some wanted =>
    let parent := referenceParent reference
    match d.fileNames (context.join parent.text) with
    | .ok names => (closestNames wanted names).map fun name ↦ (parent.join name).text
    | .error _ => []

theorem mem_locations_of_isFile {d : Disk} {path location : Path} (hf : d.isFile path)
    (hc : d.lookup.canonical? path = some location) : location ∈ d.locations := by
  unfold isFile at hf
  simp only [lookup, canonicalize] at hc
  split at hf
  · next place hp =>
    rw [walk_of_locate hp] at hc
    simp only [Except.map, Except.toOption, Option.some.injEq] at hc
    subst hc
    unfold entry? at hf
    split at hf
    · simp at hf
    · cases he : d.entries.find? (·.1 = place) with
      | none => simp [he] at hf
      | some e =>
        have hmem := List.mem_of_find?_eq_some he
        have hkey : e.1 = place := by simpa using List.find?_some he
        exact List.mem_map.2 ⟨e, hmem, by rw [hkey]⟩
  · simp at hf

def toHost (d : Disk) (search : Search) : Host where
  resolve := search.resolve d.lookup
  read := d.readText
  suggest := d.suggest
  locations := d.locations
  resolve_mem := by
    intro context reference location h
    obtain ⟨path, -, hp⟩ := List.exists_of_findSome?_eq_some h
    split at hp
    · next hf => exact mem_locations_of_isFile hf hp
    · simp at hp

end Disk

def registerOnce (dependencies : List Path) (location : Path) : List Path :=
  if dependencies.any (·.same location) then dependencies else dependencies ++ [location]

end Transclude
