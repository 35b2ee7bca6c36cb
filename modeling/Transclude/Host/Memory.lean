import Transclude.Host.Basic
import Transclude.Path.Basic

namespace Transclude

/-- Files and unreadable locations under normal forms, no two files under the same path. -/
structure MemoryHost where
  files : List (Path × String)
  unreadable : List Path

namespace MemoryHost

def insertFile (files : List (Path × String)) (location : Path) (text : String) :
    List (Path × String) :=
  files.filter (fun file ↦ !file.1.same location) ++ [(location, text)]

/-- A host from paths in any form; of two files with one normal form the later stays. -/
def ofEntries (files : List (Path × String)) (unreadable : List Path) : MemoryHost where
  files := files.foldl (fun acc (p, text) ↦ insertFile acc p.normalize text) []
  unreadable := unreadable.map Path.normalize

def locations (h : MemoryHost) : List Path := h.files.map (·.1) ++ h.unreadable

def resolve (h : MemoryHost) (context : Path) (reference : String) : Option Path :=
  h.locations.find? (·.same (context.join reference).normalize)

def read (h : MemoryHost) (location : Path) : Except Fault String :=
  if h.unreadable.any (·.same location) then .error ⟨.permissionDenied, "unreadable"⟩
  else
    match h.files.find? (·.1.same location) with
    | some (_, text) => .ok text
    | none => .error ⟨.notFound, "no such file"⟩

def sameParent (p q : Path) : Bool :=
  p.parent?.map Path.components == q.parent?.map Path.components

/-- The names of files in the directory of an unresolved reference that are close to it. -/
def suggest (h : MemoryHost) (context : Path) (reference : String) : List String :=
  let wanted := (context.join reference).normalize
  closestNames reference <|
    (h.files.filter (sameParent ·.1 wanted)).filterMap (·.1.fileName?)

def toHost (h : MemoryHost) : Host where
  resolve := h.resolve
  read := h.read
  suggest := h.suggest
  locations := h.locations
  resolve_mem := List.mem_of_find?_eq_some

end MemoryHost

end Transclude
