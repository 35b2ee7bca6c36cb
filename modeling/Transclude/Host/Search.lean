import Transclude.Path.Basic

namespace Transclude

structure FileLookup where
  isFile : Path → Bool
  canonical? : Path → Option Path

structure Search where
  paths : List Path := []
  extensions : List String := []

namespace Search

def dotted (extension : String) : String :=
  if extension.toList.head? = some '.' then extension else "." ++ extension

def isExplicitlyRelative (reference : String) : Bool :=
  "./".toList.isPrefixOf reference.toList || "../".toList.isPrefixOf reference.toList

/-- The paths that a reference can stand for, without extensions: the search paths come after the
directory of the including file, and not at all for a reference that is absolute or starts with
`./` or `../`. -/
def bases (s : Search) (context : Path) (reference : String) : List Path :=
  if (Path.mk reference).isAbsolute then [⟨reference⟩]
  else
    context.join reference ::
      if isExplicitlyRelative reference then [] else s.paths.map (·.join reference)

def variants (s : Search) (base : Path) : List Path :=
  base :: s.extensions.map fun e ↦ ⟨base.text ++ dotted e⟩

def candidates (s : Search) (context : Path) (reference : String) : List Path :=
  (s.bases context reference).flatMap s.variants

/-- The canonical path of the first candidate that is a file. -/
def resolve (s : Search) (files : FileLookup) (context : Path) (reference : String) :
    Option Path :=
  (s.candidates context reference).findSome? fun p ↦
    if files.isFile p then files.canonical? p else none

end Search

end Transclude
