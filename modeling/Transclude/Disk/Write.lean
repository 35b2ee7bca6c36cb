import Transclude.Disk.Basic

namespace Transclude

def Path.ancestors (p : Path) : List Path := go (p.text.length + 1) p
where
  go : Nat → Path → List Path
    | 0, _ => []
    | n + 1, p =>
      match p.parent? with
      | some up => p :: go n up
      | none => [p]

namespace Disk

def put (d : Disk) (place : Place) (entry : Entry) : Disk :=
  { d with entries := d.entries.filter (·.1 ≠ place) ++ [(place, entry)] }

/-- Puts a new entry, neither through a link nor over what is there. -/
def putNew (d : Disk) (path : Path) (entry : Entry) : Except Fault Disk := do
  let start ← d.boundedStartOf path
  let all := (names path.text).filter (!·.isEmpty)
  let place ← d.follow false 40 start all.dropLast
  match all.getLast? with
  | none => throw alreadyThere
  | some name =>
    if !d.hasDirectory place then throw notDirectory
    else if name = "." ∨ name = ".." then throw alreadyThere
    else if Text.size name.toList > maxNameSize then throw nameTooLong
    else if (d.entry? (place ++ [name])).isSome then throw alreadyThere
    else return d.put (place ++ [name]) entry

def makeDir (d : Disk) (path : Path) : Except Fault Disk := d.putNew path .directory

/-- Makes a directory and those above it, given as the path and its ancestors. Those that were made
stay also if a later one fails. -/
def makeDirs (d : Disk) : List Path → Disk × Except Fault Unit
  | [] => (d, .error ⟨.other, "failed to create whole tree"⟩)
  | path :: above =>
    if path.text.isEmpty then (d, .ok ())
    else
      match d.makeDir path with
      | .ok d => (d, .ok ())
      | .error fault =>
        if fault.kind = .notFound then
          match d.makeDirs above with
          | (d, .error fault) => (d, .error fault)
          | (d, .ok ()) =>
            match d.makeDir path with
            | .ok d => (d, .ok ())
            | .error fault => (d, if d.isDir path then .ok () else .error fault)
        else (d, if d.isDir path then .ok () else .error fault)

def writeBytes (d : Disk) (path : Path) (content : ByteArray) : Except Fault Disk := do
  let place ← d.follow true 40 (← d.boundedStartOf path) (names path.text)
  if d.hasDirectory place then throw isDirectory
  return d.put place (.file content)

def writeText (d : Disk) (path : Path) (text : String) : Except Fault Disk :=
  d.writeBytes path text.toUTF8

end Disk

end Transclude
