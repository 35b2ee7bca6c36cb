import Transclude.Fault
import Transclude.Text.Encoding

namespace Transclude

inductive Entry where
  | file (content : ByteArray)
  | directory
  | link (target : String)

abbrev Place := List String

/-- Entries by the names from the root to them; the root itself has none. -/
structure Disk where
  entries : List (Place × Entry) := []
  workingDirectory : Place := []

namespace Disk

def noEntry : Fault := ⟨.notFound, "No such file or directory (os error 2)"⟩

def alreadyThere : Fault := ⟨.alreadyExists, "File exists (os error 17)"⟩

def notDirectory : Fault := ⟨.notADirectory, "Not a directory (os error 20)"⟩

def isDirectory : Fault := ⟨.isADirectory, "Is a directory (os error 21)"⟩

def nameTooLong : Fault := ⟨.nameTooLong, "File name too long (os error 36)"⟩

def linkLoop : Fault := ⟨.linkLoop, "Too many levels of symbolic links (os error 40)"⟩

def notText : Fault := ⟨.invalidData, "stream did not contain valid UTF-8"⟩

def zeroByte : Fault := ⟨.invalidInput, "file name contained an unexpected NUL byte"⟩

def entry? (d : Disk) (place : Place) : Option Entry :=
  if place.isEmpty then some .directory
  else (d.entries.find? (·.1 = place)).map (·.2)

def hasDirectory (d : Disk) (place : Place) : Bool :=
  match d.entry? place with
  | some .directory => true
  | _ => false

def names (text : String) : List String :=
  let pieces := (Path.pieces text.toList).filter (!·.isEmpty)
  let ending := if text.toList.getLast? = some '/' then [""] else []
  pieces.map String.ofList ++ ending

/-- Whether a name stands for the directory in which it is looked up. -/
def staysHere (name : String) : Bool := name == "." || name.isEmpty

def maxNameSize : Nat := 255

def maxPathSize : Nat := 4095

/-- Follows names from a place. With `create`, the last name need not exist, and it must be one
that a file can have. -/
def follow (d : Disk) (create : Bool) (links : Nat) (place : Place) (names : List String) :
    Except Fault Place :=
  match names with
  | [] => .ok place
  | name :: rest =>
    if !d.hasDirectory place then .error notDirectory
    else if create && (rest = [""] || rest.isEmpty && (staysHere name || name == "..")) then
      .error isDirectory
    else if staysHere name then d.follow create links place rest
    else if name = ".." then d.follow create links place.dropLast rest
    else if Text.size name.toList > maxNameSize then .error nameTooLong
    else
      match d.entry? (place ++ [name]) with
      | none => if create && rest.isEmpty then .ok (place ++ [name]) else .error noEntry
      | some (.link target) =>
        match links with
        | 0 => .error linkLoop
        | links + 1 =>
          if target.isEmpty then .error noEntry
          else
            let start := if (Path.mk target).isAbsolute then [] else place
            d.follow create links start (Disk.names target ++ rest)
      | some _ => d.follow create links (place ++ [name]) rest
termination_by (links, names.length)

/-- The place from which the names of a path are followed. No name has a zero byte. -/
def startOf (d : Disk) (path : Path) : Except Fault Place :=
  if path.text.toList.contains '\x00' then .error zeroByte
  else if path.text.isEmpty then .error noEntry
  else .ok (if path.isAbsolute then [] else d.workingDirectory)

/-- The same for a path that is handed over as a whole, which limits its length. -/
def boundedStartOf (d : Disk) (path : Path) : Except Fault Place := do
  let start ← d.startOf path
  if Text.size path.text.toList > maxPathSize then .error nameTooLong else .ok start

/-- The place that a path leads to, found name by name, so that the path may have any length. -/
def walk (d : Disk) (path : Path) : Except Fault Place := do
  d.follow false 40 (← d.startOf path) (names path.text)

def locate (d : Disk) (path : Path) : Except Fault Place := do
  d.follow false 40 (← d.boundedStartOf path) (names path.text)

theorem walk_of_locate {d : Disk} {path : Path} {place : Place} (h : d.locate path = .ok place) :
    d.walk path = .ok place := by
  unfold locate boundedStartOf at h
  unfold walk
  cases hs : d.startOf path with
  | error fault => simp [hs, bind, Except.bind] at h
  | ok start =>
    by_cases hl : Text.size path.text.toList > maxPathSize
    · simp [hs, hl, bind, Except.bind] at h
    · simpa [hs, hl, bind, Except.bind] using h

def pathOf (place : Place) : Path := ⟨"/" ++ "/".intercalate place⟩

def canonicalize (d : Disk) (path : Path) : Except Fault Path := (d.walk path).map pathOf

def isFile (d : Disk) (path : Path) : Bool :=
  match d.locate path with
  | .ok place => (d.entry? place).any fun
    | .file _ => true
    | _ => false
  | .error _ => false

def isDir (d : Disk) (path : Path) : Bool :=
  match d.locate path with
  | .ok place => d.hasDirectory place
  | .error _ => false

def readText (d : Disk) (path : Path) : Except Fault String := do
  let place ← d.locate path
  match d.entry? place with
  | some (.file content) =>
    match String.fromUTF8? content with
    | some text => .ok text
    | none => .error notText
  | some _ => .error isDirectory
  | none => .error noEntry

def fileNames (d : Disk) (directory : Path) : Except Fault (List String) := do
  let place ← d.locate directory
  if !d.hasDirectory place then .error notDirectory
  else
    .ok <| d.entries.filterMap fun (spot, entry) ↦
      match entry, spot.getLast? with
      | .file _, some name => if spot.dropLast = place then some name else none
      | _, _ => none

end Disk

end Transclude
