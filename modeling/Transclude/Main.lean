import Transclude.Command.Footprint
import Transclude.Command.Run
import Transclude.Command.Usage

namespace Transclude.Program

open System

/-- What stands at an absolute path. A link is taken with its final target; one that leads nowhere
counts as nothing, and so does whatever is neither file, directory nor link. Contents are read if
they are wanted. -/
def look (path : String) (wanted : Bool) : IO (Option Entry) := do
  let file := mkFilePath [path]
  let some data ← (try some <$> file.symlinkMetadata catch _ => pure none) | return none
  match data.type with
  | .dir => return some .directory
  | .file => return some (.file (← if wanted then IO.FS.readBinFile file else pure .empty))
  | .symlink =>
    let some target ← (try some <$> IO.FS.realPath file catch _ => pure none) | return none
    return if target == file then none else some (.link target.toString)
  | .other => return none

def list (disk : Disk) (place : Place) : IO Disk := do
  let found ← (try (mkFilePath [(Disk.pathOf place).text]).readDir catch _ => pure #[])
  found.foldlM (fun disk item ↦ do
    let spot := place ++ [item.fileName]
    if (disk.entry? spot).isSome then return disk
    match ← look (Disk.pathOf spot).text false with
    | some entry => return disk.put spot entry
    | none => return disk) disk

/-- Adds what lies on the way along names from a place, and what is at its end. -/
partial def survey (disk : Disk) (place : Place) : List String → IO Disk
  | [] => list disk place
  | name :: rest => do
    if Disk.staysHere name then survey disk place rest
    else if name = ".." then survey disk place.dropLast rest
    else
      let spot := place ++ [name]
      match ← look (Disk.pathOf spot).text rest.isEmpty with
      | none => return disk
      | some .directory => survey (disk.put spot .directory) spot rest
      | some (.file content) => return disk.put spot (.file content)
      | some (.link target) =>
        survey (disk.put spot (.link target)) [] (Disk.names target ++ rest)

/-- Adds the footprint of a run until it is known. -/
partial def gather (i : Invocation) (known : List Path) (disk : Disk) : IO Disk := do
  let fresh := (i.footprint disk).eraseDups.filter (· ∉ known)
  if fresh.isEmpty then return disk
  let disk ← fresh.foldlM (fun disk path ↦
    survey disk []
      ((if path.isAbsolute then [] else disk.workingDirectory) ++ Disk.names path.text)) disk
  gather i (known ++ fresh) disk

def save (before : Disk) (outcome : Outcome) : IO Unit := do
  for (place, entry) in outcome.disk.entries do
    match entry, before.entry? place with
    | .directory, none => IO.FS.createDir (Disk.pathOf place).text
    | _, _ => pure ()
  for (path, text) in outcome.written do
    IO.FS.writeFile path.text text

def wantsColor : IO Bool := do
  let on (value : String) : Bool := value ≠ "0"
  if ((← IO.getEnv "CLICOLOR_FORCE").map on).getD false then return true
  if (← IO.getEnv "NO_COLOR").isSome then return false
  return ((← IO.getEnv "CLICOLOR").map on).getD true && (← (← IO.getStdout).isTty)

def run (args : List String) : IO UInt32 := do
  match Invocation.parse (← IO.getEnv "TPLINC_CONFIG") args with
  | .error e =>
    if e.exitCode = 0 then IO.print e.text else IO.eprint e.text
    return e.exitCode.toUInt32
  | .ok i =>
    let disk ← gather i [] { workingDirectory := Disk.names (← IO.currentDir).toString }
    let color ← wantsColor
    let outcome := i.run color disk
    save disk outcome
    IO.print outcome.printed
    IO.eprint (outcome.complaint color)
    return outcome.exitCode.toUInt32

end Transclude.Program

def main (args : List String) : IO UInt32 := Transclude.Program.run args
