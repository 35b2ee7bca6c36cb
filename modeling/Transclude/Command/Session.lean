import Transclude.Compile
import Transclude.Disk.Write
import Transclude.Host.Disk
import Transclude.Report.Basic
import Transclude.Settings

namespace Transclude

def settingsPlaces (start : Path) : List Path := start.ancestors.map (·.join settingsFileName)

def findSettings (disk : Disk) (start : Path) : Option Path :=
  (settingsPlaces start).find? disk.isFile

def readFor (disk : Disk) (purpose : String) (path : Path) : Except FileFailure String :=
  (disk.readText path).mapError fun fault ↦ ⟨.read, path, purpose, fault, []⟩

def loadRoot (disk : Disk) (path : Path) : Except FileFailure SourceFile := do
  let location ← (disk.canonicalize path).mapError fun fault ↦
    ⟨.canonicalize, path, "locating the root template", fault, []⟩
  let text ← readFor disk "reading the root template" location
  return .ofText location text

def loadSettings (disk : Disk) (path : Path) : Except Failure Settings := do
  let text ← (readFor disk "loading configuration" path).mapError .file
  Settings.parse text path

/-- The settings that apply in a directory: those of the file named explicitly, or of the nearest
settings file, or the defaults. -/
def discoverSettings (disk : Disk) (explicit : Option String) (start : Path) :
    Except Failure Settings :=
  match explicit with
  | some path =>
    if disk.isFile ⟨path⟩ then loadSettings disk ⟨path⟩ else .error (.configMissing path)
  | none =>
    match findSettings disk start with
    | some path => loadSettings disk path
    | none => .ok { baseDir := start }

def Settings.search (s : Settings) : Search := ⟨s.searchPaths, s.resolve.extensions⟩

structure Session where
  root : SourceFile
  host : Host
  format : ModuleFormat
  parameter : String

namespace Session

def start (disk : Disk) (file : String) (config : Option String)
    (format : Option ModuleFormat) (parameter : Option String) : Except Failure Session := do
  let root ← (loadRoot disk ⟨file⟩).mapError .file
  let settings ← discoverSettings disk config root.context
  let parameter := parameter.getD settings.output.parameter
  if !Text.isName parameter then
    throw (.options s!"'{parameter}' is not a valid identifier for the options parameter")
  return {
    root
    host := disk.toHost settings.search
    format := format.getD settings.output.format
    parameter }

def dependencies (s : Session) (cache : Cache) : List Path :=
  let registered := cache.journal.dependencies.foldl registerOnce []
  s.root.location :: registered.filter (!·.same s.root.location)

end Session

namespace Makefile

def escape : List Char → List Char
  | [] => []
  | c :: cs => if c = ' ' then '\\' :: ' ' :: escape cs else c :: escape cs

def rule (target : Path) (dependencies : List Path) : String :=
  String.ofList (escape target.text.toList ++ ':' ::
    dependencies.flatMap (fun p ↦ ' ' :: escape p.text.toList) ++ ['\n'])

end Makefile

end Transclude
