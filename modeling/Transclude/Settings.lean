import Transclude.ModuleFormat
import Transclude.Path.Basic
import Transclude.Report.Failure
import Transclude.Toml.Parser

namespace Transclude

def settingsFileName : String := "tplinc.toml"

structure ResolveSettings where
  paths : List String := []
  extensions : List String := []
  deriving DecidableEq

structure OutputSettings where
  format : ModuleFormat := .commonjs
  parameter : String := "options"
  deriving DecidableEq

/-- The settings of a project. Relative search paths start at `baseDir`. -/
structure Settings where
  resolve : ResolveSettings := {}
  output : OutputSettings := {}
  baseDir : Path
  deriving DecidableEq

namespace Settings

def text? : Toml → Option String
  | .text s => some s
  | _ => none

def texts? : Toml → Option (List String)
  | .array items => items.mapM text?
  | _ => none

def isEmpty : Toml → Bool
  | .array [] | .table _ [] => true
  | _ => false

def format? : Toml → Option ModuleFormat
  | .text name => ModuleFormat.ofName? name
  | .table _ [(name, content)] => if isEmpty content then ModuleFormat.ofName? name else none
  | _ => none

/-- The values of the given keys: of a table that has no other keys, or of an array that lists
them in order. -/
def values? (keys : List String) : Toml → Option (List (Option Toml))
  | .table _ entries =>
    if entries.all (·.1 ∈ keys) then some (keys.map (Toml.get? entries)) else none
  | .array items => some (keys.mapIdx fun i _ ↦ items[i]?)
  | .tables items => some (keys.mapIdx fun i _ ↦ items[i]?.map (.table .header ·))
  | _ => none

def orDefault (read : Toml → Option α) (default : α) : Option Toml → Option α
  | none => some default
  | some value => read value

def resolve? (value : Toml) : Option ResolveSettings := do
  match ← values? ["paths", "extensions"] value with
  | [paths, extensions] =>
    some ⟨← orDefault texts? [] paths, ← orDefault texts? [] extensions⟩
  | _ => none

def output? (value : Toml) : Option OutputSettings := do
  match ← values? ["format", "options-ident"] value with
  | [format, parameter] =>
    some ⟨← orDefault format? .commonjs format, ← orDefault text? "options" parameter⟩
  | _ => none

def ofEntries? (baseDir : Path) (entries : Toml.Entries) : Option Settings := do
  match ← values? ["resolve", "output"] (.table .header entries) with
  | [resolve, output] =>
    some ⟨← orDefault resolve? {} resolve, ← orDefault output? {} output, baseDir⟩
  | _ => none

def isBlankExtension (extension : String) : Bool := extension.toList.all (· == '.')

def validate (file : Path) (s : Settings) : Except Failure Settings :=
  if !Text.isName s.output.parameter then
    .error (.configValue file.text
      s!"options-ident '{s.output.parameter}' is not a valid identifier")
  else
    match s.resolve.extensions.find? isBlankExtension with
    | some extension => .error (.configValue file.text s!"extension '{extension}' is empty")
    | none => .ok s

def parse (text : String) (file : Path) : Except Failure Settings :=
  match (Toml.parse? text).bind (ofEntries? (file.parent?.getD ⟨""⟩)) with
  | none => .error (.configSyntax file.text "not a valid settings document")
  | some s => s.validate file

def searchPaths (s : Settings) : List Path := s.resolve.paths.map s.baseDir.join

end Settings

end Transclude
