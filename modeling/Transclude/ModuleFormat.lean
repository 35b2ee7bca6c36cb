import Transclude.Text.Character

namespace Transclude

inductive ModuleFormat where
  | commonjs
  | esm
  | function
  | body
  deriving DecidableEq

namespace ModuleFormat

def name : ModuleFormat → String
  | .commonjs => "commonjs"
  | .esm => "esm"
  | .function => "function"
  | .body => "body"

def ofName? : String → Option ModuleFormat
  | "commonjs" => some .commonjs
  | "esm" => some .esm
  | "function" => some .function
  | "body" => some .body
  | _ => none

@[simp]
theorem ofName?_name (f : ModuleFormat) : ofName? f.name = some f := by
  cases f <;> rfl

/-- A format named in any case, or by its short name; an error carries the name in lower case. -/
def parse (s : String) : Except String ModuleFormat :=
  let lower := String.ofList (s.toList.map Char.toLower)
  if lower = "cjs" then .ok .commonjs
  else
    match ofName? lower with
    | some f => .ok f
    | none => .error lower

def unknownMessage (name : String) : String :=
  s!"unknown output format '{name}' (expected commonjs, esm, function or body)"

def opening : ModuleFormat → String
  | .commonjs => "module.exports = "
  | .esm => "export default "
  | .function | .body => ""

def assemble (f : ModuleFormat) (parameter body : String) : String :=
  match f with
  | .body => body
  | _ => f.opening ++ "(" ++ parameter ++ ") => `" ++ body ++ "`"

end ModuleFormat

end Transclude
