import Transclude.Report.Failure
import Transclude.Report.Style

namespace Transclude

structure Report where
  failure : Failure
  details : Option String := none
  suggestion : Option String := none

def quotedList (names : List String) : String :=
  let quoted := names.map fun name ↦ "'" ++ name ++ "'"
  match quoted.dropLast, quoted.getLast? with
  | _, none => ""
  | [], some last => last
  | init, some last => ", ".intercalate init ++ " or " ++ last

def optionsHint : String :=
  "Render options must be a JSON object, e.g. --options '\x7b\"debug\": true\x7d'"

namespace Report

def ofIncludeError (e : IncludeError) : Report :=
  match e with
  | .unresolved _ _ suggestions =>
    { failure := .build e
      details := some ("References resolve against the including file's directory, then against " ++
        "the configured search paths")
      suggestion := some <|
        if suggestions.isEmpty then
          "Check the path in the #include line, or add its directory to [resolve] paths in " ++
            "tplinc.toml"
        else "Did you mean " ++ quotedList suggestions ++ "?" }
  | .circular _ _ _ chain =>
    { failure := .build e
      details := some ("Include chain: " ++ " -> ".intercalate (chain.map Path.text))
      suggestion := some ("Remove one of the #include lines in the chain; a template cannot " ++
        "include itself directly or indirectly") }
  | .unreadable _ _ failure => { failure := .build e, details := some failure.explanation }
  | .condition _ _ _ cause =>
    { failure := .build e
      details := some cause.message
      suggestion := some ("Conditions may use identifiers, literals, parentheses, and unary, " ++
        "arithmetic, comparison, bitwise and logical operators; calls and member access are not " ++
        "allowed") }

def ofFailure (f : Failure) : Report :=
  match f with
  | .build e => ofIncludeError e
  | .configMissing _ =>
    { failure := f, suggestion := some "Pass an existing file to --config or unset TPLINC_CONFIG" }
  | .configSyntax file _ =>
    { failure := f
      suggestion := some (s!"Check the TOML syntax in {file}. Allowed tables are [resolve] " ++
        "(paths, extensions) and [output] (format, options-ident)") }
  | .options _ => { failure := f, suggestion := some optionsHint }
  | .file failure => { failure := f, details := some failure.explanation }
  | .configValue .. | .other _ => { failure := f }

def ofTomlError (reason : String) : Report :=
  { failure := .configSyntax "tplinc.toml" reason
    suggestion := some "Check the TOML syntax and that only [resolve] and [output] keys are used" }

def ofJsonError (reason : String) : Report := ofFailure (.options reason)

/-- The report of a plain message, under contexts of which the last is the outermost: the
outermost text, then the causes below it in order. -/
def ofMessage (message : String) (contexts : List String) : Report :=
  match contexts.reverse ++ [message] with
  | [] => { failure := .other message }
  | outermost :: causes =>
    let numbered := causes.mapIdx fun i cause ↦ s!"\n  {i + 1}: {cause}"
    { failure := .other <|
        if causes.isEmpty then outermost
        else outermost ++ "\n\nCaused by:" ++ String.join numbered }

def line (label : String) : Option String → String
  | some text => label ++ text
  | none => ""

def text (r : Report) : String :=
  r.failure.message ++ line "\nDetails: " r.details ++ line "\nSuggestion: " r.suggestion

def display (color : Bool) (r : Report) : String :=
  let labelled (style : Style) (label : String) : Option String → String
    | some text => style.paint color label ++ ": " ++ text ++ "\n"
    | none => ""
  labelled .boldRed "error" (some r.failure.message) ++ labelled .yellow "details" r.details ++
    labelled .green "suggestion" r.suggestion

end Report

end Transclude
