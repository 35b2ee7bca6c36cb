import Transclude.Tree.Build

namespace Transclude

namespace IncludeError

def kindName : IncludeError → String
  | .unresolved .. => "unresolved reference"
  | .circular .. => "circular dependency"
  | .unreadable .. => "read failure"
  | .condition .. => "condition parse failure"

def referrer : IncludeError → Path
  | .unresolved _ referrer _ => referrer
  | .circular _ referrer _ _ => referrer
  | .unreadable _ referrer _ => referrer
  | .condition _ _ referrer _ => referrer

def message : IncludeError → String
  | .unresolved reference referrer _ =>
    s!"Could not resolve '{reference}' included from {referrer.text}"
  | .circular reference referrer location _ =>
    s!"Circular dependency: '{reference}' included from {referrer.text} leads back to " ++
      location.text
  | .unreadable location referrer _ =>
    s!"Could not read {location.text} included from {referrer.text}"
  | .condition expression reference referrer _ =>
    s!"Invalid condition '{expression}' on include of '{reference}' in {referrer.text}"

end IncludeError

inductive Failure where
  | build (error : IncludeError)
  | configMissing (path : String)
  | configSyntax (file reason : String)
  | configValue (file reason : String)
  | options (reason : String)
  | file (failure : FileFailure)
  | other (text : String)

def Failure.message : Failure → String
  | .build e => e.message
  | .configMissing p => s!"Configuration file not found: {p}"
  | .configSyntax p reason => s!"Invalid configuration file {p}: {reason}"
  | .configValue p reason => s!"Invalid configuration value in {p}: {reason}"
  | .options reason => s!"Invalid render options: {reason}"
  | .file f => f.message
  | .other s => s

end Transclude
