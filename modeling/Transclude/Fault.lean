import Transclude.Path.Basic

namespace Transclude

inductive FaultKind where
  | notFound
  | permissionDenied
  | invalidData
  | isADirectory
  | notADirectory
  | alreadyExists
  | linkLoop
  | nameTooLong
  | invalidInput
  | other
  deriving DecidableEq

structure Fault where
  kind : FaultKind
  message : String
  deriving DecidableEq

inductive FileOperation where
  | read
  | write
  | canonicalize
  deriving DecidableEq

def FileOperation.name : FileOperation → String
  | .read => "reading"
  | .write => "writing"
  | .canonicalize => "resolving path"

structure FileFailure where
  operation : FileOperation
  path : Path
  purpose : String
  fault : Fault
  related : List Path
  deriving DecidableEq

namespace FileFailure

def message (f : FileFailure) : String :=
  s!"Failed {f.operation.name} '{f.path.text}' for {f.purpose}"

/-- What the cause of the failure adds to the explanation. -/
def hint (f : FileFailure) : String :=
  match f.fault.kind with
  | .notFound => "The file does not exist at the specified path."
  | .permissionDenied =>
    s!"Permission denied. Check file/directory permissions for: {f.path.text}"
  | .invalidData =>
    "The file contains invalid data or encoding.\nTemplates must be valid UTF-8 text."
  | _ => s!"Error details: {f.fault.message}"

def explanation (f : FileFailure) : String :=
  let related := f.related.map fun p ↦ "\n  - " ++ p.text
  s!"Failed {f.operation.name} file '{f.path.text}' for {f.purpose}" ++ "\n\n" ++ f.hint ++
    (if related.isEmpty then "" else "\n\nRelated paths:" ++ String.join related)

end FileFailure

end Transclude
