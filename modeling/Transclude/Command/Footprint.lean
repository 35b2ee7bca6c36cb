import Transclude.Command.Arguments
import Transclude.Command.Session

namespace Transclude

namespace Command

def file : Command → String
  | .compile file .. | .render file .. | .tree file .. => file

def paths : Command → List Path
  | .compile file output _ _ depFile => (file :: output.toList ++ depFile.toList).map Path.mk
  | .render file _ optionsFile output => (file :: optionsFile.toList ++ output.toList).map Path.mk
  | .tree file .. => [⟨file⟩]

end Command

def Disk.sources (d : Disk) : List SourceFile :=
  d.entries.filterMap fun (place, entry) ↦
    match entry with
    | .file content => (String.fromUTF8? content).map (SourceFile.ofText (pathOf place))
    | _ => none

/-- All that the references of a file can stand for, and the directories whose file names can be
suggested in their stead. -/
def Search.footprint (s : Search) (file : SourceFile) : List Path :=
  (Directive.scan file.text).flatMap fun d ↦
    s.candidates file.context d.reference ++
      [file.context.join (Disk.referenceParent d.reference).text]

/-- The paths that a run looks at, as far as the disk shows them. -/
def Invocation.footprint (i : Invocation) (disk : Disk) : List Path :=
  let named := (i.config.toList.map Path.mk) ++ i.command.paths
  match loadRoot disk ⟨i.command.file⟩ with
  | .error _ => named
  | .ok root =>
    let above := if i.config.isSome then [] else settingsPlaces root.context
    match discoverSettings disk i.config root.context with
    | .error _ => named ++ above
    | .ok settings => named ++ above ++ disk.sources.flatMap settings.search.footprint

end Transclude
