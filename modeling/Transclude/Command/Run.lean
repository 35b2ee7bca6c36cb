import Transclude.Command.Arguments
import Transclude.Command.Session
import Transclude.Json.Parser
import Transclude.Tree.View

namespace Transclude

/-- The disk, the files written so far in order, and what was printed so far. -/
structure Effects where
  disk : Disk
  written : List (Path × String) := []
  printed : String := ""

abbrev RunM := ExceptT Failure (StateM Effects)

namespace Run

def emit (content : String) (path : Option String) (purpose : String) : RunM Unit := do
  let effects ← get
  match path with
  | none => set { effects with printed := effects.printed ++ content }
  | some path =>
    let target : Path := ⟨path⟩
    let failed (place : Path) (fault : Fault) : Failure := .file ⟨.write, place, purpose, fault, []⟩
    let parent := target.parent?.getD ⟨""⟩
    let (disk, made) := effects.disk.makeDirs parent.ancestors
    set { effects with disk }
    match made with
    | .error fault => throw (failed parent fault)
    | .ok () =>
      match disk.writeText target content with
      | .error fault => throw (failed target fault)
      | .ok disk => set { effects with disk, written := effects.written ++ [(target, content)] }

def onDisk (step : Disk → Except Failure α) : RunM α := do
  match step (← get).disk with
  | .ok a => pure a
  | .error failure => throw failure

def built (result : Except IncludeError α × Cache) : RunM (α × Cache) :=
  match result with
  | (.ok a, cache) => pure (a, cache)
  | (.error e, _) => throw (.build e)

def parseOptions (text : String) : Except Failure Json :=
  match Json.parse? text with
  | none => .error (.options "not a valid JSON text")
  | some (.object fields) => .ok (.object fields)
  | some value => .error (.options ("expected a JSON object, got " ++ value.compact))

def loadOptions (options optionsFile : Option String) (disk : Disk) : Except Failure Json :=
  match options, optionsFile with
  | some text, _ => parseOptions text
  | none, some file => do
    let text ← (readFor disk "reading render options" ⟨file⟩).mapError .file
    parseOptions text
  | none, none => .ok (.object [])

def command (config : Option String) (color : Bool) : Command → RunM Unit
  | .compile file output format parameter depFile => do
    let session ← onDisk fun disk ↦ Session.start disk file config format parameter
    let (text, cache) ←
      built (Transclude.compile session.host session.format session.parameter session.root)
    emit text output "writing the compiled module"
    match depFile, output with
    | some depFile, some output =>
      emit (Makefile.rule ⟨output⟩ (session.dependencies cache)) (some depFile)
        "writing the dependency file"
    | _, _ => pure ()
  | .render file options optionsFile output => do
    let options ← onDisk (loadOptions options optionsFile)
    let session ← onDisk fun disk ↦ Session.start disk file config none none
    let (expansion, _) ← built (Transclude.expand session.host session.root)
    emit (Expansion.render options expansion) output "writing the rendered template"
  | .tree file depth format dedupe => do
    if format ≠ "tree" ∧ format ≠ "json" then
      throw (.other s!"Invalid format '{format}'. Valid formats are: tree, json")
    if depth = some 0 then throw (.other "Depth must be at least 1")
    let session ← onDisk fun disk ↦ Session.start disk file config none none
    let (tree, _) ← built (buildTree session.host session.root)
    let view : TreeView := { depth, dedupe, color }
    emit (if format = "json" then (view.json tree).pretty ++ "\n" else view.lines file tree) none ""

end Run

structure Outcome where
  disk : Disk
  written : List (Path × String)
  printed : String
  failure : Option Failure

def Invocation.run (i : Invocation) (color : Bool) (disk : Disk) : Outcome :=
  let (result, effects) := Run.command i.config color i.command { disk }
  ⟨effects.disk, effects.written, effects.printed,
    match result with
    | .ok () => none
    | .error failure => some failure⟩

namespace Outcome

def exitCode (o : Outcome) : Nat := if o.failure.isSome then 1 else 0

def complaint (o : Outcome) (color : Bool) : String :=
  match o.failure with
  | some failure => (Report.ofFailure failure).display color
  | none => ""

end Outcome

end Transclude
