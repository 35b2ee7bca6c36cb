import Transclude.ModuleFormat

namespace Transclude

inductive UsageError where
  | help
  | version
  | helpOnMissing
  | missingSubcommand
  | invalidSubcommand
  | unknownArgument
  | invalidValue
  | valueValidation
  | tooManyValues
  | conflict
  | missingRequired
  deriving DecidableEq

def UsageError.exitCode : UsageError → Nat
  | .help | .version => 0
  | _ => 2

inductive Opt where
  | verbose
  | quiet
  | config
  | help
  | version
  | file
  | output
  | format
  | parameter
  | depFile
  | options
  | optionsFile
  | depth
  | noDedupe
  deriving DecidableEq

inductive ValueKind where
  | flag
  | path
  | text
  | count
  | moduleFormat
  deriving DecidableEq

structure OptSpec where
  opt : Opt
  short : Option Char := none
  long : String := ""
  kind : ValueKind := .flag

inductive CommandName where
  | compile
  | render
  | tree
  deriving DecidableEq

namespace CommandName

def ofText? : String → Option CommandName
  | "compile" => some .compile
  | "render" => some .render
  | "tree" => some .tree
  | _ => none

def sharedOptions : List OptSpec :=
  [⟨.verbose, 'v', "verbose", .flag⟩, ⟨.quiet, 'q', "quiet", .flag⟩,
    ⟨.config, 'c', "config", .path⟩, ⟨.help, 'h', "help", .flag⟩]

def topOptions : List OptSpec := sharedOptions ++ [⟨.version, 'V', "version", .flag⟩]

def options : CommandName → List OptSpec
  | .compile =>
    [⟨.output, 'o', "output", .path⟩, ⟨.format, 'f', "format", .moduleFormat⟩,
      ⟨.parameter, none, "options-ident", .text⟩, ⟨.depFile, none, "dep-file", .path⟩] ++
      sharedOptions
  | .render =>
    [⟨.options, none, "options", .text⟩, ⟨.optionsFile, none, "options-file", .path⟩,
      ⟨.output, 'o', "output", .path⟩] ++ sharedOptions
  | .tree =>
    [⟨.depth, 'd', "depth", .count⟩, ⟨.format, 'f', "format", .text⟩,
      ⟨.noDedupe, none, "no-dedupe", .flag⟩] ++ sharedOptions

end CommandName

def count? (s : String) : Option Nat :=
  let digits :=
    match s.toList with
    | '+' :: cs => cs
    | cs => cs
  if digits.isEmpty || !digits.all (fun c ↦ '0' ≤ c && c ≤ '9') then none
  else
    let n := digits.foldl (fun n c ↦ 10 * n + (c.toNat - '0'.toNat)) 0
    if n < Nat.pow 2 64 then some n else none

def formatArgument? (s : String) : Option ModuleFormat :=
  if s = "cjs" then some .commonjs else ModuleFormat.ofName? s

def ValueKind.check (kind : ValueKind) (value : String) : Except UsageError Unit :=
  match kind with
  | .flag | .text => .ok ()
  | .path => if value.isEmpty then .error .invalidValue else .ok ()
  | .count => if (count? value).isSome then .ok () else .error .valueValidation
  | .moduleFormat => if (formatArgument? value).isSome then .ok () else .error .invalidValue

/-- The options read so far. An option that was named last may still be without its value. -/
structure ArgState where
  given : List (Opt × String) := []
  pending : Option (OptSpec × Option String) := none
  onlyOperands : Bool := false
  fileTaken : Bool := false

namespace ArgState

def has (st : ArgState) (opt : Opt) : Bool := st.given.any (·.1 = opt)

def value? (st : ArgState) (opt : Opt) : Option String := st.given.lookup opt

def awaits (st : ArgState) : Bool :=
  match st.pending with
  | some (_, none) => true
  | _ => false

def record (st : ArgState) (spec : OptSpec) (value : Option String) :
    Except UsageError ArgState := do
  match spec.opt with
  | .help => throw .help
  | .version => throw .version
  | _ =>
    match spec.kind, value with
    | .flag, _ =>
      if st.has spec.opt then throw .conflict
      return { st with given := st.given ++ [(spec.opt, "")] }
    | _, none => throw .invalidValue
    | kind, some v =>
      if st.has spec.opt then throw .conflict
      kind.check v
      return { st with given := st.given ++ [(spec.opt, v)] }

def settle (st : ArgState) : Except UsageError ArgState :=
  match st.pending with
  | none => .ok st
  | some (spec, value) => { st with pending := none }.record spec value

def name (st : ArgState) (spec : OptSpec) (attached : Option String) :
    Except UsageError ArgState := do
  let st ← st.settle
  if spec.kind = .flag then st.record spec none
  else
    match attached with
    | some v => st.record spec (some v)
    | none => return { st with pending := some (spec, none) }

def splitEquals : List Char → List Char × Option (List Char)
  | [] => ([], none)
  | c :: cs =>
    if c = '=' then ([], some cs)
    else
      let (before, after) := splitEquals cs
      (c :: before, after)

def long (specs : List OptSpec) (st : ArgState) (body : List Char) :
    Except UsageError ArgState :=
  let (label, attached) := splitEquals body
  match specs.find? (·.long = String.ofList label) with
  | none => .error .unknownArgument
  | some spec =>
    if spec.kind = .flag ∧ attached.isSome then .error .tooManyValues
    else st.name spec (attached.map String.ofList)

/-- The value attached to a short option; an equals sign before it does not count. -/
def attached? : List Char → Option String
  | [] => none
  | '=' :: cs => some (String.ofList cs)
  | cs => some (String.ofList cs)

/-- An argument that starts with one dash: flags, and at the end an option with its value. -/
def cluster (specs : List OptSpec) (st : ArgState) : List Char → Except UsageError ArgState
  | [] => .ok st
  | c :: cs =>
    match specs.find? (·.short = some c) with
    | none => .error .unknownArgument
    | some spec =>
      if spec.kind = .flag then do
        let st ← st.name spec none
        cluster specs st cs
      else st.name spec (attached? cs)

/-- An argument that belongs to no option. Before the command there is none; a command takes one
file. -/
def operand (top : Bool) (st : ArgState) (arg : String) : Except UsageError ArgState := do
  if top then
    if st.onlyOperands && ((CommandName.ofText? arg).isSome || arg = "help") then
      throw .unknownArgument
    else throw .invalidSubcommand
  else if st.fileTaken then throw .unknownArgument
  else
    let st ← st.settle
    return { st with pending := some (⟨.file, none, "", .path⟩, some arg), fileTaken := true }

def step (specs : List OptSpec) (top : Bool) (st : ArgState) (arg : String) :
    Except UsageError ArgState :=
  if st.onlyOperands then st.operand top arg
  else
    match arg.toList with
    | ['-', '-'] => .ok { st with onlyOperands := true }
    | '-' :: '-' :: body => st.long specs body
    | '-' :: c :: cs => st.cluster specs (c :: cs)
    | _ =>
      match st.pending with
      | some (spec, none) => .ok { st with pending := some (spec, some arg) }
      | _ => st.operand top arg

def addEnvironment (st : ArgState) (config : Option String) : Except UsageError ArgState :=
  match config with
  | some path => if st.has .config then .ok st else st.record ⟨.config, none, "", .path⟩ (some path)
  | none => .ok st

def checkConflicts (st : ArgState) : Except UsageError Unit :=
  if (st.has .verbose && st.has .quiet) || (st.has .options && st.has .optionsFile) then
    .error .conflict
  else .ok ()

def checkRequired (st : ArgState) : Except UsageError Unit :=
  if !st.has .file || (st.has .depFile && !st.has .output) then .error .missingRequired
  else .ok ()

end ArgState

inductive Command where
  | compile (file : String) (output : Option String) (format : Option ModuleFormat)
    (parameter : Option String) (depFile : Option String)
  | render (file : String) (options optionsFile output : Option String)
  | tree (file : String) (depth : Option Nat) (format : String) (dedupe : Bool)

structure Invocation where
  verbose : Bool
  quiet : Bool
  config : Option String
  command : Command

namespace Invocation

def logLevel (i : Invocation) : String :=
  if i.verbose then "debug" else if i.quiet then "error" else "warn"

def commandOf (name : CommandName) (st : ArgState) : Command :=
  let file := (st.value? .file).getD ""
  match name with
  | .compile =>
    .compile file (st.value? .output) ((st.value? .format).bind formatArgument?)
      (st.value? .parameter) (st.value? .depFile)
  | .render => .render file (st.value? .options) (st.value? .optionsFile) (st.value? .output)
  | .tree =>
    .tree file ((st.value? .depth).bind count?) ((st.value? .format).getD "tree")
      (!st.has .noDedupe)

abbrev Named := Bool

def parseCommand (environment : Option String) (name : CommandName) (args : List String) :
    Except UsageError (ArgState × Named) := do
  let st ← args.foldlM (ArgState.step name.options false) {}
  let st ← st.settle
  let named := st.has .config
  let st ← st.addEnvironment environment
  st.checkConflicts
  st.checkRequired
  return (st, named)

/-- The arguments of a request for help: names of commands, at most one of which has no more. -/
def parseHelp : List String → UsageError
  | [] => .help
  | [name] =>
    if (CommandName.ofText? name).isSome || name = "help" then .help else .invalidSubcommand
  | _ => .invalidSubcommand

def parseTop (environment : Option String) (st : ArgState) :
    List String → Except UsageError (ArgState × Option (CommandName × ArgState × Named))
  | [] => .ok (st, none)
  | arg :: args =>
    if st.awaits || st.onlyOperands then next arg args
    else if arg = "help" then .error (parseHelp args)
    else
      match CommandName.ofText? arg with
      | some name => do
        let (sub, named) ← parseCommand environment name args
        return (st, some (name, sub, named))
      | none => next arg args
where
  next (arg : String) (args : List String) :
      Except UsageError (ArgState × Option (CommandName × ArgState × Named)) := do
    let st ← st.step CommandName.topOptions true arg
    parseTop environment st args

def parse (environment : Option String) (args : List String) : Except UsageError Invocation := do
  let (top, sub) ← parseTop environment {} args
  let top ← top.settle
  let namedAbove := top.has .config
  let top ← top.addEnvironment environment
  match sub with
  | none => throw (if top.given.isEmpty then .helpOnMissing else .missingSubcommand)
  | some (name, sub, named) =>
    top.checkConflicts
    return {
      verbose := top.has .verbose || sub.has .verbose
      quiet := top.has .quiet || sub.has .quiet
      config := if namedAbove && !named then top.value? .config else sub.value? .config
      command := commandOf name sub }

end Invocation

end Transclude
