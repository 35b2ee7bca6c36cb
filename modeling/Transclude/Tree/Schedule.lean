import Transclude.Cache.Requests
import Transclude.Tree.Build

namespace Transclude

namespace Requests

def add (r : Requests) (location : Path) : Requests :=
  { r with tasks := r.tasks ++ [{ location }] }

def proceed (host : Host) (r : Requests) (task : Nat) : Requests :=
  match r.tasks[task]? with
  | some ⟨_, .idle⟩ => r.step (.ask task)
  | _ => r.turn host task

def answer? (r : Requests) (task : Nat) : Option (Except Fault SourceFile) :=
  match r.tasks[task]? with
  | some ⟨_, .finished result⟩ => some result
  | _ => none

end Requests

/-- A directive at work: not yet looked at, waiting for the file that it has requested, or with its
file and the directives in that at work. -/
inductive Task where
  | fresh (directive : Directive)
  | fetching (directive : Directive) (condition : Option Condition) (location : Path)
      (request : Nat)
  | joining (directive : Directive) (condition : Option Condition) (location : Path)
      (file : SourceFile) (below : List Task)

namespace Task

def ofFile (file : SourceFile) : List Task := (Directive.scan file.text).map fresh

def move (host : Host) (branch : List Path) (file : SourceFile) (r : Requests) :
    Task → Except IncludeError (Requests × Task)
  | .fresh d =>
    (Build.prepare host branch file d).map fun (condition, location) ↦
      (r.add location, .fetching d condition location r.tasks.length)
  | .fetching d condition location i =>
    match r.answer? i with
    | none => .ok (r.proceed host i, .fetching d condition location i)
    | some (.ok included) => .ok (r, .joining d condition location included (ofFile included))
    | some (.error fault) =>
      .error (.unreadable location file.location
        ⟨.read, location, "template inclusion", fault, [file.location]⟩)
  | .joining d condition location included below =>
    .ok (r, .joining d condition location included below)

/-- Lets the directive at a place make its next move. Nothing happens at a place that is not there
yet. -/
def advance (host : Host) (branch : List Path) (file : SourceFile) :
    List Nat → Requests × List Task → Except IncludeError (Requests × List Task)
  | [], state => .ok state
  | [i], (r, tasks) =>
    match tasks[i]? with
    | some t => (t.move host branch file r).map fun (r, t) ↦ (r, tasks.set i t)
    | none => .ok (r, tasks)
  | i :: j :: place, (r, tasks) =>
    match tasks[i]? with
    | some (.joining d condition location included below) =>
      (advance host (branch ++ [location]) included (j :: place) (r, below)).map
        fun (r, below) ↦ (r, tasks.set i (.joining d condition location included below))
    | _ => .ok (r, tasks)

def run (host : Host) (branch : List Path) (file : SourceFile) (state : Requests × List Task)
    (schedule : List (List Nat)) : Except IncludeError (Requests × List Task) :=
  schedule.foldlM (fun state place ↦ advance host branch file place state) state

mutual

def node? : Task → Option Node
  | .joining d condition _ file below => (nodes? below).map (.mk d condition file)
  | _ => none

def nodes? : List Task → Option (List Node)
  | [] => some []
  | t :: rest => do
    let n ← t.node?
    let ns ← nodes? rest
    pure (n :: ns)

end

mutual

/-- The place below a directive of the first one that is not done. -/
def front? : Task → Option (List Nat)
  | .joining _ _ _ _ below => frontFrom? 0 below
  | _ => some []

def frontFrom? (i : Nat) : List Task → Option (List Nat)
  | [] => none
  | t :: rest =>
    match t.front? with
    | some place => some (i :: place)
    | none => frontFrom? (i + 1) rest

end

/-- Whether every move is that of the first directive, in depth-first order, that is not done. A
failure ends the schedule. -/
def isPrompt (host : Host) (branch : List Path) (file : SourceFile) :
    Requests × List Task → List (List Nat) → Bool
  | _, [] => true
  | state, place :: schedule =>
    frontFrom? 0 state.2 == some place &&
      match advance host branch file place state with
      | .ok state => isPrompt host branch file state schedule
      | .error _ => schedule.isEmpty

def last (host : Host) (branch : List Path) (file : SourceFile) :
    Requests × List Task → List (List Nat) → Requests × List Task
  | state, [] => state
  | state, place :: schedule =>
    match advance host branch file place state with
    | .ok state => last host branch file state schedule
    | .error _ => state

end Task

namespace IncludeTree

/-- What the build of a root has come to after a schedule: a failure, the tree if all is done, and
otherwise nothing yet. -/
def outcome? (host : Host) (root : SourceFile) (schedule : List (List Nat)) :
    Option (Except IncludeError IncludeTree) :=
  match Task.run host [root.location] root (⟨{}, []⟩, Task.ofFile root) schedule with
  | .error e => some (.error e)
  | .ok (_, tasks) => (Task.nodes? tasks).map fun nodes ↦ .ok ⟨root, nodes⟩

def cacheAfter (host : Host) (root : SourceFile) (schedule : List (List Nat)) : Cache :=
  (Task.last host [root.location] root (⟨{}, []⟩, Task.ofFile root) schedule).1.cache

/-- The schedules of a runtime that takes up the directives in their order and suspends none that
could go on, so that a directive moves only after all before it are done. A runtime may well do
otherwise: a read can take its time, and a budget of moves can be used up. -/
def Prompt (host : Host) (root : SourceFile) (schedule : List (List Nat)) : Prop :=
  Task.isPrompt host [root.location] root (⟨{}, []⟩, Task.ofFile root) schedule

instance (host : Host) (root : SourceFile) (schedule : List (List Nat)) :
    Decidable (Prompt host root schedule) :=
  inferInstanceAs (Decidable (_ = true))

end IncludeTree

end Transclude
