import Transclude.Cache.Basic

namespace Transclude

inductive RequestState where
  | idle
  | waiting
  | reading
  | finished (result : Except Fault SourceFile)

structure Request where
  location : Path
  state : RequestState := .idle

namespace Request

def isReading (r : Request) (location : Path) : Bool :=
  match r.state with
  | .reading => r.location.same location
  | _ => false

end Request

structure Requests where
  cache : Cache
  tasks : List Request

/-- What can happen to a request, given by its position: it is made, its read ends, or it wakes
after the read that it waited for has ended. -/
inductive RequestEvent where
  | ask (task : Nat)
  | complete (task : Nat) (result : Except Fault String)
  | wake (task : Nat)

namespace Requests

def setState (r : Requests) (task : Nat) (state : RequestState) : Requests :=
  { r with tasks := r.tasks.modify task fun t ↦ { t with state } }

def inFlight (r : Requests) (location : Path) : Bool := r.tasks.any (·.isReading location)

def readOrWait (r : Requests) (task : Nat) (location : Path) : Requests :=
  if r.inFlight location then r.setState task .waiting
  else { r with cache := r.cache.startRead location }.setState task .reading

/-- One event; an event that does not apply to its request changes nothing. -/
def step (r : Requests) (event : RequestEvent) : Requests :=
  match event with
  | .ask i =>
    match r.tasks[i]? with
    | some ⟨location, .idle⟩ =>
      match r.cache.find? location with
      | some file => { r with cache := r.cache.hit }.setState i (.finished (.ok file))
      | none => r.readOrWait i location
    | _ => r
  | .complete i result =>
    match r.tasks[i]? with
    | some ⟨location, .reading⟩ =>
      match result with
      | .ok text =>
        let file := SourceFile.ofText location text
        { r with cache := r.cache.keep file }.setState i (.finished (.ok file))
      | .error fault => r.setState i (.finished (.error fault))
    | _ => r
  | .wake i =>
    match r.tasks[i]? with
    | some ⟨location, .waiting⟩ =>
      match r.cache.find? location with
      | some file => r.setState i (.finished (.ok file))
      | none => r.readOrWait i location
    | _ => r

def run (r : Requests) (events : List RequestEvent) : Requests := events.foldl step r

/-- What a request does in a turn: a read that was under way ends, and a request that waits looks
whether it still has to. -/
def turn (host : Host) (r : Requests) (task : Nat) : Requests :=
  match r.tasks[task]? with
  | some ⟨location, .reading⟩ => r.step (.complete task (host.read location))
  | some ⟨_, .waiting⟩ => r.step (.wake task)
  | _ => r

/-- One turn of every request, in order. All reads take the same time, so those under way end
together, and the reads that failures set off end in the next round. -/
def round (host : Host) (r : Requests) : Requests :=
  (List.range r.tasks.length).foldl (turn host) r

def rounds (host : Host) : Nat → Requests → Requests
  | 0, r => r
  | n + 1, r => rounds host n (r.round host)

/-- Makes all requests before any read ends. In every round some request gets its answer. -/
def overlap (host : Host) (cache : Cache) (locations : List Path) : Requests :=
  let start : Requests := ⟨cache, locations.map fun l ↦ { location := l }⟩
  rounds host locations.length (start.run ((List.range locations.length).map .ask))

def inTurn (host : Host) (cache : Cache) (locations : List Path) : Requests :=
  let start : Requests := ⟨cache, locations.map fun l ↦ { location := l }⟩
  start.run <| (List.range locations.length).flatMap fun i ↦
    match locations[i]? with
    | some l => [.ask i, .complete i (host.read l)]
    | none => []

def results (r : Requests) : List (Option (Except Fault SourceFile)) :=
  r.tasks.map fun t ↦
    match t.state with
    | .finished result => some result
    | _ => none

end Requests

end Transclude
