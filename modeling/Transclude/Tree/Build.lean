import Transclude.Result
import Transclude.Tree.Basic

namespace Transclude

inductive IncludeError where
  | unresolved (reference : String) (referrer : Path) (suggestions : List String)
  | circular (reference : String) (referrer location : Path) (chain : List Path)
  | unreadable (location referrer : Path) (failure : FileFailure)
  | condition (expression reference : String) (referrer : Path) (cause : ConditionError)
  deriving DecidableEq

abbrev BuildM := ExceptT IncludeError (StateM Cache)

/-- A directive passes all that comes before its file is asked for. -/
structure Passes (host : Host) (branch : List Path) (context : Path) (d : Directive)
    (condition : Option Condition) (location : Path) : Prop where
  compiled : d.condition.map Condition.compile = condition.map .ok
  resolves : host.resolve context d.reference = some location
  unvisited : ¬branch.any (·.same location)

namespace Build

def unvisited (host : Host) (branch : List Path) : List Path :=
  host.locations.filter fun l ↦ !branch.any (·.same l)

theorem length_filter_lt {α : Type} {p q : α → Bool} {l : List α} {a : α}
    (hpq : ∀ x, q x → p x) (ha : a ∈ l) (hp : p a) (hq : ¬q a) :
    (l.filter q).length < (l.filter p).length := by
  induction l with
  | nil => cases ha
  | cons b l ih =>
    have hle : (l.filter q).length ≤ (l.filter p).length := by
      simpa [← List.countP_eq_length_filter] using
        List.countP_mono_left fun x _ hx ↦ hpq x hx
    rcases List.mem_cons.1 ha with rfl | hb
    · simp [hp, hq]
      omega
    · have hlt := ih hb
      by_cases hqb : q b
      · simp [hqb, hpq b hqb, hlt]
      · by_cases hpb : p b <;> simp [hqb, hpb] <;> omega

theorem unvisited_lt {host : Host} {branch : List Path} {location : Path}
    (hmem : location ∈ host.locations) (hnew : ¬branch.any (·.same location)) :
    (unvisited host (branch ++ [location])).length < (unvisited host branch).length := by
  refine length_filter_lt ?_ hmem ?_ ?_
  · intro l hl
    simp_all
  · simpa using hnew
  · simp

def compileCondition (referrer : Path) (d : Directive) : Except IncludeError (Option Condition) :=
  match d.condition with
  | none => pure none
  | some expression =>
    match Condition.compile expression with
    | .ok c => pure (some c)
    | .error cause => throw (.condition expression d.reference referrer cause)

/-- The condition and the location of a directive whose file can be asked for. `branch` holds the
locations from the root to the file of the directive. -/
def prepare (host : Host) (branch : List Path) (file : SourceFile) (d : Directive) :
    Except IncludeError (Option Condition × Path) := do
  let condition ← compileCondition file.location d
  match host.resolve file.context d.reference with
  | none => throw (.unresolved d.reference file.location (host.suggest file.context d.reference))
  | some location =>
    if branch.any (·.same location) then
      throw (.circular d.reference file.location location (branch ++ [location]))
    else pure (condition, location)

variable {host : Host} {branch : List Path} {file : SourceFile} {d : Directive}
  {condition : Option Condition} {location : Path}

theorem compileCondition_ok {referrer : Path} (h : compileCondition referrer d = .ok condition) :
    d.condition.map Condition.compile = condition.map .ok := by
  unfold compileCondition at h
  cases hd : d.condition with
  | none =>
    rw [hd] at h
    cases h
    rfl
  | some expression =>
    simp only [hd] at h
    cases hcompile : Condition.compile expression with
    | ok c =>
      rw [hcompile] at h
      cases h
      exact congrArg some hcompile
    | error cause =>
      rw [hcompile] at h
      cases h

theorem prepare_ok (h : prepare host branch file d = .ok (condition, location)) :
    Passes host branch file.context d condition location := by
  obtain ⟨compiled, hcompiled, h⟩ := bind_ok h
  cases hres : host.resolve file.context d.reference with
  | none =>
    rw [hres] at h
    cases h
  | some place =>
    by_cases hvisited : branch.any (·.same place)
    · simp only [hres, hvisited, if_true] at h
      cases h
    · simp only [hres, hvisited] at h
      cases h
      exact ⟨compileCondition_ok hcompiled, hres, hvisited⟩

theorem unvisited_lt_of_passes {context : Path}
    (h : Passes host branch context d condition location) :
    (unvisited host (branch ++ [location])).length < (unvisited host branch).length :=
  unvisited_lt (host.resolve_mem h.resolves) h.unvisited

def readFile (host : Host) (referrer location : Path) : BuildM SourceFile := do
  match ← (modifyGet (Cache.request host location) : StateM Cache _) with
  | .ok file => pure file
  | .error fault =>
    throw (.unreadable location referrer
      ⟨.read, location, "template inclusion", fault, [referrer]⟩)

mutual

def node (host : Host) (branch : List Path) (file : SourceFile) (d : Directive) : BuildM Node :=
  match _hprepare : prepare host branch file d with
  | .error e => throw e
  | .ok (condition, location) => do
    let included ← readFile host file.location location
    let below ← children host (branch ++ [location]) included
    pure (.mk d condition included below)
termination_by 2 * (unvisited host branch).length
decreasing_by
  have hlt := unvisited_lt_of_passes (prepare_ok _hprepare)
  omega

def children (host : Host) (branch : List Path) (file : SourceFile) : BuildM (List Node) :=
  (Directive.scan file.text).mapM fun d ↦ node host branch file d
termination_by 2 * (unvisited host branch).length + 1

end

end Build

/-- The include tree of a root file, and the cache after the build. The first failure in depth-first
order ends the build. -/
def IncludeTree.build (host : Host) (root : SourceFile) (cache : Cache) :
    Except IncludeError IncludeTree × Cache :=
  match Build.children host [root.location] root cache with
  | (.ok children, cache) => (.ok ⟨root, children⟩, cache)
  | (.error e, cache) => (.error e, cache)

end Transclude
