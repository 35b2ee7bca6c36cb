import Transclude.Proofs.Growth

namespace Transclude

def Directive.Compiles (d : Directive) : Prop :=
  ∀ expression ∈ d.condition, ∃ c, Condition.compile expression = .ok c

/-- Nothing keeps a directive from including the text at a location. `branch` holds the locations
from the root to the file of the directive. -/
structure Enters (host : Host) (branch : List Path) (file : SourceFile) (d : Directive)
    (location : Path) (text : String) : Prop where
  compiles : d.Compiles
  resolves : host.resolve file.context d.reference = some location
  unvisited : ¬branch.any (·.same location)
  reads : host.read location = .ok text

/-- The error of a directive that fails. Of several causes the earlier one counts. -/
inductive Fails (host : Host) (branch : List Path) (file : SourceFile) (d : Directive) :
    IncludeError → Prop
  | condition {expression : String} {cause : ConditionError} :
      d.condition = some expression → Condition.compile expression = .error cause →
      Fails host branch file d (.condition expression d.reference file.location cause)
  | unresolved :
      d.Compiles → host.resolve file.context d.reference = none →
      Fails host branch file d
        (.unresolved d.reference file.location (host.suggest file.context d.reference))
  | circular {location : Path} :
      d.Compiles → host.resolve file.context d.reference = some location →
      branch.any (·.same location) →
      Fails host branch file d (.circular d.reference file.location location (branch ++ [location]))
  | unreadable {location : Path} {fault : Fault} :
      d.Compiles → host.resolve file.context d.reference = some location →
      ¬branch.any (·.same location) → host.read location = .error fault →
      Fails host branch file d (.unreadable location file.location
        ⟨.read, location, "template inclusion", fault, [file.location]⟩)

/-- The directive at a place below a file, with the file it stands in and the branch that leads
there. All directives on the way are entered. -/
inductive Occurs (host : Host) :
    List Path → SourceFile → List Nat → List Path → SourceFile → Directive → Prop
  | here {branch : List Path} {file : SourceFile} {i : Nat} {d : Directive} :
      (Directive.scan file.text)[i]? = some d → Occurs host branch file [i] branch file d
  | deeper {branch branch' : List Path} {file file' : SourceFile} {i : Nat} {place : List Nat}
      {d d' : Directive} {location : Path} {text : String} :
      (Directive.scan file.text)[i]? = some d → Enters host branch file d location text →
      Occurs host (branch ++ [location]) (.ofText location text) place branch' file' d' →
      Occurs host branch file (i :: place) branch' file' d'

def FailsAt (host : Host) (branch : List Path) (file : SourceFile) (place : List Nat)
    (e : IncludeError) : Prop :=
  ∃ branch' file' d, Occurs host branch file place branch' file' d ∧ Fails host branch' file' d e

/-- The directive at a place below a file fails, and none at an earlier place does. -/
def FailsFirst (host : Host) (branch : List Path) (file : SourceFile) (place : List Nat)
    (e : IncludeError) : Prop :=
  FailsAt host branch file place e ∧
    ∀ place' < place, ∀ e', ¬FailsAt host branch file place' e'

variable {host : Host} {branch branch' : List Path} {file file' : SourceFile}
  {d d' : Directive} {location : Path} {text : String} {place : List Nat} {e e' : IncludeError}

theorem Directive.compiles_of_map {condition : Option Condition}
    (h : d.condition.map Condition.compile = condition.map .ok) : d.Compiles := by
  intro expression hexpression
  rw [Option.mem_def.1 hexpression] at h
  cases condition with
  | none => cases h
  | some c => exact ⟨c, Option.some.inj h⟩

theorem Directive.Compiles.ne_error (h : d.Compiles) {expression : String} {cause : ConditionError}
    (hd : d.condition = some expression) : Condition.compile expression ≠ .error cause := by
  obtain ⟨c, hc⟩ := h expression hd
  simp [hc]

theorem Enters.not_fails (h : Enters host branch file d location text) :
    ¬Fails host branch file d e := by
  intro hfails
  cases hfails with
  | condition hd hcompile => exact h.compiles.ne_error hd hcompile
  | unresolved _ hres => simp [h.resolves] at hres
  | circular _ hres hvisited =>
    obtain rfl := Option.some.inj (h.resolves.symm.trans hres)
    exact h.unvisited hvisited
  | unreadable _ hres _ hread =>
    obtain rfl := Option.some.inj (h.resolves.symm.trans hres)
    cases h.reads.symm.trans hread

theorem Enters.unique {location' : Path} {text' : String}
    (h : Enters host branch file d location text)
    (h' : Enters host branch file d location' text') : location' = location ∧ text' = text := by
  obtain rfl := Option.some.inj (h.resolves.symm.trans h'.resolves)
  exact ⟨rfl, Except.ok.inj (h'.reads.symm.trans h.reads)⟩

theorem Fails.unique (h : Fails host branch file d e) (h' : Fails host branch file d e') :
    e = e' := by
  cases h with
  | condition hd hcompile =>
    cases h' with
    | condition hd' hcompile' =>
      obtain rfl := Option.some.inj (hd.symm.trans hd')
      rw [Except.error.inj (hcompile.symm.trans hcompile')]
    | unresolved hc | circular hc | unreadable hc => exact absurd hcompile (hc.ne_error hd)
  | unresolved hc hres =>
    cases h' with
    | condition hd hcompile => exact absurd hcompile (hc.ne_error hd)
    | unresolved => rfl
    | circular _ hres' | unreadable _ hres' => simp [hres] at hres'
  | circular hc hres hvisited =>
    cases h' with
    | condition hd hcompile => exact absurd hcompile (hc.ne_error hd)
    | unresolved _ hres' => simp [hres] at hres'
    | circular _ hres' =>
      obtain rfl := Option.some.inj (hres.symm.trans hres')
      rfl
    | unreadable _ hres' hnew =>
      obtain rfl := Option.some.inj (hres.symm.trans hres')
      exact absurd hvisited hnew
  | unreadable hc hres hnew hread =>
    cases h' with
    | condition hd hcompile => exact absurd hcompile (hc.ne_error hd)
    | unresolved _ hres' => simp [hres] at hres'
    | circular _ hres' hvisited =>
      obtain rfl := Option.some.inj (hres.symm.trans hres')
      exact absurd hvisited hnew
    | unreadable _ hres' _ hread' =>
      obtain rfl := Option.some.inj (hres.symm.trans hres')
      rw [Except.error.inj (hread.symm.trans hread')]

theorem Occurs.unique {branch₁ branch₂ : List Path} {file₁ file₂ : SourceFile}
    {d₁ d₂ : Directive} (h : Occurs host branch file place branch₁ file₁ d₁)
    (h' : Occurs host branch file place branch₂ file₂ d₂) :
    branch₁ = branch₂ ∧ file₁ = file₂ ∧ d₁ = d₂ := by
  induction h with
  | here hd =>
    cases h' with
    | here hd' => exact ⟨rfl, rfl, Option.some.inj (hd.symm.trans hd')⟩
    | deeper _ _ h' => cases h'
  | deeper hd henters h ih =>
    cases h' with
    | here => cases h
    | deeper hd' henters' h' =>
      obtain rfl := Option.some.inj (hd.symm.trans hd')
      obtain ⟨rfl, rfl⟩ := henters.unique henters'
      exact ih h'

theorem FailsAt.unique (h : FailsAt host branch file place e)
    (h' : FailsAt host branch file place e') : e = e' := by
  obtain ⟨_, _, _, hoccurs, hfails⟩ := h
  obtain ⟨_, _, _, hoccurs', hfails'⟩ := h'
  obtain ⟨rfl, rfl, rfl⟩ := hoccurs.unique hoccurs'
  exact hfails.unique hfails'

theorem FailsFirst.unique {place' : List Nat} (h : FailsFirst host branch file place e)
    (h' : FailsFirst host branch file place' e') : e = e' := by
  have hlt : ¬place < place' := fun hlt ↦ h'.2 place hlt e h.1
  have hgt : ¬place' < place := fun hgt ↦ h.2 place' hgt e' h'.1
  obtain rfl : place = place' := Std.Trichotomous.trichotomous place place' hlt hgt
  exact h.1.unique h'.1

theorem not_failsAt_nil : ¬FailsAt host branch file [] e := by
  rintro ⟨_, _, _, hoccurs, -⟩
  cases hoccurs

theorem FailsAt.below {i : Nat} (h : FailsAt host branch file (i :: place) e)
    (hd : (Directive.scan file.text)[i]? = some d)
    (henters : Enters host branch file d location text) :
    FailsAt host (branch ++ [location]) (.ofText location text) place e := by
  obtain ⟨branch', file', d', hoccurs, hfails⟩ := h
  cases hoccurs with
  | here hd' =>
    obtain rfl := Option.some.inj (hd.symm.trans hd')
    exact absurd hfails henters.not_fails
  | deeper hd' henters' hoccurs =>
    obtain rfl := Option.some.inj (hd.symm.trans hd')
    obtain ⟨rfl, rfl⟩ := henters.unique henters'
    exact ⟨branch', file', d', hoccurs, hfails⟩

theorem FailsAt.enter {i : Nat} (hd : (Directive.scan file.text)[i]? = some d)
    (henters : Enters host branch file d location text)
    (h : FailsAt host (branch ++ [location]) (.ofText location text) place e) :
    FailsAt host branch file (i :: place) e := by
  obtain ⟨branch', file', d', hoccurs, hfails⟩ := h
  exact ⟨branch', file', d', .deeper hd henters hoccurs, hfails⟩

theorem Grown.enters {ds : List Directive} {nodes : List Node} {i : Nat}
    (h : Grown host branch file.context ds nodes) (hd : ds[i]? = some d) :
    ∃ location text below, Enters host branch file d location text ∧
      Grown host (branch ++ [location]) location.context (Directive.scan text) below := by
  induction ds generalizing nodes i with
  | nil => simp at hd
  | cons d₁ ds ih =>
    cases h with
    | @cons _ _ location _ _ condition text below _ hcompile hres hnew hread hbelow hrest =>
      cases i with
      | zero =>
        obtain rfl : d₁ = d := by simpa using hd
        have hcompiles := Directive.compiles_of_map hcompile
        exact ⟨location, text, below, ⟨hcompiles, hres, hnew, hread⟩, hbelow⟩
      | succ i => exact ih hrest (by simpa using hd)

theorem Grown.not_failsAt {nodes : List Node}
    (h : Grown host branch file.context (Directive.scan file.text) nodes) :
    ¬FailsAt host branch file place e := by
  rintro ⟨branch', file', d, hoccurs, hfails⟩
  induction hoccurs generalizing nodes with
  | here hd =>
    obtain ⟨_, _, _, henters, -⟩ := h.enters hd
    exact henters.not_fails hfails
  | deeper hd henters _ ih =>
    obtain ⟨_, _, below, henters', hbelow⟩ := h.enters hd
    obtain ⟨rfl, rfl⟩ := henters.unique henters'
    exact ih hbelow hfails

namespace Build

variable {c c' : Cache}

theorem bind_error {α β : Type} {x : BuildM α} {f : α → BuildM β}
    (h : (x >>= f) c = (.error e, c')) :
    x c = (.error e, c') ∨ ∃ a c₁, x c = (.ok a, c₁) ∧ f a c₁ = (.error e, c') := by
  cases hx : x c with
  | mk result c₁ =>
    change ExceptT.bindCont f (x c).1 (x c).2 = _ at h
    rw [hx] at h
    cases result with
    | error e₁ =>
      cases h
      exact .inl rfl
    | ok a => exact .inr ⟨a, c₁, rfl, h⟩

theorem mapM_error {α β : Type} {I : Cache → Prop} {f : α → BuildM β} {as : List α}
    (hI : ∀ {a b c c'}, I c → f a c = (.ok b, c') → I c') (hc : I c)
    (h : as.mapM f c = (.error e, c')) :
    ∃ (i : Nat) (a : α) (c₁ : Cache), as[i]? = some a ∧ I c₁ ∧ f a c₁ = (.error e, c') ∧
      ∀ j < i, ∃ a b c₁ c₂, as[j]? = some a ∧ I c₁ ∧ f a c₁ = (.ok b, c₂) := by
  induction as generalizing c with
  | nil =>
    rw [List.mapM_nil] at h
    cases h
  | cons a as ih =>
    rw [List.mapM_cons] at h
    rcases bind_error h with ha | ⟨b, c₁, hb, h⟩
    · exact ⟨0, a, c, rfl, hc, ha, fun j hj ↦ absurd hj (Nat.not_lt_zero j)⟩
    · rcases bind_error h with h | ⟨bs, c₂, -, h⟩
      · obtain ⟨i, a', c₂, ha', hc₂, herror, hbefore⟩ := ih (hI hc hb) h
        refine ⟨i + 1, a', c₂, ha', hc₂, herror, fun j hj ↦ ?_⟩
        cases j with
        | zero => exact ⟨a, b, c, c₁, rfl, hc, hb⟩
        | succ j => exact hbefore j (Nat.lt_of_succ_lt_succ hj)
      · cases h

theorem compileCondition_error {referrer : Path} (h : compileCondition referrer d = .error e) :
    ∃ expression cause, d.condition = some expression ∧
      Condition.compile expression = .error cause ∧
      e = .condition expression d.reference referrer cause := by
  unfold compileCondition at h
  cases hd : d.condition with
  | none =>
    rw [hd] at h
    cases h
  | some expression =>
    simp only [hd] at h
    cases hcompile : Condition.compile expression with
    | ok cond =>
      rw [hcompile] at h
      cases h
    | error cause =>
      rw [hcompile] at h
      cases h
      exact ⟨expression, cause, rfl, hcompile, rfl⟩

end Build

end Transclude
