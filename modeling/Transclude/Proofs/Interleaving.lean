import Transclude.Proofs.Coalescing
import Transclude.Proofs.NodeStep
import Transclude.Tree.Schedule

namespace Transclude

namespace Requests

variable {host : Host} {r : Requests} {i : Nat} {location : Path} {state s : RequestState}

structure Honest (host : Host) (r : Requests) : Prop where
  cache : r.cache.Faithful host
  resolved : ∀ {i : Nat} {l : Path} {s : RequestState}, r.tasks[i]? = some ⟨l, s⟩ →
    ∃ context reference, host.resolve context reference = some l
  answered : ∀ {i : Nat} {l : Path} {result : Except Fault SourceFile},
    r.tasks[i]? = some ⟨l, .finished result⟩ → result = (host.read l).map (.ofText l)

theorem honest_empty (host : Host) : Honest host ⟨{}, []⟩ where
  cache := Cache.faithful_empty host
  resolved h := by cases h
  answered h := by cases h

theorem Honest.add (h : Honest host r) {context : Path} {reference : String}
    (hres : host.resolve context reference = some location) : Honest host (r.add location) := by
  have hold {j : Nat} {t : Request} (hj : (r.add location).tasks[j]? = some t) :
      r.tasks[j]? = some t ∨ t = { location } := by
    rw [Requests.add, List.getElem?_append] at hj
    split at hj
    · exact .inl hj
    · exact .inr (List.mem_singleton.1 (List.mem_of_getElem? hj))
  refine ⟨h.cache, fun hj ↦ ?_, fun hj ↦ ?_⟩
  · rcases hold hj with hj | ht
    · exact h.resolved hj
    · cases ht
      exact ⟨context, reference, hres⟩
  · rcases hold hj with hj | ht
    · exact h.answered hj
    · cases ht

theorem Honest.setState (h : Honest host r) (hi : r.tasks[i]? = some ⟨location, state⟩)
    (cache : Cache) (hcache : cache.Faithful host)
    (hs : ∀ result, s = .finished result → result = (host.read location).map (.ofText location)) :
    Honest host ({ r with cache := cache }.setState i s) := by
  refine ⟨hcache, fun hj ↦ ?_, fun hj ↦ ?_⟩
  · rcases getElem?_setState hi hj with ⟨-, ht⟩ | ⟨-, hj⟩
    · cases ht
      exact h.resolved hi
    · exact h.resolved hj
  · rcases getElem?_setState hi hj with ⟨-, ht⟩ | ⟨-, hj⟩
    · obtain ⟨rfl, hstate⟩ := Request.mk.inj ht
      exact hs _ hstate.symm
    · exact h.answered hj

theorem Honest.look (h : Honest host r) (hhost : host.Canonical)
    (hi : r.tasks[i]? = some ⟨location, state⟩) {cache : Cache} (hcache : cache.Faithful host) :
    Honest host (match r.cache.find? location with
      | some file => { r with cache := cache }.setState i (.finished (.ok file))
      | none => r.readOrWait i location) := by
  split
  · next file hfile =>
    -- The file was perhaps read for another request, whose location is written in the same way.
    refine h.setState hi cache hcache fun result hresult ↦ ?_
    obtain ⟨context, reference, hres⟩ := h.resolved hi
    have hrequest : Cache.request host location r.cache = (.ok file, r.cache.hit) := by
      rw [Cache.request, hfile]
    obtain ⟨⟨text, hread, rfl⟩, -⟩ := Cache.request_ok hhost h.cache hres hrequest
    cases hresult
    rw [hread]
    rfl
  · unfold readOrWait
    split
    · exact h.setState hi r.cache h.cache (by simp)
    · exact h.setState hi (r.cache.startRead location) h.cache (by simp)

theorem Honest.complete (h : Honest host r) (hi : r.tasks[i]? = some ⟨location, .reading⟩) :
    Honest host (r.step (.complete i (host.read location))) := by
  rw [step, hi]
  cases hread : host.read location with
  | error fault =>
    refine h.setState hi r.cache h.cache fun result hresult ↦ ?_
    cases hresult
    rw [hread]
    rfl
  | ok text =>
    obtain ⟨context, reference, hres⟩ := h.resolved hi
    refine h.setState hi (r.cache.keep (.ofText location text)) ?_ fun result hresult ↦ ?_
    · intro file hfile
      rcases List.mem_append.1 hfile with hfile | hfile
      · exact h.cache file hfile
      · obtain rfl := List.mem_singleton.1 hfile
        exact ⟨context, reference, text, hres, hread, rfl⟩
    · cases hresult
      rw [hread]
      rfl

theorem Honest.proceed (h : Honest host r) (hhost : host.Canonical) (i : Nat) :
    Honest host (r.proceed host i) := by
  unfold Requests.proceed
  split
  · next location hi =>
    rw [step, hi]
    exact h.look hhost hi h.cache
  · unfold turn
    split
    · next location hi => exact h.complete hi
    · next location hi =>
      rw [step, hi]
      exact h.look hhost hi h.cache
    · exact h

theorem exists_of_answer? {result : Except Fault SourceFile} (h : r.answer? i = some result)
    (hi : (r.tasks.map Request.location)[i]? = some location) :
    r.tasks[i]? = some ⟨location, .finished result⟩ := by
  unfold answer? at h
  split at h
  · next l result' ht =>
    cases h
    rw [List.getElem?_map, ht] at hi
    rw [ht, ← Option.some.inj hi]
  · cases h

theorem moves_proceed (host : Host) (r : Requests) (i : Nat) :
    ∃ found, Moves r found (r.proceed host i) := by
  unfold proceed turn
  split
  · exact ⟨_, moves_step r _⟩
  · split
    · exact ⟨_, moves_step r _⟩
    · exact ⟨_, moves_step r _⟩
    · exact ⟨_, .stay⟩

theorem map_location_proceed (host : Host) (r : Requests) (i : Nat) :
    (r.proceed host i).tasks.map Request.location = r.tasks.map Request.location := by
  obtain ⟨found, hmove⟩ := moves_proceed host r i
  exact map_location_moves hmove

end Requests

/-- How far a directive in a directory has come: all that it has passed and read is as the host has
it. `requested` are the locations of the requests made so far. -/
inductive Stands (host : Host) (requested : List Path) :
    List Path → Path → Directive → Task → Prop
  | fresh {branch : List Path} {context : Path} (d : Directive) :
      Stands host requested branch context d (.fresh d)
  | fetching {branch : List Path} {context location : Path} {d : Directive}
      {condition : Option Condition} {i : Nat} :
      Passes host branch context d condition location → requested[i]? = some location →
      Stands host requested branch context d (.fetching d condition location i)
  | joining {branch : List Path} {context location : Path} {d : Directive}
      {condition : Option Condition} {text : String} {below : List Task} :
      Passes host branch context d condition location → host.read location = .ok text →
      below.length = (Directive.scan text).length →
      (∀ (i : Nat) (d' : Directive) (t : Task), (Directive.scan text)[i]? = some d' →
        below[i]? = some t →
        Stands host requested (branch ++ [location]) location.context d' t) →
      Stands host requested branch context d
        (.joining d condition location (.ofText location text) below)

structure Underway (host : Host) (r : Requests) (branch : List Path) (context : Path)
    (ds : List Directive) (tasks : List Task) : Prop where
  length : tasks.length = ds.length
  stands : ∀ (i : Nat) (d : Directive) (t : Task), ds[i]? = some d → tasks[i]? = some t →
    Stands host (r.tasks.map Request.location) branch context d t

def Requests.Precedes (r r' : Requests) : Prop :=
  r.tasks.map Request.location <+: r'.tasks.map Request.location

section

variable {host : Host} {r r' : Requests} {branch : List Path} {context location : Path}
  {file : SourceFile} {d : Directive} {ds : List Directive} {t t' : Task} {tasks tasks' : List Task}
  {e : IncludeError} {place : List Nat}

theorem Stands.mono {requested requested' : List Path}
    (h : Stands host requested branch context d t) (hle : requested <+: requested') :
    Stands host requested' branch context d t := by
  obtain ⟨more, rfl⟩ := hle
  induction h with
  | fresh d => exact .fresh d
  | fetching hpasses hi =>
    refine .fetching hpasses ?_
    rw [List.getElem?_append_left (List.getElem?_eq_some_iff.1 hi).1, hi]
  | joining hpasses hread hlength _ ih =>
    exact .joining hpasses hread hlength fun i d' t hd ht ↦ ih i d' t hd ht

theorem underway_ofFile (host : Host) (r : Requests) (branch : List Path) (context : Path)
    (file : SourceFile) :
    Underway host r branch context (Directive.scan file.text) (Task.ofFile file) where
  length := by simp [Task.ofFile]
  stands i d t hd ht := by
    rw [Task.ofFile, List.getElem?_map, hd] at ht
    cases ht
    exact .fresh d

theorem Underway.set (h : Underway host r branch context ds tasks) (hle : r.Precedes r') {i : Nat}
    (hi : ds[i]? = some d) (ht : Stands host (r'.tasks.map Request.location) branch context d t) :
    Underway host r' branch context ds (tasks.set i t) where
  length := by rw [List.length_set, h.length]
  stands j d' t' hd' ht' := by
    rw [List.getElem?_set] at ht'
    split at ht'
    · next hij =>
      subst hij
      split at ht'
      · cases ht'
        obtain rfl := Option.some.inj (hi.symm.trans hd')
        exact ht
      · cases ht'
    · exact (h.stands j d' t' hd' ht').mono hle

theorem Stands.move (hhost : host.Canonical) (hr : r.Honest host)
    (h : Stands host (r.tasks.map Request.location) branch file.context d t)
    (hmove : t.move host branch file r = .ok (r', t')) :
    r'.Honest host ∧ r.Precedes r' ∧
      Stands host (r'.tasks.map Request.location) branch file.context d t' := by
  cases h with
  | fresh =>
    obtain ⟨⟨condition, location⟩, hprepare, hmoved⟩ := map_ok hmove
    cases hmoved
    have hpasses := Build.prepare_ok hprepare
    have hadded : (r.add location).tasks.map Request.location =
        r.tasks.map Request.location ++ [location] := by simp [Requests.add]
    refine ⟨hr.add hpasses.resolves, ?_, .fetching hpasses ?_⟩
    · rw [Requests.Precedes, hadded]
      exact List.prefix_append _ _
    · rw [hadded, List.getElem?_append_right (by simp)]
      simp
  | @fetching _ _ location _ condition i hpasses hi =>
    rw [Task.move] at hmove
    split at hmove
    · cases hmove
      have hlocations := Requests.map_location_proceed host r i
      refine ⟨hr.proceed hhost i, ?_, .fetching hpasses ?_⟩
      · rw [Requests.Precedes, hlocations]
      · rw [hlocations, hi]
    · next included hanswer =>
      cases hmove
      refine ⟨hr, List.prefix_refl _, ?_⟩
      obtain ⟨text, hread, rfl⟩ :=
        map_ok (hr.answered (Requests.exists_of_answer? hanswer hi)).symm
      have hbelow := underway_ofFile host r (branch ++ [location]) location.context
        (.ofText location text)
      exact .joining hpasses hread hbelow.length hbelow.stands
    · cases hmove
  | joining hpasses hread hlength hbelow =>
    cases hmove
    exact ⟨hr, List.prefix_refl _, .joining hpasses hread hlength hbelow⟩

theorem Stands.fails (hr : r.Honest host)
    (h : Stands host (r.tasks.map Request.location) branch file.context d t)
    (hmove : t.move host branch file r = .error e) : Fails host branch file d e := by
  cases h with
  | fresh => exact Build.prepare_error (eq_error_of_map hmove)
  | @fetching _ _ location _ condition i hpasses hi =>
    rw [Task.move] at hmove
    split at hmove
    · cases hmove
    · cases hmove
    · next fault hanswer =>
      cases hmove
      have hread : host.read location = .error fault :=
        eq_error_of_map (hr.answered (Requests.exists_of_answer? hanswer hi)).symm
      exact hpasses.fails hread
  | joining => cases hmove

theorem Underway.directive (h : Underway host r branch context ds tasks) {i : Nat}
    (hi : tasks[i]? = some t) : ∃ d, ds[i]? = some d := by
  obtain ⟨hlt, -⟩ := List.getElem?_eq_some_iff.1 hi
  rw [h.length] at hlt
  exact ⟨_, List.getElem?_eq_getElem hlt⟩

theorem Underway.advance (hhost : host.Canonical) (hr : r.Honest host) {branch : List Path}
    {file : SourceFile} {tasks tasks' : List Task} {place : List Nat}
    (h : Underway host r branch file.context (Directive.scan file.text) tasks)
    (hadvance : Task.advance host branch file place (r, tasks) = .ok (r', tasks')) :
    r'.Honest host ∧ r.Precedes r' ∧
      Underway host r' branch file.context (Directive.scan file.text) tasks' := by
  match place with
  | [] =>
    cases hadvance
    exact ⟨hr, List.prefix_refl _, h⟩
  | [i] =>
    rw [Task.advance] at hadvance
    split at hadvance
    · next t ht =>
      obtain ⟨⟨r₁, t₁⟩, hmove, hstate⟩ := map_ok hadvance
      cases hstate
      obtain ⟨d, hd⟩ := h.directive ht
      obtain ⟨hr', hle, hstands⟩ := (h.stands i d t hd ht).move hhost hr hmove
      exact ⟨hr', hle, h.set hle hd hstands⟩
    · cases hadvance
      exact ⟨hr, List.prefix_refl _, h⟩
  | i :: j :: place =>
    rw [Task.advance] at hadvance
    split at hadvance
    · next d condition location included below ht =>
      obtain ⟨⟨r₁, below₁⟩, hbelow₁, hstate⟩ := map_ok hadvance
      cases hstate
      obtain ⟨d', hd⟩ := h.directive ht
      cases h.stands i d' _ hd ht with
      | joining hpasses hread hlength hbelow =>
        -- The tasks below are underway in their turn, on a branch that is longer by one.
        obtain ⟨hr', hle, hunderway⟩ := Underway.advance hhost hr ⟨hlength, hbelow⟩ hbelow₁
        exact ⟨hr', hle, h.set hle hd (.joining hpasses hread hunderway.length hunderway.stands)⟩
    · cases hadvance
      exact ⟨hr, List.prefix_refl _, h⟩

theorem Underway.failsAt (hr : r.Honest host) {branch : List Path} {file : SourceFile}
    {tasks : List Task} {place : List Nat}
    (h : Underway host r branch file.context (Directive.scan file.text) tasks)
    (hadvance : Task.advance host branch file place (r, tasks) = .error e) :
    FailsAt host branch file place e := by
  match place with
  | [] => cases hadvance
  | [i] =>
    rw [Task.advance] at hadvance
    split at hadvance
    · next t ht =>
      obtain ⟨d, hd⟩ := h.directive ht
      have hfails := (h.stands i d t hd ht).fails hr (eq_error_of_map hadvance)
      exact ⟨branch, file, d, .here hd, hfails⟩
    · cases hadvance
  | i :: j :: place =>
    rw [Task.advance] at hadvance
    split at hadvance
    · next d condition location included below ht =>
      obtain ⟨d', hd⟩ := h.directive ht
      cases h.stands i d' _ hd ht with
      | joining hpasses hread hlength hbelow =>
        have hfails := Underway.failsAt hr ⟨hlength, hbelow⟩ (eq_error_of_map hadvance)
        exact hfails.enter hd (hpasses.enters hread)
    · cases hadvance

theorem Underway.run (hhost : host.Canonical) (hr : r.Honest host)
    (h : Underway host r branch file.context (Directive.scan file.text) tasks)
    {schedule : List (List Nat)}
    (hrun : Task.run host branch file (r, tasks) schedule = .ok (r', tasks')) :
    Underway host r' branch file.context (Directive.scan file.text) tasks' := by
  induction schedule generalizing r tasks with
  | nil =>
    cases hrun
    exact h
  | cons place schedule ih =>
    rw [Task.run, List.foldlM_cons] at hrun
    obtain ⟨⟨r₁, tasks₁⟩, hadvance, hrun⟩ := bind_ok hrun
    obtain ⟨hr₁, -, h₁⟩ := h.advance hhost hr hadvance
    exact ih hr₁ h₁ hrun

theorem Underway.run_fails (hhost : host.Canonical) (hr : r.Honest host)
    (h : Underway host r branch file.context (Directive.scan file.text) tasks)
    {schedule : List (List Nat)}
    (hrun : Task.run host branch file (r, tasks) schedule = .error e) :
    ∃ place, FailsAt host branch file place e := by
  induction schedule generalizing r tasks with
  | nil => cases hrun
  | cons place schedule ih =>
    rw [Task.run, List.foldlM_cons] at hrun
    rcases bind_error hrun with hadvance | ⟨⟨r₁, tasks₁⟩, hadvance, hrun⟩
    · exact ⟨place, h.failsAt hr hadvance⟩
    · obtain ⟨hr₁, -, h₁⟩ := h.advance hhost hr hadvance
      exact ih hr₁ h₁ hrun

theorem Underway.cons (h : Underway host r branch context ds (t :: tasks)) :
    ∃ d ds', ds = d :: ds' ∧ Stands host (r.tasks.map Request.location) branch context d t ∧
      Underway host r branch context ds' tasks := by
  cases ds with
  | nil => cases h.length
  | cons d ds =>
    refine ⟨d, ds, rfl, h.stands 0 d t rfl rfl, Nat.succ.inj h.length, ?_⟩
    intro i d' t' hd ht
    exact h.stands (i + 1) d' t' hd ht

theorem Underway.grown {branch : List Path} {context : Path} {ds : List Directive}
    {tasks : List Task} {nodes : List Node} (h : Underway host r branch context ds tasks)
    (hnodes : Task.nodes? tasks = some nodes) : Grown host branch context ds nodes := by
  match tasks with
  | [] =>
    cases hnodes
    obtain rfl := List.length_eq_zero_iff.1 h.length.symm
    exact .nil branch context
  | t :: rest =>
    obtain ⟨d, ds', rfl, hstands, hrest⟩ := h.cons
    rw [Task.nodes?] at hnodes
    obtain ⟨n, hn, hnodes⟩ := Option.bind_eq_some_iff.1 hnodes
    obtain ⟨ns, hns, hnodes⟩ := Option.bind_eq_some_iff.1 hnodes
    cases hnodes
    cases hstands with
    | fresh | fetching => cases hn
    | joining hpasses hread hlength hbelow =>
      obtain ⟨below, hbelow', rfl⟩ := Option.map_eq_some_iff.1 hn
      have hgrown := Underway.grown ⟨hlength, hbelow⟩ hbelow'
      exact .cons hpasses.compiled hpasses.resolves hpasses.unvisited hread hgrown
        (hrest.grown hns)
termination_by sizeOf tasks

end

end Transclude
