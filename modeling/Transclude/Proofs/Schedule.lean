import Transclude.Proofs.IncludeGraph
import Transclude.Proofs.Interleaving

namespace Transclude

namespace Requests

variable {host : Host} {c : Cache} {requests : List Request} {location : Path}
  {s : RequestState}

def Settled (requests : List Request) : Prop :=
  ∀ t ∈ requests, ∃ result, t.state = .finished result

theorem Settled.append (h : Settled requests) (location : Path)
    (result : Except Fault SourceFile) :
    Settled (requests ++ [⟨location, .finished result⟩]) := by
  refine List.forall_mem_append.2 ⟨h, ?_⟩
  intro t ht
  obtain rfl := List.mem_singleton.1 ht
  exact ⟨result, rfl⟩

theorem Settled.not_inFlight (h : Settled requests) :
    ¬inFlight ⟨c, requests ++ [⟨location, .idle⟩]⟩ location := by
  intro hflight
  obtain ⟨t, ht, hreading⟩ := List.any_eq_true.1 hflight
  rcases List.mem_append.1 ht with ht | ht
  · obtain ⟨result, hresult⟩ := h t ht
    simp [Request.isReading, hresult] at hreading
  · obtain rfl := List.mem_singleton.1 ht
    cases hreading

@[simp]
theorem setState_last (s' : RequestState) :
    setState ⟨c, requests ++ [⟨location, s⟩]⟩ requests.length s' =
      ⟨c, requests ++ [⟨location, s'⟩]⟩ := by
  rw [setState, List.modify_eq_set_getElem?]
  simp

@[simp]
theorem answer?_last (s : RequestState) :
    answer? ⟨c, requests ++ [⟨location, s⟩]⟩ requests.length =
      match s with
      | .finished result => some result
      | _ => none := by
  rw [answer?, List.getElem?_concat_length]
  cases s <;> rfl

theorem proceed_hit {file : SourceFile} (hfile : c.find? location = some file) :
    proceed host ⟨c, requests ++ [⟨location, .idle⟩]⟩ requests.length =
      ⟨c.hit, requests ++ [⟨location, .finished (.ok file)⟩]⟩ := by
  simp [proceed, step, hfile]

theorem proceed_miss (h : Settled requests) (hnone : c.find? location = none) :
    proceed host ⟨c, requests ++ [⟨location, .idle⟩]⟩ requests.length =
      ⟨c.startRead location, requests ++ [⟨location, .reading⟩]⟩ := by
  simp [proceed, step, hnone, readOrWait, h.not_inFlight]

theorem proceed_read :
    proceed host ⟨c, requests ++ [⟨location, .reading⟩]⟩ requests.length =
      match host.read location with
      | .ok text => ⟨c.keep (.ofText location text),
          requests ++ [⟨location, .finished (.ok (.ofText location text))⟩]⟩
      | .error fault => ⟨c, requests ++ [⟨location, .finished (.error fault)⟩]⟩ := by
  simp only [proceed, turn, step, List.getElem?_concat_length]
  cases host.read location <;> simp

end Requests

namespace Task

mutual

theorem front?_of_node? {t : Task} {n : Node} (h : t.node? = some n) : t.front? = none := by
  match t with
  | .fresh d => cases h
  | .fetching d condition location i => cases h
  | .joining d condition location included below =>
    obtain ⟨nodes, hnodes, -⟩ := Option.map_eq_some_iff.1 h
    rw [front?, frontFrom?_of_nodes? hnodes]

theorem frontFrom?_of_nodes? {tasks : List Task} {nodes : List Node}
    (h : nodes? tasks = some nodes) {i : Nat} : frontFrom? i tasks = none := by
  match tasks with
  | [] => rfl
  | t :: rest =>
    rw [nodes?] at h
    obtain ⟨n, hn, h⟩ := Option.bind_eq_some_iff.1 h
    obtain ⟨ns, hns, -⟩ := Option.bind_eq_some_iff.1 h
    rw [frontFrom?, front?_of_node? hn]
    exact frontFrom?_of_nodes? hns

end

theorem frontFrom?_append {before : List Task} {i : Nat} (h : frontFrom? i before = none)
    (after : List Task) :
    frontFrom? i (before ++ after) = frontFrom? (i + before.length) after := by
  induction before generalizing i with
  | nil => rfl
  | cons t before ih =>
    rw [frontFrom?] at h
    split at h
    · cases h
    · next ht =>
      rw [List.cons_append, frontFrom?, ht, List.length_cons]
      exact (ih h).trans (congrArg (frontFrom? · after) (by omega))

theorem frontFrom?_middle {before after : List Task} {t : Task} {place : List Nat}
    (hbefore : frontFrom? 0 before = none) (ht : t.front? = some place) :
    frontFrom? 0 (before ++ t :: after) = some (before.length :: place) := by
  rw [frontFrom?_append hbefore, frontFrom?, ht, Nat.zero_add]

theorem frontFrom?_concat {before : List Task} {t : Task} {n : Node}
    (hbefore : frontFrom? 0 before = none) (ht : t.node? = some n) :
    frontFrom? 0 (before ++ [t]) = none := by
  rw [frontFrom?_append hbefore, frontFrom?, front?_of_node? ht]
  rfl

variable {host : Host} {branch : List Path} {file : SourceFile} {c c' : Cache}
  {requests : List Request} {location : Path} {before after : List Task} {d : Directive}
  {condition : Option Condition} {place : List Nat} {schedule : List (List Nat)} {e : IncludeError}
  {state state' : Requests × List Task} {result : Except IncludeError (Requests × List Task)}

theorem run_cons (h : advance host branch file place state = .ok state')
    (schedule : List (List Nat)) :
    run host branch file state (place :: schedule) = run host branch file state' schedule := by
  rw [run, List.foldlM_cons, h]
  rfl

theorem run_cons_error (h : advance host branch file place state = .error e)
    (schedule : List (List Nat)) :
    run host branch file state (place :: schedule) = .error e := by
  rw [run, List.foldlM_cons, h]
  rfl

theorem last_of_run (h : run host branch file state schedule = .ok state') :
    last host branch file state schedule = state' := by
  induction schedule generalizing state with
  | nil =>
    cases h
    rfl
  | cons place schedule ih =>
    cases hadvance : advance host branch file place state with
    | error e =>
      rw [run_cons_error hadvance] at h
      cases h
    | ok next =>
      rw [run_cons hadvance] at h
      rw [last, hadvance]
      exact ih h

/-- The first directive that is not done moves on and on, from a state to a result with a cache. -/
inductive Reaches (host : Host) (branch : List Path) (file : SourceFile) :
    Requests × List Task → Except IncludeError (Requests × List Task) → Cache → Prop
  | refl {state : Requests × List Task} : Reaches host branch file state (.ok state) state.1.cache
  | error {state : Requests × List Task} {place : List Nat} {e : IncludeError} :
      frontFrom? 0 state.2 = some place → advance host branch file place state = .error e →
      Reaches host branch file state (.error e) state.1.cache
  | step {state state' : Requests × List Task} {place : List Nat}
      {result : Except IncludeError (Requests × List Task)} {c : Cache} :
      frontFrom? 0 state.2 = some place → advance host branch file place state = .ok state' →
      Reaches host branch file state' result c → Reaches host branch file state result c

theorem Reaches.exists_schedule (h : Reaches host branch file state result c) :
    ∃ schedule, isPrompt host branch file state schedule ∧
      run host branch file state schedule = result ∧
      (last host branch file state schedule).1.cache = c := by
  induction h with
  | refl => exact ⟨[], rfl, rfl, rfl⟩
  | @error _ place _ hfront hadvance =>
    refine ⟨[place], ?_, run_cons_error hadvance [], ?_⟩
    · simp [isPrompt, hfront, hadvance]
    · simp [last, hadvance]
  | @step _ _ place _ _ hfront hadvance _ ih =>
    obtain ⟨schedule, hprompt, hrun, hlast⟩ := ih
    refine ⟨place :: schedule, ?_, (run_cons hadvance schedule).trans hrun, ?_⟩
    · simp [isPrompt, hfront, hadvance, hprompt]
    · simp [last, hadvance, hlast]

theorem Reaches.trans (h : Reaches host branch file state (.ok state') c')
    (h' : Reaches host branch file state' result c) : Reaches host branch file state result c := by
  generalize hmiddle : Except.ok state' = middle at h
  induction h with
  | refl =>
    cases hmiddle
    exact h'
  | error => cases hmiddle
  | step hfront hadvance _ ih => exact .step hfront hadvance (ih hmiddle)

theorem advance_below (included : SourceFile) (place : List Nat) (state : Requests × List Task) :
    advance host branch file (before.length :: place)
        (state.1, before ++ .joining d condition location included state.2 :: after) =
      (advance host (branch ++ [location]) included place state).map fun (r, below) ↦
        (r, before ++ .joining d condition location included below :: after) := by
  cases place with
  | nil => simp [advance, move, Except.map]
  | cons j place => simp [advance]

theorem Reaches.nested {included : SourceFile} (hbefore : frontFrom? 0 before = none)
    (h : Reaches host (branch ++ [location]) included state result c) :
    Reaches host branch file
      (state.1, before ++ .joining d condition location included state.2 :: after)
      (result.map fun (r, below) ↦
        (r, before ++ .joining d condition location included below :: after)) c := by
  have hmove {s : Requests × List Task} {place : List Nat}
      (hfront : frontFrom? 0 s.2 = some place) :
      frontFrom? 0 (before ++ .joining d condition location included s.2 :: after) =
        some (before.length :: place) :=
    frontFrom?_middle hbefore (by rw [front?, hfront])
  induction h with
  | refl => exact .refl
  | error hfront hadvance =>
    refine .error (hmove hfront) ?_
    rw [advance_below, hadvance]
    rfl
  | step hfront hadvance _ ih =>
    refine .step (hmove hfront) ?_ ih
    rw [advance_below, hadvance]
    rfl

theorem reaches_answer (hbefore : frontFrom? 0 before = none) (h : Requests.Settled requests)
    {answer : Except Fault SourceFile}
    (hrequest : Cache.request host location c = (answer, c')) :
    Reaches host branch file
      (⟨c, requests ++ [⟨location, .idle⟩]⟩,
        before ++ .fetching d condition location requests.length :: after)
      (.ok (⟨c', requests ++ [⟨location, .finished answer⟩]⟩,
        before ++ .fetching d condition location requests.length :: after)) c' := by
  have hfront : frontFrom? 0 (before ++ .fetching d condition location requests.length :: after) =
      some [before.length] := frontFrom?_middle hbefore rfl
  have hproceed {r : Requests} (hnone : r.answer? requests.length = none) :
      advance host branch file [before.length]
        (r, before ++ .fetching d condition location requests.length :: after) =
      .ok (r.proceed host requests.length,
        before ++ .fetching d condition location requests.length :: after) := by
    simp [advance, move, hnone, Except.map]
  rw [Cache.request] at hrequest
  split at hrequest
  · next found hfound =>
    cases hrequest
    refine .step hfront (hproceed (by simp)) ?_
    rw [Requests.proceed_hit hfound]
    exact .refl
  · next hnone =>
    -- Nobody else reads the location, so that the read begins at once and ends with the next move.
    refine .step hfront (hproceed (by simp)) ?_
    rw [Requests.proceed_miss h hnone]
    refine .step hfront (hproceed (by simp)) ?_
    rw [Requests.proceed_read]
    cases hread : host.read location with
    | ok text =>
      simp only [hread] at hrequest
      cases hrequest
      exact .refl
    | error fault =>
      simp only [hread] at hrequest
      cases hrequest
      exact .refl

theorem reaches_request (hbefore : frontFrom? 0 before = none) (h : Requests.Settled requests)
    (hprepare : Build.prepare host branch file d = .ok (condition, location))
    {answer : Except Fault SourceFile}
    (hrequest : Cache.request host location c = (answer, c')) :
    Reaches host branch file (⟨c, requests⟩, before ++ .fresh d :: after)
      (.ok (⟨c', requests ++ [⟨location, .finished answer⟩]⟩,
        before ++ .fetching d condition location requests.length :: after)) c' := by
  have hbegin : advance host branch file [before.length]
      (⟨c, requests⟩, before ++ .fresh d :: after) =
      .ok (⟨c, requests ++ [⟨location, .idle⟩]⟩,
        before ++ .fetching d condition location requests.length :: after) := by
    simp [advance, move, hprepare, Requests.add, Except.map]
  exact .step (frontFrom?_middle hbefore rfl) hbegin (reaches_answer hbefore h hrequest)

theorem reaches_below {included : SourceFile} {c₁ : Cache} (hbefore : frontFrom? 0 before = none)
    (h : Requests.Settled requests)
    (hprepare : Build.prepare host branch file d = .ok (condition, location))
    (hrequest : Cache.request host location c = (.ok included, c₁))
    (hbelow : Reaches host (branch ++ [location]) included
      (⟨c₁, requests ++ [⟨location, .finished (.ok included)⟩]⟩, ofFile included) result c') :
    Reaches host branch file (⟨c, requests⟩, before ++ .fresh d :: after)
      (result.map fun (r, below) ↦
        (r, before ++ .joining d condition location included below :: after)) c' := by
  have hopen : advance host branch file [before.length]
      (⟨c₁, requests ++ [⟨location, .finished (.ok included)⟩]⟩,
        before ++ .fetching d condition location requests.length :: after) =
      .ok (⟨c₁, requests ++ [⟨location, .finished (.ok included)⟩]⟩,
        before ++ .joining d condition location included (ofFile included) :: after) := by
    simp [advance, move, Except.map]
  exact (reaches_request hbefore h hprepare hrequest).trans
    (.step (frontFrom?_middle hbefore rfl) hopen (hbelow.nested hbefore))

end Task

namespace Task

variable {host : Host} {e : IncludeError}

theorem reaches_mapM {branch : List Path} {file : SourceFile} {ds : List Directive}
    {nodes : List Node} {requests : List Request} {c c' : Cache}
    (hnode : ∀ {d n requests c c'} {before : List Task} (after : List Task),
      frontFrom? 0 before = none → Requests.Settled requests →
      Build.node host branch file d c = (.ok n, c') → ∃ requests' t,
        Requests.Settled requests' ∧ t.node? = some n ∧
        Reaches host branch file (⟨c, requests⟩, before ++ .fresh d :: after)
          (.ok (⟨c', requests'⟩, before ++ t :: after)) c')
    (h : Requests.Settled requests)
    (hnodes : ds.mapM (Build.node host branch file) c = (.ok nodes, c')) {before : List Task}
    (hbefore : frontFrom? 0 before = none) :
    ∃ requests' tasks, Requests.Settled requests' ∧ nodes? tasks = some nodes ∧
      Reaches host branch file (⟨c, requests⟩, before ++ ds.map .fresh)
        (.ok (⟨c', requests'⟩, before ++ tasks)) c' := by
  induction ds generalizing requests c nodes before with
  | nil =>
    rw [List.mapM_nil] at hnodes
    cases hnodes
    exact ⟨requests, [], h, rfl, .refl⟩
  | cons d ds ih =>
    rw [List.mapM_cons] at hnodes
    obtain ⟨n, c₁, hn, hnodes⟩ := Build.bind_ok hnodes
    obtain ⟨rest, c₂, hrest, hnodes⟩ := Build.bind_ok hnodes
    cases hnodes
    obtain ⟨requests₁, t, h₁, ht, hreaches⟩ := hnode (ds.map .fresh) hbefore h hn
    obtain ⟨requests₂, tasks, h₂, htasks, hreaches'⟩ :=
      ih h₁ hrest (frontFrom?_concat hbefore ht)
    refine ⟨requests₂, t :: tasks, h₂, ?_, hreaches.trans ?_⟩
    · rw [nodes?, ht, htasks]
      rfl
    · simpa using hreaches'

mutual

theorem reaches_node {branch : List Path} {file : SourceFile} {d : Directive} {n : Node}
    {requests : List Request} {c c' : Cache} {before : List Task} (after : List Task)
    (hbefore : frontFrom? 0 before = none) (h : Requests.Settled requests)
    (hnode : Build.node host branch file d c = (.ok n, c')) :
    ∃ requests' t, Requests.Settled requests' ∧ t.node? = some n ∧
      Reaches host branch file (⟨c, requests⟩, before ++ .fresh d :: after)
        (.ok (⟨c', requests'⟩, before ++ t :: after)) c' := by
  obtain ⟨condition, location, included, below, c₁, hprepare, hrequest, hbelow, rfl⟩ :=
    Build.node_made hnode
  have hlt := Build.unvisited_lt_of_passes (Build.prepare_ok hprepare)
  obtain ⟨requests', tasks, hsettled, hnodes, hreaches⟩ :=
    reaches_children (h.append location (.ok included)) hbelow
  refine ⟨requests', .joining d condition location included tasks, hsettled, ?_, ?_⟩
  · rw [node?, hnodes]
    rfl
  · exact reaches_below hbefore h hprepare hrequest hreaches
termination_by ((Build.unvisited host branch).length, 0)

theorem reaches_children {branch : List Path} {file : SourceFile} {nodes : List Node}
    {requests : List Request} {c c' : Cache} (h : Requests.Settled requests)
    (hchildren : Build.children host branch file c = (.ok nodes, c')) :
    ∃ requests' tasks, Requests.Settled requests' ∧ nodes? tasks = some nodes ∧
      Reaches host branch file (⟨c, requests⟩, ofFile file) (.ok (⟨c', requests'⟩, tasks)) c' := by
  rw [Build.children_eq] at hchildren
  exact reaches_mapM (fun after hbefore h hn ↦ reaches_node after hbefore h hn) h hchildren
    (rfl : frontFrom? 0 [] = none)
termination_by ((Build.unvisited host branch).length, 1)

end

theorem reaches_mapM_error {branch : List Path} {file : SourceFile} {ds : List Directive}
    {requests : List Request} {c c' : Cache}
    (herror : ∀ {d requests c c'} {before : List Task} (after : List Task),
      frontFrom? 0 before = none → Requests.Settled requests →
      Build.node host branch file d c = (.error e, c') →
        Reaches host branch file (⟨c, requests⟩, before ++ .fresh d :: after) (.error e) c')
    (h : Requests.Settled requests)
    (hnodes : ds.mapM (Build.node host branch file) c = (.error e, c')) {before : List Task}
    (hbefore : frontFrom? 0 before = none) :
    Reaches host branch file (⟨c, requests⟩, before ++ ds.map .fresh) (.error e) c' := by
  induction ds generalizing requests c before with
  | nil =>
    rw [List.mapM_nil] at hnodes
    cases hnodes
  | cons d ds ih =>
    rw [List.mapM_cons] at hnodes
    rcases Build.bind_error hnodes with hd | ⟨n, c₁, hn, hnodes⟩
    · exact herror (ds.map .fresh) hbefore h hd
    rcases Build.bind_error hnodes with hrest | ⟨rest, c₂, -, hnodes⟩
    · obtain ⟨requests₁, t, h₁, ht, hreaches⟩ := reaches_node (ds.map .fresh) hbefore h hn
      exact hreaches.trans (by simpa using ih h₁ hrest (frontFrom?_concat hbefore ht))
    · cases hnodes

mutual

theorem reaches_node_error {branch : List Path} {file : SourceFile} {d : Directive}
    {requests : List Request} {c c' : Cache} {before : List Task} (after : List Task)
    (hbefore : frontFrom? 0 before = none) (h : Requests.Settled requests)
    (hnode : Build.node host branch file d c = (.error e, c')) :
    Reaches host branch file (⟨c, requests⟩, before ++ .fresh d :: after) (.error e) c' := by
  rcases Build.node_not_made hnode with ⟨hprepare, rfl⟩ | ⟨condition, location, hprepare, hrest⟩
  · have hbegin : advance host branch file [before.length]
        (⟨c', requests⟩, before ++ .fresh d :: after) = .error e := by
      simp [advance, move, hprepare, Except.map]
    exact .error (frontFrom?_middle hbefore rfl) hbegin
  rcases hrest with ⟨fault, hrequest, rfl⟩ | ⟨included, c₁, hrequest, hbelow⟩
  · refine (reaches_request hbefore h hprepare hrequest).trans ?_
    have hfault : advance host branch file [before.length]
        (⟨c', requests ++ [⟨location, .finished (.error fault)⟩]⟩,
          before ++ .fetching d condition location requests.length :: after) =
        .error (.unreadable location file.location
          ⟨.read, location, "template inclusion", fault, [file.location]⟩) := by
      simp [advance, move, Except.map]
    exact .error (frontFrom?_middle hbefore rfl) hfault
  · have hlt := Build.unvisited_lt_of_passes (Build.prepare_ok hprepare)
    exact reaches_below hbefore h hprepare hrequest
      (reaches_children_error (h.append location (.ok included)) hbelow)
termination_by ((Build.unvisited host branch).length, 0)

theorem reaches_children_error {branch : List Path} {file : SourceFile}
    {requests : List Request} {c c' : Cache} (h : Requests.Settled requests)
    (hchildren : Build.children host branch file c = (.error e, c')) :
    Reaches host branch file (⟨c, requests⟩, ofFile file) (.error e) c' := by
  rw [Build.children_eq] at hchildren
  exact reaches_mapM_error (fun after hbefore h hd ↦ reaches_node_error after hbefore h hd) h
    hchildren (rfl : frontFrom? 0 [] = none)
termination_by ((Build.unvisited host branch).length, 1)

end

/-- A run that has come to its end is not outlasted by another in which the first directive that is
not done moves. -/
theorem isPrefix_of_isPrompt {branch : List Path} {file : SourceFile}
    {state : Requests × List Task} {schedule whole : List (List Nat)}
    (h : isPrompt host branch file state schedule) (hwhole : isPrompt host branch file state whole)
    (hend : (∃ e, run host branch file state whole = .error e) ∨
      ∃ state', run host branch file state whole = .ok state' ∧ frontFrom? 0 state'.2 = none) :
    schedule <+: whole := by
  induction schedule generalizing state whole with
  | nil => exact List.nil_prefix
  | cons place schedule ih =>
    simp only [isPrompt, Bool.and_eq_true, beq_iff_eq] at h
    obtain ⟨hfront, hrest⟩ := h
    cases whole with
    | nil =>
      rcases hend with ⟨e, hrun⟩ | ⟨state', hrun, hdone⟩
      · cases hrun
      · cases hrun
        cases hfront.symm.trans hdone
    | cons place' whole =>
      simp only [isPrompt, Bool.and_eq_true, beq_iff_eq] at hwhole
      obtain ⟨hfront', hrest'⟩ := hwhole
      obtain rfl := Option.some.inj (hfront.symm.trans hfront')
      refine List.cons_prefix_cons.2 ⟨rfl, ?_⟩
      cases hadvance : advance host branch file place state with
      | error e =>
        rw [hadvance] at hrest
        rw [List.isEmpty_iff.1 hrest]
        exact List.nil_prefix
      | ok state' =>
        rw [hadvance] at hrest hrest'
        rw [run_cons hadvance] at hend
        exact ih hrest hrest' hend

end Task

namespace IncludeTree

variable {host : Host} {root : SourceFile} {schedule : List (List Nat)} {tree : IncludeTree}
  {e : IncludeError}

theorem exists_prompt (host : Host) (root : SourceFile) :
    ∃ schedule, Prompt host root schedule ∧
      outcome? host root schedule = some (buildTree host root).1 ∧
      cacheAfter host root schedule = (buildTree host root).2 := by
  have hsettled : Requests.Settled [] := fun t ht ↦ by cases ht
  unfold buildTree build
  cases hchildren : Build.children host [root.location] root {} with
  | mk result c =>
    cases result with
    | ok nodes =>
      obtain ⟨requests, tasks, -, hnodes, hreaches⟩ := Task.reaches_children hsettled hchildren
      obtain ⟨schedule, hprompt, hrun, hlast⟩ := hreaches.exists_schedule
      refine ⟨schedule, hprompt, ?_, hlast⟩
      rw [outcome?, hrun]
      simp [hnodes]
    | error e =>
      obtain ⟨schedule, hprompt, hrun, hlast⟩ :=
        (Task.reaches_children_error hsettled hchildren).exists_schedule
      refine ⟨schedule, hprompt, ?_, hlast⟩
      rw [outcome?, hrun]

theorem exists_outcome? (host : Host) (root : SourceFile) :
    ∃ schedule, outcome? host root schedule = some (buildTree host root).1 := by
  obtain ⟨schedule, -, houtcome, -⟩ := exists_prompt host root
  exact ⟨schedule, houtcome⟩

theorem Prompt.isPrefix {whole : List (List Nat)} {result : Except IncludeError IncludeTree}
    (h : Prompt host root schedule) (hwhole : Prompt host root whole)
    (hend : outcome? host root whole = some result) : schedule <+: whole := by
  refine Task.isPrefix_of_isPrompt h hwhole ?_
  unfold outcome? at hend
  split at hend
  · next e hrun => exact .inl ⟨e, hrun⟩
  · next r tasks hrun =>
    obtain ⟨nodes, hnodes, -⟩ := Option.map_eq_some_iff.1 hend
    exact .inr ⟨(r, tasks), hrun, Task.frontFrom?_of_nodes? hnodes⟩

/-- What a prompt schedule comes to is the depth-first build, with its cache. -/
theorem Prompt.outcome_eq {result : Except IncludeError IncludeTree}
    (h : Prompt host root schedule) (hend : outcome? host root schedule = some result) :
    buildTree host root = (result, cacheAfter host root schedule) := by
  obtain ⟨whole, hwhole, houtcome, hcache⟩ := exists_prompt host root
  obtain rfl : schedule = whole :=
    (h.isPrefix hwhole houtcome).eq_of_length_le (hwhole.isPrefix h hend).length_le
  rw [hcache, ← Option.some.inj (houtcome.symm.trans hend)]

theorem grown_of_outcome? (hhost : host.Canonical)
    (h : outcome? host root schedule = some (.ok tree)) :
    tree.root = root ∧
      Grown host [root.location] root.context (Directive.scan root.text) tree.children := by
  unfold outcome? at h
  split at h
  · cases h
  · next r tasks hrun =>
    obtain ⟨nodes, hnodes, htree⟩ := Option.map_eq_some_iff.1 h
    cases htree
    have hstart := underway_ofFile host ⟨{}, []⟩ [root.location] root.context root
    exact ⟨rfl, (hstart.run hhost (Requests.honest_empty host) hrun).grown hnodes⟩

theorem failsAt_of_outcome? (hhost : host.Canonical)
    (h : outcome? host root schedule = some (.error e)) :
    ∃ place, FailsAt host [root.location] root place e := by
  unfold outcome? at h
  split at h
  · next e' hrun =>
    cases h
    have hstart := underway_ofFile host ⟨{}, []⟩ [root.location] root.context root
    exact hstart.run_fails hhost (Requests.honest_empty host) hrun
  · obtain ⟨nodes, -, htree⟩ := Option.map_eq_some_iff.1 h
    cases htree

/-- Schedules that come to an end agree: they give one tree, or they all fail. A failure is that of
a directive to which the root leads. The depth-first build is one of them. -/
theorem schedules_agree (hhost : host.Canonical) (root : SourceFile)
    {schedule schedule' : List (List Nat)} {result result' : Except IncludeError IncludeTree}
    (h : outcome? host root schedule = some result)
    (h' : outcome? host root schedule' = some result') :
    ((∃ tree, result = .ok tree ∧ result' = .ok tree) ∨
      ∃ e e', result = .error e ∧ result' = .error e') ∧
    (∀ e, result = .error e → ∃ place branch file d,
      Occurs host [root.location] root place branch file d ∧ Leads host root branch file ∧
        Fails host branch file d e) ∧
    ∃ depthFirst, outcome? host root depthFirst = some (buildTree host root).1 := by
  refine ⟨?_, ?_, exists_outcome? host root⟩
  · cases result with
    | ok tree =>
      obtain ⟨hroot, hgrown⟩ := grown_of_outcome? hhost h
      cases result' with
      | ok tree' =>
        obtain ⟨hroot', hgrown'⟩ := grown_of_outcome? hhost h'
        have htree : tree' = tree := by
          cases tree
          cases tree'
          rw [mk.injEq]
          exact ⟨hroot'.trans hroot.symm, hgrown'.unique hgrown⟩
        exact .inl ⟨tree, rfl, congrArg Except.ok htree⟩
      | error e =>
        obtain ⟨place, hfails⟩ := failsAt_of_outcome? hhost h'
        exact absurd hfails hgrown.not_failsAt
    | error e =>
      obtain ⟨place, hfails⟩ := failsAt_of_outcome? hhost h
      cases result' with
      | ok tree => exact absurd hfails (grown_of_outcome? hhost h').2.not_failsAt
      | error e' => exact .inr ⟨e, e', rfl, rfl⟩
  · rintro e rfl
    obtain ⟨place, branch, file, d, hoccurs, hfails⟩ := failsAt_of_outcome? hhost h
    exact ⟨place, branch, file, d, hoccurs, (hoccurs.leads (leads_root host root)).1, hfails⟩

def sharedHost : MemoryHost :=
  .ofEntries [(⟨"/p/a"⟩, "A\r#include c"), (⟨"/p/b"⟩, "#include c if on\n"), (⟨"/p/c"⟩, "C\n")]
    [⟨"/p/u"⟩]

def sharedRoot : SourceFile := ⟨⟨"/p/r"⟩, ⟨"/p"⟩, "#include a\n#include b\n"⟩

def failingRoot : SourceFile := ⟨⟨"/p/r"⟩, ⟨"/p"⟩, "#include u\n#include none\n"⟩

def inTurn : List (List Nat) :=
  [[0], [0], [0], [0], [0, 0], [0, 0], [0, 0], [0, 0], [1], [1], [1], [1], [1, 0], [1, 0], [1, 0]]

def crosswise : List (List Nat) :=
  [[0], [1], [0], [1], [1], [1], [1, 0], [1, 0], [0], [0], [0, 0], [0, 0], [0, 0], [1, 0], [0, 0],
    [0, 0], [1, 0]]

theorem schedules_shared :
    (∃ tree, outcome? sharedHost.toHost sharedRoot inTurn = some (.ok tree) ∧
      outcome? sharedHost.toHost sharedRoot crosswise = some (.ok tree) ∧
      tree.locations = [⟨"/p/a"⟩, ⟨"/p/c"⟩, ⟨"/p/b"⟩]) ∧
    ∃ e, outcome? sharedHost.toHost failingRoot [[0], [0], [1]] = some (.error e) ∧
      e = .unresolved "none" ⟨"/p/r"⟩ [] ∧
      ∃ place branch file d, Occurs sharedHost.toHost [⟨"/p/r"⟩] failingRoot place branch file d ∧
        Fails sharedHost.toHost branch file d e := by
  have hturn : (outcome? sharedHost.toHost sharedRoot inTurn).map (Except.map locations) =
      some (.ok [⟨"/p/a"⟩, ⟨"/p/c"⟩, ⟨"/p/b"⟩]) := by
    decide +kernel
  have hcross : (outcome? sharedHost.toHost sharedRoot crosswise).isSome := by
    decide +kernel
  have hfirst : (outcome? sharedHost.toHost failingRoot [[0], [0], [1]]).map
      (Except.map locations) = some (.error (.unresolved "none" ⟨"/p/r"⟩ [])) := by
    decide +kernel
  constructor
  · obtain ⟨result, hresult, hmap⟩ := Option.map_eq_some_iff.1 hturn
    obtain ⟨tree, rfl, htree⟩ := map_ok hmap
    obtain ⟨result', hresult'⟩ := Option.isSome_iff_exists.1 hcross
    obtain ⟨hagree, -⟩ := schedules_agree sharedHost.canonical sharedRoot hresult hresult'
    rcases hagree with ⟨tree', he, rfl⟩ | ⟨e, e', he, -⟩
    · cases he
      exact ⟨tree, hresult, hresult', htree.symm⟩
    · cases he
  · obtain ⟨result, hresult, hmap⟩ := Option.map_eq_some_iff.1 hfirst
    obtain rfl := eq_error_of_map hmap
    obtain ⟨-, hfails, -⟩ := schedules_agree sharedHost.canonical failingRoot hresult hresult
    obtain ⟨place, branch, file, d, hoccurs, -, hfails⟩ := hfails _ rfl
    exact ⟨_, hresult, rfl, place, branch, file, d, hoccurs, hfails⟩

/-- A build ends, if no directive is suspended while it could go on, and then as the depth-first
build does. In whatever order its branches move, it succeeds exactly if all that is reachable from
the root is sound and no cycle is, and its error is otherwise that of a directive that fails: of the
first one, in depth-first order of the sources, if none is suspended. -/
theorem build_outcome (h : MemoryHost) (root : SourceFile) :
    (∃ whole, Prompt h.toHost root whole ∧
      outcome? h.toHost root whole = some (buildTree h.toHost root).1 ∧
      ∀ schedule, Prompt h.toHost root schedule → schedule <+: whole) ∧
    ∀ (schedule : List (List Nat)) (result : Except IncludeError IncludeTree),
      outcome? h.toHost root schedule = some result →
      ((∃ tree, result = .ok tree) ↔ Sound h.toHost root ∧ Acyclic h.toHost root) ∧
      (∀ e, result = .error e → ∃ place branch file d,
        Occurs h.toHost [root.location] root place branch file d ∧
          Fails h.toHost branch file d e ∧ e.referrer = file.location) ∧
      (Prompt h.toHost root schedule →
        ∀ e, result = .error e ↔ FirstFailure h.toHost root e) := by
  constructor
  · obtain ⟨whole, hwhole, houtcome, -⟩ := exists_prompt h.toHost root
    exact ⟨whole, hwhole, houtcome, fun schedule hprompt ↦ hprompt.isPrefix hwhole houtcome⟩
  intro schedule result houtcome
  refine ⟨?_, ?_, fun hprompt e ↦ ?_⟩
  · cases result with
    | ok tree =>
      obtain ⟨-, hgrown⟩ := grown_of_outcome? h.canonical houtcome
      have hbuilt : Built h.toHost root [root.location] root :=
        { leads_root h.toHost root with grown := ⟨_, hgrown⟩ }
      exact ⟨fun _ ↦ ⟨hbuilt.sound, hbuilt.acyclic⟩, fun _ ↦ ⟨tree, rfl⟩⟩
    | error e =>
      obtain ⟨place, hfails⟩ := failsAt_of_outcome? h.canonical houtcome
      refine ⟨?_, fun hgood ↦ absurd hgood hfails.not_sound_acyclic⟩
      rintro ⟨tree, htree⟩
      cases htree
  · rintro e rfl
    obtain ⟨place, branch, file, d, hoccurs, hfails⟩ := failsAt_of_outcome? h.canonical houtcome
    exact ⟨place, branch, file, d, hoccurs, hfails, hfails.referrer⟩
  · rw [← h.buildTree_eq_error_iff, hprompt.outcome_eq houtcome]

def failingInTurn : List (List Nat) := List.replicate 4 [0]

theorem build_failing :
    ∃ e, outcome? sharedHost.toHost failingRoot failingInTurn = some (.error e) ∧
      e = .unreadable ⟨"/p/u"⟩ ⟨"/p/r"⟩ ⟨.read, ⟨"/p/u"⟩, "template inclusion",
        ⟨.permissionDenied, "unreadable"⟩, [⟨"/p/r"⟩]⟩ ∧
      FirstFailure sharedHost.toHost failingRoot e ∧
      ¬(Sound sharedHost.toHost failingRoot ∧ Acyclic sharedHost.toHost failingRoot) := by
  have hrun : (outcome? sharedHost.toHost failingRoot failingInTurn).map (Except.map locations) =
        some (.error (.unreadable ⟨"/p/u"⟩ ⟨"/p/r"⟩ ⟨.read, ⟨"/p/u"⟩, "template inclusion",
          ⟨.permissionDenied, "unreadable"⟩, [⟨"/p/r"⟩]⟩)) ∧
      Prompt sharedHost.toHost failingRoot failingInTurn := by
    decide +kernel
  obtain ⟨hmap, hprompt⟩ := hrun
  obtain ⟨result, hresult, hmap⟩ := Option.map_eq_some_iff.1 hmap
  obtain rfl := eq_error_of_map hmap
  obtain ⟨hsucceeds, -, hfirst⟩ := (build_outcome sharedHost failingRoot).2 _ _ hresult
  refine ⟨_, hresult, rfl, (hfirst hprompt _).1 rfl, fun hgood ↦ ?_⟩
  obtain ⟨tree, htree⟩ := hsucceeds.2 hgood
  cases htree

end IncludeTree

end Transclude
