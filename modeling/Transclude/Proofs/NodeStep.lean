import Transclude.Proofs.Occurrence
import Transclude.Result

namespace Transclude

theorem Passes.enters {host : Host} {branch : List Path} {file : SourceFile} {d : Directive}
    {condition : Option Condition} {location : Path} {text : String}
    (h : Passes host branch file.context d condition location)
    (hread : host.read location = .ok text) : Enters host branch file d location text :=
  ⟨Directive.compiles_of_map h.compiled, h.resolves, h.unvisited, hread⟩

theorem Passes.fails {host : Host} {branch : List Path} {file : SourceFile} {d : Directive}
    {condition : Option Condition} {location : Path} {fault : Fault}
    (h : Passes host branch file.context d condition location)
    (hread : host.read location = .error fault) :
    Fails host branch file d (.unreadable location file.location
      ⟨.read, location, "template inclusion", fault, [file.location]⟩) :=
  .unreadable (Directive.compiles_of_map h.compiled) h.resolves h.unvisited hread

theorem Passes.not_root {host : Host} {root : Path} {branch : List Path} {context location : Path}
    {d : Directive} {condition : Option Condition}
    (h : Passes host branch context d condition location) (hroot : root ∈ branch) :
    ¬root.same location := by
  intro hsame
  exact h.unvisited (List.any_eq_true.2 ⟨root, hroot, hsame⟩)

theorem Cache.read_of_request_error {host : Host} {location : Path} {c c' : Cache} {fault : Fault}
    (h : Cache.request host location c = (.error fault, c')) :
    host.read location = .error fault := by
  unfold Cache.request at h
  split at h
  · cases h
  · dsimp only at h
    split at h
    · cases h
    · next hread =>
      cases h
      exact hread

namespace Build

variable {host : Host} {branch : List Path} {file : SourceFile} {c c' : Cache} {d : Directive}
  {e : IncludeError}

theorem prepare_error (h : prepare host branch file d = .error e) :
    Fails host branch file d e := by
  rcases Transclude.bind_error h with herror | ⟨compiled, hcompiled, h⟩
  · obtain ⟨expression, cause, hd, hcompile, rfl⟩ := compileCondition_error herror
    exact .condition hd hcompile
  have hcompiles := Directive.compiles_of_map (compileCondition_ok hcompiled)
  cases hres : host.resolve file.context d.reference with
  | none =>
    rw [hres] at h
    cases h
    exact .unresolved hcompiles hres
  | some location =>
    by_cases hvisited : branch.any (·.same location)
    · simp only [hres, hvisited, if_true] at h
      cases h
      exact .circular hcompiles hres hvisited
    · simp only [hres, hvisited] at h
      cases h

theorem bind_apply {α β : Type} (x : BuildM α) (f : α → BuildM β) (c : Cache) :
    (x >>= f) c =
      match x c with
      | (.ok a, c₁) => f a c₁
      | (.error e, c₁) => (.error e, c₁) := by
  change ExceptT.bindCont f (x c).1 (x c).2 = _
  cases x c with
  | mk result c₁ => cases result <;> rfl

theorem readFile_eq (referrer location : Path) (c : Cache) :
    readFile host referrer location c =
      match Cache.request host location c with
      | (.ok included, c') => (.ok included, c')
      | (.error fault, c') => (.error (.unreadable location referrer
          ⟨.read, location, "template inclusion", fault, [referrer]⟩), c') := by
  -- The request itself cannot fail as a step of the build: its failure is a value.
  have hrequest : (liftM (modifyGet (Cache.request host location) : StateM Cache _) : BuildM _) c =
      (.ok (Cache.request host location c).1, (Cache.request host location c).2) := rfl
  rw [readFile, bind_apply, hrequest]
  cases Cache.request host location c with
  | mk result c' => cases result <;> rfl

theorem node_not_made (h : node host branch file d c = (.error e, c')) :
    (prepare host branch file d = .error e ∧ c' = c) ∨
    ∃ condition location, prepare host branch file d = .ok (condition, location) ∧
      ((∃ fault, Cache.request host location c = (.error fault, c') ∧
          e = .unreadable location file.location
            ⟨.read, location, "template inclusion", fault, [file.location]⟩) ∨
        ∃ included c₁, Cache.request host location c = (.ok included, c₁) ∧
          children host (branch ++ [location]) included c₁ = (.error e, c')) := by
  rw [node_eq] at h
  split at h
  · next e' hprepare =>
    cases h
    exact .inl ⟨hprepare, rfl⟩
  · next condition location hprepare =>
    refine .inr ⟨condition, location, hprepare, ?_⟩
    rcases bind_error h with hread | ⟨included, c₁, hread, h⟩
    · rw [readFile_eq] at hread
      split at hread
      · cases hread
      · next fault c₁ hrequest =>
        cases hread
        exact .inl ⟨fault, hrequest, rfl⟩
    · rcases bind_error h with hbelow | ⟨below, c₂, -, h⟩
      · exact .inr ⟨included, c₁, readFile_ok hread, hbelow⟩
      · cases h

theorem node_error (hhost : host.Canonical) (hc : c.Faithful host)
    (h : node host branch file d c = (.error e, c')) :
    Fails host branch file d e ∨ ∃ location text c₁, Enters host branch file d location text ∧
      c₁.Faithful host ∧
      children host (branch ++ [location]) (.ofText location text) c₁ = (.error e, c') := by
  rcases node_not_made h with ⟨hprepare, -⟩ | ⟨condition, location, hprepare, hrest⟩
  · exact .inl (prepare_error hprepare)
  have hpasses := prepare_ok hprepare
  rcases hrest with ⟨fault, hrequest, rfl⟩ | ⟨included, c₁, hrequest, hbelow⟩
  · exact .inl (hpasses.fails (Cache.read_of_request_error hrequest))
  · obtain ⟨⟨text, hread, rfl⟩, hc₁⟩ := Cache.request_ok hhost hc hpasses.resolves hrequest
    exact .inr ⟨location, text, c₁, hpasses.enters hread, hc₁, hbelow⟩

theorem node_grown (hhost : host.Canonical) (hc : c.Faithful host) {n : Node}
    (h : node host branch file d c = (.ok n, c')) :
    (∃ location text below, Enters host branch file d location text ∧
      Grown host (branch ++ [location]) location.context (Directive.scan text) below) ∧
      c'.Faithful host := by
  obtain ⟨condition, location, included, below, c₁, hprepare, hrequest, hbelow, rfl⟩ := node_made h
  have hpasses := prepare_ok hprepare
  obtain ⟨⟨text, hread, rfl⟩, hc₁⟩ := Cache.request_ok hhost hc hpasses.resolves hrequest
  obtain ⟨hgrown, hc'⟩ := children_grown hhost hc₁ hbelow
  exact ⟨⟨location, text, below, hpasses.enters hread, hgrown⟩, hc'⟩

theorem children_error (hhost : host.Canonical) {branch : List Path} {file : SourceFile}
    {c c' : Cache} (hc : c.Faithful host) (h : children host branch file c = (.error e, c')) :
    ∃ place, FailsFirst host branch file place e := by
  rw [children_eq] at h
  obtain ⟨i, d, c₁, hd, hc₁, hnode, hbefore⟩ :=
    mapM_error (fun hc h ↦ (node_grown hhost hc h).2) hc h
  -- What stands before the directive is grown, so a failure at an earlier place is not there.
  have hearlier {j : Nat} (hj : j < i) {place : List Nat} {e : IncludeError} :
      ¬FailsAt host branch file (j :: place) e := by
    intro hfails
    obtain ⟨d', n, c₂, c₃, hd', hc₂, hn⟩ := hbefore j hj
    obtain ⟨⟨location, text, below, henters, hgrown⟩, -⟩ := node_grown hhost hc₂ hn
    exact absurd (hfails.below hd' henters) (Grown.not_failsAt hgrown)
  rcases node_error hhost hc₁ hnode with hfails | ⟨location, text, c₂, henters, hc₂, hbelow⟩
  · refine ⟨[i], ⟨branch, file, d, .here hd, hfails⟩, fun place hless e' ↦ ?_⟩
    cases place with
    | nil => exact not_failsAt_nil
    | cons j place =>
      rcases List.cons_lt_cons_iff.1 hless with hj | ⟨-, hnil⟩
      · exact hearlier hj
      · exact absurd hnil (List.not_lt_nil place)
  · have hlt := unvisited_lt (host.resolve_mem henters.resolves) henters.unvisited
    obtain ⟨place, hfails, hfirst⟩ := children_error hhost hc₂ hbelow
    refine ⟨i :: place, hfails.enter hd henters, fun place' hless e' ↦ ?_⟩
    cases place' with
    | nil => exact not_failsAt_nil
    | cons j place' =>
      rcases List.cons_lt_cons_iff.1 hless with hj | ⟨rfl, hbefore'⟩
      · exact hearlier hj
      · exact fun hfails' ↦ hfirst place' hbefore' e' (hfails'.below hd henters)
termination_by (unvisited host branch).length

end Build

end Transclude
