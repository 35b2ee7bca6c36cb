import Mathlib.Data.List.Chain
import Mathlib.Logic.Relation
import Transclude.Proofs.NodeStep
import Transclude.Report.Failure

namespace Transclude

/-- The file at a location: the root at its own, and what the host has at any other. -/
def fileAt? (host : Host) (root : SourceFile) (location : Path) : Option SourceFile :=
  if root.location.same location then some root
  else (host.read location).toOption.map (SourceFile.ofText location)

def Includes (host : Host) (root : SourceFile) (x y : Path) : Prop :=
  ∃ file d, fileAt? host root x = some file ∧ d ∈ Directive.scan file.text ∧
    host.resolve file.context d.reference = some y

def Reachable (host : Host) (root : SourceFile) : Path → Prop :=
  Relation.ReflTransGen (Includes host root) root.location

/-- Every directive that can be reached has a condition that can be read, a reference that resolves,
and a target that can be read. -/
def Sound (host : Host) (root : SourceFile) : Prop :=
  ∀ x file d, Reachable host root x → fileAt? host root x = some file →
    d ∈ Directive.scan file.text →
    d.Compiles ∧ ∃ y text, host.resolve file.context d.reference = some y ∧ host.read y = .ok text

/-- No walk leads from a reachable location back to it. -/
def Acyclic (host : Host) (root : SourceFile) : Prop :=
  ∀ x y, Reachable host root x → Relation.TransGen (Includes host root) x y → ¬x.same y

/-- A walk from the root to a file that comes to no location twice. -/
structure Leads (host : Host) (root : SourceFile) (branch : List Path) (file : SourceFile) :
    Prop where
  head : branch.head? = some root.location
  last : branch.getLast? = some file.location
  distinct : branch.Pairwise fun x y ↦ ¬x.same y
  edges : branch.IsChain (Includes host root)
  fileAt : fileAt? host root file.location = some file

variable {host : Host} {root : SourceFile} {branch branch' : List Path} {file file' : SourceFile}
  {d : Directive} {x y location : Path} {text : String} {place : List Nat} {e : IncludeError}

theorem leads_root (host : Host) (root : SourceFile) : Leads host root [root.location] root where
  head := rfl
  last := rfl
  distinct := List.pairwise_singleton _ _
  edges := List.isChain_singleton _
  fileAt := by simp [fileAt?]

theorem Leads.includes (h : Leads host root branch file) (hd : d ∈ Directive.scan file.text)
    (hres : host.resolve file.context d.reference = some y) :
    Includes host root file.location y := ⟨file, d, h.fileAt, hd, hres⟩

theorem Leads.isChain_append (h : Leads host root branch file)
    (hedge : Includes host root file.location y) :
    (branch ++ [y]).IsChain (Includes host root) := by
  refine h.edges.append (List.isChain_singleton y) fun a ha b hb ↦ ?_
  obtain rfl : a = file.location := Option.some.inj (ha.symm.trans h.last)
  obtain rfl : y = b := Option.some.inj hb
  exact hedge

theorem pairwise_append_unvisited (h : branch.Pairwise fun x y ↦ ¬x.same y)
    (hnew : ¬branch.any (·.same y)) : (branch ++ [y]).Pairwise fun x y ↦ ¬x.same y := by
  refine List.pairwise_append.2 ⟨h, List.pairwise_singleton _ _, fun a ha b hb ↦ ?_⟩
  obtain rfl := List.mem_singleton.1 hb
  exact fun hsame ↦ hnew (List.any_eq_true.2 ⟨a, ha, hsame⟩)

theorem Leads.enter (h : Leads host root branch file) (hd : d ∈ Directive.scan file.text)
    (henters : Enters host branch file d location text) :
    Leads host root (branch ++ [location]) (.ofText location text) where
  head := by simp [h.head]
  last := by simp [SourceFile.ofText]
  distinct := pairwise_append_unvisited h.distinct henters.unvisited
  edges := h.isChain_append (h.includes hd henters.resolves)
  fileAt := by
    have hroot : ¬root.location.same location := fun hsame ↦
      henters.unvisited (List.any_eq_true.2 ⟨_, List.mem_of_head? h.head, hsame⟩)
    change fileAt? host root location = _
    rw [fileAt?, if_neg hroot, henters.reads]
    rfl

theorem Occurs.leads (h : Occurs host branch file place branch' file' d)
    (hleads : Leads host root branch file) :
    Leads host root branch' file' ∧ d ∈ Directive.scan file'.text := by
  induction h with
  | here hd => exact ⟨hleads, List.mem_of_getElem? hd⟩
  | deeper hd henters _ ih => exact ih (hleads.enter (List.mem_of_getElem? hd) henters)

theorem Leads.reachable (h : Leads host root branch file) (hx : x ∈ branch) :
    Reachable host root x := by
  obtain ⟨before, after, rfl⟩ := List.append_of_mem hx
  have hchain := (List.isChain_split.1 h.edges).1
  cases before with
  | nil =>
    obtain rfl : x = root.location := Option.some.inj h.head
    exact .refl
  | cons a before =>
    obtain rfl : a = root.location := Option.some.inj h.head
    exact List.relationReflTransGen_of_exists_isChain_cons (before ++ [x]) hchain (by simp)

theorem Leads.reaches_last (h : Leads host root branch file) (hx : x ∈ branch) :
    Relation.ReflTransGen (Includes host root) x file.location := by
  obtain ⟨before, after, rfl⟩ := List.append_of_mem hx
  have hlast := h.last
  rw [List.getLast?_append_of_ne_nil _ (by simp)] at hlast
  exact List.relationReflTransGen_of_exists_isChain_cons after (List.isChain_split.1 h.edges).2
    (List.getLast_of_getLast?_eq_some hlast)

structure Built (host : Host) (root : SourceFile) (branch : List Path) (file : SourceFile) : Prop
    extends Leads host root branch file where
  grown : ∃ nodes, Grown host branch file.context (Directive.scan file.text) nodes

theorem Built.enters (h : Built host root branch file) (hd : d ∈ Directive.scan file.text) :
    ∃ location text, Enters host branch file d location text ∧
      Built host root (branch ++ [location]) (.ofText location text) := by
  obtain ⟨nodes, hgrown⟩ := h.grown
  obtain ⟨i, hi⟩ := List.getElem?_of_mem hd
  obtain ⟨location, text, below, henters, hbelow⟩ := hgrown.enters hi
  exact ⟨location, text, henters, h.toLeads.enter hd henters, below, hbelow⟩

theorem Built.step (h : Built host root branch file) (hedge : Includes host root file.location y) :
    ∃ file', file'.location = y ∧ Built host root (branch ++ [y]) file' := by
  obtain ⟨file₁, d, hfile, hd, hres⟩ := hedge
  obtain rfl := Option.some.inj (h.fileAt.symm.trans hfile)
  obtain ⟨location, text, henters, hbuilt⟩ := h.enters hd
  obtain rfl := Option.some.inj (henters.resolves.symm.trans hres)
  exact ⟨.ofText location text, rfl, hbuilt⟩

theorem Built.walk (h : Built host root branch file)
    (hwalk : Relation.TransGen (Includes host root) file.location y) :
    ∃ more file', y ∈ more ∧ file'.location = y ∧ Built host root (branch ++ more) file' := by
  induction hwalk with
  | single hedge =>
    obtain ⟨file', hfile', hbuilt⟩ := h.step hedge
    exact ⟨[_], file', List.mem_singleton.2 rfl, hfile', hbuilt⟩
  | tail _ hedge ih =>
    obtain ⟨more, file₁, -, rfl, hbuilt₁⟩ := ih
    obtain ⟨file', hfile', hbuilt⟩ := hbuilt₁.step hedge
    rw [List.append_assoc] at hbuilt
    exact ⟨more ++ [_], file', by simp, hfile', hbuilt⟩

theorem Built.reachable (h : Built host root [root.location] root) (hx : Reachable host root x) :
    ∃ branch file, file.location = x ∧ Built host root branch file := by
  rcases Relation.reflTransGen_iff_eq_or_transGen.1 hx with rfl | hwalk
  · exact ⟨_, root, rfl, h⟩
  · obtain ⟨more, file, -, hfile, hbuilt⟩ := h.walk hwalk
    exact ⟨_, file, hfile, hbuilt⟩

theorem Built.sound (h : Built host root [root.location] root) : Sound host root := by
  intro x file d hx hfile hd
  obtain ⟨branch, file₁, rfl, hbuilt⟩ := h.reachable hx
  obtain rfl := Option.some.inj (hbuilt.fileAt.symm.trans hfile)
  obtain ⟨location, text, henters, -⟩ := hbuilt.enters hd
  exact ⟨henters.compiles, location, text, henters.resolves, henters.reads⟩

theorem Built.acyclic (h : Built host root [root.location] root) : Acyclic host root := by
  intro x y hx hwalk
  obtain ⟨branch, file, rfl, hbuilt⟩ := h.reachable hx
  obtain ⟨more, file', hy, -, hbuilt'⟩ := hbuilt.walk hwalk
  have hmem : file.location ∈ branch := List.mem_of_getLast? hbuilt.last
  exact (List.pairwise_append.1 hbuilt'.distinct).2.2 _ hmem _ hy

theorem Leads.not_fails (h : Leads host root branch file) (hd : d ∈ Directive.scan file.text)
    (hsound : Sound host root) (hacyclic : Acyclic host root) : ¬Fails host branch file d e := by
  intro hfails
  have hreachable : Reachable host root file.location := h.reachable (List.mem_of_getLast? h.last)
  obtain ⟨hcompiles, y, text, hresolves, hreads⟩ := hsound _ _ d hreachable h.fileAt hd
  cases hfails with
  | condition hexpression hcompile => exact hcompiles.ne_error hexpression hcompile
  | unresolved _ hres => simp [hresolves] at hres
  | circular _ hres hvisited =>
    -- The branch from the earlier visit on, closed by this directive, is a cycle.
    obtain ⟨x, hx, hsame⟩ := List.any_eq_true.1 hvisited
    have hwalk := Relation.TransGen.tail' (h.reaches_last hx) (h.includes hd hres)
    exact hacyclic x _ (h.reachable hx) hwalk hsame
  | unreadable _ hres _ hread =>
    obtain rfl := Option.some.inj (hresolves.symm.trans hres)
    cases hreads.symm.trans hread

theorem FailsAt.not_sound_acyclic (h : FailsAt host [root.location] root place e) :
    ¬(Sound host root ∧ Acyclic host root) := by
  rintro ⟨hsound, hacyclic⟩
  obtain ⟨branch, file, d, hoccurs, hfails⟩ := h
  obtain ⟨hleads, hd⟩ := hoccurs.leads (leads_root host root)
  exact hleads.not_fails hd hsound hacyclic hfails

theorem Fails.referrer (h : Fails host branch file d e) : e.referrer = file.location := by
  cases h <;> rfl

/-- The error of the first directive that fails under a root, in depth-first order of the sources.
It names the file of that directive. -/
def FirstFailure (host : Host) (root : SourceFile) (e : IncludeError) : Prop :=
  ∃ place branch file d, Occurs host [root.location] root place branch file d ∧
    Fails host branch file d e ∧ e.referrer = file.location ∧
    ∀ place' < place, ∀ branch' file' d' e',
      Occurs host [root.location] root place' branch' file' d' → ¬Fails host branch' file' d' e'

theorem firstFailure_iff :
    FirstFailure host root e ↔ ∃ place, FailsFirst host [root.location] root place e := by
  constructor
  · rintro ⟨place, branch, file, d, hoccurs, hfails, -, hfirst⟩
    refine ⟨place, ⟨branch, file, d, hoccurs, hfails⟩, ?_⟩
    rintro place' hlt e' ⟨branch', file', d', hoccurs', hfails'⟩
    exact hfirst place' hlt branch' file' d' e' hoccurs' hfails'
  · rintro ⟨place, ⟨branch, file, d, hoccurs, hfails⟩, hfirst⟩
    refine ⟨place, branch, file, d, hoccurs, hfails, hfails.referrer, ?_⟩
    intro place' hlt branch' file' d' e' hoccurs' hfails'
    exact hfirst place' hlt e' ⟨branch', file', d', hoccurs', hfails'⟩

namespace MemoryHost

theorem failsFirst_of_buildTree (h : MemoryHost) {c : Cache}
    (hbuild : buildTree h.toHost root = (.error e, c)) :
    ∃ place, FailsFirst h.toHost [root.location] root place e := by
  unfold buildTree IncludeTree.build at hbuild
  split at hbuild
  · cases hbuild
  · next e' c' hchildren =>
    cases hbuild
    exact Build.children_error h.canonical (Cache.faithful_empty _) hchildren

theorem buildTree_eq_error_iff (h : MemoryHost) :
    (buildTree h.toHost root).1 = .error e ↔ FirstFailure h.toHost root e := by
  rw [firstFailure_iff]
  constructor
  · intro herror
    exact h.failsFirst_of_buildTree (Prod.ext herror rfl)
  · rintro ⟨place, hfirst⟩
    cases hbuild : buildTree h.toHost root with
    | mk result c =>
      cases result with
      | ok tree => exact absurd hfirst.1 (h.grown_of_buildTree hbuild).2.not_failsAt
      | error e' =>
        obtain ⟨place', hfirst'⟩ := h.failsFirst_of_buildTree hbuild
        rw [hfirst.unique hfirst']

end MemoryHost

end Transclude
