import Transclude.Compile
import Transclude.Host.Memory

namespace Transclude

namespace Host

/-- Locations that are the same path are written in the same way. -/
def Canonical (host : Host) : Prop :=
  ∀ {context reference location context' reference' location'},
    host.resolve context reference = some location →
    host.resolve context' reference' = some location' →
    location.same location' → location = location'

end Host

namespace MemoryHost

theorem canonical (h : MemoryHost) : h.toHost.Canonical := by
  intro context reference location context' reference' location' hl hl' hsame
  change h.locations.find? (·.same (context.join reference).normalize) = _ at hl
  change h.locations.find? (·.same (context'.join reference').normalize) = _ at hl'
  have hw := List.find?_some hl
  have hw' := List.find?_some hl'
  simp only [Path.same, beq_iff_eq] at hw hw' hsame
  have he : (context.join reference).normalize.components =
      (context'.join reference').normalize.components := by
    rw [← hw, hsame, hw']
  simp only [Path.same, he] at hl hl'
  exact Option.some.inj (hl.symm.trans hl')

end MemoryHost

namespace Cache

variable {host : Host} {c c' : Cache} {location : Path} {file : SourceFile}

/-- Every file is what the host has at a location to which some reference resolves. -/
def Faithful (host : Host) (c : Cache) : Prop :=
  ∀ file ∈ c.files, ∃ context reference text,
    host.resolve context reference = some file.location ∧
    host.read file.location = .ok text ∧ file = .ofText file.location text

theorem faithful_empty (host : Host) : Faithful host {} := by
  intro file hfile
  cases hfile

theorem request_ok (hhost : host.Canonical) (hc : c.Faithful host) {context : Path}
    {reference : String} (hres : host.resolve context reference = some location)
    (h : request host location c = (.ok file, c')) :
    (∃ text, host.read location = .ok text ∧ file = .ofText location text) ∧
      c'.Faithful host := by
  unfold request at h
  split at h
  · next found hfound =>
    obtain ⟨hfile, rfl⟩ := Prod.mk.inj h
    cases hfile
    have hsame : file.location.same location := by
      have := List.find?_some hfound
      simpa using this
    obtain ⟨context', reference', text, hres', hread, hfile⟩ :=
      hc file (List.mem_of_find?_eq_some hfound)
    have he : file.location = location := hhost hres' hres hsame
    rw [he] at hread hfile
    exact ⟨⟨text, hread, hfile⟩, hc⟩
  · next hnone =>
    dsimp only at h
    split at h
    · next text hread =>
      obtain ⟨hfile, rfl⟩ := Prod.mk.inj h
      cases hfile
      refine ⟨⟨text, hread, rfl⟩, fun file hfile ↦ ?_⟩
      rcases List.mem_append.1 hfile with hold | hnew
      · exact hc file hold
      · obtain rfl := List.mem_singleton.1 hnew
        exact ⟨context, reference, text, hres, hread, rfl⟩
    · cases (Prod.mk.inj h).1

end Cache

/-- The nodes for directives in a directory, `branch` being the locations from the root to the
file that they stand in. Every text is read from the host itself. -/
inductive Grown (host : Host) : List Path → Path → List Directive → List Node → Prop
  | nil (branch : List Path) (context : Path) : Grown host branch context [] []
  | cons {branch : List Path} {context location : Path} {d : Directive} {ds : List Directive}
      {condition : Option Condition} {text : String} {below rest : List Node} :
      d.condition.map Condition.compile = condition.map .ok →
      host.resolve context d.reference = some location →
      ¬branch.any (·.same location) →
      host.read location = .ok text →
      Grown host (branch ++ [location]) location.context (Directive.scan text) below →
      Grown host branch context ds rest →
      Grown host branch context (d :: ds) (.mk d condition (.ofText location text) below :: rest)

theorem Grown.unique {host : Host} {branch branch' : List Path} {context : Path}
    {ds : List Directive} {nodes nodes' : List Node} (h : Grown host branch context ds nodes)
    (h' : Grown host branch' context ds nodes') : nodes = nodes' := by
  induction h generalizing branch' nodes' with
  | nil =>
    cases h'
    rfl
  | cons hcompile hres _ hread _ _ ihbelow ihrest =>
    cases h' with
    | cons hcompile' hres' _ hread' hbelow' hrest' =>
      obtain rfl := Option.some.inj (hres.symm.trans hres')
      obtain rfl := Except.ok.inj (hread.symm.trans hread')
      obtain rfl := Option.map_injective (fun _ _ ↦ Except.ok.inj) (hcompile.symm.trans hcompile')
      rw [ihbelow hbelow', ihrest hrest']

theorem Grown.map_directive {host : Host} {branch : List Path} {context : Path}
    {ds : List Directive} {nodes : List Node} (h : Grown host branch context ds nodes) :
    nodes.map Node.directive = ds := by
  induction h with
  | nil => rfl
  | cons _ _ _ _ _ _ _ ih => rw [List.map_cons, ih, Node.directive]

namespace Build

variable {host : Host} {branch : List Path} {file : SourceFile} {c c' : Cache}

theorem bind_ok {α β : Type} {x : BuildM α} {f : α → BuildM β} {b : β}
    (h : (x >>= f) c = (.ok b, c')) :
    ∃ a c₁, x c = (.ok a, c₁) ∧ f a c₁ = (.ok b, c') := by
  cases hx : x c with
  | mk result c₁ =>
    change ExceptT.bindCont f (x c).1 (x c).2 = _ at h
    rw [hx] at h
    cases result with
    | error e => cases h
    | ok a => exact ⟨a, c₁, rfl, h⟩

theorem children_eq (host : Host) (branch : List Path) (file : SourceFile) :
    children host branch file = (Directive.scan file.text).mapM (node host branch file) := by
  rw [children]

theorem node_eq (host : Host) (branch : List Path) (file : SourceFile) (d : Directive)
    (c : Cache) :
    node host branch file d c =
      match prepare host branch file d with
      | .error e => (.error e, c)
      | .ok (condition, location) => (do
          let included ← readFile host file.location location
          let below ← children host (branch ++ [location]) included
          pure (.mk d condition included below) : BuildM Node) c := by
  rw [node]
  split
  · next e hprepare =>
    rw [hprepare]
    rfl
  · next condition location hprepare => rw [hprepare]

theorem readFile_ok {referrer location : Path} {included : SourceFile}
    (h : readFile host referrer location c = (.ok included, c')) :
    Cache.request host location c = (.ok included, c') := by
  obtain ⟨result, c₁, hrequest, h⟩ := bind_ok h
  have hr : Cache.request host location c = (result, c₁) := by
    cases hrequest
    rfl
  cases result with
  | ok found =>
    cases h
    exact hr
  | error fault => cases h

theorem node_made {d : Directive} {n : Node} (h : node host branch file d c = (.ok n, c')) :
    ∃ condition location included below c₁,
      prepare host branch file d = .ok (condition, location) ∧
      Cache.request host location c = (.ok included, c₁) ∧
      children host (branch ++ [location]) included c₁ = (.ok below, c') ∧
      n = .mk d condition included below := by
  rw [node_eq] at h
  split at h
  · cases h
  · next condition location hprepare =>
    obtain ⟨included, c₁, hread, h⟩ := bind_ok h
    obtain ⟨below, c₂, hbelow, h⟩ := bind_ok h
    cases h
    exact ⟨condition, location, included, below, c₁, hprepare, readFile_ok hread, hbelow, rfl⟩

theorem mapM_node_grown {ds : List Directive} {nodes : List Node}
    (hnode : ∀ {d n c c'}, c.Faithful host → node host branch file d c = (.ok n, c') →
      c'.Faithful host ∧ ∀ {ds rest}, Grown host branch file.context ds rest →
        Grown host branch file.context (d :: ds) (n :: rest))
    (hc : c.Faithful host) (h : ds.mapM (node host branch file) c = (.ok nodes, c')) :
    Grown host branch file.context ds nodes ∧ c'.Faithful host := by
  induction ds generalizing c nodes with
  | nil =>
    rw [List.mapM_nil] at h
    cases h
    exact ⟨.nil _ _, hc⟩
  | cons d ds ih =>
    rw [List.mapM_cons] at h
    obtain ⟨n, c₁, hn, h⟩ := bind_ok h
    obtain ⟨rest, c₂, hrest, h⟩ := bind_ok h
    cases h
    obtain ⟨hc₁, hcons⟩ := hnode hc hn
    obtain ⟨hgrown, hc₂⟩ := ih hc₁ hrest
    exact ⟨hcons hgrown, hc₂⟩

theorem children_grown (hhost : host.Canonical) {branch : List Path} {file : SourceFile}
    {nodes : List Node} {c c' : Cache} (hc : c.Faithful host)
    (h : children host branch file c = (.ok nodes, c')) :
    Grown host branch file.context (Directive.scan file.text) nodes ∧ c'.Faithful host := by
  rw [children_eq] at h
  refine mapM_node_grown (fun {d n c c'} hc hn ↦ ?_) hc h
  obtain ⟨condition, location, included, below, c₁, hprepare, hrequest, hbelow, rfl⟩ := node_made hn
  have hpasses := prepare_ok hprepare
  obtain ⟨⟨text, hread, rfl⟩, hc₁⟩ := Cache.request_ok hhost hc hpasses.resolves hrequest
  -- The branch has grown by a location of the host, so fewer are left to visit below it.
  have hlt := unvisited_lt_of_passes hpasses
  obtain ⟨hgrown, hc'⟩ := children_grown hhost hc₁ hbelow
  exact ⟨hc', fun hrest ↦
    .cons hpasses.compiled hpasses.resolves hpasses.unvisited hread hgrown hrest⟩
termination_by (unvisited host branch).length

end Build

theorem buildTree_of_expand {host : Host} {root : SourceFile} {e : Expansion} {c : Cache}
    (h : expand host root = (.ok e, c)) :
    ∃ tree, buildTree host root = (.ok tree, c) ∧ e = Expansion.ofTree tree := by
  unfold expand at h
  cases hbuild : buildTree host root with
  | mk result c' =>
    rw [hbuild] at h
    cases result with
    | error err => cases h
    | ok tree =>
      cases h
      exact ⟨tree, rfl, rfl⟩

theorem MemoryHost.grown_of_buildTree (h : MemoryHost) {root : SourceFile} {tree : IncludeTree}
    {c : Cache} (hbuild : buildTree h.toHost root = (.ok tree, c)) :
    tree.root = root ∧
      Grown h.toHost [root.location] root.context (Directive.scan root.text) tree.children := by
  unfold buildTree IncludeTree.build at hbuild
  split at hbuild
  · next children c' hchildren =>
    cases hbuild
    exact ⟨rfl, (Build.children_grown h.canonical (Cache.faithful_empty _) hchildren).1⟩
  · cases hbuild

end Transclude
