import Transclude.Proofs.Coalescing
import Transclude.Proofs.Growth

namespace Transclude

namespace Cache

variable {host : Host} {c c₁ c' : Cache} {location : Path} {file : SourceFile}

def Placed (c : Cache) : Prop := ∀ file ∈ c.files, file = .ofText file.location file.text

/-- A later moment of a cache: the files that were found are found again. -/
structure Leads (c c' : Cache) : Prop where
  kept : ∀ {location file}, c.find? location = some file → c'.find? location = some file
  placed : c.Placed → c'.Placed

theorem Leads.refl (c : Cache) : c.Leads c := ⟨id, id⟩

theorem Leads.trans (h : c.Leads c₁) (h' : c₁.Leads c') : c.Leads c' :=
  ⟨h'.kept ∘ h.kept, h'.placed ∘ h.placed⟩

theorem same_of_found (h : c.find? location = some file) : file.location.same location := by
  simpa using List.find?_some h

theorem mem_of_found (h : c.find? location = some file) : file ∈ c.files :=
  List.mem_of_find?_eq_some h

theorem request_found (h : request host location c = (.ok file, c')) :
    c'.find? location = some file ∧ c.Leads c' := by
  unfold request at h
  split at h
  · next found hfound =>
    cases h
    exact ⟨hfound, id, id⟩
  · next hnone =>
    dsimp only at h
    split at h
    · next text hread =>
      cases h
      refine ⟨?_, ?_, ?_⟩
      · rw [find?_keep_of_none (c := c.startRead location) hnone]
        simp [SourceFile.ofText]
      · intro location' file hfile
        exact find?_keep_of_some (c := c.startRead location) hfile _
      · intro hc
        refine List.forall_mem_append.2 ⟨hc, ?_⟩
        simp [SourceFile.ofText]
    · cases h

end Cache

/-- What a cache has of a host. A reference leads to the file that was found for it, or nowhere. -/
def Host.cached (host : Host) (c : Cache) : Host where
  resolve context reference :=
    (host.resolve context reference).bind fun l ↦ (c.find? l).map SourceFile.location
  read location :=
    match c.find? location with
    | some file => .ok file.text
    | none => host.read location
  suggest := host.suggest
  locations := c.files.map SourceFile.location
  resolve_mem := by
    intro context reference location h
    obtain ⟨l, -, h⟩ := Option.bind_eq_some_iff.1 h
    obtain ⟨file, hfile, rfl⟩ := Option.map_eq_some_iff.1 h
    exact List.mem_map_of_mem (Cache.mem_of_found hfile)

namespace Host

variable {host : Host} {c : Cache} {location : Path} {file : SourceFile}

theorem cached_resolve {context : Path} {reference : String}
    (hres : host.resolve context reference = some location)
    (hfile : c.find? location = some file) :
    (host.cached c).resolve context reference = some file.location := by
  simp [cached, hres, hfile]

theorem cached_read (hfile : c.find? location = some file) :
    (host.cached c).read file.location = .ok file.text := by
  have hfound : c.find? file.location = some file :=
    (Cache.find?_same c (Cache.same_of_found hfile)).trans hfile
  simp [cached, hfound]

theorem canonical_cached (host : Host) (c : Cache) : (host.cached c).Canonical := by
  intro context reference location context' reference' location' hres hres' hsame
  obtain ⟨l, -, hl⟩ := Option.bind_eq_some_iff.1 hres
  obtain ⟨l', -, hl'⟩ := Option.bind_eq_some_iff.1 hres'
  obtain ⟨file, hfile, rfl⟩ := Option.map_eq_some_iff.1 hl
  obtain ⟨file', hfile', rfl⟩ := Option.map_eq_some_iff.1 hl'
  have hbetween : l.same file'.location :=
    Path.same_trans (Path.same_symm (Cache.same_of_found hfile)) hsame
  rw [Cache.find?_same c (Path.same_trans hbetween (Cache.same_of_found hfile')), hfile'] at hfile
  rw [Option.some.inj hfile]

end Host

namespace Build

variable {host : Host} {file : SourceFile}

theorem any_same_eq (branch : List Path) (location : Path) :
    branch.any (·.same location) = (branch.map Path.components).any (· == location.components) := by
  simp [List.any_map, Path.same, Function.comp_def]

theorem mapM_node_cached {branch branch' : List Path} {last c c' : Cache} {ds : List Directive}
    {nodes : List Node}
    (hnode : ∀ {d n c c'}, node host branch file d c = (.ok n, c') → c.Leads c' ∧
      (c'.Leads last → last.Placed →
        ∀ {ds rest}, Grown (host.cached last) branch' file.context ds rest →
          Grown (host.cached last) branch' file.context (d :: ds) (n :: rest)))
    (h : ds.mapM (node host branch file) c = (.ok nodes, c')) :
    c.Leads c' ∧ (c'.Leads last → last.Placed →
      Grown (host.cached last) branch' file.context ds nodes) := by
  induction ds generalizing c nodes with
  | nil =>
    rw [List.mapM_nil] at h
    cases h
    exact ⟨.refl _, fun _ _ ↦ .nil _ _⟩
  | cons d ds ih =>
    rw [List.mapM_cons] at h
    obtain ⟨n, c₁, hn, h⟩ := bind_ok h
    obtain ⟨rest, c₂, hrest, h⟩ := bind_ok h
    cases h
    obtain ⟨hleads, hcons⟩ := hnode hn
    obtain ⟨hleads', hgrown⟩ := ih hrest
    refine ⟨hleads.trans hleads', fun hlater hlast ↦ ?_⟩
    exact hcons (hleads'.trans hlater) hlast (hgrown hlater hlast)

theorem children_cached {branch branch' : List Path} {file : SourceFile} {nodes : List Node}
    {last c c' : Cache} (hbranch : branch'.map Path.components = branch.map Path.components)
    (h : children host branch file c = (.ok nodes, c')) :
    c.Leads c' ∧ (c'.Leads last → last.Placed →
      Grown (host.cached last) branch' file.context (Directive.scan file.text) nodes) := by
  rw [children_eq] at h
  refine mapM_node_cached (fun {d n c c'} hn ↦ ?_) h
  obtain ⟨condition, location, included, below, c₁, hprepare, hrequest, hbelow, rfl⟩ := node_made hn
  obtain ⟨hcompile, hres, hnew⟩ := prepare_ok hprepare
  obtain ⟨hfound, hleads⟩ := Cache.request_found hrequest
  have hsame := Path.same_iff.1 (Cache.same_of_found hfound)
  -- The branch may be spelled in another way than that of the build.
  have hlonger : (branch' ++ [included.location]).map Path.components =
      (branch ++ [location]).map Path.components := by
    simp [hbranch, hsame]
  have hlt := unvisited_lt (host.resolve_mem hres) hnew
  obtain ⟨hleads', hgrown⟩ := children_cached hlonger hbelow
  refine ⟨hleads.trans hleads', fun hlater hlast ds rest hrest ↦ ?_⟩
  have hkept := (hleads'.trans hlater).kept hfound
  have hnew' : ¬branch'.any (·.same included.location) := by
    rwa [any_same_eq, hbranch, hsame, ← any_same_eq]
  have hgrown := hgrown hlater hlast
  rw [hlast included (Cache.mem_of_found hkept)] at hgrown ⊢
  exact .cons hcompile (Host.cached_resolve hres hkept) hnew' (Host.cached_read hkept) hgrown hrest
termination_by (unvisited host branch).length

end Build

theorem exists_canonical_grown {host : Host} {root : SourceFile} {tree : IncludeTree}
    (h : (buildTree host root).1 = .ok tree) :
    ∃ host' : Host, host'.Canonical ∧ tree.root = root ∧
      Grown host' [root.location] root.context (Directive.scan root.text) tree.children := by
  unfold buildTree IncludeTree.build at h
  split at h
  · next children c hchildren =>
    cases h
    have hempty : Cache.Placed {} := by simp [Cache.Placed]
    obtain ⟨hleads, hgrown⟩ := Build.children_cached rfl hchildren
    exact ⟨host.cached c, host.canonical_cached c, rfl, hgrown (.refl c) (hleads.placed hempty)⟩
  · cases h

end Transclude
