import Transclude.Proofs.Schedule

namespace Transclude

/-- The nodes are those of the directives of a file, in their order, and each has the file to which
its reference leads. -/
structure Mirrors (host : Host) (file : SourceFile) (nodes : List Node) : Prop where
  directives : nodes.map Node.directive = Directive.scan file.text
  conditions : ∀ n ∈ nodes, n.directive.condition.map Condition.compile = n.condition.map .ok
  resolved : ∀ n ∈ nodes, host.resolve file.context n.directive.reference = some n.location
  texts : ∀ n ∈ nodes, host.read n.location = .ok n.file.text
  contexts : ∀ n ∈ nodes, n.file.context = n.location.context

/-- Nodes of which each is a child of the one before it, the first being one of those given. -/
inductive Descends : List Node → List Node → Prop
  | stop (nodes : List Node) : Descends nodes []
  | step {nodes trail : List Node} {n : Node} :
      n ∈ nodes → Descends n.children trail → Descends nodes (n :: trail)

/-- What holds of the trees that builds return. -/
structure IncludeTree.WellFormed (host : Host) (tree : IncludeTree) : Prop where
  root : Mirrors host tree.root tree.children
  nodes : ∀ n ∈ tree.nodes, Mirrors host n.file n.children
  branches : ∀ trail, Descends tree.children trail →
    (tree.root.location :: trail.map Node.location).Pairwise fun x y ↦ ¬x.same y
  shared : ∀ n ∈ tree.nodes, ∀ m ∈ tree.nodes, n.location.same m.location →
    n.file = m.file ∧ n.children = m.children

structure Node.Grafted (host : Host) (branch : List Path) (context : Path) (n : Node) : Prop where
  passes : Passes host branch context n.directive n.condition n.location
  text : host.read n.location = .ok n.file.text
  context : n.file.context = n.location.context
  grown : Grown host (branch ++ [n.location]) n.file.context (Directive.scan n.file.text) n.children

namespace Grown

variable {host : Host} {branch : List Path} {context : Path} {ds : List Directive}
  {nodes : List Node}

theorem grafted (h : Grown host branch context ds nodes) :
    ∀ n ∈ nodes, n.Grafted host branch context := by
  induction h with
  | nil => simp
  | cons hcompile hres hnew hread hbelow _ _ ihrest =>
    exact List.forall_mem_cons.2 ⟨⟨⟨hcompile, hres, hnew⟩, hread, rfl, hbelow⟩, ihrest⟩

theorem grafted_preorder (h : Grown host branch context ds nodes) {depth : Nat} :
    ∀ p ∈ Node.preorderList depth nodes, ∃ branch' context', p.2.Grafted host branch' context' := by
  induction h generalizing depth with
  | nil => simp [Node.preorderList]
  | @cons branch context _ _ _ _ _ _ _ hcompile hres hnew hread hbelow _ ihbelow ihrest =>
    rw [Node.preorderList, Node.preorder]
    refine List.forall_mem_append.2 ⟨List.forall_mem_cons.2 ⟨?_, ihbelow⟩, ihrest⟩
    exact ⟨branch, context, ⟨hcompile, hres, hnew⟩, hread, rfl, hbelow⟩

theorem mirrors {file : SourceFile}
    (h : Grown host branch file.context (Directive.scan file.text) nodes) :
    Mirrors host file nodes where
  directives := h.map_directive
  conditions n hn := (h.grafted n hn).passes.compiled
  resolved n hn := (h.grafted n hn).passes.resolves
  texts n hn := (h.grafted n hn).text
  contexts n hn := (h.grafted n hn).context

theorem pairwise_descends (h : Grown host branch context ds nodes) {trail : List Node}
    (htrail : Descends nodes trail) (hbranch : branch.Pairwise fun x y ↦ ¬x.same y) :
    (branch ++ trail.map Node.location).Pairwise fun x y ↦ ¬x.same y := by
  induction htrail generalizing branch context ds with
  | stop => simpa using hbranch
  | @step _ trail n hn _ ih =>
    have hgrafted := h.grafted n hn
    have hlonger := pairwise_append_unvisited hbranch hgrafted.passes.unvisited
    simpa using ih hgrafted.grown hlonger

end Grown

theorem Node.Grafted.shared {host : Host} {branch branch' : List Path} {context context' : Path}
    {n m : Node} (hhost : host.Canonical) (hn : n.Grafted host branch context)
    (hm : m.Grafted host branch' context') (hsame : n.location.same m.location) :
    n.file = m.file ∧ n.children = m.children := by
  have hlocation : n.location = m.location := hhost hn.passes.resolves hm.passes.resolves hsame
  have htext : n.file.text = m.file.text := by
    have hread := hn.text
    rw [hlocation, hm.text] at hread
    exact (Except.ok.inj hread).symm
  have hcontext : n.file.context = m.file.context := by rw [hn.context, hlocation, ← hm.context]
  have hfile : n.file = m.file := by
    rw [SourceFile.mk.injEq]
    exact ⟨hlocation, hcontext, htext⟩
  -- The nodes below are determined by the file alone, although the branches are different.
  have hgrown := hn.grown
  rw [hfile] at hgrown
  exact ⟨hfile, hgrown.unique hm.grown⟩

/-- The tree of a root is well-formed, in whatever order its branches are built. -/
theorem wellFormed_of_build (h : MemoryHost) {root : SourceFile} {tree : IncludeTree}
    (hbuild : (buildTree h.toHost root).1 = .ok tree ∨
      ∃ schedule, IncludeTree.outcome? h.toHost root schedule = some (.ok tree)) :
    tree.root = root ∧ tree.WellFormed h.toHost := by
  obtain ⟨schedule, houtcome⟩ :
      ∃ schedule, IncludeTree.outcome? h.toHost root schedule = some (.ok tree) := by
    rcases hbuild with hbuild | hbuild
    · rw [← hbuild]
      exact IncludeTree.exists_outcome? h.toHost root
    · exact hbuild
  obtain ⟨rfl, hgrown⟩ := IncludeTree.grown_of_outcome? h.canonical houtcome
  have hgrafted : ∀ n ∈ tree.nodes, ∃ branch context, n.Grafted h.toHost branch context := by
    intro n hn
    obtain ⟨p, hp, rfl⟩ := List.mem_map.1 hn
    exact hgrown.grafted_preorder p hp
  refine ⟨rfl, hgrown.mirrors, ?_, ?_, ?_⟩
  · intro n hn
    obtain ⟨branch, context, hn⟩ := hgrafted n hn
    exact hn.grown.mirrors
  · intro trail htrail
    exact hgrown.pairwise_descends htrail (List.pairwise_singleton _ _)
  · intro n hn m hm hsame
    obtain ⟨branch, context, hn⟩ := hgrafted n hn
    obtain ⟨branch', context', hm⟩ := hgrafted m hm
    exact hn.shared h.canonical hm hsame

def twiceHost : MemoryHost :=
  .ofEntries [(⟨"/p/a"⟩, "A\r#include parts/c if on"), (⟨"/p/parts/c"⟩, "#include ../d\n"),
    (⟨"/p/d"⟩, "D\n")] []

def twiceRoot : SourceFile := ⟨⟨"/p/r"⟩, ⟨"/p"⟩, "#include parts/./c\n#include a\n"⟩

theorem wellFormed_twice :
    ∃ tree, (buildTree twiceHost.toHost twiceRoot).1 = .ok tree ∧
      tree.nodes.map Node.location =
        [⟨"/p/parts/c"⟩, ⟨"/p/d"⟩, ⟨"/p/a"⟩, ⟨"/p/parts/c"⟩, ⟨"/p/d"⟩] ∧
      tree.root = twiceRoot ∧ tree.WellFormed twiceHost.toHost := by
  have hlocations : (buildTree twiceHost.toHost twiceRoot).1.map (·.nodes.map Node.location) =
      .ok [⟨"/p/parts/c"⟩, ⟨"/p/d"⟩, ⟨"/p/a"⟩, ⟨"/p/parts/c"⟩, ⟨"/p/d"⟩] := by
    decide +kernel
  obtain ⟨tree, hbuild, hnodes⟩ := map_ok hlocations
  exact ⟨tree, hbuild, hnodes.symm, wellFormed_of_build twiceHost (.inl hbuild)⟩

end Transclude
