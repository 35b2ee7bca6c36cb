import Transclude.Proofs.Coalescing
import Transclude.Proofs.Cycle
import Transclude.Proofs.NodeStep

namespace Transclude

open IncludeTree (addLocation)

namespace Cache

/-- Reads are registered and counted, and none is of a location that was read before or of the
root. -/
structure Ledger (root : Path) (c : Cache) : Prop where
  registered : c.journal.dependencies = c.journal.reads
  counted : c.misses = c.journal.reads.length
  distinct : c.journal.reads.Pairwise fun x y ↦ ¬x.same y
  avoids : ∀ l ∈ c.journal.reads, ¬root.same l

structure Balanced (root : Path) (c : Cache) : Prop extends Ledger root c where
  kept : c.files.map SourceFile.location = c.journal.reads

/-- The nodes are those for which files were requested between two moments of a build. -/
structure Tallied (root : Path) (c : Cache) (nodes : List Node) (c' : Cache) : Prop where
  balanced : c'.Balanced root
  reads : c'.journal.reads = (nodes.map Node.location).foldl addLocation c.journal.reads
  requests : c'.hits + c'.misses = c.hits + c.misses + nodes.length

variable {host : Host} {root location : Path} {c c' c₁ : Cache} {nodes nodes' : List Node}

theorem balanced_empty (root : Path) : Balanced root {} where
  registered := rfl
  counted := rfl
  distinct := .nil
  avoids := by simp
  kept := rfl

theorem Balanced.tallied_nil (h : c.Balanced root) : Tallied root c [] c := ⟨h, rfl, rfl⟩

theorem Tallied.append (h : Tallied root c nodes c₁) (h' : Tallied root c₁ nodes' c') :
    Tallied root c (nodes ++ nodes') c' where
  balanced := h'.balanced
  reads := by rw [h'.reads, h.reads, List.map_append, List.foldl_append]
  requests := by
    rw [h'.requests, h.requests, List.length_append]
    omega

theorem Balanced.read_of_found (h : c.Balanced root) {file : SourceFile}
    (hfile : c.find? location = some file) : file.location ∈ c.journal.reads := by
  rw [← h.kept]
  exact List.mem_map_of_mem (List.mem_of_find?_eq_some hfile)

theorem Balanced.unread_of_none (h : c.Balanced root) (hnone : c.find? location = none) :
    ∀ l ∈ c.journal.reads, ¬l.same location := by
  rw [← h.kept]
  intro l hl
  obtain ⟨file, hfile, rfl⟩ := List.mem_map.1 hl
  exact find?_eq_none.1 hnone file hfile

theorem Balanced.startRead (h : c.Balanced root) (hroot : ¬root.same location)
    (hnone : c.find? location = none) : (c.startRead location).Ledger root where
  registered := congrArg (· ++ [location]) h.registered
  counted := by
    change c.misses + 1 = (c.journal.reads ++ [location]).length
    rw [h.counted, List.length_append, List.length_singleton]
  distinct := by
    refine List.pairwise_append.2 ⟨h.distinct, List.pairwise_singleton _ _, ?_⟩
    intro x hx y hy
    obtain rfl := List.mem_singleton.1 hy
    exact h.unread_of_none hnone x hx
  avoids := by
    intro l hl
    rcases List.mem_append.1 hl with hl | hl
    · exact h.avoids l hl
    · obtain rfl := List.mem_singleton.1 hl
      exact hroot

theorem Balanced.request_ok (h : c.Balanced root) (hroot : ¬root.same location) {n : Node}
    (hrequest : request host location c = (.ok n.file, c')) : Tallied root c [n] c' := by
  rw [request] at hrequest
  split at hrequest
  · next file hfile =>
    obtain ⟨he, rfl⟩ := Prod.mk.inj hrequest
    obtain rfl := Except.ok.inj he
    have hmem := h.read_of_found hfile
    -- A hit changes nothing but its counter, and the location of the node is among those read.
    refine ⟨⟨⟨h.registered, h.counted, h.distinct, h.avoids⟩, h.kept⟩, ?_, ?_⟩
    · have hseen : c.journal.reads.any (·.same n.location) :=
        List.any_eq_true.2 ⟨n.location, hmem, Path.same_self _⟩
      simp [addLocation, hseen, hit]
    · change c.hits + 1 + c.misses = c.hits + c.misses + 1
      omega
  · next hnone =>
    dsimp only at hrequest
    split at hrequest
    · next text hread =>
      obtain ⟨he, rfl⟩ := Prod.mk.inj hrequest
      have hfile : n.file = .ofText location text := (Except.ok.inj he).symm
      have hledger := h.startRead hroot hnone
      refine ⟨⟨⟨hledger.registered, hledger.counted, hledger.distinct, hledger.avoids⟩, ?_⟩, ?_, ?_⟩
      · change (c.files ++ [_]).map _ = c.journal.reads ++ [location]
        rw [List.map_append, h.kept]
        rfl
      · have hlocation : n.location = location := congrArg SourceFile.location hfile
        have hnew : ¬c.journal.reads.any (·.same location) := by
          intro hany
          obtain ⟨l, hl, hsame⟩ := List.any_eq_true.1 hany
          exact h.unread_of_none hnone l hl hsame
        change c.journal.reads ++ [location] = addLocation c.journal.reads n.location
        rw [hlocation, addLocation, if_neg hnew]
      · change c.hits + (c.misses + 1) = c.hits + c.misses + 1
        omega
    · cases (Prod.mk.inj hrequest).1

theorem Balanced.request_error (h : c.Balanced root) (hroot : ¬root.same location) {fault : Fault}
    (hrequest : request host location c = (.error fault, c')) : c'.Ledger root := by
  rw [request] at hrequest
  split at hrequest
  · cases (Prod.mk.inj hrequest).1
  · next hnone =>
    dsimp only at hrequest
    split at hrequest
    · cases (Prod.mk.inj hrequest).1
    · obtain ⟨-, rfl⟩ := Prod.mk.inj hrequest
      exact h.startRead hroot hnone

theorem Ledger.readCount (h : c.Ledger root) (l : Path) :
    c.journal.readCount l = if c.journal.dependencies.any (·.same l) then 1 else 0 := by
  rw [h.registered, Journal.readCount]
  split
  · next hany => exact countP_same_eq_one h.distinct hany
  · next hnone =>
    refine List.countP_eq_zero.2 ?_
    intro l' hl' hsame
    exact hnone (List.any_eq_true.2 ⟨l', hl', hsame⟩)

end Cache

namespace Build

variable {host : Host} {root : Path} {e : IncludeError}

theorem mapM_tallied {branch : List Path} {file : SourceFile} {ds : List Directive}
    {nodes : List Node} {depth : Nat} {c c' : Cache}
    (hnode : ∀ {d n c c'}, c.Balanced root → node host branch file d c = (.ok n, c') →
      Cache.Tallied root c ((Node.preorder depth n).map (·.2)) c')
    (hc : c.Balanced root) (h : ds.mapM (node host branch file) c = (.ok nodes, c')) :
    Cache.Tallied root c ((Node.preorderList depth nodes).map (·.2)) c' := by
  induction ds generalizing c nodes with
  | nil =>
    rw [List.mapM_nil] at h
    cases h
    exact hc.tallied_nil
  | cons d ds ih =>
    rw [List.mapM_cons] at h
    obtain ⟨n, c₁, hn, h⟩ := bind_ok h
    obtain ⟨rest, c₂, hrest, h⟩ := bind_ok h
    cases h
    have hfirst := hnode hc hn
    rw [Node.preorderList, List.map_append]
    exact hfirst.append (ih hfirst.balanced hrest)

mutual

theorem node_tallied {branch : List Path} {file : SourceFile} {d : Directive} {n : Node}
    {c c' : Cache} (hroot : root ∈ branch) (hc : c.Balanced root)
    (h : node host branch file d c = (.ok n, c')) (depth : Nat) :
    Cache.Tallied root c ((Node.preorder depth n).map (·.2)) c' := by
  obtain ⟨condition, location, included, below, c₁, hprepare, hrequest, hbelow, rfl⟩ := node_made h
  have hpasses := prepare_ok hprepare
  have hlt := unvisited_lt (host.resolve_mem hpasses.resolves) hpasses.unvisited
  have hfirst : Cache.Tallied root c [.mk d condition included below] c₁ :=
    hc.request_ok (hpasses.not_root hroot) hrequest
  have hdeep := children_tallied (List.mem_append_left _ hroot) hfirst.balanced hbelow (depth + 1)
  rw [Node.preorder, List.map_cons]
  exact hfirst.append hdeep
termination_by ((unvisited host branch).length, 0)

theorem children_tallied {branch : List Path} {file : SourceFile} {nodes : List Node}
    {c c' : Cache} (hroot : root ∈ branch) (hc : c.Balanced root)
    (h : children host branch file c = (.ok nodes, c')) (depth : Nat) :
    Cache.Tallied root c ((Node.preorderList depth nodes).map (·.2)) c' := by
  rw [children_eq] at h
  exact mapM_tallied (fun hc hn ↦ node_tallied hroot hc hn depth) hc h
termination_by ((unvisited host branch).length, 1)

end

/-- A build that fails leaves a cache in which at most the last read has no file. -/
theorem children_ledger {branch : List Path} {file : SourceFile} {c c' : Cache}
    (hroot : root ∈ branch) (hc : c.Balanced root)
    (h : children host branch file c = (.error e, c')) : c'.Ledger root := by
  rw [children_eq] at h
  -- The directives before the one that fails have their nodes, so that the cache is balanced there.
  obtain ⟨i, d, c₁, -, hc₁, hnode, -⟩ :=
    mapM_error (fun hc h ↦ (node_tallied hroot hc h 0).balanced) hc h
  rcases node_not_made hnode with ⟨-, rfl⟩ | ⟨condition, location, hprepare, hrest⟩
  · exact hc₁.toLedger
  have hpasses := prepare_ok hprepare
  have hother := hpasses.not_root hroot
  rcases hrest with ⟨fault, hrequest, -⟩ | ⟨included, c₂, hrequest, hbelow⟩
  · exact hc₁.request_error hother hrequest
  · have hlt := unvisited_lt (host.resolve_mem hpasses.resolves) hpasses.unvisited
    have hfirst : Cache.Tallied root c₁ [.mk d condition included []] c₂ :=
      hc₁.request_ok hother hrequest
    exact children_ledger (List.mem_append_left _ hroot) hfirst.balanced hbelow
termination_by (unvisited host branch).length

end Build

structure Registered (root : SourceFile) (c : Cache) : Prop where
  distinct : c.journal.dependencies.Pairwise fun x y ↦ ¬x.same y
  /-- Each dependency is read once, and nothing else is read. -/
  reads : ∀ l, c.journal.readCount l = if c.journal.dependencies.any (·.same l) then 1 else 0
  misses : c.misses = c.journal.dependencies.length
  avoids : ∀ l ∈ c.journal.dependencies, ¬root.location.same l

theorem Cache.Ledger.registered_of {root : SourceFile} {c : Cache} (h : c.Ledger root.location) :
    Registered root c where
  distinct := by
    rw [h.registered]
    exact h.distinct
  reads := h.readCount
  misses := by rw [h.registered, h.counted]
  avoids := by
    rw [h.registered]
    exact h.avoids

theorem registered_of_buildTree {host : Host} {root : SourceFile}
    {result : Except IncludeError IncludeTree} {c : Cache}
    (hbuild : buildTree host root = (result, c)) :
    Registered root c ∧ ∀ tree, result = .ok tree →
      c.journal.dependencies = tree.locations ∧ c.files.length = tree.locations.length ∧
        c.hits + tree.locations.length = tree.nodes.length := by
  have hroot : root.location ∈ [root.location] := List.mem_singleton.2 rfl
  have hempty := Cache.balanced_empty root.location
  unfold buildTree IncludeTree.build at hbuild
  split at hbuild
  · next nodes c' hchildren =>
    cases hbuild
    have htallied := Build.children_tallied hroot hempty hchildren 0
    have hledger := htallied.balanced.toLedger
    have hlocations : c.journal.dependencies = IncludeTree.locations ⟨root, nodes⟩ :=
      hledger.registered.trans htallied.reads
    refine ⟨hledger.registered_of, ?_⟩
    intro tree htree
    cases htree
    refine ⟨hlocations, ?_, ?_⟩
    · rw [← hlocations, hledger.registered, ← htallied.balanced.kept, List.length_map]
    · have hrequests := htallied.requests
      rw [hledger.counted, ← hledger.registered, hlocations] at hrequests
      simpa [IncludeTree.nodes, IncludeTree.leveled] using hrequests
  · next e c' hchildren =>
    cases hbuild
    refine ⟨(Build.children_ledger hroot hempty hchildren).registered_of, ?_⟩
    intro tree htree
    cases htree

end Transclude
