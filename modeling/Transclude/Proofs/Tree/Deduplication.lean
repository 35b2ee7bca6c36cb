import Transclude.Proofs.CachedHost
import Transclude.Proofs.Tree.Repetition

namespace Transclude.TreeView

section Rows

variable {v w : TreeView} {host : Host} {t : IncludeTree} {context : Path} {ds : List Directive}
  {r u : Row}

theorem fits_of_mem (hgrown : Grown host [t.root.location] context ds t.children)
    (hr : r ∈ v.rows t) : ∃ above, above ⊆ v.rows t ∧ Fits v host t above r :=
  (fits_rows v hgrown).of_mem hr

theorem shared_of_mem (hhost : host.Canonical)
    (hgrown : Grown host [t.root.location] context ds t.children) (hr : r ∈ v.rows t)
    (hu : u ∈ w.rows t) (hsame : r.location.same u.location) :
    r.location = u.location ∧ r.node.children = u.node.children := by
  obtain ⟨_, -, hrfit⟩ := fits_of_mem hgrown hr
  obtain ⟨_, -, hufit⟩ := fits_of_mem hgrown hu
  obtain ⟨_, _, -, hgrafted⟩ := hrfit.grafted
  obtain ⟨_, _, -, hgrafted'⟩ := hufit.grafted
  obtain ⟨hfile, hchildren⟩ := hgrafted.shared hhost hgrafted' hsame
  exact ⟨congrArg SourceFile.location hfile, hchildren⟩

theorem location_ne_root (hgrown : Grown host [t.root.location] context ds t.children)
    (hr : r ∈ v.rows t) : r.location ≠ t.root.location := by
  obtain ⟨_, -, hfit⟩ := fits_of_mem hgrown hr
  obtain ⟨_, _, hroot, hgrafted⟩ := hfit.grafted
  intro heq
  refine hgrafted.passes.not_root hroot ?_
  rw [← heq]
  exact Path.same_self _

theorem exists_unmarked (hgrown : Grown host [t.root.location] context ds t.children)
    (hr : r ∈ v.rows t) : ∃ u ∈ v.rows t, u.marked = false ∧ u.location.same r.location := by
  cases hmarked : r.marked with
  | false => exact ⟨r, hr, hmarked, Path.same_self _⟩
  | true =>
    obtain ⟨above, habove, hfit⟩ := fits_of_mem hgrown hr
    obtain ⟨u, hu, hmarked', hsame, -⟩ := hfit.covered hmarked
    exact ⟨u, habove hu, hmarked', hsame⟩

end Rows

/-- Rows that do not both show one file unmarked. -/
def Apart (u w : Row) : Prop := u.marked = false → w.marked = false → ¬u.location.same w.location

instance : Std.Symm Apart where
  symm _ _ h hw hu hsame := h hu hw (Path.same_symm hsame)

section Marks

variable {v : TreeView} {host : Host} {t : IncludeTree} {context : Path} {ds : List Directive}
  {above : List Row} {r u w : Row}

theorem Fits.apart (hdedupe : v.dedupe) (h : Fits v host t above r) (hu : u ∈ above) :
    Apart u r := by
  intro hmarked hmarked' hsame
  have hopened : opened above r.location = true :=
    List.any_eq_true.2 ⟨u, hu, by simpa [hmarked] using hsame⟩
  have hmark := h.mark
  rw [hdedupe, hopened, hmarked'] at hmark
  cases hmark

theorem unmarked_unique (hdedupe : v.dedupe)
    (hgrown : Grown host [t.root.location] context ds t.children) (hu : u ∈ v.rows t)
    (hw : w ∈ v.rows t) (hmarked : u.marked = false) (hmarked' : w.marked = false)
    (hsame : u.location.same w.location) : u = w := by
  have hapart : (v.rows t).Pairwise Apart :=
    (fits_rows v hgrown).pairwise fun _ _ hfit _ hu ↦ hfit.apart hdedupe hu
  by_contra hne
  exact hapart.forall hu hw hne hmarked hmarked' hsame

/-- If the limit hides the includes of a file where it has its unmarked row, no row shows one. -/
theorem owner_ne_of_hides (hdedupe : v.dedupe)
    (hgrown : Grown host [t.root.location] context ds t.children) (hu : u ∈ v.rows t)
    (hmarked : u.marked = false) (hhides : v.hides (u.depth + 1)) :
    ∀ q ∈ v.rows t, q.owner ≠ u.location := by
  intro q hq howner
  obtain ⟨above, habove, hfit⟩ := fits_of_mem hgrown hq
  rcases hfit.owned with ⟨hroot, -, -⟩ | ⟨w, hw, hmarked', hlocation, hdepth, -⟩
  · exact location_ne_root hgrown hu (howner.symm.trans hroot)
  · have hsame : u.location.same w.location := by
      rw [← howner, hlocation]
      exact Path.same_self _
    obtain rfl := unmarked_unique hdedupe hgrown hu (habove hw) hmarked hmarked' hsame
    exact hfit.visible (hdepth ▸ hhides)

end Marks

def full (v : TreeView) : TreeView := { v with dedupe := false }

def deduped (v : TreeView) : TreeView := { v with dedupe := true }

/-- The includes that a view shows: the location of a file and a directive in it. -/
def edges (v : TreeView) (t : IncludeTree) : List (Path × Directive) :=
  (v.rows t).map fun r ↦ (r.owner, r.node.directive)

/-- A row whose file has includes that the limit hides below it. -/
def CutShort (v : TreeView) (r : Row) : Prop := v.hides (r.depth + 1) ∧ r.node.children ≠ []

/-- A file that is cut short at its unmarked row is so wherever the full view shows it. -/
def CutAlike (v : TreeView) (t : IncludeTree) : Prop :=
  ∀ u ∈ v.deduped.rows t, u.marked = false → v.CutShort u →
    ∀ r ∈ v.full.rows t, r.location.same u.location → v.CutShort r

instance (v : TreeView) (r : Row) : Decidable (v.CutShort r) := inferInstanceAs (Decidable (_ ∧ _))

instance (v : TreeView) (t : IncludeTree) : Decidable (v.CutAlike t) :=
  inferInstanceAs (Decidable (∀ _ ∈ _, _))

section Comparison

variable {v : TreeView} {host : Host} {t : IncludeTree} {context : Path} {ds : List Directive}
  {r : Row}

theorem expanded_of_mem_full (hgrown : Grown host [t.root.location] context ds t.children)
    (hr : r ∈ v.full.rows t) : Expanded v (v.full.rows t) r := by
  obtain ⟨_, -, hfit⟩ := fits_of_mem hgrown hr
  exact expanded_of_mem_rows hr hfit.mark

theorem hasRow_full (hgrown : Grown host [t.root.location] context ds t.children) {q : Row}
    (hq : q ∈ v.deduped.rows t) : HasRow (v.full.rows t) q.owner q.depth q.node := by
  -- The row of the file in which the include stands has a smaller depth.
  induction hdepth : q.depth using Nat.strong_induction_on generalizing q with
  | _ depth ih =>
  obtain ⟨above, habove, hfit⟩ := fits_of_mem hgrown hq
  have hvisible : ¬v.hides q.depth := hfit.visible
  rcases hfit.owned with ⟨howner, hzero, hn⟩ | ⟨u, hu, -, howner, hsucc, hn⟩
  · rw [← hdepth, howner, hzero]
    rw [hzero] at hvisible
    exact shows_children (v := v.full) t hvisible q.node hn
  · obtain ⟨r, hr, -, hrdepth, hnode⟩ := ih u.depth (by omega) (habove hu) rfl
    rw [hsucc, ← hrdepth] at hvisible
    rw [← hnode] at hn
    rw [← hdepth, howner, hsucc, ← hrdepth, Row.location, ← hnode]
    exact expanded_of_mem_full hgrown hr hvisible q.node hn

theorem hasRow_deduped (hhost : host.Canonical)
    (hgrown : Grown host [t.root.location] context ds t.children) (hcut : v.CutAlike t)
    (hr : r ∈ v.full.rows t) : ∃ depth, HasRow (v.deduped.rows t) r.owner depth r.node := by
  induction hdepth : r.depth using Nat.strong_induction_on generalizing r with
  | _ depth ih =>
  obtain ⟨above, habove, hfit⟩ := fits_of_mem hgrown hr
  have hvisible : ¬v.hides r.depth := hfit.visible
  rcases hfit.owned with ⟨howner, hzero, hn⟩ | ⟨p, hp, -, howner, hsucc, hn⟩
  · rw [hzero] at hvisible
    exact ⟨0, howner ▸ shows_children (v := v.deduped) t hvisible r.node hn⟩
  · have hp := habove hp
    obtain ⟨_, q, hq, -, -, hnode⟩ := ih p.depth (by omega) hp rfl
    obtain ⟨u, hu, hmarked, hsame⟩ := exists_unmarked hgrown hq
    have hsame : p.location.same u.location := by
      rw [Row.location, ← hnode]
      exact Path.same_symm hsame
    obtain ⟨hlocation, hchildren⟩ := shared_of_mem hhost hgrown hp hu hsame
    -- If the file were cut short at its unmarked row, the full view would not show its include.
    have hshown : ¬v.hides (u.depth + 1) := by
      intro hhides
      have hcutu : v.CutShort u := ⟨hhides, hchildren ▸ List.ne_nil_of_mem hn⟩
      refine hvisible ?_
      rw [hsucc]
      exact (hcut u hu hmarked hcutu p hp hsame).1
    rw [howner, hlocation]
    exact ⟨_, expanded_of_mem_rows hu hmarked hshown r.node (hchildren ▸ hn)⟩

theorem edges_subset (hhost : host.Canonical)
    (hgrown : Grown host [t.root.location] context ds t.children) (hcut : v.CutAlike t) :
    v.full.edges t ⊆ v.deduped.edges t := by
  intro edge hedge
  obtain ⟨r, hr, rfl⟩ := List.mem_map.1 hedge
  obtain ⟨_, q, hq, howner, -, hnode⟩ := hasRow_deduped hhost hgrown hcut hr
  exact List.mem_map.2 ⟨q, hq, by rw [howner, hnode]⟩

theorem exists_owner_of_subset (hgrown : Grown host [t.root.location] context ds t.children)
    (hedges : v.full.edges t ⊆ v.deduped.edges t) {n : Node} (hr : r ∈ v.full.rows t)
    (hshown : ¬v.hides (r.depth + 1)) (hn : n ∈ r.node.children) :
    ∃ q ∈ v.deduped.rows t, q.owner = r.location := by
  obtain ⟨q, hq, howner, -⟩ := expanded_of_mem_full hgrown hr hshown n hn
  obtain ⟨q', hq', hedge⟩ := List.mem_map.1 (hedges (List.mem_map_of_mem hq))
  exact ⟨q', hq', (congrArg Prod.fst hedge).trans howner⟩

theorem cutAlike_of_subset (hhost : host.Canonical)
    (hgrown : Grown host [t.root.location] context ds t.children)
    (hedges : v.full.edges t ⊆ v.deduped.edges t) : v.CutAlike t := by
  rintro u hu hmarked ⟨hhides, hne⟩ r hr hsame
  obtain ⟨hlocation, hchildren⟩ := shared_of_mem hhost hgrown hr hu hsame
  refine ⟨?_, hchildren ▸ hne⟩
  by_contra hshown
  obtain ⟨n, hn⟩ := List.exists_mem_of_ne_nil _ hne
  obtain ⟨q, hq, howner⟩ := exists_owner_of_subset hgrown hedges hr hshown (hchildren ▸ hn)
  exact owner_ne_of_hides rfl hgrown hu hmarked hhides q hq (howner.trans hlocation)

/-- A marked row has the unmarked row of its file above. The includes of the file follow that row,
or the limit hides them there and no row shows them. -/
theorem exists_unmarked_above (hhost : host.Canonical)
    (hgrown : Grown host [t.root.location] context ds t.children) {above below : List Row}
    (heq : v.deduped.rows t = above ++ r :: below) (hmarked : r.marked) :
    ∃ u ∈ above, u.marked = false ∧ u.location = r.location ∧
      if v.hides (u.depth + 1) then ∀ q ∈ v.deduped.rows t, q.owner ≠ r.location
      else ∀ n ∈ r.node.children, HasRow above r.location (u.depth + 1) n := by
  have hfit := fits_rows v.deduped hgrown above r below heq
  obtain ⟨u, hu, hmarked', hsame, hexpanded⟩ := hfit.covered hmarked
  have hr : r ∈ v.deduped.rows t := by simp [heq]
  have hmem : u ∈ v.deduped.rows t := by simp [heq, hu]
  obtain ⟨hlocation, hchildren⟩ := shared_of_mem hhost hgrown hmem hr hsame
  refine ⟨u, hu, hmarked', hlocation, ?_⟩
  rw [← hlocation, ← hchildren]
  split
  · next hhides => exact owner_ne_of_hides rfl hgrown hmem hmarked' hhides
  · next hshown => exact hexpanded hshown

theorem hasRow_above_of_subset (hhost : host.Canonical)
    (hgrown : Grown host [t.root.location] context ds t.children)
    (hedges : v.full.edges t ⊆ v.deduped.edges t) {above below : List Row}
    (heq : v.deduped.rows t = above ++ r :: below) (hmarked : r.marked)
    (hshown : ¬v.hides (r.depth + 1)) :
    ∀ n ∈ r.node.children, ∃ depth, HasRow above r.location depth n := by
  intro n hn
  obtain ⟨u, -, -, -, habove⟩ := exists_unmarked_above hhost hgrown heq hmarked
  split at habove
  · -- The full view has the same row, and its includes below it.
    have hr : r ∈ v.deduped.rows t := by simp [heq]
    obtain ⟨r', hr', -, hdepth, hnode⟩ := hasRow_full hgrown hr
    rw [← hdepth] at hshown
    rw [← hnode] at hn
    obtain ⟨q, hq, howner⟩ := exists_owner_of_subset hgrown hedges hr' hshown hn
    refine absurd ?_ (habove q hq)
    rw [howner, Row.location, hnode, Row.location]
  · exact ⟨_, habove n hn⟩

end Comparison

/-- What a view that marks repeated files shows of the tree of a build, compared with the view that
shows them again under the same limit. -/
theorem deduped_edges {host : Host} {root : SourceFile} {t : IncludeTree}
    (hbuild : (buildTree host root).1 = .ok t) (v : TreeView) :
    (∀ label, v.lines label t =
      Style.boldCyan.paint v.color label ++ "\n" ++ v.text (v.rows t) ++
        if (v.rows t).any (·.marked) then
          "\n" ++ Style.dim.paint v.color "(*) = included above" ++ "\n"
        else "") ∧
    (v.full.edges t ⊆ v.deduped.edges t ↔ v.CutAlike t) ∧
    (v.depth = none → v.full.edges t ⊆ v.deduped.edges t) ∧
    ∀ above r below, v.deduped.rows t = above ++ r :: below → r.marked →
      (∃ u ∈ above, u.marked = false ∧ u.location = r.location ∧
        if v.hides (u.depth + 1) then ∀ q ∈ v.deduped.rows t, q.owner ≠ r.location
        else ∀ n ∈ r.node.children, HasRow above r.location (u.depth + 1) n) ∧
      (v.full.edges t ⊆ v.deduped.edges t → ¬v.hides (r.depth + 1) →
        ∀ n ∈ r.node.children, ∃ depth, HasRow above r.location depth n) := by
  obtain ⟨host', hhost, rfl, hgrown⟩ := exists_canonical_grown hbuild
  have hsubset : v.CutAlike t → v.full.edges t ⊆ v.deduped.edges t := edges_subset hhost hgrown
  refine ⟨fun label ↦ v.lines_eq label t, ⟨cutAlike_of_subset hhost hgrown, hsubset⟩, ?_, ?_⟩
  · intro hdepth
    refine hsubset fun u _ _ hcut ↦ absurd hcut.1 ?_
    simp [hides, hdepth]
  · intro above r below heq hmarked
    refine ⟨exists_unmarked_above hhost hgrown heq hmarked, fun hedges ↦ ?_⟩
    exact hasRow_above_of_subset hhost hgrown hedges heq hmarked

def chainHost : MemoryHost :=
  .ofEntries [(⟨"/p/a"⟩, "#include b\n"), (⟨"/p/b"⟩, "#include c\n"), (⟨"/p/c"⟩, "C\n")] []

def backwardRoot : SourceFile := ⟨⟨"/p/r"⟩, ⟨"/p"⟩, "#include b\n#include a\n"⟩

def forwardRoot : SourceFile := ⟨⟨"/p/r"⟩, ⟨"/p"⟩, "#include a\n#include b\n"⟩

def twoLevels : TreeView := { depth := some 2 }

theorem deduped_edges_backward :
    ∃ t, (buildTree chainHost.toHost backwardRoot).1 = .ok t ∧ twoLevels.CutAlike t ∧
      twoLevels.lines "r" t =
        "r\n├── b\n│   └── c\n└── a\n    └── b (*)\n\n(*) = included above\n" ∧
      twoLevels.full.edges t ⊆ twoLevels.deduped.edges t := by
  have hshown : (buildTree chainHost.toHost backwardRoot).1.map
      (fun t ↦ (decide (twoLevels.CutAlike t), twoLevels.lines "r" t)) =
      .ok (true, "r\n├── b\n│   └── c\n└── a\n    └── b (*)\n\n(*) = included above\n") := by
    decide +kernel
  obtain ⟨t, hbuild, heq⟩ := map_ok hshown
  obtain ⟨hcut, hlines⟩ := Prod.mk.inj heq
  have hcut : twoLevels.CutAlike t := of_decide_eq_true hcut.symm
  exact ⟨t, hbuild, hcut, hlines.symm, (deduped_edges hbuild twoLevels).2.1.2 hcut⟩

theorem edge_missing_forward :
    ∃ t, (buildTree chainHost.toHost forwardRoot).1 = .ok t ∧
      twoLevels.lines "r" t =
        "r\n├── a\n│   └── b\n└── b (*)\n\n(*) = included above\n" ∧
      twoLevels.full.lines "r" t = "r\n├── a\n│   └── b\n└── b\n    └── c\n" ∧
      ¬twoLevels.full.edges t ⊆ twoLevels.deduped.edges t := by
  have hshown : (buildTree chainHost.toHost forwardRoot).1.map
      (fun t ↦ (twoLevels.lines "r" t, twoLevels.full.lines "r" t,
        decide (twoLevels.full.edges t ⊆ twoLevels.deduped.edges t))) =
      .ok ("r\n├── a\n│   └── b\n└── b (*)\n\n(*) = included above\n",
        "r\n├── a\n│   └── b\n└── b\n    └── c\n", false) := by
    decide +kernel
  obtain ⟨t, hbuild, heq⟩ := map_ok hshown
  obtain ⟨hlines, heq⟩ := Prod.mk.inj heq
  obtain ⟨hfull, hedges⟩ := Prod.mk.inj heq
  exact ⟨t, hbuild, hlines.symm, hfull.symm, of_decide_eq_false hedges.symm⟩

end Transclude.TreeView
