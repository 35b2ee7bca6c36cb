import Transclude.Proofs.Sharing
import Transclude.Proofs.Tree.Rows

namespace Transclude.TreeView

/-- A property of every row together with the rows above it. -/
def Throughout (Q : List Row → Row → Prop) (rows : List Row) : Prop :=
  ∀ above r below, rows = above ++ r :: below → Q above r

namespace Throughout

variable {Q : List Row → Row → Prop} {rows : List Row}

theorem nil : Throughout Q [] := by
  intro above r below h
  simp at h

theorem concat {r : Row} (h : Throughout Q rows) (hr : Q rows r) : Throughout Q (rows ++ [r]) := by
  intro above r' below heq
  rcases List.eq_nil_or_concat below with rfl | ⟨init, last, rfl⟩
  · obtain ⟨rfl, hlast⟩ := List.append_inj' heq rfl
    obtain rfl := List.singleton_inj.1 hlast
    exact hr
  · refine h above r' init ?_
    have heq : rows ++ [r] = (above ++ r' :: init) ++ [last] := by simpa using heq
    exact (List.append_inj' heq rfl).1

theorem of_mem {r : Row} (h : Throughout Q rows) (hr : r ∈ rows) :
    ∃ above, above ⊆ rows ∧ Q above r := by
  obtain ⟨above, below, heq⟩ := List.append_of_mem hr
  exact ⟨above, by simp [heq], h above r below heq⟩

theorem pairwise {R : Row → Row → Prop} (h : Throughout Q rows)
    (hR : ∀ above r, Q above r → ∀ u ∈ above, R u r) : rows.Pairwise R := by
  induction rows using List.reverseRecOn with
  | nil => exact .nil
  | append_singleton rows r ih =>
    refine List.pairwise_append.2 ⟨ih ?_, List.pairwise_singleton R r, ?_⟩
    · intro above r' below heq
      exact h above r' (below ++ [r]) (by simp [heq])
    · intro u hu r' hr'
      rw [List.mem_singleton.1 hr']
      exact hR rows r (h rows r [] rfl) u hu

end Throughout

def HasRow (rows : List Row) (owner : Path) (depth : Nat) (n : Node) : Prop :=
  ∃ q ∈ rows, q.owner = owner ∧ q.depth = depth ∧ q.node = n

def Expanded (v : TreeView) (rows : List Row) (r : Row) : Prop :=
  ¬v.hides (r.depth + 1) → ∀ n ∈ r.node.children, HasRow rows r.location (r.depth + 1) n

theorem Expanded.mono {v : TreeView} {rows rows' : List Row} {r : Row} (h : Expanded v rows r)
    (hrows : rows ⊆ rows') : Expanded v rows' r := by
  intro hhides n hn
  obtain ⟨q, hq, hqn⟩ := h hhides n hn
  exact ⟨q, hrows hq, hqn⟩

namespace Prints

variable {v : TreeView} {owner : Path} {trail : List Bool} {above rows : List Row} {ns : List Node}

theorem subset (h : Prints v owner trail above ns rows) : above ⊆ rows := by
  induction h with
  | nil => exact List.Subset.refl _
  | hidden _ _ ih => exact ih
  | again _ _ _ ih => exact fun r hr ↦ ih (List.mem_append_left _ hr)
  | first _ _ _ _ ih ih' => exact fun r hr ↦ ih' (ih (List.mem_append_left _ hr))

theorem shows (h : Prints v owner trail above ns rows) (hhides : ¬v.hides trail.length) :
    ∀ n ∈ ns, HasRow rows owner trail.length n := by
  induction h with
  | nil => simp
  | hidden hhidden => exact absurd hhidden hhides
  | @again owner trail above _ n rest _ _ hrest ih =>
    have hrow : (⟨owner, n, trail, rest.isEmpty, true⟩ : Row) ∈ _ := hrest.subset (by simp)
    exact List.forall_mem_cons.2 ⟨⟨_, hrow, rfl, rfl, rfl⟩, ih hhides⟩
  | @first owner trail above _ _ n rest _ _ hbelow hrest _ ih =>
    have hrow : (⟨owner, n, trail, rest.isEmpty, false⟩ : Row) ∈ _ :=
      hrest.subset (hbelow.subset (by simp))
    exact List.forall_mem_cons.2 ⟨⟨_, hrow, rfl, rfl, rfl⟩, ih hhides⟩

theorem expanded {n : Node} {last : Bool}
    (h : Prints v n.location (trail ++ [last]) above n.children rows) :
    Expanded v rows ⟨owner, n, trail, last, false⟩ := by
  have hshows := h.shows
  rwa [List.length_append, List.length_singleton] at hshows

theorem expands (h : Prints v owner trail above ns rows) :
    ∀ r ∈ rows, r.marked = false → r ∈ above ∨ Expanded v rows r := by
  induction h with
  | nil => exact fun r hr _ ↦ .inl hr
  | hidden _ _ ih => exact ih
  | again _ _ _ ih =>
    intro r hr hmarked
    refine (ih r hr hmarked).imp_left fun hr ↦ ?_
    rcases List.mem_append.1 hr with hr | hr
    · exact hr
    · rw [List.mem_singleton.1 hr] at hmarked
      cases hmarked
  | first _ _ hbelow hrest ih ih' =>
    intro r hr hmarked
    rcases ih' r hr hmarked with hr | hexpanded
    · rcases ih r hr hmarked with hr | hexpanded
      · rcases List.mem_append.1 hr with hr | hr
        · exact .inl hr
        · rw [List.mem_singleton.1 hr]
          exact .inr (hbelow.expanded.mono hrest.subset)
      · exact .inr (hexpanded.mono hrest.subset)
    · exact .inr hexpanded

end Prints

/-- A node at a depth is an include of the root or of a file that has an unmarked row above. -/
def Owned (t : IncludeTree) (above : List Row) (owner : Path) (depth : Nat) (n : Node) : Prop :=
  (owner = t.root.location ∧ depth = 0 ∧ n ∈ t.children) ∨
    ∃ u ∈ above, u.marked = false ∧ owner = u.location ∧ depth = u.depth + 1 ∧ n ∈ u.node.children

theorem Owned.mono {t : IncludeTree} {above above' : List Row} {owner : Path} {depth : Nat}
    {n : Node} (h : Owned t above owner depth n) (hrows : above ⊆ above') :
    Owned t above' owner depth n :=
  h.imp_right fun ⟨u, hu, hn⟩ ↦ ⟨u, hrows hu, hn⟩

/-- What holds of a row of a tree together with the rows above it. -/
structure Fits (v : TreeView) (host : Host) (t : IncludeTree) (above : List Row) (r : Row) :
    Prop where
  mark : r.marked = (v.dedupe && opened above r.location)
  visible : ¬v.hides r.depth
  owned : Owned t above r.owner r.depth r.node
  grafted : ∃ branch context, t.root.location ∈ branch ∧ r.node.Grafted host branch context
  covered : r.marked →
    ∃ u ∈ above, u.marked = false ∧ u.location.same r.location ∧ Expanded v above u

/-- What holds when nodes at the end of a branch are about to be shown. Of the files that have an
unmarked row above, only those of the branch still wait for their includes. -/
structure Ready (v : TreeView) (host : Host) (t : IncludeTree) (branch : List Path) (owner : Path)
    (trail : List Bool) (above : List Row) (ns : List Node) : Prop where
  grafted : ∃ context, ∀ n ∈ ns, n.Grafted host branch context
  root : t.root.location ∈ branch
  owned : ∀ n ∈ ns, Owned t above owner trail.length n
  waiting : ∀ u ∈ above, u.marked = false → branch.any (·.same u.location) ∨ Expanded v above u
  fits : Throughout (Fits v host t) above

namespace Ready

variable {v : TreeView} {host : Host} {t : IncludeTree} {branch : List Path} {owner : Path}
  {trail : List Bool} {above : List Row} {n : Node} {rest : List Node}

theorem tail (h : Ready v host t branch owner trail above (n :: rest)) :
    Ready v host t branch owner trail above rest where
  grafted := h.grafted.imp fun _ hns ↦ (List.forall_mem_cons.1 hns).2
  root := h.root
  owned := (List.forall_mem_cons.1 h.owned).2
  waiting := h.waiting
  fits := h.fits

theorem fits_head {last marked : Bool}
    (h : Ready v host t branch owner trail above (n :: rest)) (hhides : ¬v.hides trail.length)
    (hmark : (v.dedupe && opened above n.location) = marked) :
    Fits v host t above ⟨owner, n, trail, last, marked⟩ := by
  obtain ⟨context, hgrafted⟩ := h.grafted
  have hn := hgrafted n List.mem_cons_self
  refine ⟨hmark.symm, hhides, h.owned n List.mem_cons_self, ⟨branch, context, h.root, hn⟩, ?_⟩
  rintro rfl
  obtain ⟨-, hopened⟩ := (Bool.and_eq_true _ _).mp hmark
  obtain ⟨u, hu, husame⟩ := List.any_eq_true.1 hopened
  obtain ⟨hmarked, hsame⟩ : u.marked = false ∧ u.location.same n.location := by simpa using husame
  refine ⟨u, hu, hmarked, hsame, (h.waiting u hu hmarked).resolve_left fun hbranch ↦ ?_⟩
  -- A file of the branch would be included in itself.
  obtain ⟨p, hp, hpu⟩ := List.any_eq_true.1 hbranch
  exact hn.passes.unvisited (List.any_eq_true.2 ⟨p, hp, Path.same_trans hpu hsame⟩)

theorem again {last : Bool} (h : Ready v host t branch owner trail above (n :: rest))
    (hhides : ¬v.hides trail.length) (hmark : (v.dedupe && opened above n.location) = true) :
    Ready v host t branch owner trail (above ++ [⟨owner, n, trail, last, true⟩]) rest where
  grafted := h.tail.grafted
  root := h.root
  owned m hm := (h.tail.owned m hm).mono (List.subset_append_left ..)
  waiting u hu hmarked := by
    rcases List.mem_append.1 hu with hu | hu
    · exact (h.waiting u hu hmarked).imp_right (·.mono (List.subset_append_left ..))
    · rw [List.mem_singleton.1 hu] at hmarked
      cases hmarked
  fits := h.fits.concat (h.fits_head hhides hmark)

theorem enter {last : Bool} (h : Ready v host t branch owner trail above (n :: rest))
    (hhides : ¬v.hides trail.length) (hmark : (v.dedupe && opened above n.location) = false) :
    Ready v host t (branch ++ [n.location]) n.location (trail ++ [last])
      (above ++ [⟨owner, n, trail, last, false⟩]) n.children where
  grafted := by
    obtain ⟨context, hgrafted⟩ := h.grafted
    exact ⟨_, (hgrafted n List.mem_cons_self).grown.grafted⟩
  root := List.mem_append_left _ h.root
  owned m hm := .inr ⟨⟨owner, n, trail, last, false⟩, by simp, rfl, rfl, by simp [Row.depth], hm⟩
  waiting u hu hmarked := by
    rw [List.any_append, Bool.or_eq_true]
    rcases List.mem_append.1 hu with hu | hu
    · exact (h.waiting u hu hmarked).imp .inl (·.mono (List.subset_append_left ..))
    · rw [List.mem_singleton.1 hu]
      exact .inl (.inr (by simp [Row.location]))
  fits := h.fits.concat (h.fits_head hhides hmark)

theorem leave {last : Bool} {through : List Row}
    (h : Ready v host t branch owner trail above (n :: rest))
    (hbelow : Prints v n.location (trail ++ [last])
      (above ++ [⟨owner, n, trail, last, false⟩]) n.children through)
    (hfits : Throughout (Fits v host t) through) :
    Ready v host t branch owner trail through rest where
  grafted := h.tail.grafted
  root := h.root
  owned m hm := (h.tail.owned m hm).mono fun r hr ↦ hbelow.subset (List.mem_append_left _ hr)
  waiting u hu hmarked := by
    rcases hbelow.expands u hu hmarked with hu | hexpanded
    · rcases List.mem_append.1 hu with hu | hu
      · refine (h.waiting u hu hmarked).imp_right (·.mono fun r hr ↦ ?_)
        exact hbelow.subset (List.mem_append_left _ hr)
      · -- The node itself is no longer on the branch, but what is below it has been shown.
        rw [List.mem_singleton.1 hu]
        exact .inr hbelow.expanded
    · exact .inr hexpanded
  fits := hfits

end Ready

theorem Prints.fits {v : TreeView} {host : Host} {t : IncludeTree} {branch : List Path}
    {owner : Path} {trail : List Bool} {above rows : List Row} {ns : List Node}
    (h : Prints v owner trail above ns rows)
    (hready : Ready v host t branch owner trail above ns) : Throughout (Fits v host t) rows := by
  induction h generalizing branch with
  | nil => exact hready.fits
  | hidden _ _ ih => exact ih hready.tail
  | again hhides hmark _ ih => exact ih (hready.again hhides hmark)
  | first hhides hmark hbelow _ ih ih' =>
    exact ih' (hready.leave hbelow (ih (hready.enter hhides hmark)))

theorem fits_rows (v : TreeView) {host : Host} {t : IncludeTree} {context : Path}
    {ds : List Directive} (hgrown : Grown host [t.root.location] context ds t.children) :
    Throughout (Fits v host t) (v.rows t) :=
  (prints_addNodes ..).fits
    ⟨⟨context, hgrown.grafted⟩, List.mem_singleton_self _, fun _ hn ↦ .inl ⟨rfl, rfl, hn⟩,
      by simp, .nil⟩

theorem expanded_of_mem_rows {v : TreeView} {t : IncludeTree} {r : Row} (hr : r ∈ v.rows t)
    (hmarked : r.marked = false) : Expanded v (v.rows t) r :=
  ((prints_addNodes ..).expands r hr hmarked).resolve_left List.not_mem_nil

theorem shows_children {v : TreeView} (t : IncludeTree) (hhides : ¬v.hides 0) :
    ∀ n ∈ t.children, HasRow (v.rows t) t.root.location 0 n :=
  (prints_addNodes ..).shows hhides

end Transclude.TreeView
