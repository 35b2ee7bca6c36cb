import Mathlib.Logic.Relation
import Transclude.Proofs.Path.Components

namespace Transclude.Path

/-- One component that has no effect, or a name and the `..` that undoes it, is left out. -/
inductive Shortens : List Component → List Component → Prop
  | current (before after : List Component) :
      Shortens (before ++ .current :: after) (before ++ after)
  | undone (before : List Component) (name : String) (after : List Component) :
      Shortens (before ++ .normal name :: .parent :: after) (before ++ after)
  | top (before after : List Component) :
      Shortens (before ++ .root :: .parent :: after) (before ++ .root :: after)

theorem Shortens.surround {cs ds : List Component} (h : Shortens cs ds)
    (before after : List Component) :
    Shortens (before ++ cs ++ after) (before ++ ds ++ after) := by
  cases h with
  | current before' after' => simpa using current (before ++ before') (after' ++ after)
  | undone before' name after' => simpa using undone (before ++ before') name (after' ++ after)
  | top before' after' => simpa using top (before ++ before') (after' ++ after)

theorem Shortens.reduce_eq {cs ds : List Component} (h : Shortens cs ds) :
    reduce cs = reduce ds := by
  cases h <;> simp [reduce, reduceStep]

open Relation

theorem shortens_surround {cs ds : List Component} (h : ReflTransGen Shortens cs ds)
    (before after : List Component) :
    ReflTransGen Shortens (before ++ cs ++ after) (before ++ ds ++ after) :=
  h.lift (before ++ · ++ after) fun _ _ hstep ↦ hstep.surround before after

theorem reduceStep_shortens (stack : List Component) (c : Component) :
    ReflTransGen Shortens (stack.reverse ++ [c]) (reduceStep stack c).reverse := by
  unfold reduceStep
  split
  · exact .single (by simpa using Shortens.current stack.reverse [])
  · next name below => exact .single (by simpa using Shortens.undone below.reverse name [])
  · next below => exact .single (by simpa using Shortens.top below.reverse [])
  · rw [List.reverse_cons]

theorem foldl_shortens (stack cs : List Component) :
    ReflTransGen Shortens (stack.reverse ++ cs) (cs.foldl reduceStep stack).reverse := by
  induction cs generalizing stack with
  | nil => simpa using ReflTransGen.refl
  | cons c cs ih =>
    have hstep := shortens_surround (reduceStep_shortens stack c) [] cs
    refine ReflTransGen.trans ?_ (ih (reduceStep stack c))
    simpa using hstep

theorem shortens_reduce (cs : List Component) : ReflTransGen Shortens cs (reduce cs) :=
  foldl_shortens [] cs

theorem reduce_eq_of_shortens {cs ds : List Component} (h : ReflTransGen Shortens cs ds) :
    reduce cs = reduce ds := by
  induction h with
  | refl => rfl
  | tail _ hstep ih => exact ih.trans hstep.reduce_eq

@[simp]
theorem reduce_reduce (cs : List Component) : reduce (reduce cs) = reduce cs :=
  (reduce_eq_of_shortens (shortens_reduce cs)).symm

theorem reduce_append (cs ds : List Component) :
    reduce (cs ++ ds) = reduce (reduce cs ++ reduce ds) := by
  have hleft := shortens_surround (shortens_reduce cs) [] ds
  have hright := shortens_surround (shortens_reduce ds) (reduce cs) []
  rw [List.append_nil, List.append_nil] at hright
  exact reduce_eq_of_shortens (hleft.trans hright)

theorem eqvGen_shortens_iff {cs ds : List Component} :
    EqvGen Shortens cs ds ↔ reduce cs = reduce ds := by
  refine ⟨fun h ↦ ?_, fun h ↦ ?_⟩
  · induction h with
    | rel _ _ hstep => exact hstep.reduce_eq
    | refl => rfl
    | symm _ _ _ ih => exact ih.symm
    | trans _ _ _ _ _ ih ih' => exact ih.trans ih'
  · have hcs := EqvGen.reflTransGen_le_eqvGen _ _ _ (shortens_reduce cs)
    have hds := EqvGen.reflTransGen_le_eqvGen _ _ _ (shortens_reduce ds)
    rw [h] at hcs
    exact .trans _ _ _ hcs (.symm _ _ hds)

theorem mem_of_mem_reduceStep {stack : List Component} {c d : Component}
    (h : d ∈ reduceStep stack c) : d ∈ c :: stack := by
  unfold reduceStep at h
  split at h
  · exact List.mem_cons_of_mem _ h
  · exact List.mem_cons_of_mem _ (List.mem_cons_of_mem _ h)
  · exact List.mem_cons_of_mem _ h
  · exact h

theorem mem_of_mem_reduce {cs : List Component} {c : Component} (h : c ∈ reduce cs) : c ∈ cs := by
  suffices hfoldl : ∀ stack, c ∈ cs.foldl reduceStep stack → c ∈ stack ∨ c ∈ cs by
    exact (hfoldl [] (List.mem_reverse.1 h)).resolve_left List.not_mem_nil
  clear h
  intro stack h
  induction cs generalizing stack with
  | nil => exact .inl h
  | cons d cs ih =>
    rcases ih _ h with hstep | hcs
    · rcases List.mem_cons.1 (mem_of_mem_reduceStep hstep) with rfl | hstack
      · exact .inr (List.mem_cons_self ..)
      · exact .inl hstack
    · exact .inr (List.mem_cons_of_mem _ hcs)

def base (absolute : Bool) (ups : Nat) : List Component :=
  if absolute then [.root] else List.replicate ups .parent

/-- Names after the root, or after a block of `..`. -/
def Reduced (absolute : Bool) (cs : List Component) : Prop :=
  ∃ (ups : Nat) (names : List String), cs = base absolute ups ++ names.map .normal

theorem reverse_base (absolute : Bool) (ups : Nat) :
    (base absolute ups).reverse = base absolute ups := by
  cases absolute <;> simp [base]

theorem reduced_reduceStep {absolute : Bool} {stack : List Component} {c : Component}
    (h : Reduced absolute stack.reverse) (hc : c ≠ .root) :
    Reduced absolute (reduceStep stack c).reverse := by
  obtain ⟨ups, names, hstack⟩ := h
  rw [List.reverse_eq_iff, List.reverse_append, reverse_base, ← List.map_reverse] at hstack
  subst hstack
  cases c with
  | root => exact absurd rfl hc
  | current => exact ⟨ups, names, by simp [reduceStep, reverse_base]⟩
  | normal name => exact ⟨ups, names ++ [name], by simp [reduceStep, reverse_base]⟩
  | parent =>
    rcases List.eq_nil_or_concat names with rfl | ⟨init, name, rfl⟩
    · cases absolute with
      | true => exact ⟨0, [], rfl⟩
      | false =>
        have hstep : reduceStep (List.replicate ups .parent) .parent =
            List.replicate (ups + 1) .parent := by
          cases ups <;> rfl
        exact ⟨ups + 1, [], by simp [base, hstep]⟩
    · exact ⟨ups, init, by simp [reduceStep, reverse_base]⟩

theorem reduced_foldl {absolute : Bool} (stack : List Component) {cs : List Component}
    (h : Reduced absolute stack.reverse) (hcs : ∀ c ∈ cs, c ≠ .root) :
    Reduced absolute (cs.foldl reduceStep stack).reverse := by
  induction cs generalizing stack with
  | nil => exact h
  | cons c cs ih =>
    obtain ⟨hc, hcs⟩ := List.forall_mem_cons.1 hcs
    exact ih (reduceStep stack c) (reduced_reduceStep h hc) hcs

theorem reduce_components (p : Path) :
    reduce p.components = reduce (base p.isAbsolute 0 ++ parts p.text.toList) := by
  rw [components_eq, isAbsolute]
  generalize p.text.toList = cs
  unfold split
  split
  · rfl
  · rfl
  · rfl
  · next hslash _ _ =>
    cases cs with
    | nil => rfl
    | cons c cs =>
      have hc : c ≠ '/' := fun heq ↦ hslash cs (heq ▸ rfl)
      simp [hc, base, Lead.components]

theorem reduced_components (p : Path) : Reduced p.isAbsolute (reduce p.components) := by
  rw [reduce_components]
  have hparts : ∀ c ∈ parts p.text.toList, c ≠ .root :=
    fun c hc ↦ (isPiece_of_mem_parts hc).ne_root
  cases p.isAbsolute with
  | true => exact reduced_foldl [.root] ⟨0, [], rfl⟩ hparts
  | false => exact reduced_foldl [] ⟨0, [], rfl⟩ hparts

theorem isPiece_of_mem_reduce {p : Path} {c : Component} (h : c ∈ reduce p.components)
    (hc : c ≠ .root) : c.IsPiece := by
  rw [reduce_components] at h
  rcases List.mem_append.1 (mem_of_mem_reduce h) with hbase | hparts
  · cases habsolute : p.isAbsolute <;> simp_all [base]
  · exact isPiece_of_mem_parts hparts

@[simp]
theorem components_normalize (p : Path) : p.normalize.components = reduce p.components := by
  obtain ⟨ups, names, hreduced⟩ := reduced_components p
  have hpieces : ∀ c ∈ reduce p.components, c ≠ .root → c.IsPiece :=
    fun c hc ↦ isPiece_of_mem_reduce hc
  unfold normalize
  rw [hreduced] at hpieces ⊢
  cases habsolute : p.isAbsolute with
  | true =>
    rw [habsolute] at hpieces
    refine components_ofComponents_root fun c hc ↦ hpieces c (List.mem_cons_of_mem _ hc) ?_
    obtain ⟨name, -, rfl⟩ := List.mem_map.1 hc
    simp
  | false =>
    rw [habsolute] at hpieces
    refine components_ofComponents fun c hc ↦ hpieces c hc ?_
    rcases List.mem_append.1 hc with hbase | hname
    · rw [List.eq_of_mem_replicate hbase]
      simp
    · obtain ⟨name, -, rfl⟩ := List.mem_map.1 hname
      simp

theorem normalize_eq_iff {p q : Path} :
    p.normalize = q.normalize ↔ reduce p.components = reduce q.components := by
  refine ⟨fun h ↦ ?_, fun h ↦ ?_⟩
  · rw [← components_normalize, h, components_normalize]
  · unfold normalize
    rw [h]

@[simp]
theorem normalize_normalize (p : Path) : p.normalize.normalize = p.normalize :=
  normalize_eq_iff.2 (by simp)

theorem isAbsolute_join {p : Path} {reference : String}
    (h : (Path.mk reference).isAbsolute = false) :
    (p.join reference).isAbsolute = p.isAbsolute := by
  unfold join
  by_cases hempty : p.text.isEmpty
  · obtain hp : p.text = "" := by simpa using hempty
    rw [if_pos (by simp [hempty]), h, isAbsolute, hp]
    rfl
  · have hne : p.text.toList ≠ [] := by simpa using hempty
    rw [if_neg (by simp [h, hempty])]
    split <;> simp [isAbsolute, List.head?_append_of_ne_nil _ hne]

theorem parts_join {p : Path} {reference : String} (h : (Path.mk reference).isAbsolute = false) :
    parts (p.join reference).text.toList = parts p.text.toList ++ parts reference.toList := by
  unfold join
  by_cases hempty : p.text.isEmpty
  · obtain hp : p.text = "" := by simpa using hempty
    rw [if_pos (by simp [hempty]), hp]
    rfl
  · rw [if_neg (by simp [h, hempty])]
    split
    · next hslash =>
      obtain ⟨init, hinit⟩ := List.getLast?_eq_some_iff.1 hslash
      rw [String.toList_append, hinit, parts_append, parts_nil, List.append_nil,
        List.append_assoc]
      exact parts_append init _
    · simpa using parts_append p.text.toList reference.toList

theorem reduce_join {p : Path} {reference : String} (h : (Path.mk reference).isAbsolute = false) :
    reduce (p.join reference).components =
      reduce (p.components ++ (Path.mk reference).components) := by
  rw [reduce_components, isAbsolute_join h, parts_join h, reduce_append p.components,
    reduce_components p, reduce_components ⟨reference⟩, h, ← reduce_append, ← List.append_assoc]
  rfl

theorem join_of_isAbsolute {p : Path} {reference : String} (h : (Path.mk reference).isAbsolute) :
    p.join reference = ⟨reference⟩ := by
  unfold join
  rw [if_pos (by simp [h])]

theorem isAbsolute_iff (p : Path) :
    p.isAbsolute = true ↔ (reduce p.components).head? = some .root := by
  obtain ⟨ups, names, hreduced⟩ := reduced_components p
  rw [hreduced]
  cases p.isAbsolute with
  | true => simp [base]
  | false => cases ups <;> cases names <;> simp [base, List.replicate_succ]

theorem normalize_join_congr {p q : Path} {reference reference' : String}
    (h : reduce p.components = reduce q.components)
    (href : reduce (Path.mk reference).components = reduce (Path.mk reference').components) :
    (p.join reference).normalize = (q.join reference').normalize := by
  have habsolute : (Path.mk reference).isAbsolute = (Path.mk reference').isAbsolute := by
    rw [Bool.eq_iff_iff, isAbsolute_iff, isAbsolute_iff, href]
  rw [normalize_eq_iff]
  cases hreference : (Path.mk reference).isAbsolute with
  | true => rw [join_of_isAbsolute hreference, join_of_isAbsolute (habsolute ▸ hreference), href]
  | false =>
    rw [reduce_join hreference, reduce_join (habsolute ▸ hreference), reduce_append, h, href,
      ← reduce_append]

end Transclude.Path
