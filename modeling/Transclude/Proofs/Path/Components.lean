import Mathlib.Data.List.DropRight
import Transclude.Path.Basic

namespace Transclude.Path

theorem pieces_eq (cs : List Char) : pieces cs = cs.splitOn '/' := by
  induction cs with
  | nil => rfl
  | cons c cs ih =>
    rw [pieces, List.splitOn_cons_eq_if_modifyHead, ih]
    by_cases hc : c = '/'
    · simp [hc]
    · rw [if_neg hc, if_neg (by simpa using hc)]
      cases hpieces : cs.splitOn '/' with
      | nil => exact absurd hpieces (List.splitOn_ne_nil '/' cs)
      | cons first rest => rfl

theorem pieces_of_ne_slash {c : Char} (hc : c ≠ '/') (cs : List Char) :
    ∃ first rest, pieces cs = first :: rest ∧ pieces (c :: cs) = (c :: first) :: rest := by
  cases hpieces : pieces cs with
  | nil => exact absurd (pieces_eq cs ▸ hpieces) (List.splitOn_ne_nil '/' cs)
  | cons first rest => exact ⟨first, rest, rfl, by rw [pieces, if_neg hc, hpieces]⟩

theorem not_mem_of_mem_pieces {cs piece : List Char} (h : piece ∈ pieces cs) : '/' ∉ piece := by
  induction cs generalizing piece with
  | nil =>
    rw [List.mem_singleton.1 h]
    simp
  | cons c cs ih =>
    by_cases hc : c = '/'
    · rw [pieces, if_pos hc] at h
      rcases List.mem_cons.1 h with rfl | h
      · simp
      · exact ih h
    · obtain ⟨first, rest, hpieces, hcons⟩ := pieces_of_ne_slash hc cs
      rw [hcons] at h
      rcases List.mem_cons.1 h with rfl | h
      · exact List.not_mem_cons_of_ne_of_not_mem (Ne.symm hc) (ih (hpieces ▸ List.mem_cons_self ..))
      · exact ih (hpieces ▸ List.mem_cons_of_mem _ h)

def parts (cs : List Char) : List Component := (pieces cs).filterMap component?

@[simp]
theorem parts_nil : parts [] = [] := rfl

theorem parts_append (cs ds : List Char) : parts (cs ++ '/' :: ds) = parts cs ++ parts ds := by
  rw [parts, pieces_eq, List.splitOn_append_cons_self, ← pieces_eq, ← pieces_eq,
    List.filterMap_append]
  rfl

theorem parts_intercalate {body : List (List Char)} (h : ∀ piece ∈ body, '/' ∉ piece) :
    parts (List.intercalate ['/'] body) = body.filterMap component? := by
  by_cases hbody : body = []
  · simp [hbody]
  · rw [parts, pieces_eq, List.splitOn_intercalate '/' h hbody]

theorem parts_slash (cs : List Char) : parts ('/' :: cs) = parts cs := parts_append [] cs

theorem parts_split (cs : List Char) : (split cs).2.filterMap component? = parts cs := by
  unfold split
  split
  · rw [parts_slash, parts]
  · rfl
  · exact (parts_append ['.'] _).symm
  · rfl

theorem components_eq (p : Path) :
    p.components = (split p.text.toList).1.components ++ parts p.text.toList := by
  rw [← parts_split]
  rfl

theorem split_fst_eq_plain {cs : List Char}
    (h : ∀ piece ∈ (pieces cs).head?, (component? piece).isSome) : (split cs).1 = .plain := by
  unfold split
  split
  · simp [pieces, component?] at h
  · simp [pieces, component?] at h
  · simp [pieces, component?] at h
  · rfl

theorem isSome_of_split_fst {cs : List Char} (hplain : (split cs).1 = .plain) (hcs : cs ≠ []) :
    ∀ piece ∈ (pieces cs).head?, (component? piece).isSome := by
  intro piece hpiece
  obtain ⟨c, cs, rfl⟩ := List.exists_cons_of_ne_nil hcs
  have hc : c ≠ '/' := by
    rintro rfl
    cases hplain
  obtain ⟨first, rest, hpieces, hcons⟩ := pieces_of_ne_slash hc cs
  rw [hcons] at hpiece
  cases hpiece
  -- The first piece is `.` only if the text goes on with a slash or ends.
  have hdot : c :: first ≠ ['.'] := by
    intro heq
    obtain ⟨rfl, rfl⟩ := List.cons.inj heq
    cases cs with
    | nil => cases hplain
    | cons d ds =>
      by_cases hd : d = '/'
      · subst hd
        cases hplain
      · obtain ⟨_, _, -, hcons⟩ := pieces_of_ne_slash hd ds
        cases hpieces.symm.trans hcons
  unfold component?
  rw [if_neg (by simp [hdot])]
  split <;> rfl

theorem components_glue {lead : Lead} {body : List (List Char)}
    (hbody : ∀ piece ∈ body, '/' ∉ piece)
    (hlead : lead = .plain → ∀ piece ∈ body.head?, (component? piece).isSome) :
    (glue lead body).components = lead.components ++ body.filterMap component? := by
  have hparts := parts_intercalate hbody
  rw [← hparts]
  cases lead with
  | root => simp [glue, components_eq, split, parts_slash]
  | current =>
    by_cases hnil : body = []
    · subst hnil
      rfl
    · have hdot (cs : List Char) : parts ('.' :: '/' :: cs) = parts cs := parts_append ['.'] cs
      simp [glue, components_eq, split, hnil, hdot]
  | plain =>
    by_cases hnil : body = []
    · subst hnil
      rfl
    · have hplain : (split (List.intercalate ['/'] body)).1 = .plain := by
        refine split_fst_eq_plain ?_
        rw [pieces_eq, List.splitOn_intercalate '/' hbody hnil]
        exact hlead rfl
      simp [glue, components_eq, hplain]

theorem component?_ne_root (piece : List Char) : component? piece ≠ some .root := by
  unfold component?
  split_ifs <;> simp

def Component.IsPiece (c : Component) : Prop :=
  '/' ∉ c.text.toList ∧ component? c.text.toList = some c

theorem isPiece_of_component? {piece : List Char} {c : Component} (h : component? piece = some c)
    (hpiece : '/' ∉ piece) : c.IsPiece := by
  suffices htext : c.text.toList = piece by
    unfold Component.IsPiece
    rw [htext]
    exact ⟨hpiece, h⟩
  unfold component? at h
  split_ifs at h with hidle hparent
  · cases h
    exact hparent.symm
  · cases h
    exact String.toList_ofList

theorem isPiece_of_mem_parts {cs : List Char} {c : Component} (h : c ∈ parts cs) : c.IsPiece := by
  obtain ⟨piece, hpiece, hc⟩ := List.mem_filterMap.1 h
  exact isPiece_of_component? hc (not_mem_of_mem_pieces hpiece)

theorem Component.IsPiece.ne_root {c : Component} (h : c.IsPiece) : c ≠ .root := by
  rintro rfl
  exact component?_ne_root _ h.2

theorem filterMap_text {cs : List Component} (h : ∀ c ∈ cs, c.IsPiece) :
    (cs.map fun c ↦ c.text.toList).filterMap component? = cs := by
  induction cs with
  | nil => rfl
  | cons c cs ih =>
    obtain ⟨hc, hcs⟩ := List.forall_mem_cons.1 h
    rw [List.map_cons, List.filterMap_cons_some hc.2, ih hcs]

theorem intercalate_text (cs : List Component) :
    "/".intercalate (cs.map Component.text) =
      String.ofList (List.intercalate ['/'] (cs.map fun c ↦ c.text.toList)) := by
  rw [String.ext_iff]
  simp [String.toList_intercalate, Function.comp_def]

theorem components_ofComponents_root {cs : List Component} (h : ∀ c ∈ cs, c.IsPiece) :
    (ofComponents (.root :: cs)).components = .root :: cs := by
  have hglue : ofComponents (.root :: cs) = glue .root (cs.map fun c ↦ c.text.toList) := by
    rw [ofComponents, intercalate_text, glue, Path.mk.injEq, String.ext_iff]
    simp
  rw [hglue, components_glue, filterMap_text h]
  · rfl
  · exact List.forall_mem_map.2 fun c hc ↦ (h c hc).1
  · intro hlead
    cases hlead

theorem components_ofComponents {cs : List Component} (h : ∀ c ∈ cs, c.IsPiece) :
    (ofComponents cs).components = cs := by
  have hglue : ofComponents cs = glue .plain (cs.map fun c ↦ c.text.toList) := by
    rw [glue, ← intercalate_text]
    cases cs with
    | nil => rfl
    | cons c cs =>
      cases c with
      | root => exact absurd rfl (h .root (List.mem_cons_self ..)).ne_root
      | _ => rfl
  rw [hglue, components_glue, filterMap_text h]
  · rfl
  · exact List.forall_mem_map.2 fun c hc ↦ (h c hc).1
  · intro _ piece hpiece
    obtain ⟨c, hc, rfl⟩ := List.mem_map.1 (List.mem_of_mem_head? hpiece)
    rw [(h c hc).2]
    rfl

theorem dropIdle_eq (body : List (List Char)) :
    dropIdle body = body.rdropWhile fun piece ↦ (component? piece).isNone := rfl

theorem filterMap_dropIdle (body : List (List Char)) :
    (dropIdle body).filterMap component? = body.filterMap component? := by
  induction body using List.reverseRecOn with
  | nil => rfl
  | append_singleton body piece ih =>
    rw [dropIdle_eq, List.rdropWhile_concat, ← dropIdle_eq]
    cases hpiece : component? piece with
    | none => simp [hpiece, ih]
    | some c => simp

theorem dropIdle_cases (body : List (List Char)) :
    dropIdle body = [] ∨ ∃ init piece c, dropIdle body = init ++ [piece] ∧
      component? piece = some c := by
  rcases List.eq_nil_or_concat (dropIdle body) with hnil | ⟨init, piece, heq⟩
  · exact .inl hnil
  · rw [List.concat_eq_append] at heq
    refine .inr ⟨init, piece, ?_⟩
    have hlast := List.rdropWhile_last_not (fun piece ↦ (component? piece).isNone) body
      (by simp [← dropIdle_eq, heq])
    simp only [← dropIdle_eq, heq, List.getLast_append_singleton, Bool.not_eq_true,
      Option.isNone_eq_false_iff] at hlast
    obtain ⟨c, hc⟩ := Option.isSome_iff_exists.1 hlast
    exact ⟨c, heq, hc⟩

theorem isPrefix_dropIdle (body : List (List Char)) : dropIdle body <+: body :=
  List.rdropWhile_prefix _ body

theorem not_mem_of_mem_split {cs piece : List Char} (h : piece ∈ (split cs).2) : '/' ∉ piece := by
  unfold split at h
  split at h
  · exact not_mem_of_mem_pieces h
  · cases h
  · exact not_mem_of_mem_pieces h
  · exact not_mem_of_mem_pieces h

theorem split_snd_of_plain {cs : List Char} (h : (split cs).1 = .plain) :
    (split cs).2 = pieces cs := by
  unfold split at h ⊢
  split
  · cases h
  · cases h
  · cases h
  · rfl

theorem components_glue_dropIdle {cs : List Char} {init : List (List Char)} {piece : List Char}
    (h : dropIdle (split cs).2 = init ++ [piece]) :
    (glue (split cs).1 (dropIdle init)).components =
      (split cs).1.components ++ init.filterMap component? := by
  have hbegins : dropIdle init <+: (split cs).2 := by
    have hinit : init <+: (split cs).2 :=
      (List.prefix_append init [piece]).trans (h ▸ isPrefix_dropIdle _)
    exact (isPrefix_dropIdle init).trans hinit
  rw [components_glue, filterMap_dropIdle]
  · exact fun piece hpiece ↦ not_mem_of_mem_split (hbegins.subset hpiece)
  · intro hplain first hfirst
    have hcs : cs ≠ [] := by
      rintro rfl
      exact absurd h (by simp [split, pieces, dropIdle, component?])
    refine isSome_of_split_fst hplain hcs first ?_
    rw [← split_snd_of_plain hplain]
    obtain ⟨others, hothers⟩ := hbegins
    rw [← hothers, List.head?_append, Option.mem_def.1 hfirst]
    rfl

theorem parent?_of_nil {p : Path} (h : dropIdle (split p.text.toList).2 = []) :
    p.parent? = if (split p.text.toList).1 = .current then some ⟨""⟩ else none := by
  simp only [parent?, h]

theorem parent?_of_concat {p : Path} {init : List (List Char)} {piece : List Char}
    (h : dropIdle (split p.text.toList).2 = init ++ [piece]) :
    p.parent? = some (glue (split p.text.toList).1 (dropIdle init)) := by
  have hne : init ++ [piece] ≠ [] := by simp
  simp only [parent?, h, List.dropLast_concat]

theorem map_components_parent? (p : Path) :
    p.parent?.map components =
      if p.components = [] ∨ p.components = [.root] then none
      else some p.components.dropLast := by
  have hcomponents : p.components = (split p.text.toList).1.components ++
      (dropIdle (split p.text.toList).2).filterMap component? := by
    rw [filterMap_dropIdle]
    rfl
  rcases dropIdle_cases (split p.text.toList).2 with hnil | ⟨init, piece, c, hbody, hc⟩
  · rw [parent?_of_nil hnil, hcomponents, hnil]
    cases (split p.text.toList).1 <;> rfl
  · have hroot : c ≠ .root := by
      rintro rfl
      exact component?_ne_root piece hc
    have hlast : p.components =
        (split p.text.toList).1.components ++ init.filterMap component? ++ [c] := by
      simp [hcomponents, hbody, hc]
    rw [parent?_of_concat hbody, Option.map_some, components_glue_dropIdle hbody, hlast,
      List.dropLast_concat, if_neg]
    rintro (hnil | hsingle)
    · simp at hnil
    · have hends : [c] = [.root] :=
        (List.append_inj' (hsingle.trans (List.nil_append _).symm) rfl).2
      exact hroot (List.singleton_inj.1 hends)

end Transclude.Path
