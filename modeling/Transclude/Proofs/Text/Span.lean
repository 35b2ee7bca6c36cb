import Transclude.Text.Character
import Transclude.Text.Encoding

namespace Transclude.Text

/-- A byte offset between two characters of a text, or at one of its ends. -/
def IsBoundary (text : String) (offset : Nat) : Prop := String.Pos.Raw.IsValid text ⟨offset⟩

/-- Two byte offsets between which a piece can be cut out of a text. -/
structure IsRange (text : String) (start stop : Nat) : Prop where
  le : start ≤ stop
  start_isBoundary : IsBoundary text start
  stop_isBoundary : IsBoundary text stop

/-- The piece is in the text, and starts at a byte offset. -/
def StandsAt (text : String) (offset : Nat) (piece : List Char) : Prop :=
  ∃ before rest, text.toList = before ++ (piece ++ rest) ∧ offset = size before

/-- `trimmed` is a text without the blanks at both of its ends. -/
structure Trims (cs trimmed : List Char) : Prop where
  blanks : ∃ lead trail, cs = lead ++ (trimmed ++ trail) ∧ lead.all isBlank = true ∧
    trail.all isBlank = true
  head : ∀ c ∈ trimmed.head?, isBlank c = false
  last : ∀ c ∈ trimmed.getLast?, isBlank c = false

variable {text : String} {offset start stop : Nat} {piece cs ds : List Char}

theorem utf8ByteSize_ofList (cs : List Char) : (String.ofList cs).utf8ByteSize = size cs := by
  induction cs with
  | nil => rfl
  | cons c cs ih =>
    rw [String.ofList_cons, String.utf8ByteSize_append, ih, String.utf8ByteSize_singleton,
      size_cons]

theorem size_pos (hcs : cs ≠ []) : 0 < size cs := by
  cases cs with
  | nil => exact absurd rfl hcs
  | cons c cs =>
    have hc := c.utf8Size_pos
    rw [size_cons]
    omega

theorem size_eq_length (hcs : ∀ c ∈ cs, c.toNat < 0x80) : size cs = cs.length := by
  induction cs with
  | nil => rfl
  | cons c cs ih =>
    obtain ⟨hc, hcs⟩ := List.forall_mem_cons.1 hcs
    have hone : c.utf8Size = 1 := Char.utf8Size_eq_one_iff.2 (by
      have : c.val.toNat ≤ 127 := Nat.le_of_lt_succ hc
      exact this)
    rw [size_cons, hone, ih hcs, List.length_cons, Nat.add_comm]

theorem isBoundary_iff :
    IsBoundary text offset ↔
      ∃ before rest, text.toList = before ++ rest ∧ offset = size before := by
  rw [IsBoundary, String.Pos.Raw.isValid_iff_exists_append]
  constructor
  · rintro ⟨s, t, rfl, hoffset⟩
    refine ⟨s.toList, t.toList, String.toList_append, ?_⟩
    rw [← utf8ByteSize_ofList, String.ofList_toList]
    exact congrArg String.Pos.Raw.byteIdx hoffset
  · rintro ⟨before, rest, htext, rfl⟩
    refine ⟨String.ofList before, String.ofList rest, ?_, ?_⟩
    · rw [← String.ofList_append, ← htext, String.ofList_toList]
    · rw [← utf8ByteSize_ofList]
      rfl

theorem StandsAt.isRange (h : StandsAt text offset piece) :
    IsRange text offset (offset + size piece) := by
  obtain ⟨before, rest, htext, rfl⟩ := h
  refine ⟨Nat.le_add_right _ _, isBoundary_iff.2 ⟨before, _, htext, rfl⟩, isBoundary_iff.2 ?_⟩
  exact ⟨before ++ piece, rest, by rw [htext, List.append_assoc], (size_append _ _).symm⟩

theorem StandsAt.slice_eq (h : StandsAt text offset piece) :
    slice offset (offset + size piece) text = String.ofList piece := by
  obtain ⟨before, rest, htext, rfl⟩ := h
  rw [slice, htext, sliceChars_append]

theorem StandsAt.part {before after : List Char}
    (h : StandsAt text offset (before ++ (piece ++ after))) :
    StandsAt text (offset + size before) piece := by
  obtain ⟨front, rest, htext, rfl⟩ := h
  refine ⟨front ++ before, after ++ rest, ?_, (size_append _ _).symm⟩
  simp only [htext, List.append_assoc]

theorem exists_append_of_size_le {before rest before' rest' : List Char}
    (heq : before ++ rest = before' ++ rest') (hle : size before ≤ size before') :
    ∃ more, before' = before ++ more ∧ rest = more ++ rest' := by
  rcases List.append_eq_append_iff.1 heq with h | ⟨more, hmore, hrest⟩
  · exact h
  · cases more with
    | nil => exact ⟨[], by rw [hmore, List.append_nil, List.append_nil], hrest.symm⟩
    | cons c more =>
      have hpos := size_pos (List.cons_ne_nil c more)
      rw [hmore, size_append] at hle
      omega

theorem IsRange.exists_standsAt (h : IsRange text start stop) :
    ∃ piece, StandsAt text start piece ∧ stop = start + size piece := by
  obtain ⟨before, rest, htext, rfl⟩ := isBoundary_iff.1 h.start_isBoundary
  obtain ⟨before', rest', htext', rfl⟩ := isBoundary_iff.1 h.stop_isBoundary
  obtain ⟨piece, rfl, rfl⟩ := exists_append_of_size_le (htext.symm.trans htext') h.le
  exact ⟨piece, ⟨before, rest', htext, rfl⟩, size_append _ _⟩

/-- A piece is cut out between two byte offsets exactly if they are a range of the text. -/
theorem isSome_cut?_iff :
    (cut? start stop text.toList).isSome = true ↔ IsRange text start stop := by
  rw [Option.isSome_iff_exists]
  constructor
  · rintro ⟨piece, hpiece⟩
    obtain ⟨before, rest, htext, rfl, rfl⟩ := eq_append_of_cut? hpiece
    exact StandsAt.isRange ⟨before, rest, htext, rfl⟩
  · intro h
    obtain ⟨piece, ⟨before, rest, htext, rfl⟩, rfl⟩ := h.exists_standsAt
    exact ⟨piece, by rw [htext, cut?_append]⟩

theorem StandsAt.within {part : List Char} {offset' : Nat} (h : StandsAt text offset piece)
    (hpart : StandsAt text offset' part) (hstart : offset ≤ offset')
    (hstop : offset' + size part ≤ offset + size piece) :
    ∃ before after, piece = before ++ (part ++ after) ∧ offset' = offset + size before := by
  obtain ⟨front, rest, htext, rfl⟩ := h
  obtain ⟨front', rest', htext', rfl⟩ := hpart
  obtain ⟨before, rfl, hrest⟩ := exists_append_of_size_le (htext.symm.trans htext') hstart
  rw [← List.append_assoc] at hrest
  have hle : size (before ++ part) ≤ size piece := by
    rw [size_append] at hstop ⊢
    omega
  obtain ⟨after, hpiece, -⟩ := exists_append_of_size_le hrest.symm hle
  refine ⟨before, after, ?_, size_append _ _⟩
  rw [hpiece, List.append_assoc]

theorem isBlank_head_dropWhile {c : Char} (hc : c ∈ (cs.dropWhile isBlank).head?) :
    isBlank c = false := by
  have h := List.head?_dropWhile_not isBlank cs
  rwa [Option.mem_def.1 hc] at h

theorem trimRight_append (cs : List Char) :
    trimRight cs ++ (cs.reverse.takeWhile isBlank).reverse = cs := by
  rw [trimRight, ← List.reverse_append, List.takeWhile_append_dropWhile, List.reverse_reverse]

theorem trims_trimChars (cs : List Char) : Trims cs (trimChars cs) := by
  have hright := trimRight_append (trimLeft cs)
  refine ⟨⟨cs.takeWhile isBlank, ((trimLeft cs).reverse.takeWhile isBlank).reverse, ?_, ?_, ?_⟩,
    ?_, ?_⟩
  · rw [trimChars, hright, trimLeft, List.takeWhile_append_dropWhile]
  · exact List.all_takeWhile
  · rw [List.all_reverse]
    exact List.all_takeWhile
  · intro c hc
    -- What is left starts as the text does without its first blanks.
    have hhead : c ∈ (trimLeft cs).head? := by
      rw [trimChars] at hc
      rw [← hright, List.head?_append, Option.mem_def.1 hc]
      rfl
    exact isBlank_head_dropWhile hhead
  · intro c hc
    rw [trimChars, trimRight, List.getLast?_reverse] at hc
    exact isBlank_head_dropWhile hc

theorem trimLeft_eq_self (h : ∀ c ∈ cs.head?, isBlank c = false) : trimLeft cs = cs := by
  cases cs with
  | nil => rfl
  | cons c cs => rw [trimLeft, List.dropWhile_cons, h c rfl, if_neg Bool.false_ne_true]

theorem trimLeft_append {lead : List Char} (hlead : lead.all isBlank = true) (cs : List Char) :
    trimLeft (lead ++ cs) = trimLeft cs :=
  List.dropWhile_append_of_pos (List.all_eq_true.1 hlead)

theorem Trims.trimChars_eq (h : Trims cs ds) : trimChars cs = ds := by
  obtain ⟨⟨lead, trail, rfl, hlead, htrail⟩, hhead, hlast⟩ := h
  rw [trimChars, trimLeft_append hlead]
  cases ds with
  | nil =>
    have hnil := trimLeft_append htrail []
    rw [List.append_nil] at hnil
    rw [List.nil_append, hnil]
    rfl
  | cons d ds =>
    rw [trimLeft_eq_self (by simpa using hhead), trimRight, List.reverse_append]
    have hright : trimLeft (trail.reverse ++ (d :: ds).reverse) = (d :: ds).reverse := by
      rw [trimLeft_append (by rwa [List.all_reverse]), trimLeft_eq_self]
      rw [List.head?_reverse]
      exact hlast
    rw [trimLeft] at hright
    rw [hright, List.reverse_reverse]

theorem trims_self (hhead : ∀ c ∈ cs.head?, isBlank c = false)
    (hlast : ∀ c ∈ cs.getLast?, isBlank c = false) : Trims cs cs :=
  ⟨⟨[], [], by rw [List.nil_append, List.append_nil], rfl, rfl⟩, hhead, hlast⟩

theorem trimChars_eq_self (h : ∀ c ∈ cs, isBlank c = false) : trimChars cs = cs := by
  apply Trims.trimChars_eq
  apply trims_self
  · exact fun c hc ↦ h c (List.mem_of_mem_head? hc)
  · exact fun c hc ↦ h c (List.mem_of_mem_getLast? hc)

theorem exists_append_of_blanks {lead rest before after : List Char}
    (heq : lead ++ rest = before ++ after) (hlead : lead.all isBlank = true)
    (hafter : after.head?.any (!isBlank ·) = true) :
    ∃ more, before = lead ++ more ∧ rest = more ++ after := by
  rcases List.append_eq_append_iff.1 heq with h | ⟨more, hmore, hrest⟩
  · exact h
  · cases more with
    | nil => exact ⟨[], by rw [hmore, List.append_nil, List.append_nil], hrest.symm⟩
    | cons c more =>
      have hc : isBlank c = true := by
        apply List.all_eq_true.1 hlead
        rw [hmore]
        exact List.mem_append_right _ List.mem_cons_self
      rw [hrest, List.cons_append, List.head?_cons, Option.any_some, hc] at hafter
      cases hafter

theorem any_head_append (hpiece : piece ≠ []) (hblank : ∀ c ∈ piece, isBlank c = false)
    (rest : List Char) : (piece ++ rest).head?.any (!isBlank ·) = true := by
  cases piece with
  | nil => exact absurd rfl hpiece
  | cons c piece => simp [hblank c List.mem_cons_self]

theorem Trims.keeps {before after : List Char} (h : Trims cs ds)
    (hcs : cs = before ++ (piece ++ after)) (hpiece : piece ≠ [])
    (hblank : ∀ c ∈ piece, isBlank c = false) :
    ∃ lead trail before' after', cs = lead ++ (ds ++ trail) ∧ before = lead ++ before' ∧
      ds = before' ++ (piece ++ after') := by
  obtain ⟨⟨lead, trail, hds, hlead, htrail⟩, -, -⟩ := h
  obtain ⟨before', hbefore, hrest⟩ := exists_append_of_blanks (hds.symm.trans hcs) hlead
    (any_head_append hpiece hblank after)
  -- The other end is the same with the text turned round.
  have hreverse : trail.reverse ++ ds.reverse =
      after.reverse ++ (piece.reverse ++ before'.reverse) := by
    rw [← List.reverse_append, hrest]
    simp only [List.reverse_append, List.append_assoc]
  obtain ⟨after', -, hds'⟩ := exists_append_of_blanks hreverse (by rwa [List.all_reverse])
    (any_head_append (by simpa using hpiece) (by simpa using hblank) _)
  refine ⟨lead, trail, before', after'.reverse, hds, hbefore, ?_⟩
  rw [← List.reverse_inj, hds']
  simp only [List.reverse_append, List.reverse_reverse, List.append_assoc]

end Transclude.Text
