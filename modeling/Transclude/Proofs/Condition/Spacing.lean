import Transclude.Condition.Basic
import Transclude.Proofs.Condition.Quoted

namespace Transclude

open Text

namespace Token

/-- The tokens stand in the text one after the other, and what they leave out is blank. -/
structure Covers (tokens : List Token) (source : String) : Prop where
  nonempty : ∀ t ∈ tokens, t.start < t.stop
  isRange : ∀ t ∈ tokens, IsRange source t.start t.stop
  slice_eq : ∀ t ∈ tokens, slice t.start t.stop source = t.spelling
  ordered : tokens.Pairwise fun t u ↦ t.stop ≤ u.start
  isBlank : ∀ before c after, source.toList = before ++ c :: after →
    (∀ t ∈ tokens, ¬(t.start ≤ size before ∧ size before < t.stop)) → isBlank c = true

structure IsLongest (source : String) (offset : Nat) (p : String) : Prop where
  mem : p ∈ punctuators
  standsAt : StandsAt source offset p.toList
  length_le : ∀ q ∈ punctuators, StandsAt source offset q.toList →
    q.toList.length ≤ p.toList.length

structure Spacing (tokens : List Token) where
  gaps : List (List Char)
  trail : List Char
  length_eq : gaps.length = tokens.length
  gaps_blank : ∀ gap ∈ gaps, gap.all isBlank = true
  gaps_ne_nil : ∀ gap ∈ gaps.tail, gap ≠ []
  trail_blank : trail.all isBlank = true

def Spacing.write {tokens : List Token} (s : Spacing tokens) : String :=
  String.ofList
    ((List.zipWith (fun gap t ↦ gap ++ t.spelling.toList) s.gaps tokens).flatten ++ s.trail)

/-- The token is in the text, and what follows it does not prolong it. -/
structure ReadIn (source : String) (t : Token) (before after : List Char) : Prop where
  toList_eq : source.toList = before ++ (t.spelling.toList ++ after)
  start_eq : t.start = size before
  lexes : Lexes t.kind t.spelling.toList after

variable {source : String} {kind : TokenKind} {t : Token} {tokens : List Token} {p q : String}
  {cs spelling rest : List Char} {offset : Nat}

theorem ReadIn.standsAt {before after : List Char} (h : ReadIn source t before after) :
    StandsAt source t.start t.spelling.toList :=
  ⟨before, after, h.toList_eq, h.start_eq⟩

theorem Lexes.ne_nil (h : Lexes kind spelling rest) : spelling ≠ [] := by
  obtain ⟨c, cs, rfl, -⟩ := h
  exact List.cons_ne_nil c cs

theorem ReadIn.start_lt_stop {before after : List Char} (h : ReadIn source t before after) :
    t.start < t.stop :=
  Nat.lt_add_of_pos_right (size_pos h.lexes.ne_nil)

theorem Lexes.punct_eq (h : Lexes (.punct p) spelling rest) :
    spelling = p.toList ∧ punctuator? (p.toList ++ rest) = some p := by
  obtain ⟨c, cs, rfl, -⟩ := id h
  obtain ⟨-, hfound⟩ := lexes_iff_found.1 h
  have hfound := hfound 0
  generalize hkind : TokenKind.punct p = kind at hfound
  generalize hn : cs.length = n at hfound
  cases hfound with
  | punct _ _ hp =>
    cases hkind
    have hchars : p.toList = c :: cs := by
      rw [(punctuator?_cons hp).2.1, ← hn, List.take_left]
    rw [← List.cons_append, ← hchars] at hp
    exact ⟨hchars.symm, hp⟩
  | name | number | text | backtick => cases hkind

theorem isBlank_punctuator (hp : p ∈ punctuators) : ∀ c ∈ p.toList, isBlank c = false := by
  have hall : punctuators.all (fun p ↦ p.toList.all (!isBlank ·)) = true := by decide
  intro c hc
  have hc := List.all_eq_true.1 (List.all_eq_true.1 hall p hp) c hc
  simpa using hc

theorem length_le_of_punctuator? (h : punctuator? cs = some p) (hq : q ∈ punctuators)
    (hfits : q.toList <+: cs) : q.toList.length ≤ p.toList.length := by
  obtain ⟨hpfits, before, after, hsplit, hearlier⟩ := List.find?_eq_some_iff_append.1 h
  have hordered := punctuators_ordered
  rw [hsplit] at hq hordered
  rcases List.mem_append.1 hq with hq | hq
  · have hno := hearlier q hq
    rw [Bool.not_eq_true', ← Bool.not_eq_true, List.isPrefixOf_iff_prefix] at hno
    exact absurd hfits hno
  rcases List.mem_cons.1 hq with rfl | hq
  · exact Nat.le_refl _
  · have hlater := (List.pairwise_cons.1 (List.pairwise_append.1 hordered).2.1).1 q hq
    rw [← Bool.not_eq_true, List.isPrefixOf_iff_prefix] at hlater
    -- A later punctuator has no earlier one as its beginning, so it is not the longer one.
    have hpfits := List.isPrefixOf_iff_prefix.1 hpfits
    rcases List.prefix_or_prefix_of_prefix hfits hpfits with hle | hle
    · exact hle.length_le
    · exact absurd hle hlater

theorem ReadIn.isLongest {before after : List Char} (h : ReadIn source t before after)
    (hkind : t.kind = .punct p) : t.spelling = p ∧ IsLongest source t.start p := by
  have hlexes := h.lexes
  rw [hkind] at hlexes
  obtain ⟨hspelling, hp⟩ := hlexes.punct_eq
  refine ⟨String.toList_inj.1 hspelling, (punctuator?_eq_some hp).1, ?_, ?_⟩
  · rw [← hspelling]
    exact h.standsAt
  · rintro q hq ⟨before', after', htext, hstart⟩
    refine length_le_of_punctuator? hp hq ⟨after', ?_⟩
    have hdrop := sliceFrom_append before (p.toList ++ after)
    rw [← hspelling, ← h.toList_eq, ← h.start_eq, hstart, htext, sliceFrom_append] at hdrop
    rw [hdrop, hspelling]

theorem exists_of_mem_prolongations {d : Char} (h : d ∈ prolongations p) :
    ∃ q ∈ punctuators, d ∈ q.toList := by
  obtain ⟨q, hq, hd⟩ := List.mem_flatMap.1 h
  split at hd
  · exact ⟨q, hq, List.mem_of_mem_drop (List.mem_of_mem_take hd)⟩
  · cases hd

theorem not_isNamePart_of_isBlank {d : Char} (h : isBlank d = true) : isNamePart d = false := by
  cases hpart : isNamePart d with
  | false => rfl
  | true => rw [isBlank_of_isNamePart hpart] at h; cases h

theorem not_mem_prolongations {d : Char} (h : isBlank d = true) : d ∉ prolongations p := by
  intro hmem
  obtain ⟨q, hq, hdq⟩ := exists_of_mem_prolongations hmem
  rw [isBlank_punctuator hq d hdq] at h
  cases h

theorem forall_head_blanks {P : Char → Prop} {gap : List Char} (hgap : gap.all isBlank = true)
    (hblank : ∀ d, isBlank d = true → P d) (hrest : ∀ d ∈ rest.head?, P d) :
    ∀ d ∈ (gap ++ rest).head?, P d := by
  cases gap with
  | nil => exact hrest
  | cons c gap =>
    intro d hd
    obtain rfl := Option.some.inj hd
    exact hblank c (List.all_eq_true.1 hgap c List.mem_cons_self)

theorem stops_blanks {gap : List Char} (hgap : gap.all isBlank = true) (hrest : Stops rest) :
    Stops (gap ++ rest) := by
  refine forall_head_blanks hgap ?_ hrest
  intro d hd
  refine ⟨not_isNamePart_of_isBlank hd, ?_⟩
  intro hpoint
  rw [hpoint] at hd
  cases hd

theorem lexes_before_blank (h : scanFrom offset cs = .ok tokens) (ht : t ∈ tokens)
    (hrest : ∀ d ∈ rest.head?, isBlank d = true) : Lexes t.kind t.spelling.toList rest := by
  by_cases hpunct : ∃ p, t.kind = .punct p
  · obtain ⟨p, hkind⟩ := hpunct
    obtain ⟨start, c, cs, n, hfound, hspelling, hblank⟩ := lexeme_of_mem_scanFrom h ht
    have hlexes := lexes_of_lexeme hfound hblank
    rw [hkind, ← hspelling] at hlexes
    obtain ⟨hchars, hp⟩ := hlexes.punct_eq
    rw [hkind, hchars]
    refine lexes_punct (punctuator?_eq_some hp).1 ?_
    intro d hd
    have hd := hrest d hd
    refine ⟨not_mem_prolongations hd, fun _ ↦ ?_⟩
    cases hdigit : isDigit d with
    | false => rfl
    | true =>
      rw [isBlank_of_isNamePart (isNamePart_of_isDigit hdigit)] at hd
      cases hd
  · rw [not_exists] at hpunct
    refine lexes_of_mem_scanFrom h ht hpunct ?_
    intro d hd
    have hd := hrest d hd
    refine ⟨not_isNamePart_of_isBlank hd, ?_⟩
    rintro rfl
    cases hd

theorem Lexes.isBlank_eq_false (h : Lexes kind spelling rest) (hkind : ∀ s, kind ≠ .text s) :
    ∀ d ∈ spelling, isBlank d = false := by
  obtain ⟨c, cs, rfl, -⟩ := id h
  obtain ⟨hblank, hfound⟩ := lexes_iff_found.1 h
  have hfound := hfound 0
  generalize hn : cs.length = n at hfound
  cases hfound with
  | name =>
    have hparts := (takeWhile_append_eq_left hn.symm).1
    rw [List.forall_mem_cons]
    exact ⟨hblank, fun d hd ↦ isBlank_of_isNamePart (List.all_eq_true.1 hparts d hd)⟩
  | number _ _ hx =>
    obtain ⟨hrun, -, -⟩ := Literal.readNumber_ok.1 hx
    have hplain : ∀ d ∈ (cs ++ rest).take (Literal.numberRun c (cs ++ rest)), Literal.Plain d :=
      Literal.plain_of_mem_numberRun
    rw [← hrun, ← hn, List.take_left] at hplain
    rw [List.forall_mem_cons]
    exact ⟨hblank, fun d hd ↦ (hplain d hd).2⟩
  | text => exact absurd rfl (hkind _)
  | backtick =>
    obtain rfl := List.eq_nil_of_length_eq_zero hn
    simpa using hblank
  | @punct p =>
    obtain ⟨hchars, hp⟩ := h.punct_eq
    rw [hchars]
    exact isBlank_punctuator (punctuator?_eq_some hp).1

theorem Lexes.isBlank_last (h : Lexes kind spelling rest) :
    ∀ d ∈ spelling.getLast?, isBlank d = false := by
  intro d hd
  by_cases htext : ∃ s, kind = .text s
  · obtain ⟨s, rfl⟩ := htext
    obtain ⟨quote, body, hquote, hspelling, -⟩ := h.spells
    rw [String.toList_ofList] at hspelling
    rw [hspelling, ← List.cons_append, List.getLast?_concat] at hd
    obtain rfl := Option.some.inj hd
    rcases hquote with rfl | rfl <;> decide
  · rw [not_exists] at htext
    exact h.isBlank_eq_false htext d (List.mem_of_getLast? hd)

end Token

namespace Piece

variable {p : Piece} {ps : List Piece} {t : Token} {rest gap : List Char} {offset : Nat}

theorem exists_of_mem_place (hps : Lexable ps rest) (ht : t ∈ place offset ps) :
    ∃ before after, chars ps ++ rest = before ++ (t.spelling.toList ++ after) ∧
      t.start = offset + size before ∧ Token.Lexes t.kind t.spelling.toList after := by
  induction ps generalizing offset with
  | nil => cases ht
  | cons p ps ih =>
    obtain ⟨-, hlexes, hps⟩ := hps
    rw [chars_cons, List.append_assoc, List.append_assoc]
    rcases List.mem_cons.1 ht with rfl | ht
    · simp only [String.toList_ofList]
      exact ⟨p.gap, chars ps ++ rest, rfl, rfl, hlexes⟩
    · obtain ⟨before, after, heq, hstart, hlexes⟩ := ih hps ht
      refine ⟨p.gap ++ (p.spelling ++ before), after, ?_, ?_, hlexes⟩
      · rw [heq, List.append_assoc, List.append_assoc]
      · rw [hstart]
        simp only [size_append]
        omega

theorem le_start_of_mem_place (ht : t ∈ place offset ps) : offset ≤ t.start := by
  induction ps generalizing offset with
  | nil => cases ht
  | cons p ps ih =>
    rcases List.mem_cons.1 ht with rfl | ht
    · exact Nat.le_add_right _ _
    · have hle := ih ht
      omega

theorem pairwise_place : (place offset ps).Pairwise fun t u ↦ t.stop ≤ u.start := by
  induction ps generalizing offset with
  | nil => exact .nil
  | cons p ps ih =>
    refine List.pairwise_cons.2 ⟨?_, ih⟩
    intro u hu
    have hle := le_start_of_mem_place hu
    rwa [Token.stop, String.toList_ofList]

theorem isBlank_or_mem_place (hps : Lexable ps gap) (hgap : gap.all isBlank = true)
    {before after : List Char} {c : Char} (h : chars ps ++ gap = before ++ c :: after) :
    isBlank c = true ∨
      ∃ t ∈ place offset ps, t.start ≤ offset + size before ∧ offset + size before < t.stop := by
  have hblank : ∀ {ds before more : List Char}, ds.all isBlank = true → ds = before ++ c :: more →
      isBlank c = true := by
    intro ds before more hds heq
    refine List.all_eq_true.1 hds c ?_
    rw [heq]
    exact List.mem_append_right _ List.mem_cons_self
  induction ps generalizing offset before with
  | nil => exact .inl (hblank hgap h)
  | cons p ps ih =>
    obtain ⟨hpgap, -, hps⟩ := hps
    rw [chars_cons, List.append_assoc, List.append_assoc] at h
    rcases append_eq_append_cons h with ⟨more, hmore⟩ | ⟨before, rfl, hrest⟩
    · exact .inl (hblank hpgap hmore)
    rcases append_eq_append_cons hrest with ⟨more, hmore⟩ | ⟨before, rfl, hbehind⟩
    · refine .inr ⟨_, List.mem_cons_self, ?_, ?_⟩
      · simp only [size_append]
        omega
      · have hpos := c.utf8Size_pos
        simp only [Token.stop, String.toList_ofList, hmore, size_append, size_cons]
        omega
    · have hoffset : offset + size (p.gap ++ (p.spelling ++ before)) =
          offset + size p.gap + size p.spelling + size before := by
        simp only [size_append]
        omega
      rw [hoffset]
      rcases ih hps hbehind with hc | ⟨t, ht, hcovers⟩
      · exact .inl hc
      · exact .inr ⟨t, List.mem_cons_of_mem _ ht, hcovers⟩

end Piece

namespace Token

variable {source : String} {tokens : List Token} {t : Token}

theorem exists_pieces_of_scan (h : scan source = .ok tokens) :
    ∃ ps gap, source.toList = Piece.chars ps ++ gap ∧ Piece.Lexable ps gap ∧
      gap.all isBlank = true ∧ tokens = Piece.place 0 ps :=
  Piece.scanFrom_ok h

theorem readIn_of_mem_scan (h : scan source = .ok tokens) (ht : t ∈ tokens) :
    ∃ before after, ReadIn source t before after := by
  obtain ⟨ps, gap, hsource, hps, -, rfl⟩ := exists_pieces_of_scan h
  obtain ⟨before, after, heq, hstart, hlexes⟩ := Piece.exists_of_mem_place hps ht
  exact ⟨before, after, hsource.trans heq, by rw [hstart, Nat.zero_add], hlexes⟩

theorem covers_of_scan (h : scan source = .ok tokens) : Covers tokens source := by
  refine ⟨?_, ?_, ?_, ?_, ?_⟩
  · intro t ht
    obtain ⟨_, _, hread⟩ := readIn_of_mem_scan h ht
    exact hread.start_lt_stop
  · intro t ht
    obtain ⟨_, _, hread⟩ := readIn_of_mem_scan h ht
    exact hread.standsAt.isRange
  · intro t ht
    obtain ⟨_, _, hread⟩ := readIn_of_mem_scan h ht
    rw [stop, hread.standsAt.slice_eq, String.ofList_toList]
  · obtain ⟨ps, gap, -, -, -, rfl⟩ := exists_pieces_of_scan h
    exact Piece.pairwise_place
  · intro before c after hsource houtside
    obtain ⟨ps, gap, htext, hps, hgap, rfl⟩ := exists_pieces_of_scan h
    rcases Piece.isBlank_or_mem_place hps hgap (htext.symm.trans hsource) with hc | ⟨t, ht, hcovers⟩
    · exact hc
    · rw [Nat.zero_add] at hcovers
      exact absurd hcovers (houtside t ht)

def respaced (gaps : List (List Char)) (tokens : List Token) : List Piece :=
  List.zipWith (fun gap t ↦ ⟨gap, t.kind, t.spelling.toList⟩) gaps tokens

theorem chars_respaced (gaps : List (List Char)) (tokens : List Token) :
    Piece.chars (respaced gaps tokens) =
      (List.zipWith (fun gap t ↦ gap ++ t.spelling.toList) gaps tokens).flatten := by
  rw [Piece.chars, List.flatMap, respaced, List.map_zipWith]

theorem map_kind_respaced {gaps : List (List Char)} (h : gaps.length = tokens.length) :
    (respaced gaps tokens).map Piece.kind = tokens.map Token.kind := by
  induction tokens generalizing gaps with
  | nil => rw [respaced, List.zipWith_nil_right]; rfl
  | cons t tokens ih =>
    cases gaps with
    | nil => cases h
    | cons gap gaps => exact congrArg (t.kind :: ·) (ih (Nat.succ.inj h))

theorem isBlank_head_respaced {gaps : List (List Char)} {trail : List Char}
    (hblank : ∀ gap ∈ gaps, gap.all isBlank = true) (hne : ∀ gap ∈ gaps, gap ≠ [])
    (htrail : trail.all isBlank = true) (tokens : List Token) :
    ∀ d ∈ (Piece.chars (respaced gaps tokens) ++ trail).head?, isBlank d = true := by
  intro d hd
  cases gaps with
  | nil =>
    rw [respaced, List.zipWith_nil_left, Piece.chars_nil, List.nil_append] at hd
    exact List.all_eq_true.1 htrail d (List.mem_of_mem_head? hd)
  | cons gap gaps =>
    cases tokens with
    | nil =>
      rw [respaced, List.zipWith_nil_right, Piece.chars_nil, List.nil_append] at hd
      exact List.all_eq_true.1 htrail d (List.mem_of_mem_head? hd)
    | cons t tokens =>
      obtain ⟨c, cs, rfl⟩ := List.exists_cons_of_ne_nil (hne gap List.mem_cons_self)
      obtain rfl := Option.some.inj hd
      exact List.all_eq_true.1 (hblank _ List.mem_cons_self) c List.mem_cons_self

theorem lexable_respaced {gaps : List (List Char)} {trail : List Char}
    (hlexes : ∀ t ∈ tokens, ∀ rest : List Char, (∀ d ∈ rest.head?, isBlank d = true) →
      Lexes t.kind t.spelling.toList rest)
    (hblank : ∀ gap ∈ gaps, gap.all isBlank = true) (hne : ∀ gap ∈ gaps.tail, gap ≠ [])
    (htrail : trail.all isBlank = true) : Piece.Lexable (respaced gaps tokens) trail := by
  induction tokens generalizing gaps with
  | nil =>
    rw [respaced, List.zipWith_nil_right]
    trivial
  | cons t tokens ih =>
    cases gaps with
    | nil => trivial
    | cons gap gaps =>
      obtain ⟨hgap, hgaps⟩ := List.forall_mem_cons.1 hblank
      obtain ⟨ht, htokens⟩ := List.forall_mem_cons.1 hlexes
      refine ⟨hgap, ht _ (isBlank_head_respaced hgaps hne htrail tokens), ?_⟩
      exact ih htokens hgaps fun gap hmem ↦ hne gap (List.mem_of_mem_tail hmem)

theorem scan_write (h : scan source = .ok tokens) (s : Spacing tokens) :
    ∃ again, scan s.write = .ok again ∧ again.map Token.kind = tokens.map Token.kind := by
  have hlexable : Piece.Lexable (respaced s.gaps tokens) s.trail :=
    lexable_respaced (fun t ht rest hrest ↦ lexes_before_blank h ht hrest) s.gaps_blank
      s.gaps_ne_nil s.trail_blank
  refine ⟨Piece.place 0 (respaced s.gaps tokens), ?_, ?_⟩
  · rw [scan, Spacing.write, String.toList_ofList, ← chars_respaced,
      Piece.scanFrom_append hlexable, Piece.scanFrom_gap s.trail_blank]
    exact congrArg Except.ok (List.append_nil _)
  · rw [Piece.map_kind_place, map_kind_respaced s.length_eq]

/-- What the grammar sees of a token. -/
def face (t : Token) : TokenKind × String := (t.kind, t.spelling)

end Token

theorem Derives.of_map_face {category : Category} {ts us : List Token} {e : Expr}
    (h : Derives category ts e) (hmap : us.map Token.face = ts.map Token.face) :
    Derives category us e := by
  have hsingle : ∀ {t : Token} {us : List Token}, us.map Token.face = [t].map Token.face →
      ∃ u, us = [u] ∧ u.kind = t.kind ∧ u.spelling = t.spelling := by
    intro t us hmap
    obtain ⟨u, rfl, hu⟩ := List.map_eq_singleton_iff.1 hmap
    exact ⟨u, rfl, (Prod.mk.inj hu).1, (Prod.mk.inj hu).2⟩
  induction h generalizing us with
  | option hk hword hreserved =>
    obtain ⟨u, rfl, hkind, -⟩ := hsingle hmap
    exact .option (hkind.trans hk) hword hreserved
  | word hk hword =>
    obtain ⟨u, rfl, hkind, hspelling⟩ := hsingle hmap
    rw [← hspelling]
    exact .word (hkind.trans hk) hword
  | number hk =>
    obtain ⟨u, rfl, hkind, hspelling⟩ := hsingle hmap
    rw [← hspelling]
    exact .number (hkind.trans hk)
  | text hk =>
    obtain ⟨u, rfl, hkind, hspelling⟩ := hsingle hmap
    rw [← hspelling]
    exact .text (hkind.trans hk)
  | group ht _ hclose ih =>
    rw [List.map_cons, List.map_append] at hmap
    obtain ⟨u, us, rfl, hu, hmap⟩ := List.map_eq_cons_iff.1 hmap
    obtain ⟨inner, last, rfl, hinner, hlast⟩ := List.map_eq_append_iff.1 hmap
    obtain ⟨v, rfl, hv, -⟩ := hsingle hlast
    exact .group ((Prod.mk.inj hu).1.trans ht) (ih hinner) (hv.trans hclose)
  | primary _ ih => exact .primary (ih hmap)
  | unary hk hop _ ih =>
    obtain ⟨u, us, rfl, hu, hmap⟩ := List.map_eq_cons_iff.1 hmap
    exact .unary ((Prod.mk.inj hu).1.trans hk) hop (ih hmap)
  | tightest _ ih => exact .tightest (ih hmap)
  | tighter _ ih => exact .tighter (ih hmap)
  | binary _ hk hop _ ihe ihf =>
    rw [List.map_append, List.map_cons] at hmap
    obtain ⟨left, right, rfl, hleft, hright⟩ := List.map_eq_append_iff.1 hmap
    obtain ⟨u, us, rfl, hu, hright⟩ := List.map_eq_cons_iff.1 hright
    exact .binary (ihe hleft) ((Prod.mk.inj hu).1.trans hk) hop (ihf hright)

namespace Piece

variable {p : Piece} {ps : List Piece} {gap : List Char} {offset : Nat}

theorem map_face_place : (place offset ps).map Token.face =
    ps.map fun p ↦ (p.kind, String.ofList p.spelling) := by
  induction ps generalizing offset with
  | nil => rfl
  | cons p ps ih => exact congrArg _ ih

theorem isBlank_last (h : Lexable (p :: ps) gap) :
    ∀ d ∈ (chars (p :: ps)).getLast?, isBlank d = false := by
  induction ps generalizing p with
  | nil =>
    intro d hd
    obtain ⟨-, hlexes, -⟩ := h
    rw [chars_cons, chars_nil, List.append_nil,
      List.getLast?_append_of_ne_nil _ hlexes.ne_nil] at hd
    exact hlexes.isBlank_last d hd
  | cons q ps ih =>
    intro d hd
    obtain ⟨-, -, hps⟩ := h
    have hne : chars (q :: ps) ≠ [] := by
      rw [chars_cons]
      exact List.append_ne_nil_of_right_ne_nil _
        (List.append_ne_nil_of_left_ne_nil hps.2.1.ne_nil _)
    rw [chars_cons, ← List.append_assoc, List.getLast?_append_of_ne_nil _ hne] at hd
    exact ih hps d hd

theorem trims_chars (h : Lexable (p :: ps) gap) (hgap : gap.all isBlank = true) :
    Trims (chars (p :: ps) ++ gap) (chars (⟨[], p.kind, p.spelling⟩ :: ps)) := by
  obtain ⟨hpgap, hlexes, hps⟩ := h
  have hbare : Lexable (⟨[], p.kind, p.spelling⟩ :: ps) gap := ⟨rfl, hlexes, hps⟩
  refine ⟨⟨p.gap, gap, ?_, hpgap, hgap⟩, ?_, isBlank_last hbare⟩
  · simp only [chars_cons, List.append_assoc, List.nil_append]
  · obtain ⟨c, cs, hspelling, hblank, -⟩ := hlexes
    intro d hd
    rw [chars_cons, hspelling] at hd
    obtain rfl := Option.some.inj hd
    exact hblank

end Piece

namespace Condition

theorem compile_of_derives {source : String} {ps : List Piece} {gap : List Char} {e : Expr}
    (hsource : source.toList = Piece.chars ps ++ gap) (hps : Piece.Lexable ps gap)
    (hgap : gap.all isBlank = true) (h : Derives (.level 0) (Piece.place 0 ps) e) :
    compile source = .ok ⟨trim source, e⟩ := by
  have hscan : Token.scan source = .ok (Piece.place 0 ps) := by
    rw [Token.scan, hsource, Piece.scanFrom_append hps, Piece.scanFrom_gap hgap]
    exact congrArg Except.ok (List.append_nil _)
  rw [compile, Expr.parse_of_derives hscan h]
  rfl

theorem parse_trim {source : String} {e : Expr} (h : Expr.parse source = .ok e) :
    Expr.parse (trim source) = .ok e := by
  obtain ⟨tokens, hscan, -⟩ := bind_ok h
  have hderives := Expr.derives_of_parse hscan h
  obtain ⟨ps, gap, hsource, hps, hgap, rfl⟩ := Token.exists_pieces_of_scan hscan
  cases ps with
  | nil => exact absurd rfl hderives.ne_nil
  | cons p ps =>
    have htrim : trimChars source.toList = Piece.chars (⟨[], p.kind, p.spelling⟩ :: ps) := by
      rw [hsource]
      exact (Piece.trims_chars hps hgap).trimChars_eq
    have hbare : Piece.Lexable (⟨[], p.kind, p.spelling⟩ :: ps) gap := ⟨rfl, hps.2⟩
    have hagain : Token.scan (trim source) =
        .ok (Piece.place 0 (⟨[], p.kind, p.spelling⟩ :: ps)) := by
      rw [Token.scan, trim, String.toList_ofList, htrim]
      exact Piece.scanFrom_chars (hbare.of_beginning List.nil_prefix)
    refine Expr.parse_of_derives hagain (hderives.of_map_face ?_)
    rw [Piece.map_face_place, Piece.map_face_place]
    rfl

theorem compile_trim {source : String} {c : Condition} (h : compile source = .ok c) :
    compile c.source = .ok c := by
  obtain ⟨e, he, h⟩ := bind_ok h
  cases h
  have htwice : trim (trim source) = trim source := by
    have htrims := trims_trimChars source.toList
    rw [trim, trim, String.toList_ofList, (trims_self htrims.head htrims.last).trimChars_eq]
  rw [compile, parse_trim he, htwice]
  rfl

end Condition

/-- Tokens leave out nothing but blanks, each punctuator is the longest one where it stands, and the
blanks between tokens can be any others. So a condition is read again from its trimmed text. -/
theorem Token.scan_spacing (source : String) :
    (∀ tokens, scan source = .ok tokens →
      Covers tokens source ∧
      (∀ t ∈ tokens, ∀ p, t.kind = .punct p → t.spelling = p ∧ IsLongest source t.start p) ∧
      ∀ s : Spacing tokens,
        ∃ again, scan s.write = .ok again ∧ again.map Token.kind = tokens.map Token.kind) ∧
    ∀ c, Condition.compile source = .ok c → Condition.compile c.source = .ok c := by
  refine ⟨?_, fun c ↦ Condition.compile_trim⟩
  intro tokens h
  refine ⟨covers_of_scan h, ?_, scan_write h⟩
  intro t ht p hkind
  obtain ⟨before, after, hread⟩ := readIn_of_mem_scan h ht
  exact hread.isLongest hkind

theorem Token.scan_spacing_operators :
    IsLongest "\ta>=!'\\'' " 2 ">=" ∧
      (∃ again, scan "a\u00a0>= ! '\\''" = .ok again ∧
        again.map Token.kind = [.name "a", .punct ">=", .punct "!", .text "'"]) ∧
      Condition.compile "a>=!'\\''" = .ok ⟨"a>=!'\\''",
        .binary .greaterEq (.option "a") (.unary .not (.literal "'\\''" (.text "'")))⟩ := by
  obtain ⟨htokens, hcompile⟩ := scan_spacing "\ta>=!'\\'' "
  have hscan : (scan "\ta>=!'\\'' ").toOption = some
      [⟨.name "a", "a", 1⟩, ⟨.punct ">=", ">=", 2⟩, ⟨.punct "!", "!", 4⟩,
        ⟨.text "'", "'\\''", 5⟩] := by
    decide +kernel
  obtain ⟨-, hlongest, hwrite⟩ := htokens _ (eq_ok_of_toOption hscan)
  have hsource : (Condition.compile "\ta>=!'\\'' ").toOption = some ⟨"a>=!'\\''",
      .binary .greaterEq (.option "a") (.unary .not (.literal "'\\''" (.text "'")))⟩ := by
    decide +kernel
  have hagain := hcompile _ (eq_ok_of_toOption hsource)
  refine ⟨?_, ?_, hagain⟩
  · exact (hlongest _ (List.mem_cons_of_mem _ List.mem_cons_self) ">=" rfl).2
  · exact hwrite ⟨[[], ['\u00a0'], [' '], [' ']], [], rfl, by decide, by decide, rfl⟩

end Transclude
