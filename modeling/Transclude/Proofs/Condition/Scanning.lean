import Transclude.Proofs.Condition.Piece

namespace Transclude

open Text

theorem append_eq_append_cons {a b before after : List Char} {c : Char}
    (h : a ++ b = before ++ c :: after) :
    (∃ more, a = before ++ c :: more) ∨
      ∃ before', before = a ++ before' ∧ b = before' ++ c :: after := by
  rcases List.append_eq_append_iff.1 h with ⟨before', hbefore, hb⟩ | ⟨more, ha, hmore⟩
  · exact .inr ⟨before', hbefore, hb⟩
  · cases more with
    | nil => exact .inr ⟨[], by rw [ha, List.append_nil, List.append_nil], hmore.symm⟩
    | cons d more =>
      obtain ⟨rfl, -⟩ := List.cons.inj hmore
      exact .inl ⟨more, ha⟩

theorem head?_of_beginning {rest rest' : List Char} (h : rest' <+: rest) :
    ∀ d ∈ rest'.head?, d ∈ rest.head? := by
  obtain ⟨more, rfl⟩ := h
  intro d hd
  rw [List.head?_append, Option.mem_def.1 hd]
  rfl

theorem takeWhile_append_eq_left {p : Char → Bool} {cs rest : List Char}
    (h : ((cs ++ rest).takeWhile p).length = cs.length) :
    cs.all p = true ∧ ∀ d ∈ rest.head?, p d = false := by
  induction cs with
  | nil =>
    refine ⟨rfl, ?_⟩
    intro d hd
    cases rest with
    | nil => cases hd
    | cons c rest =>
      obtain rfl := Option.some.inj hd
      cases hp : p c with
      | false => rfl
      | true => simp [hp] at h
  | cons c cs ih =>
    cases hp : p c with
    | false => simp [hp] at h
    | true =>
      rw [List.cons_append, List.takeWhile_cons, if_pos hp, List.length_cons, List.length_cons] at h
      obtain ⟨hall, hhead⟩ := ih (Nat.succ.inj h)
      exact ⟨by rw [List.all_cons, hp, hall]; rfl, hhead⟩

theorem takeWhile_append_of_head {p : Char → Bool} {cs rest rest' : List Char}
    (h : ((cs ++ rest).takeWhile p).length = cs.length)
    (hhead : ∀ d ∈ rest'.head?, d ∈ rest.head?) : (cs ++ rest').takeWhile p = cs := by
  obtain ⟨hall, hstop⟩ := takeWhile_append_eq_left h
  exact takeWhile_append_of_stop hall fun d hd ↦ hstop d (hhead d hd)

namespace Literal

variable {c : Char} {cs rest rest' : List Char}

/-- Of what follows a run only the first character can tell that the run has ended. -/
theorem decimalRun_of_head {marked afterMark : Bool}
    (h : decimalRun marked afterMark (cs ++ rest) = cs.length)
    (hhead : ∀ d ∈ rest'.head?, d ∈ rest.head?) :
    decimalRun marked afterMark (cs ++ rest') = cs.length := by
  induction cs generalizing marked afterMark with
  | nil =>
    cases rest' with
    | nil => rfl
    | cons d ds =>
      obtain ⟨more, rfl⟩ := List.head?_eq_some_iff.1 (hhead d rfl)
      rcases decimalRun_cases marked afterMark d with hend | ⟨_, _, -, hn⟩
      · exact hend ds
      · rw [List.nil_append, hn] at h
        cases h
  | cons d cs ih =>
    rcases decimalRun_cases marked afterMark d with hend | ⟨_, _, -, hn⟩
    · rw [List.cons_append, hend] at h
      cases h
    · rw [List.cons_append, hn, List.length_cons] at h ⊢
      rw [ih (Nat.succ.inj h)]

theorem radix?_cons {mark : Char} {ds es : List Char} :
    radix? c (mark :: ds) = radix? c (mark :: es) := by
  unfold radix?
  split <;> simp_all

theorem radix?_of_head (h : numberRun c (cs ++ rest) = cs.length)
    (hhead : ∀ d ∈ rest'.head?, d ∈ rest.head?) :
    radix? c (cs ++ rest') = radix? c (cs ++ rest) := by
  cases cs with
  | cons mark ds => exact radix?_cons
  | nil =>
    cases rest' with
    | cons mark ds =>
      obtain ⟨more, rfl⟩ := List.head?_eq_some_iff.1 (hhead mark rfl)
      exact radix?_cons
    | nil =>
      have hnone : radix? c [] = none := by
        unfold radix?
        split <;> simp_all
      rw [List.append_nil, hnone]
      cases hr : radix? c ([] ++ rest) with
      | none => rfl
      | some radix =>
        rw [numberRun_of_some hr] at h
        exact absurd h (by simp)

theorem numberRun_of_head (h : numberRun c (cs ++ rest) = cs.length)
    (hhead : ∀ d ∈ rest'.head?, d ∈ rest.head?) : numberRun c (cs ++ rest') = cs.length := by
  have hradix := radix?_of_head h hhead
  cases hr : radix? c (cs ++ rest) with
  | none =>
    rw [numberRun_of_none (hradix.trans hr)]
    rw [numberRun_of_none hr] at h
    exact decimalRun_of_head h hhead
  | some radix =>
    rw [numberRun_of_some (hradix.trans hr)]
    rw [numberRun_of_some hr] at h
    cases cs with
    | nil => exact absurd h (by simp)
    | cons mark ds =>
      simp only [List.cons_append, List.drop_succ_cons, List.drop_zero, List.length_cons] at h ⊢
      rw [takeWhile_append_of_head (by omega) hhead]
      omega

theorem readNumber_beginning {x : Double} (h : readNumber c (cs ++ rest) = .ok (x, cs.length))
    (hbegins : rest' <+: rest) : readNumber c (cs ++ rest') = .ok (x, cs.length) := by
  obtain ⟨hrun, hglued, hx⟩ := readNumber_ok.1 h
  rw [List.drop_left] at hglued
  have hhead := head?_of_beginning hbegins
  rw [List.take_left, ← radix?_of_head hrun.symm hhead] at hx
  refine readNumber_ok.2 ⟨(numberRun_of_head hrun.symm hhead).symm, ?_, ?_⟩
  · rw [List.drop_left]
    cases hd : rest'.head? with
    | none => rfl
    | some d =>
      rw [Option.mem_def.1 (hhead d hd)] at hglued
      exact hglued
  · rw [List.take_left]
    exact hx

end Literal

namespace Token

def startsNumber (c : Char) (cs : List Char) : Bool :=
  isDigit c || (c == '.' && cs.head?.any isDigit)

/-- How a token is found at a character, given what follows it. -/
inductive Found (offset : Nat) (c : Char) (cs : List Char) : TokenKind → Nat → Prop
  | name : isNameStart c = true → Found offset c cs
      (.name (String.ofList (c :: cs.takeWhile isNamePart))) (cs.takeWhile isNamePart).length
  | number {x : Double} {n : Nat} : isNameStart c = false → startsNumber c cs = true →
      Literal.readNumber c cs = .ok (x, n) → Found offset c cs (.number x) n
  | text {s : String} {n : Nat} : c = '\x22' ∨ c = '\x27' →
      Literal.readString c offset cs = .ok (s, n) → Found offset c cs (.text s) n
  | backtick : c = '\x60' → Found offset c cs .backtick 0
  | punct {p : String} : isPunctuation c = true → startsNumber c cs = false →
      punctuator? (c :: cs) = some p → Found offset c cs (.punct p) (p.toList.length - 1)

variable {offset n : Nat} {c : Char} {cs rest rest' spelling : List Char} {kind : TokenKind}
  {p : String}

theorem punctuator?_eq_some (h : punctuator? cs = some p) :
    p ∈ punctuators ∧ p.toList <+: cs := by
  have hbegins := List.find?_some h
  exact ⟨List.mem_of_find?_eq_some h, List.isPrefixOf_iff_prefix.1 hbegins⟩

theorem punctuator?_cons (h : punctuator? (c :: cs) = some p) :
    isPunctuation c = true ∧ p.toList = c :: cs.take (p.toList.length - 1) ∧
      p.toList.length - 1 ≤ cs.length := by
  obtain ⟨hp, hbegins⟩ := punctuator?_eq_some h
  have hhead := isPunctuation_head p hp
  cases hchars : p.toList with
  | nil => simp [hchars] at hhead
  | cons d ds =>
    rw [hchars] at hhead hbegins
    obtain ⟨rfl, hds⟩ := List.cons_prefix_cons.1 hbegins
    refine ⟨hhead, ?_, hds.length_le⟩
    rw [List.length_cons, Nat.add_sub_cancel, ← List.prefix_iff_eq_take.1 hds]

theorem found_of_lexeme (h : lexeme offset c cs = .ok ⟨kind, n⟩) : Found offset c cs kind n := by
  unfold lexeme at h
  split at h
  · next hname =>
    cases h
    exact .name hname
  · next hname =>
    split at h
    · next hnumber =>
      obtain ⟨⟨x, m⟩, hx, heq⟩ := map_ok h
      cases heq
      exact .number (by simpa using hname) hnumber hx
    · next hnumber =>
      split at h
      · next hquote =>
        obtain ⟨⟨s, m⟩, hs, heq⟩ := map_ok h
        cases heq
        exact .text hquote hs
      · split at h
        · next htick =>
          cases h
          exact .backtick htick
        · split at h
          · next hp =>
            cases h
            exact .punct (punctuator?_cons hp).1 (by simpa [startsNumber] using hnumber) hp
          · cases h

theorem lexeme_of_found (h : Found offset c cs kind n) : lexeme offset c cs = .ok ⟨kind, n⟩ := by
  cases h with
  | name hname => exact lexeme_name hname
  | number hname hnumber hx =>
    unfold startsNumber at hnumber
    rw [lexeme, hname, if_neg Bool.false_ne_true, if_pos hnumber, hx]
    rfl
  | text hquote hs =>
    rw [lexeme_quote hquote, hs]
    rfl
  | backtick htick =>
    subst htick
    exact lexeme_backtick
  | punct hc hnumber hp =>
    refine lexeme_punctuation hc ?_ hp
    rintro rfl
    simpa [startsNumber, isDigit] using hnumber

theorem lexeme_error {e : ConditionError} (h : lexeme offset c cs = .error e) :
    startsNumber c cs = true ∧ Literal.readNumber c cs = .error e ∨
    (c = '\x22' ∨ c = '\x27') ∧ Literal.readString c offset cs = .error e ∨
    e = .unexpectedCharacter c offset := by
  unfold lexeme at h
  split at h
  · cases h
  · split at h
    · next hnumber => exact .inl ⟨hnumber, eq_error_of_map h⟩
    · split at h
      · next hquote => exact .inr (.inl ⟨hquote, eq_error_of_map h⟩)
      · split at h
        · cases h
        · split at h
          · cases h
          · exact .inr (.inr (Except.error.inj h).symm)

theorem Found.again (h : Found offset c cs kind n) :
    n ≤ cs.length ∧ ∀ offset', Found offset' c cs kind n := by
  cases h with
  | name hname => exact ⟨(List.takeWhile_prefix _).length_le, fun _ ↦ .name hname⟩
  | number hname hnumber hx =>
    exact ⟨(Literal.readNumber_append stops_nil hx).1, fun _ ↦ .number hname hnumber hx⟩
  | text hquote hs =>
    obtain ⟨hle, hagain⟩ := Literal.readString_append hs
    refine ⟨hle, fun offset' ↦ .text hquote ?_⟩
    have hread := hagain offset' (cs.drop n)
    rwa [List.take_append_drop] at hread
  | backtick htick => exact ⟨Nat.zero_le _, fun _ ↦ .backtick htick⟩
  | punct hc hnumber hp => exact ⟨(punctuator?_cons hp).2.2, fun _ ↦ .punct hc hnumber hp⟩

theorem lexes_iff_found :
    Lexes kind (c :: cs) rest ↔
      isBlank c = false ∧ ∀ offset, Found offset c (cs ++ rest) kind cs.length := by
  constructor
  · rintro ⟨c', cs', heq, hblank, hlexeme⟩
    cases heq
    exact ⟨hblank, fun offset ↦ found_of_lexeme (hlexeme offset)⟩
  · rintro ⟨hblank, hfound⟩
    exact ⟨c, cs, rfl, hblank, fun offset ↦ lexeme_of_found (hfound offset)⟩

theorem lexes_of_lexeme (h : lexeme offset c cs = .ok ⟨kind, n⟩) (hblank : isBlank c = false) :
    Lexes kind (c :: cs.take n) (cs.drop n) := by
  obtain ⟨hle, hagain⟩ := (found_of_lexeme h).again
  refine lexes_iff_found.2 ⟨hblank, fun offset' ↦ ?_⟩
  rw [List.take_append_drop, List.length_take, Nat.min_eq_left hle]
  exact hagain offset'

theorem punctuator?_beginning (h : punctuator? (p.toList ++ rest) = some p)
    (hbegins : rest' <+: rest) : punctuator? (p.toList ++ rest') = some p := by
  obtain ⟨-, before, after, hsplit, hearlier⟩ := List.find?_eq_some_iff_append.1 h
  refine List.find?_eq_some_iff_append.2 ⟨by simp, before, after, hsplit, ?_⟩
  intro q hq
  have hno := hearlier q hq
  -- What does not start the longer text does not start its beginning either.
  rw [Bool.not_eq_true', ← Bool.not_eq_true, List.isPrefixOf_iff_prefix] at hno ⊢
  intro hfits
  exact hno (hfits.trans ((List.prefix_append_right_inj _).2 hbegins))

theorem startsNumber_beginning (h : startsNumber c (cs ++ rest) = false)
    (hbegins : rest' <+: rest) : startsNumber c (cs ++ rest') = false := by
  cases cs with
  | cons d ds => exact h
  | nil =>
    cases rest' with
    | cons d ds =>
      obtain ⟨more, rfl⟩ := hbegins
      exact h
    | nil => simp_all [startsNumber]

theorem Found.of_beginning (h : Found offset c (cs ++ rest) kind cs.length)
    (hbegins : rest' <+: rest) : Found offset c (cs ++ rest') kind cs.length := by
  generalize hn : cs.length = n at h
  cases h with
  | name hname =>
    have hcs := takeWhile_append_of_head hn.symm fun _ hd ↦ hd
    have hcs' := takeWhile_append_of_head hn.symm (head?_of_beginning hbegins)
    have hfound : Found offset c (cs ++ rest') _ _ := .name hname
    rw [hcs'] at hfound
    rwa [hcs]
  | number hname hnumber hx =>
    subst hn
    have hstarts : startsNumber c ((cs ++ rest).take cs.length ++ rest') = true :=
      numberStarts_append hnumber hx
    rw [List.take_left] at hstarts
    exact .number hname hstarts (Literal.readNumber_beginning hx hbegins)
  | text hquote hs =>
    subst hn
    have hread := (Literal.readString_append hs).2 offset rest'
    rw [List.take_left] at hread
    exact .text hquote hread
  | backtick htick => exact .backtick htick
  | @punct p hc hnumber hp =>
    have hchars : p.toList = c :: cs := by
      rw [(punctuator?_cons hp).2.1, ← hn, List.take_left]
    rw [← List.cons_append, ← hchars] at hp
    refine .punct hc (startsNumber_beginning hnumber hbegins) ?_
    rw [← List.cons_append, ← hchars]
    exact punctuator?_beginning hp hbegins

theorem Lexes.of_beginning (h : Lexes kind spelling rest) (hbegins : rest' <+: rest) :
    Lexes kind spelling rest' := by
  obtain ⟨c, cs, rfl, -⟩ := id h
  obtain ⟨hblank, hfound⟩ := lexes_iff_found.1 h
  exact lexes_iff_found.2 ⟨hblank, fun offset ↦ (hfound offset).of_beginning hbegins⟩

end Token

namespace Piece

variable {ps : List Piece} {rest rest' cs : List Char} {offset : Nat}

theorem Lexable.of_beginning (h : Lexable ps rest) (hbegins : rest' <+: rest) :
    Lexable ps rest' := by
  induction ps with
  | nil => trivial
  | cons p ps ih =>
    obtain ⟨hgap, hlexes, hps⟩ := h
    exact ⟨hgap, hlexes.of_beginning ((List.prefix_append_right_inj _).2 hbegins), ih hps⟩

theorem scanFrom_append (h : Lexable ps rest) :
    Token.scanFrom offset (chars ps ++ rest) =
      (Token.scanFrom (offset + size (chars ps)) rest).map (place offset ps ++ ·) := by
  induction ps generalizing offset with
  | nil =>
    simp only [chars_nil, List.nil_append, size_nil, Nat.add_zero, place]
    cases Token.scanFrom offset rest <;> rfl
  | cons p ps ih =>
    obtain ⟨hgap, hlexes, hps⟩ := h
    rw [chars_cons, List.append_assoc, List.append_assoc, scanFrom_blanks hgap,
      scanFrom_lexes hlexes, ih hps]
    simp only [size_append, Nat.add_assoc]
    cases Token.scanFrom (offset + (size p.gap + (size p.spelling + size (chars ps)))) rest <;>
      simp [Except.map, place, Nat.add_assoc]

theorem scanFrom_gap {gap : List Char} (hgap : gap.all isBlank = true) :
    Token.scanFrom offset gap = .ok [] := by
  have h : Token.scanFrom offset (gap ++ []) = Token.scanFrom (offset + size gap) [] :=
    scanFrom_blanks hgap
  rw [List.append_nil] at h
  rw [h, Token.scanFrom]

theorem scanFrom_ok {tokens : List Token} (h : Token.scanFrom offset cs = .ok tokens) :
    ∃ ps gap, cs = chars ps ++ gap ∧ Lexable ps gap ∧ gap.all isBlank = true ∧
      tokens = place offset ps := by
  fun_induction Token.scanFrom offset cs generalizing tokens with
  | case1 offset =>
    cases h
    exact ⟨[], [], rfl, trivial, rfl, rfl⟩
  | case2 offset c cs hblank ih =>
    -- The blank belongs to the gap of the first piece, or to the last gap if there is no piece.
    obtain ⟨ps, gap, rfl, hps, hgap, rfl⟩ := ih h
    cases ps with
    | nil =>
      refine ⟨[], c :: gap, rfl, trivial, ?_, rfl⟩
      rw [List.all_cons, hblank, hgap]
      rfl
    | cons p ps =>
      obtain ⟨hgap', hlexes, hps⟩ := hps
      refine ⟨{ p with gap := c :: p.gap } :: ps, gap, ?_, ⟨?_, hlexes, hps⟩, hgap, ?_⟩
      · simp only [chars_cons, List.cons_append]
      · rw [List.all_cons, hblank, hgap']
        rfl
      · simp only [place, size_cons, Nat.add_assoc]
  | case3 offset c cs hblank ih =>
    rw [Bool.not_eq_true] at hblank
    obtain ⟨⟨kind, n⟩, hfound, h⟩ := bind_ok h
    obtain ⟨rest, hrest, h⟩ := bind_ok h
    cases h
    obtain ⟨ps, gap, hcs, hps, hgap, rfl⟩ := ih ⟨kind, n⟩ hrest
    have hlexes := Token.lexes_of_lexeme hfound hblank
    rw [hcs] at hlexes
    refine ⟨⟨[], kind, c :: cs.take n⟩ :: ps, gap, ?_, ⟨rfl, hlexes, hps⟩, hgap, rfl⟩
    rw [chars_cons, List.nil_append, List.append_assoc, List.cons_append, ← hcs,
      List.take_append_drop]

end Piece

end Transclude
