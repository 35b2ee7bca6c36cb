import Transclude.Proofs.Condition.NumberRun

namespace Transclude

open Text

namespace Literal

variable {c : Char} {cs rest : List Char}

theorem stringItems_append {quote : Char} {start offset n : Nat} {ds : List Char}
    (h : stringItems quote start offset cs = .ok (ds, n)) :
    0 < n ∧ n ≤ cs.length ∧ ∀ start' offset' rest,
      stringItems quote start' offset' (cs.take n ++ rest) = .ok (ds, n) := by
  fun_induction stringItems quote start offset cs generalizing ds n with
  | case1 | case3 | case4 | case5 => cases h
  | case2 =>
    cases h
    refine ⟨Nat.one_pos, by simp, fun start' offset' rest ↦ ?_⟩
    rw [List.take_succ_cons, List.cons_append, stringItems.eq_def]
    exact if_pos rfl
  | case6 offset e tail width hwidth d hd hquote hbreak ih =>
    obtain ⟨⟨es, m⟩, hm, heq⟩ := map_ok h
    cases heq
    obtain ⟨hpos, hle, hread⟩ := ih hm
    rw [List.length_drop] at hle
    have hlength : (tail.take width).length = width := by
      rw [List.length_take, Nat.min_eq_left (by omega)]
    refine ⟨by omega, by simp only [List.length_cons]; omega, fun start' offset' rest ↦ ?_⟩
    have htake : ('\\' :: e :: tail).take (m + 2 + width) ++ rest =
        '\\' :: e :: (tail.take width ++ ((tail.drop width).take m ++ rest)) := by
      rw [Nat.add_right_comm, Nat.add_comm m, List.take_succ_cons, List.take_succ_cons,
        List.take_add, List.cons_append, List.cons_append, List.append_assoc]
    rw [htake, stringItems, if_neg hquote, if_neg hbreak, if_pos rfl]
    simp only [hwidth, List.take_left' hlength, List.drop_left' hlength, hd]
    rw [hread]
    rfl
  | case7 offset e tail hwidth hquote hbreak ih =>
    obtain ⟨⟨es, m⟩, hm, heq⟩ := map_ok h
    cases heq
    obtain ⟨hpos, hle, hread⟩ := ih hm
    refine ⟨by omega, by simp only [List.length_cons]; omega, fun start' offset' rest ↦ ?_⟩
    rw [List.take_succ_cons, List.take_succ_cons, List.cons_append, List.cons_append, stringItems,
      if_neg hquote, if_neg hbreak, if_pos rfl]
    simp only [hwidth]
    rw [hread]
    rfl
  | case8 offset e tail hquote hbreak hescape ih =>
    obtain ⟨⟨es, m⟩, hm, heq⟩ := map_ok h
    cases heq
    obtain ⟨hpos, hle, hread⟩ := ih hm
    refine ⟨by omega, by simp only [List.length_cons]; omega, fun start' offset' rest ↦ ?_⟩
    rw [List.take_succ_cons, List.cons_append, stringItems.eq_def]
    dsimp only
    rw [if_neg hquote, if_neg hbreak, if_neg hescape, hread]
    rfl

theorem readString_append {quote : Char} {offset n : Nat} {s : String}
    (h : readString quote offset cs = .ok (s, n)) :
    n ≤ cs.length ∧ ∀ offset' rest,
      readString quote offset' (cs.take n ++ rest) = .ok (s, n) := by
  obtain ⟨⟨ds, m⟩, hm, heq⟩ := map_ok h
  cases heq
  obtain ⟨-, hle, hread⟩ := stringItems_append hm
  refine ⟨hle, fun offset' rest ↦ ?_⟩
  rw [readString, hread]
  rfl

end Literal

namespace Token

/-- In front of `rest`, the spelling is exactly one token of a kind. -/
def Lexes (kind : TokenKind) (spelling rest : List Char) : Prop :=
  ∃ c cs, spelling = c :: cs ∧ isBlank c = false ∧
    ∀ offset, lexeme offset c (cs ++ rest) = .ok ⟨kind, cs.length⟩

variable {c : Char} {cs rest : List Char} {offset n : Nat}

theorem lexeme_name (h : isNameStart c = true) :
    lexeme offset c cs = .ok ⟨.name (String.ofList (c :: cs.takeWhile isNamePart)),
      (cs.takeWhile isNamePart).length⟩ := by
  rw [lexeme, if_pos h]

theorem lexeme_quote (h : c = '\x22' ∨ c = '\x27') :
    lexeme offset c cs =
      (Literal.readString c offset cs).map fun (s, n) ↦ ⟨.text s, n⟩ := by
  have hname : isNameStart c = false := by rcases h with rfl | rfl <;> decide
  have hdigit : isDigit c = false ∧ (c == '.') = false := by rcases h with rfl | rfl <;> decide
  simp [lexeme, hname, hdigit, h]

theorem lexeme_backtick : lexeme offset '\x60' cs = .ok ⟨.backtick, 0⟩ := by
  have hname : isNameStart '\x60' = false := by decide
  simp [lexeme, hname, isDigit]

theorem numberStarts_append (h : (isDigit c || (c == '.' && cs.head?.any isDigit)) = true)
    {x : Double} (hx : Literal.readNumber c cs = .ok (x, n)) :
    (isDigit c || (c == '.' && (cs.take n ++ rest).head?.any isDigit)) = true := by
  rcases Bool.or_eq_true_iff.1 h with hc | hc
  · rw [hc, Bool.true_or]
  · obtain ⟨hpoint, hdigit⟩ := Bool.and_eq_true_iff.1 hc
    obtain rfl := beq_iff_eq.1 hpoint
    obtain ⟨rfl, -, -⟩ := Literal.readNumber_ok.1 hx
    cases cs with
    | nil => cases hdigit
    | cons d ds =>
      have hd : isDigit d = true := hdigit
      have hrun : Literal.numberRun '.' (d :: ds) = Literal.decimalRun false false ds + 1 := by
        change Literal.decimalRun false false (d :: ds) = _
        simp [Literal.decimalRun, hd]
      simp [hrun, hd]

theorem lexeme_append {kind : TokenKind} (h : lexeme offset c cs = .ok ⟨kind, n⟩)
    (hkind : ∀ p, kind ≠ .punct p) (hstop : Stops rest) :
    n ≤ cs.length ∧ ∀ offset', lexeme offset' c (cs.take n ++ rest) = .ok ⟨kind, n⟩ := by
  unfold lexeme at h
  split at h
  · next hname =>
    cases h
    refine ⟨(List.takeWhile_prefix _).length_le, fun offset' ↦ ?_⟩
    rw [lexeme_name hname, take_length_takeWhile,
      hstop.takeWhile_append (fun _ ↦ id) List.all_takeWhile]
  · next hname =>
    split at h
    · next hnumber =>
      obtain ⟨⟨x, m⟩, hx, heq⟩ := map_ok h
      cases heq
      obtain ⟨hle, hread⟩ := Literal.readNumber_append hstop hx
      refine ⟨hle, fun offset' ↦ ?_⟩
      rw [lexeme, if_neg hname, if_pos (numberStarts_append hnumber hx), hread]
      rfl
    · split at h
      · next hquote =>
        obtain ⟨⟨s, m⟩, hs, heq⟩ := map_ok h
        cases heq
        obtain ⟨hle, hread⟩ := Literal.readString_append hs
        refine ⟨hle, fun offset' ↦ ?_⟩
        rw [lexeme_quote hquote, hread]
        rfl
      · split at h
        · next htick =>
          cases h
          subst htick
          exact ⟨Nat.zero_le _, fun offset' ↦ lexeme_backtick⟩
        · split at h
          · cases h
            exact absurd rfl (hkind _)
          · cases h

theorem lexes_name {s : String} (h : isName s = true)
    (hrest : ∀ d ∈ rest.head?, isNamePart d = false) : Lexes (.name s) s.toList rest := by
  obtain ⟨c, cs, hs, hstart, hparts⟩ := isName_iff.1 h
  refine ⟨c, cs, hs, isBlank_of_isNameStart hstart, fun offset ↦ ?_⟩
  rw [lexeme_name hstart, takeWhile_append_of_stop hparts hrest, ← hs, String.ofList_toList]

theorem lexeme_eq_name {s : String} (h : lexeme offset c cs = .ok ⟨.name s, n⟩) :
    isName s = true ∧ s.toList = c :: cs.take n := by
  by_cases hname : isNameStart c = true
  · rw [lexeme_name hname] at h
    cases h
    rw [take_length_takeWhile]
    exact ⟨isName_iff.2 ⟨c, cs.takeWhile isNamePart, by simp, hname, List.all_takeWhile⟩, by simp⟩
  · rw [lexeme, if_neg hname] at h
    split at h
    · obtain ⟨a, -, heq⟩ := map_ok h
      cases heq
    · split at h
      · obtain ⟨a, -, heq⟩ := map_ok h
        cases heq
      · split at h
        · cases h
        · split at h <;> cases h

/-- A character that starts neither a name nor a literal. A point starts a number if a digit
follows it. -/
def isPunctuation (c : Char) : Bool :=
  !isBlank c && !isNameStart c && !isDigit c && c != '\x22' && c != '\x27' && c != '\x60'

/-- The characters after a punctuator with which the table has a longer one. -/
def prolongations (p : String) : List Char :=
  punctuators.flatMap fun q ↦
    if p.toList.isPrefixOf q.toList then (q.toList.drop p.toList.length).take 1 else []

theorem punctuators_ordered :
    punctuators.Pairwise fun p q ↦ p.toList.isPrefixOf q.toList = false := by
  decide

theorem isPunctuation_head : ∀ p ∈ punctuators, p.toList.head?.any isPunctuation = true := by
  decide

theorem punctuator_point :
    ∀ p ∈ punctuators, p.toList.head? = some '.' → p = "." ∨ p.toList = ['.', '.', '.'] := by
  decide

theorem mem_prolongations {p q : String} (hq : q ∈ punctuators) {d : Char} {ds : List Char}
    (h : q.toList = p.toList ++ d :: ds) : d ∈ prolongations p := by
  refine List.mem_flatMap.2 ⟨q, hq, ?_⟩
  rw [h, if_pos (List.isPrefixOf_iff_prefix.2 (List.prefix_append _ _)), List.drop_left]
  exact List.mem_cons_self

theorem punctuator?_append {p : String} (hp : p ∈ punctuators)
    (h : ∀ d ∈ rest.head?, d ∉ prolongations p) : punctuator? (p.toList ++ rest) = some p := by
  obtain ⟨before, after, hsplit⟩ := List.append_of_mem hp
  refine List.find?_eq_some_iff_append.2 ⟨by simp, before, after, hsplit, fun q hq ↦ ?_⟩
  have hearlier : q.toList.isPrefixOf p.toList = false := by
    have := punctuators_ordered
    rw [hsplit, List.pairwise_append] at this
    exact this.2.2 q hq p List.mem_cons_self
  have hshorter : ¬q.toList <+: p.toList := by
    rw [← List.isPrefixOf_iff_prefix, hearlier]
    exact Bool.false_ne_true
  have hq : q ∈ punctuators := by
    rw [hsplit]
    exact List.mem_append_left _ hq
  -- An earlier punctuator that fits would be longer than `p`.
  have hno : ¬q.toList <+: p.toList ++ rest := by
    intro hfits
    rcases List.prefix_or_prefix_of_prefix hfits (List.prefix_append _ _) with hle | ⟨more, hmore⟩
    · exact hshorter hle
    · cases more with
      | nil => exact hshorter ⟨[], by rw [List.append_nil, ← hmore, List.append_nil]⟩
      | cons d ds =>
        rw [← hmore, List.prefix_append_right_inj] at hfits
        obtain ⟨tail, rfl⟩ := hfits
        exact h d rfl (mem_prolongations hq hmore.symm)
  rw [← List.isPrefixOf_iff_prefix, Bool.not_eq_true] at hno
  rw [hno]
  rfl

theorem isPunctuation_iff : isPunctuation c = true ↔
    isBlank c = false ∧ isNameStart c = false ∧ isDigit c = false ∧ ¬(c = '\x22' ∨ c = '\x27') ∧
      c ≠ '\x60' := by
  simp [isPunctuation, and_assoc]

theorem not_numberStarts (h : isPunctuation c = true)
    (hpoint : c = '.' → cs.head?.any isDigit = false) :
    (isDigit c || (c == '.' && cs.head?.any isDigit)) = false := by
  obtain ⟨-, -, hdigit, -, -⟩ := isPunctuation_iff.1 h
  cases hc : c == '.' with
  | false => simp [hdigit]
  | true => simp [hdigit, hpoint (beq_iff_eq.1 hc)]

theorem lexeme_punctuation (h : isPunctuation c = true)
    (hpoint : c = '.' → cs.head?.any isDigit = false) {p : String}
    (hp : punctuator? (c :: cs) = some p) :
    lexeme offset c cs = .ok ⟨.punct p, p.toList.length - 1⟩ := by
  obtain ⟨-, hname, -, hquote, htick⟩ := isPunctuation_iff.1 h
  simp [lexeme, hname, not_numberStarts h hpoint, hquote, htick, hp]

theorem kind_of_punctuation (h : isPunctuation c = true)
    (hpoint : c = '.' → cs.head?.any isDigit = false) {found : Lexeme}
    (hfound : lexeme offset c cs = .ok found) : ∃ p, found.kind = .punct p := by
  obtain ⟨-, hname, -, hquote, htick⟩ := isPunctuation_iff.1 h
  rw [lexeme, hname, not_numberStarts h hpoint, if_neg Bool.false_ne_true,
    if_neg Bool.false_ne_true, if_neg hquote, if_neg htick] at hfound
  split at hfound
  · cases hfound
    exact ⟨_, rfl⟩
  · cases hfound

theorem lexes_punct {p : String} (hp : p ∈ punctuators)
    (h : ∀ d ∈ rest.head?, d ∉ prolongations p ∧ (p = "." → isDigit d = false)) :
    Lexes (.punct p) p.toList rest := by
  have hhead := isPunctuation_head p hp
  have hpoint := punctuator_point p hp
  have hfound := punctuator?_append hp fun d hd ↦ (h d hd).1
  cases hchars : p.toList with
  | nil => simp [hchars] at hhead
  | cons c cs =>
    rw [hchars] at hhead hpoint hfound
    have hc : isPunctuation c = true := hhead
    refine ⟨c, cs, rfl, (isPunctuation_iff.1 hc).1, fun offset ↦ ?_⟩
    rw [List.cons_append] at hfound
    rw [lexeme_punctuation hc ?_ hfound, hchars]
    · rfl
    · rintro rfl
      rcases hpoint rfl with rfl | hdots
      · obtain rfl : cs = [] := by
          have : ".".toList = ['.'] := by decide
          rw [this] at hchars
          exact (List.cons.inj hchars).2.symm
        cases rest with
        | nil => rfl
        | cons d ds => exact (h d rfl).2 rfl
      · obtain rfl := (List.cons.inj hdots).2
        rfl

theorem lexeme_of_mem_scanFrom {tokens : List Token} (h : scanFrom offset cs = .ok tokens)
    {t : Token} (ht : t ∈ tokens) :
    ∃ start c cs n, lexeme start c cs = .ok ⟨t.kind, n⟩ ∧ t.spelling.toList = c :: cs.take n ∧
      isBlank c = false := by
  fun_induction scanFrom offset cs generalizing tokens with
  | case1 =>
    cases h
    cases ht
  | case2 offset c cs _ ih => exact ih h ht
  | case3 offset c cs hblank ih =>
    obtain ⟨⟨kind, n⟩, hfound, h⟩ := bind_ok h
    obtain ⟨rest, hrest, h⟩ := bind_ok h
    cases h
    rcases List.mem_cons.1 ht with rfl | ht
    · exact ⟨offset, c, cs, n, hfound, by simp, by simpa using hblank⟩
    · exact ih ⟨kind, n⟩ hrest ht

theorem lexes_of_mem_scanFrom {tokens : List Token} (h : scanFrom offset cs = .ok tokens)
    {t : Token} (ht : t ∈ tokens) (hkind : ∀ p, t.kind ≠ .punct p) (hstop : Stops rest) :
    Lexes t.kind t.spelling.toList rest := by
  obtain ⟨start, c, cs, n, hfound, hspelling, hblank⟩ := lexeme_of_mem_scanFrom h ht
  obtain ⟨hle, hagain⟩ := lexeme_append hfound hkind hstop
  refine ⟨c, cs.take n, hspelling, hblank, fun offset ↦ ?_⟩
  rw [hagain, List.length_take, Nat.min_eq_left hle]

theorem isName_of_mem_scanFrom {tokens : List Token} (h : scanFrom offset cs = .ok tokens)
    {t : Token} (ht : t ∈ tokens) {s : String} (hkind : t.kind = .name s) :
    isName s = true ∧ t.spelling = s := by
  obtain ⟨start, c, cs, n, hfound, hspelling, -⟩ := lexeme_of_mem_scanFrom h ht
  rw [hkind] at hfound
  obtain ⟨hname, hchars⟩ := lexeme_eq_name hfound
  exact ⟨hname, String.toList_inj.1 (hspelling.trans hchars.symm)⟩

end Token

end Transclude
