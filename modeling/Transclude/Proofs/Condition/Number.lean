import Transclude.Proofs.Condition.Numeral

namespace Transclude

open Text

namespace Numeral

variable {radix : ℕ} {c : Char} {cs rest : List Char} {ds : List ℕ} {q : ℚ}

/-- The digits before a point: zero alone, or digits of which the first is not zero. -/
def Whole (cs : List Char) (ds : List ℕ) : Prop :=
  Grouped 10 cs ds ∧ (cs = ['0'] ∨ cs.head? ≠ some '0')

theorem zeroLed_of_ne (hc : c ≠ '0') (cs : List Char) : Literal.zeroLed (c :: cs) = false := by
  simp [Literal.zeroLed, hc]

theorem zeroLed_zero (cs : List Char) : Literal.zeroLed ('0' :: c :: cs) = isBody 10 c := by
  have hrest : Text.sliceFrom 1 ('0' :: c :: cs) = c :: cs := Text.sliceFrom_append ['0'] (c :: cs)
  rw [isBody_ten, Literal.zeroLed, hrest]
  rfl

theorem zeroLed_append (h : Grouped 10 cs ds) (hrest : ∀ c ∈ rest.head?, isBody 10 c = false) :
    Literal.zeroLed (cs ++ rest) = false ↔ cs = ['0'] ∨ cs.head? ≠ some '0' := by
  obtain ⟨c, d, more, rfl, -⟩ := h.exists_head
  by_cases hc : c = '0'
  · subst hc
    cases more with
    | nil =>
      rw [iff_true_right (.inl rfl)]
      cases rest with
      | nil => rfl
      | cons b rest =>
        rw [List.singleton_append, zeroLed_zero]
        exact hrest b rfl
    | cons b more =>
      have hbody := List.all_eq_true.1 (h.all_isBody (by omega)) b (by simp)
      rw [List.cons_append, List.cons_append, zeroLed_zero, hbody]
      simp
  · rw [List.cons_append, zeroLed_of_ne hc]
    simp [hc]

theorem Mantissa.exists_whole {W D : List Char → List ℕ → Prop} {m x : List Char} {a : ℚ}
    (h : Mantissa W D m a) (hx : ∀ c ∈ x.head?, isBody 10 c = false) :
    (∃ f, m = '.' :: f) ∨
      ∃ w ds rest, m ++ x = w ++ rest ∧ (∀ c ∈ rest.head?, isBody 10 c = false) ∧ W w ds := by
  cases h with
  | whole hw => exact .inr ⟨_, _, x, rfl, hx, hw⟩
  | pointed hw => exact .inr ⟨_, _, '.' :: x, by simp, point_stops x, hw⟩
  | @mixed w f _ _ hw _ => exact .inr ⟨_, _, '.' :: (f ++ x), by simp, point_stops _, hw⟩
  | fraction => exact .inl ⟨_, rfl⟩

theorem denotes_whole_iff :
    Denotes (Grouped 10) (Grouped 10) cs q ∧ Literal.zeroLed cs = false ↔
      Denotes Whole (Grouped 10) cs q := by
  constructor
  · rintro ⟨h, hzero⟩
    refine h.mono ?_ fun _ _ _ hf ↦ hf
    intro w ds rest heq hrest hw
    rw [heq] at hzero
    exact ⟨hw, (zeroLed_append hw hrest).1 hzero⟩
  · intro h
    refine ⟨h.mono (fun _ _ _ _ _ hw ↦ hw.1) fun _ _ _ hf ↦ hf, ?_⟩
    obtain ⟨hm, hx⟩ := h
    rcases hm.exists_whole fun c hc ↦ (hx.head c hc).1 with ⟨f, rfl⟩ | ⟨w, ds, rest, heq, hrest, hw⟩
    · exact zeroLed_of_ne (by decide) _
    · rw [heq]
      exact (zeroLed_append hw.1 hrest).2 hw.2

end Numeral

namespace Literal

open Numeral

def marks : List (Char × ℕ) := [('x', 16), ('X', 16), ('o', 8), ('O', 8), ('b', 2), ('B', 2)]

/-- A number literal, with the number that it denotes. -/
inductive IsNumber : List Char → ℚ → Prop
  | decimal {cs : List Char} {q : ℚ} : Denotes Whole (Grouped 10) cs q → IsNumber cs q
  | radix {mark : Char} {radix : ℕ} {body : List Char} {ds : List ℕ} : (mark, radix) ∈ marks →
      Grouped radix body ds → value radix ds < 2 ^ 64 →
      IsNumber ('0' :: mark :: body) (value radix ds)

variable {c : Char} {cs body rest : List Char} {radix : ℕ} {x : Double} {q : ℚ}

theorem ofDecimal?_of_unsigned (hplus : cs.head? ≠ some '+') (hminus : cs.head? ≠ some '-') :
    Double.ofDecimal? cs = (Decimal.parse? cs).map fun d ↦ .signed false d.nearest := by
  unfold Double.ofDecimal?
  split
  · exact absurd rfl hminus
  · exact absurd rfl hplus
  · rfl

theorem decimalValue?_iff (hplus : cs.head? ≠ some '+') (hminus : cs.head? ≠ some '-') :
    decimalValue? cs = some x ↔ ∃ q, Denotes Whole (Grouped 10) cs q ∧ x.Rounds false q := by
  simp only [← denotes_whole_iff, and_right_comm, exists_and_right, ← rounds_iff]
  have hvalue : decimalValue? cs = if separatorsOk 10 false cs && !zeroLed cs then
      Double.ofDecimal? (bare cs) else none := rfl
  rw [hvalue]
  cases hseparators : separatorsOk 10 false cs with
  | false => simp
  | true =>
    have hhead := bare_head (head_ne_separator hseparators)
    rw [← hhead] at hplus hminus
    rw [ofDecimal?_of_unsigned hplus hminus]
    cases zeroLed cs with
    | false => simp
    | true => simp

theorem mem_marks {mark : Char} : (mark, radix) ∈ marks ↔ radixOfMark? mark = some radix := by
  constructor
  · intro h
    have hall : ∀ m ∈ marks, radixOfMark? m.1 = some m.2 := by decide
    exact hall _ h
  · intro h
    unfold radixOfMark? at h
    split at h
    iterate 6
      · cases h
        decide
    · cases h

theorem radix_le {mark : Char} (h : (mark, radix) ∈ marks) : radix ≤ 16 := by
  have hall : ∀ m ∈ marks, m.2 ≤ 16 := by decide
  exact hall _ h

theorem radixValue?_mark {mark : Char} (h : (mark, radix) ∈ marks) (body : List Char) :
    radixValue? radix ('0' :: mark :: body) = if separatorsOk radix false body then
      ((radixNumber? radix (bare body)).filter (· < 2 ^ 64)).map .ofNat else none := by
  have hone := (plain_of_radixOfMark? (mem_marks.1 h)).utf8Size_eq
  have hne : mark ≠ '_' := by
    rintro rfl
    cases mem_marks.1 h
  have hbare : ('0' :: mark :: body).filter (· ≠ '_') = '0' :: mark :: bare body := by
    simp [bare, hne]
  rw [radixValue?, hbare, sliceFrom_mark hone, sliceFrom_mark hone]
  rfl

theorem radixValue?_iff {mark : Char} (hmark : (mark, radix) ∈ marks)
    (hall : body.all (isBody radix) = true) :
    radixValue? radix ('0' :: mark :: body) = some x ↔
      ∃ ds, Grouped radix body ds ∧ value radix ds < 2 ^ 64 ∧ x = .ofNat (value radix ds) := by
  have hradix := radix_le hmark
  have hnumber : ∀ {ds}, Grouped radix body ds →
      radixNumber? radix (bare body) = some (value radix ds) := by
    intro ds hds
    have hdigits : Digits radix (bare body) ds := ⟨hds.bare_ne_nil, hds.digits⟩
    exact (radixNumber?_iff hradix).2 ⟨[], by decide, _, ds, rfl, hdigits, rfl⟩
  rw [radixValue?_mark hmark]
  constructor
  · intro h
    split at h
    · next hseparators =>
      simp only [Option.map_eq_some_iff, Option.filter_eq_some_iff, decide_eq_true_eq] at h
      obtain ⟨n, ⟨hn, hlt⟩, rfl⟩ := h
      have hbody : body ≠ [] := by
        rintro rfl
        cases hn
      obtain ⟨ds, hds⟩ := (grouped_iff hradix hall).1 ⟨hbody, hseparators⟩
      rw [hnumber hds] at hn
      obtain rfl := Option.some.inj hn
      exact ⟨ds, hds, hlt, rfl⟩
    · cases h
  · rintro ⟨ds, hds, hlt, rfl⟩
    rw [hds.separatorsOk hradix, hnumber hds, Option.filter_some, if_pos (decide_eq_true hlt)]
    rfl

theorem decimalRun_plain (h : ∀ c ∈ cs, isBody 10 c = true ∨ c = '.') (marked afterMark : Bool) :
    decimalRun marked afterMark (cs ++ rest) =
      cs.length + decimalRun marked (afterMark && cs.isEmpty) rest := by
  induction cs generalizing afterMark with
  | nil => simp
  | cons c cs ih =>
    rw [List.forall_mem_cons] at h
    have hplain : (isDigit c || c == '.' || c == '_') = true := by
      rw [isBody_ten] at h
      grind
    rw [List.cons_append, decimalRun, if_pos hplain, ih h.2, Bool.false_and, List.isEmpty_cons,
      Bool.and_false, List.length_cons]
    omega

theorem decimalRun_exponent {e : ℤ} (h : Exponent (Grouped 10) cs e) :
    decimalRun false false cs = cs.length := by
  cases h with
  | nothing => rfl
  | @power mark sign digits negative ds hmark hsign hdigits =>
    have hrun : ∀ afterMark, decimalRun true afterMark digits = digits.length := by
      intro afterMark
      have hall := List.all_eq_true.1 (hdigits.all_isBody (by omega))
      have hplain : decimalRun true afterMark (digits ++ []) = _ :=
        decimalRun_plain (fun c hc ↦ .inl (hall c hc)) true afterMark
      rwa [List.append_nil, decimalRun, Nat.add_zero] at hplain
    have hmarked : decimalRun false false (mark :: (sign ++ digits)) =
        decimalRun true true (sign ++ digits) + 1 := by
      rcases hmark with rfl | rfl <;> rfl
    have hsigned : decimalRun true true (sign ++ digits) = sign.length + digits.length := by
      cases hsign with
      | absent => rw [List.nil_append, hrun, List.length_nil, Nat.zero_add]
      | plus => exact (congrArg (· + 1) (hrun false)).trans (Nat.add_comm ..)
      | minus => exact (congrArg (· + 1) (hrun false)).trans (Nat.add_comm ..)
    rw [hmarked, hsigned, List.length_cons, List.length_append]

theorem radix?_of_isDecimal (h : ∀ d ∈ cs, isDecimal d = true) : radix? c cs = none := by
  cases hradix : radix? c cs with
  | none => rfl
  | some radix =>
    obtain ⟨mark, ds, rfl, rfl, hmark⟩ := radix?_eq_some hradix
    have hall : ∀ m ∈ marks, isDecimal m.1 = false := by decide
    have hfalse := hall _ (mem_marks.2 (hmark []))
    rw [h mark (List.mem_cons_self ..)] at hfalse
    cases hfalse

theorem numberRun_decimal (h : Denotes (Grouped 10) (Grouped 10) (c :: cs) q) :
    radix? c cs = none ∧ numberRun c cs = cs.length := by
  have hnone : radix? c cs = none :=
    radix?_of_isDecimal fun d hd ↦ h.isDecimal d (List.mem_cons_of_mem c hd)
  refine ⟨hnone, ?_⟩
  rw [numberRun_of_none hnone]
  generalize htext : c :: cs = text at h
  obtain ⟨hm, hx⟩ := h
  obtain ⟨d, m, rfl, -⟩ := hm.exists_head
  rw [List.cons_append] at htext
  obtain ⟨rfl, rfl⟩ := List.cons.inj htext
  have hbody : ∀ w ds, Grouped 10 w ds → ∀ c ∈ w, isBody 10 c = true ∨ c = '.' := by
    intro w ds hw c hc
    exact .inl (List.all_eq_true.1 (hw.all_isBody (by omega)) c hc)
  have hplain := (List.forall_mem_cons.1 (hm.forall_mem hbody hbody (.inr rfl))).2
  rw [decimalRun_plain hplain, Bool.false_and, decimalRun_exponent hx, List.length_append]

theorem numberRun_radix {mark : Char} (hmark : (mark, radix) ∈ marks) (cs : List Char) :
    radix? '0' (mark :: cs) = some radix ∧
      numberRun '0' (mark :: cs) = 1 + (cs.takeWhile (isBody radix)).length := by
  have hradix : radix? '0' (mark :: cs) = some radix := mem_marks.1 hmark
  refine ⟨hradix, ?_⟩
  rw [numberRun_of_some hradix]
  rfl

theorem readNumber_of_isNumber (h : IsNumber (c :: cs) q) (hplus : c ≠ '+') (hminus : c ≠ '-') :
    ∃ x, readNumber c cs = .ok (x, cs.length) ∧ x.Rounds false q := by
  suffices hread : numberRun c cs = cs.length ∧
      ∃ x, numberValue? (radix? c cs) (c :: cs) = some x ∧ x.Rounds false q by
    obtain ⟨hrun, x, hvalue, hx⟩ := hread
    refine ⟨x, readNumber_ok.2 ⟨hrun.symm, ?_, ?_⟩, hx⟩
    · rw [List.drop_length]
      rfl
    · rw [List.take_length]
      exact hvalue
  generalize htext : c :: cs = text at h
  cases h with
  | decimal h =>
    subst htext
    obtain ⟨hnone, hrun⟩ := numberRun_decimal (denotes_whole_iff.2 h).1
    obtain ⟨x, hx⟩ := (denotes_whole_iff.2 h).1.exists_rounds false
    refine ⟨hrun, x, ?_, hx⟩
    rw [hnone]
    exact (decimalValue?_iff (by simpa using hplus) (by simpa using hminus)).2 ⟨q, h, hx⟩
  | @radix mark radix body ds hmark hds hlt =>
    obtain ⟨rfl, rfl⟩ := List.cons.inj htext
    obtain ⟨hradix, hrun⟩ := numberRun_radix hmark body
    have hle := radix_le hmark
    have hall := hds.all_isBody hle
    refine ⟨?_, .ofNat (value radix ds), ?_, Double.rounds_ofNat _⟩
    · rw [hrun, List.takeWhile_eq_self_iff.2 (List.all_eq_true.1 hall), List.length_cons,
        Nat.add_comm]
    · rw [hradix]
      exact (radixValue?_iff hmark hall).2 ⟨ds, hds, hlt, rfl⟩

theorem unsigned_of_startsNumber (h : Token.startsNumber c cs = true) : c ≠ '+' ∧ c ≠ '-' := by
  have hplus : ∀ cs, Token.startsNumber '+' cs = false := fun _ ↦ rfl
  have hminus : ∀ cs, Token.startsNumber '-' cs = false := fun _ ↦ rfl
  constructor
  · rintro rfl
    rw [hplus] at h
    cases h
  · rintro rfl
    rw [hminus] at h
    cases h

theorem IsNumber.ne_nil {text : List Char} (h : IsNumber text q) : text ≠ [] := by
  cases h with
  | decimal h =>
    obtain ⟨⟨hm, -⟩, -⟩ := denotes_whole_iff.2 h
    obtain ⟨d, m, rfl, -⟩ := hm.exists_head
    exact List.cons_ne_nil _ _
  | radix => exact List.cons_ne_nil _ _

theorem readNumber_of_stops (hstarts : Token.startsNumber c cs = true) {text : List Char}
    (htext : c :: cs = text ++ rest) (h : IsNumber text q) (hstop : Stops rest) :
    ∃ x n, readNumber c cs = .ok (x, n) ∧ size text = n + 1 ∧ x.Rounds false q := by
  obtain ⟨hplus, hminus⟩ := unsigned_of_startsNumber hstarts
  cases text with
  | nil => exact absurd rfl h.ne_nil
  | cons d text =>
    rw [List.cons_append] at htext
    obtain ⟨rfl, rfl⟩ := List.cons.inj htext
    obtain ⟨x, hread, hx⟩ := readNumber_of_isNumber h hplus hminus
    have happend := (readNumber_append hstop hread).2
    rw [List.take_length] at happend
    refine ⟨x, text.length, happend, ?_, hx⟩
    have hsize : size (c :: text.take (numberRun c text)) = _ :=
      size_literal (plain_of_startsNumber hstarts)
    rwa [← (readNumber_ok.1 hread).1, List.take_length] at hsize

theorem isNumber_of_readNumber {n : ℕ} (h : readNumber c cs = .ok (x, n)) (hplus : c ≠ '+')
    (hminus : c ≠ '-') : ∃ q, IsNumber (c :: cs.take n) q ∧ x.Rounds false q := by
  obtain ⟨hrun, -, hvalue⟩ := readNumber_ok.1 h
  cases hradix : radix? c cs with
  | none =>
    rw [hradix] at hvalue
    obtain ⟨q, hq, hx⟩ :=
      (decimalValue?_iff (by simpa using hplus) (by simpa using hminus)).1 hvalue
    exact ⟨q, .decimal hq, hx⟩
  | some radix =>
    rw [hradix] at hvalue
    obtain ⟨mark, body, rfl, rfl, hmark⟩ := radix?_eq_some hradix
    have hmark := mem_marks.2 (hmark [])
    rw [(numberRun_radix hmark body).2, Nat.add_comm] at hrun
    rw [hrun, List.take_succ_cons, take_length_takeWhile] at hvalue ⊢
    obtain ⟨ds, hds, hlt, rfl⟩ :=
      (radixValue?_iff hmark List.all_takeWhile).1 hvalue
    exact ⟨_, .radix hmark hds hlt, Double.rounds_ofNat _⟩

/-- A text that can be continued to a literal. -/
def Begins (text : List Char) : Prop := ∃ more q, IsNumber (text ++ more) q

theorem length_le_of_begins {n : ℕ} {text : List Char} (h : readNumber c cs = .ok (x, n))
    (hplus : c ≠ '+') (hminus : c ≠ '-') (htext : text <+: c :: cs) (hbegins : Begins text) :
    text.length ≤ n + 1 := by
  by_contra hlt
  obtain ⟨hrun, -, -⟩ := readNumber_ok.1 h
  obtain ⟨more, q, hq⟩ := hbegins
  obtain ⟨rest, htext⟩ := htext
  cases text with
  | nil => exact hlt (Nat.zero_le _)
  | cons d text =>
    rw [List.cons_append] at htext hq
    obtain ⟨rfl, rfl⟩ := List.cons.inj htext
    -- The run ends inside a literal, so that it ends there in the literal itself.
    obtain ⟨s, b, u, rfl, rfl⟩ : ∃ s b u, text = s ++ b :: u ∧ n = s.length := by
      have hn : n < text.length := by
        rw [List.length_cons] at hlt
        omega
      refine ⟨text.take n, text[n], text.drop (n + 1), ?_, ?_⟩
      · rw [← List.drop_eq_getElem_cons hn, List.take_append_drop]
      · rw [List.length_take, Nat.min_eq_left hn.le]
    rw [List.append_assoc, List.cons_append] at hrun hq
    obtain ⟨y, hy, -⟩ := readNumber_of_isNumber hq hplus hminus
    have hwhole := (readNumber_ok.1 hy).1
    have hsame : numberRun d (s ++ b :: (u ++ more)) = s.length :=
      numberRun_of_head hrun.symm fun _ hd ↦ hd
    rw [hsame, List.length_append, List.length_cons] at hwhole
    omega

def Invalid (c : Char) (cs : List Char) : Prop :=
  ∃ text, readNumber c cs = .error (.invalidNumber text)

theorem ok_or_invalid (c : Char) (cs : List Char) :
    (∃ x n, readNumber c cs = .ok (x, n)) ∨ Invalid c cs := by
  cases h : readNumber c cs with
  | ok r => exact .inl ⟨r.1, r.2, rfl⟩
  | error e =>
    obtain ⟨taken, rest, -, rfl⟩ := readNumber_error h
    exact .inr ⟨_, h⟩

theorem invalid_of_glued (hstarts : Token.startsNumber c cs = true) {text : List Char} {d : Char}
    (htext : c :: cs = text ++ d :: rest) (hbegins : Begins text) (hends : ¬Begins (text ++ [d]))
    (hd : isNameStart d = true) : Invalid c cs := by
  obtain ⟨hplus, hminus⟩ := unsigned_of_startsNumber hstarts
  rcases ok_or_invalid c cs with ⟨x, n, h⟩ | h
  · exfalso
    obtain ⟨q, hq, -⟩ := isNumber_of_readNumber h hplus hminus
    have hle := length_le_of_begins h hplus hminus ⟨_, htext.symm⟩ hbegins
    have hsplit : (c :: cs.take n) ++ cs.drop n = text ++ d :: rest := by
      rw [List.cons_append, List.take_append_drop, htext]
    have hnot : ∀ more, cs.drop n ≠ d :: more := by
      intro more hdrop
      have hglued := (readNumber_ok.1 h).2.1
      rw [hdrop, List.head?_cons, Option.any_some, hd] at hglued
      cases hglued
    rcases List.append_eq_append_iff.1 hsplit with ⟨s, hs, hdrop⟩ | ⟨s, hs, hdrop⟩
    · have hlength := congrArg List.length hs
      rw [List.length_append, List.length_cons, List.length_take,
        Nat.min_eq_left (readNumber_append stops_nil h).1] at hlength
      obtain rfl := List.length_eq_zero_iff.1 (show s.length = 0 by omega)
      exact hnot rest hdrop
    · cases s with
      | nil => exact hnot rest hdrop.symm
      | cons b s =>
        obtain ⟨rfl, -⟩ := List.cons.inj hdrop
        refine hends ⟨s, q, ?_⟩
        rw [List.append_assoc, List.singleton_append, ← hs]
        exact hq
  · exact h

theorem separatorsOk_after {b : Char} (hb : isRadixDigit radix b = false) (afterDigit : Bool)
    (cs rest : List Char) : separatorsOk radix afterDigit (cs ++ b :: '_' :: rest) = false := by
  induction cs generalizing afterDigit with
  | nil => simp [separatorsOk, hb]
  | cons d cs ih =>
    rw [List.cons_append, separatorsOk, ih, ih]
    simp

def base : List Char → ℕ
  | zero :: mark :: _ => if zero = '0' then (radixOfMark? mark).getD 10 else 10
  | _ => 10

theorem base_append (text : List Char) (a b : Char) (cs rest : List Char) :
    base (text ++ a :: b :: cs) = base (text ++ a :: b :: rest) := by
  rcases text with _ | ⟨zero, _ | ⟨mark, text⟩⟩ <;> rfl

theorem base_of_isDecimal (h : ∀ c ∈ cs, isDecimal c = true) : base cs = 10 := by
  unfold base
  split
  · next zero mark rest =>
    have hmark : radixOfMark? mark = none := by
      have hnone : radix? '0' [mark] = none := radix?_of_isDecimal (by simpa using h mark (by simp))
      exact hnone
    simp [hmark]
  · rfl

theorem not_isNumber_of_separator {text : List Char} {b : Char}
    (hb : isRadixDigit (base (text ++ b :: '_' :: rest)) b = false) :
    ¬IsNumber (text ++ b :: '_' :: rest) q := by
  intro h
  generalize hall : text ++ b :: '_' :: rest = all at h hb
  cases h with
  | decimal h =>
    obtain ⟨hdenotes, -⟩ := denotes_whole_iff.2 h
    rw [base_of_isDecimal hdenotes.isDecimal] at hb
    have hseparators := (parse?_of_denotes hdenotes).1
    rw [← hall, separatorsOk_after hb] at hseparators
    cases hseparators
  | @radix mark radix body ds hmark hds hlt =>
    have hbase : base ('0' :: mark :: body) = radix := by
      rw [base, if_pos rfl, mem_marks.1 hmark, Option.getD_some]
    rw [hbase] at hb
    have hseparators := hds.separatorsOk (radix_le hmark)
    -- The separator follows the zero, the mark or a character of the body.
    rcases text with _ | ⟨zero, _ | ⟨mark', text⟩⟩
    · obtain ⟨-, htail⟩ := List.cons.inj hall
      obtain ⟨rfl, -⟩ := List.cons.inj htail
      cases mem_marks.1 hmark
    · obtain ⟨-, htail⟩ := List.cons.inj hall
      obtain ⟨rfl, rfl⟩ := List.cons.inj htail
      exact head_ne_separator hseparators rfl
    · rw [List.cons_append, List.cons_append] at hall
      obtain ⟨-, htail⟩ := List.cons.inj hall
      obtain ⟨-, rfl⟩ := List.cons.inj htail
      rw [separatorsOk_after hb] at hseparators
      cases hseparators

theorem invalid_of_separator (hstarts : Token.startsNumber c cs = true) {text : List Char}
    {b : Char} (htext : c :: cs = text ++ b :: '_' :: rest) (hbegins : Begins (text ++ [b]))
    (hb : isRadixDigit (base (c :: cs)) b = false) : Invalid c cs := by
  have hsplit : c :: cs = (text ++ [b]) ++ '_' :: rest := by
    rw [htext, List.append_assoc, List.singleton_append]
  refine invalid_of_glued hstarts hsplit hbegins ?_ (by decide)
  rintro ⟨more, q, hq⟩
  rw [List.append_assoc, List.append_assoc, List.singleton_append, List.singleton_append] at hq
  rw [htext, base_append text b '_' rest more] at hb
  exact not_isNumber_of_separator hb hq

theorem not_begins_of_zero {d : Char} (hd : isBody 10 d = true) : ¬Begins ['0', d] := by
  rintro ⟨more, q, hq⟩
  generalize hall : ['0', d] ++ more = all at hq
  cases hq with
  | decimal h =>
    have hzero := (denotes_whole_iff.2 h).2
    rw [← hall] at hzero
    have hled := (zeroLed_zero more).trans hd
    rw [List.cons_append, List.singleton_append, hled] at hzero
    cases hzero
  | radix hmark hds hlt =>
    obtain ⟨-, htail⟩ := List.cons.inj hall
    obtain ⟨rfl, -⟩ := List.cons.inj htail
    have hmarks : ∀ m ∈ marks, isBody 10 m.1 = false := by decide
    rw [hmarks _ hmark] at hd
    cases hd

theorem exists_numberRun {d : Char} (hd : isBody 10 d = true) (c : Char) (rest : List Char) :
    ∃ n, numberRun c (d :: rest) = n + 1 := by
  cases hradix : radix? c (d :: rest) with
  | some radix => exact ⟨_, (numberRun_of_some hradix).trans (Nat.add_comm ..)⟩
  | none =>
    rw [numberRun_of_none hradix]
    have hplain : ∀ b ∈ [d], isBody 10 b = true ∨ b = '.' := by simp [hd]
    exact ⟨_, (decimalRun_plain hplain false false).trans (Nat.add_comm ..)⟩

theorem invalid_of_zero {d : Char} (hd : isBody 10 d = true) : Invalid '0' (d :: rest) := by
  rcases ok_or_invalid '0' (d :: rest) with ⟨x, n, h⟩ | h
  · exfalso
    obtain ⟨m, hm⟩ := exists_numberRun hd '0' rest
    obtain ⟨rfl, -, -⟩ := readNumber_ok.1 h
    obtain ⟨q, hq, -⟩ := isNumber_of_readNumber h (by decide) (by decide)
    rw [hm, List.take_succ_cons] at hq
    exact not_begins_of_zero hd ⟨_, q, hq⟩
  · exact h

/-- Numbers are read exactly by their grammar: what is read is a literal that no name follows, and
a literal is read if neither a part of a name nor a point follows it. Anything else is invalid, as
is a name right behind a literal, a separator that does not follow a digit, and a zero before other
digits. -/
theorem readNumber_grammar (c : Char) (cs : List Char) (hstarts : Token.startsNumber c cs = true) :
    (∀ x n, readNumber c cs = .ok (x, n) →
      size (c :: cs.take n) = n + 1 ∧ (cs.drop n).head?.any isNameStart = false ∧
        ∃ q, IsNumber (c :: cs.take n) q ∧ x.Rounds false q) ∧
    (∀ text rest q, c :: cs = text ++ rest → IsNumber text q → Stops rest →
      ∃ x n, readNumber c cs = .ok (x, n) ∧ size text = n + 1 ∧ x.Rounds false q) ∧
    ((∃ x n, readNumber c cs = .ok (x, n)) ∨ Invalid c cs) ∧
    (∀ text d rest, c :: cs = text ++ d :: rest → Begins text → ¬Begins (text ++ [d]) →
      isNameStart d = true → Invalid c cs) ∧
    (∀ text b rest, c :: cs = text ++ b :: '_' :: rest → Begins (text ++ [b]) →
      isRadixDigit (base (c :: cs)) b = false → Invalid c cs) ∧
    ∀ d rest, c :: cs = '0' :: d :: rest → isBody 10 d = true → Invalid c cs := by
  obtain ⟨hplus, hminus⟩ := unsigned_of_startsNumber hstarts
  have hplain := plain_of_startsNumber hstarts
  refine ⟨?_, fun _ _ _ ↦ readNumber_of_stops hstarts, ok_or_invalid c cs,
    fun _ _ _ ↦ invalid_of_glued hstarts, fun _ _ _ ↦ invalid_of_separator hstarts, ?_⟩
  · intro x n h
    obtain ⟨rfl, hglued, -⟩ := readNumber_ok.1 h
    exact ⟨size_literal hplain, hglued, isNumber_of_readNumber h hplus hminus⟩
  · intro d rest htext hd
    obtain ⟨rfl, rfl⟩ := List.cons.inj htext
    exact invalid_of_zero hd

theorem readNumber_grammar_separated :
    (∃ x n, readNumber '1' "_000.5e-3 + x".toList = .ok (x, n) ∧ n + 1 = 10 ∧
      x.Rounds false (10005 / 10000)) ∧
    Invalid '3' "px".toList ∧ Invalid '1' "__0".toList ∧ Invalid '0' "17".toList := by
  have hdigit : ∀ c, isDigit c = true → Digit 10 c (digitValue c) :=
    fun c hc ↦ digit_ten.2 ⟨hc, rfl⟩
  refine ⟨?_, ?_, ?_, ?_⟩
  · obtain ⟨-, hliteral, -⟩ := readNumber_grammar '1' "_000.5e-3 + x".toList (by decide)
    have hthousand : Whole "1_000".toList [1, 0, 0, 0] :=
      ⟨.separated (hdigit '1' (by decide)) (.next (hdigit '0' (by decide))
        (.next (hdigit '0' (by decide)) (.last (hdigit '0' (by decide))))), by decide⟩
    have hfive : Grouped 10 ['5'] [5] := .last (hdigit '5' (by decide))
    have hthree : Grouped 10 ['3'] [3] := .last (hdigit '3' (by decide))
    have hpower : Exponent (Grouped 10) "e-3".toList (-value 10 [3]) :=
      @Exponent.power _ 'e' ['-'] ['3'] true [3] (.inl rfl) .minus hthree
    have hnumber := IsNumber.decimal (.intro (.mixed hthousand hfive) hpower)
    have hq : ((value 10 [1, 0, 0, 0] + value 10 [5] / 10 ^ [5].length) * 10 ^ (-value 10 [3] : ℤ) :
        ℚ) = 10005 / 10000 := by
      norm_num [value, Nat.ofDigits]
    rw [hq] at hnumber
    obtain ⟨x, n, hread, hsize, hx⟩ :=
      hliteral _ " + x".toList _ (by decide) hnumber (stops_cons (by decide) _)
    exact ⟨x, n, hread, hsize.symm.trans (by decide), hx⟩
  · obtain ⟨-, -, -, hglued, -⟩ := readNumber_grammar '3' "px".toList (by decide)
    have hthree : Whole ['3'] [3] := ⟨.last (hdigit '3' (by decide)), by decide⟩
    refine hglued ['3'] 'p' ['x'] (by decide) ⟨[], _, .decimal (.of_whole hthree)⟩ ?_ (by decide)
    rintro ⟨more, q, hq⟩
    cases hq with
    | decimal h =>
      have hp := (denotes_whole_iff.2 h).1.isDecimal 'p' (by simp)
      exact absurd hp (by decide)
  · obtain ⟨-, -, -, -, hseparator, -⟩ := readNumber_grammar '1' "__0".toList (by decide)
    have hten : Whole "1_0".toList [1, 0] :=
      ⟨.separated (hdigit '1' (by decide)) (.last (hdigit '0' (by decide))), by decide⟩
    exact hseparator ['1'] '_' ['0'] (by decide) ⟨['0'], _, .decimal (.of_whole hten)⟩ (by decide)
  · obtain ⟨-, -, -, -, -, hzero⟩ := readNumber_grammar '0' "17".toList (by decide)
    exact hzero '1' ['7'] (by decide) (by decide)

end Literal

end Transclude
