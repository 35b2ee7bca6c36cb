import Transclude.Proofs.Condition.Digits
import Transclude.Proofs.Double.Decimal

namespace Transclude

open Text

namespace Numeral

variable {c : Char} {cs rest : List Char} {ds : List ℕ}

inductive IsSign : List Char → Bool → Prop
  | absent : IsSign [] false
  | plus : IsSign ['+'] false
  | minus : IsSign ['-'] true

/-- The digits of a decimal numeral up to its exponent, with the number that they denote. `W` and
`D` say what may stand before and after the point. -/
inductive Mantissa (W D : List Char → List ℕ → Prop) : List Char → ℚ → Prop
  | whole {w : List Char} {ds : List ℕ} : W w ds → Mantissa W D w (value 10 ds)
  | pointed {w : List Char} {ds : List ℕ} : W w ds → Mantissa W D (w ++ ['.']) (value 10 ds)
  | mixed {w f : List Char} {ds es : List ℕ} : W w ds → D f es →
      Mantissa W D (w ++ '.' :: f) (value 10 ds + value 10 es / 10 ^ es.length)
  | fraction {f : List Char} {es : List ℕ} : D f es →
      Mantissa W D ('.' :: f) (value 10 es / 10 ^ es.length)

inductive Exponent (D : List Char → List ℕ → Prop) : List Char → ℤ → Prop
  | nothing : Exponent D [] 0
  | power {mark : Char} {sign x : List Char} {negative : Bool} {ds : List ℕ} :
      Decimal.IsMark mark → IsSign sign negative → D x ds →
      Exponent D (mark :: (sign ++ x)) (if negative then -value 10 ds else value 10 ds)

theorem exponentValue_iff {n : ℕ} :
    Literal.separatorsOk 10 false cs = true ∧ Decimal.exponent?.value (bare cs) = some n ↔
      ∃ ds, Grouped 10 cs ds ∧ n = value 10 ds := by
  unfold Decimal.exponent?.value
  constructor
  · rintro ⟨hseparators, hvalue⟩
    split at hvalue
    · cases hvalue
    · next hdigits =>
      simp only [Bool.or_eq_true, Bool.not_eq_true', not_or, Bool.not_eq_false,
        List.isEmpty_iff] at hdigits
      have hne : cs ≠ [] := by
        rintro rfl
        exact hdigits.1 rfl
      have hall : cs.all (isBody 10) = true := by
        rw [List.all_eq_true]
        intro c hc
        by_cases hseparator : c = '_'
        · rw [hseparator]
          decide
        · have hmem : c ∈ bare cs := List.mem_filter.2 ⟨hc, decide_eq_true hseparator⟩
          rw [isBody_ten, List.all_eq_true.1 hdigits.2 c hmem]
          rfl
      obtain ⟨ds, h⟩ := (grouped_iff (by omega) hall).1 ⟨hne, hseparators⟩
      refine ⟨ds, h, ?_⟩
      rw [← Option.some.inj hvalue, digitsValue_eq h.digits, foldl_eq_value]
  · rintro ⟨ds, h, rfl⟩
    refine ⟨h.separatorsOk (by omega), ?_⟩
    have hempty : (bare cs).isEmpty = false := by simpa using h.bare_ne_nil
    rw [hempty, all_isDigit h.digits, digitsValue_eq h.digits, foldl_eq_value]
    rfl

theorem exponent?_cons {mark : Char} (hmark : Decimal.IsMark mark) {sign : List Char}
    {negative : Bool} (hsign : IsSign sign negative) {tail : List Char}
    (htail : sign = [] → ∀ c ∈ tail.head?, c ≠ '+' ∧ c ≠ '-') :
    Decimal.exponent? (mark :: (sign ++ tail)) =
      (Decimal.exponent?.value tail).map fun n : ℕ ↦ if negative then -(n : ℤ) else (n : ℤ) := by
  unfold Decimal.exponent?
  dsimp only
  rw [if_pos (show mark = 'e' ∨ mark = 'E' from hmark)]
  cases hsign with
  | absent =>
    split
    · next heq =>
      rw [List.nil_append] at heq
      subst heq
      exact absurd rfl (htail rfl _ rfl).2
    · next heq =>
      rw [List.nil_append] at heq
      subst heq
      exact absurd rfl (htail rfl _ rfl).1
    · rfl
  | plus => rfl
  | minus =>
    have hneg : ∀ v : Option ℕ, (v.bind fun n ↦ some (n : ℤ)).map (fun n ↦ -n) =
        v.map fun n : ℕ ↦ if true then -(n : ℤ) else (n : ℤ) := by
      intro v
      cases v <;> rfl
    exact hneg _

theorem separatorsOk_cons (hc : c ≠ '_') (hdigit : isDigit c = false) (cs : List Char) :
    Literal.separatorsOk 10 false (c :: cs) = Literal.separatorsOk 10 false cs := by
  rw [Literal.separatorsOk, if_neg hc, isRadixDigit_ten, hdigit]

theorem exists_sign (cs : List Char) :
    ∃ sign negative tail, IsSign sign negative ∧ cs = sign ++ tail ∧
      (sign = [] → ∀ c ∈ tail.head?, c ≠ '+' ∧ c ≠ '-') := by
  by_cases hplus : cs.head? = some '+'
  · obtain ⟨tail, rfl⟩ := List.head?_eq_some_iff.1 hplus
    exact ⟨['+'], false, tail, .plus, rfl, by simp⟩
  · by_cases hminus : cs.head? = some '-'
    · obtain ⟨tail, rfl⟩ := List.head?_eq_some_iff.1 hminus
      exact ⟨['-'], true, tail, .minus, rfl, by simp⟩
    · refine ⟨[], false, cs, .absent, rfl, ?_⟩
      intro _ c hc
      rw [Option.mem_def.1 hc] at hplus hminus
      exact ⟨fun h ↦ hplus (congrArg some h), fun h ↦ hminus (congrArg some h)⟩

theorem separatorsOk_sign {sign : List Char} {negative : Bool} (h : IsSign sign negative)
    (cs : List Char) :
    Literal.separatorsOk 10 false (sign ++ cs) = Literal.separatorsOk 10 false cs ∧
      bare (sign ++ cs) = sign ++ bare cs := by
  cases h with
  | absent => exact ⟨rfl, rfl⟩
  | plus => exact ⟨separatorsOk_cons (by decide) (by decide) cs, rfl⟩
  | minus => exact ⟨separatorsOk_cons (by decide) (by decide) cs, rfl⟩

theorem bare_head (hhead : cs.head? ≠ some '_') : (bare cs).head? = cs.head? := by
  cases cs with
  | nil => rfl
  | cons c cs =>
    have hc : c ≠ '_' := fun h ↦ hhead (congrArg some h)
    rw [bare_cons hc]
    rfl

theorem ne_of_isDigit {c b : Char} (hc : isDigit c = true) (hb : isDigit b = false) : c ≠ b := by
  rintro rfl
  rw [hc] at hb
  cases hb

theorem Grouped.isDigit_head (h : Grouped 10 cs ds) : ∀ c ∈ cs.head?, isDigit c = true := by
  obtain ⟨c, d, rest, rfl, hd⟩ := h.exists_head
  intro b hb
  obtain rfl := Option.some.inj hb
  exact (digit_ten.1 hd).1

theorem mark_ne {mark : Char} (h : Decimal.IsMark mark) : mark ≠ '_' := by
  rcases h with rfl | rfl <;> decide

theorem mark_of_exponent? {mark : Char} {e : ℤ} (h : Decimal.exponent? (mark :: cs) = some e) :
    Decimal.IsMark mark := by
  unfold Decimal.exponent? at h
  dsimp only at h
  split at h
  · next hmark => exact hmark
  · cases h

theorem exponent?_iff {e : ℤ} :
    Literal.separatorsOk 10 false cs = true ∧ Decimal.exponent? (bare cs) = some e ↔
      Exponent (Grouped 10) cs e := by
  constructor
  · rintro ⟨hseparators, he⟩
    cases cs with
    | nil =>
      cases he
      exact .nothing
    | cons mark cs =>
      have hne : mark ≠ '_' := fun h ↦ head_ne_separator hseparators (congrArg some h)
      rw [bare_cons hne] at he
      have hmark := mark_of_exponent? he
      rw [separatorsOk_cons hne hmark.not_isDigit] at hseparators
      obtain ⟨sign, negative, tail, hsign, rfl, htail⟩ := exists_sign cs
      rw [(separatorsOk_sign hsign tail).1] at hseparators
      rw [← bare_head (head_ne_separator hseparators)] at htail
      rw [(separatorsOk_sign hsign tail).2, exponent?_cons hmark hsign htail] at he
      obtain ⟨n, hn, rfl⟩ := Option.map_eq_some_iff.1 he
      obtain ⟨ds, h, rfl⟩ := exponentValue_iff.1 ⟨hseparators, hn⟩
      exact .power hmark hsign h
  · intro h
    cases h with
    | nothing => exact ⟨rfl, rfl⟩
    | @power mark sign x negative ds hmark hsign h =>
      obtain ⟨hseparators, hn⟩ := exponentValue_iff.2 ⟨ds, h, rfl⟩
      have hne := mark_ne hmark
      obtain ⟨hsep, hbare⟩ := separatorsOk_sign hsign x
      have hhead : ∀ c ∈ (bare x).head?, c ≠ '+' ∧ c ≠ '-' := by
        rw [bare_head (head_ne_separator hseparators)]
        intro c hc
        exact ⟨ne_of_isDigit (h.isDigit_head c hc) (by decide),
          ne_of_isDigit (h.isDigit_head c hc) (by decide)⟩
      rw [separatorsOk_cons hne hmark.not_isDigit, hsep, bare_cons hne, hbare,
        exponent?_cons hmark hsign fun _ ↦ hhead, hn]
      exact ⟨hseparators, rfl⟩

inductive Denotes (W D : List Char → List ℕ → Prop) : List Char → ℚ → Prop
  | intro {m x : List Char} {a : ℚ} {e : ℤ} :
      Mantissa W D m a → Exponent D x e → Denotes W D (m ++ x) (a * 10 ^ e)

theorem Denotes.of_whole {W D : List Char → List ℕ → Prop} (h : W cs ds) :
    Denotes W D cs (value 10 ds) := by
  have hdenotes := Denotes.intro (Mantissa.whole (D := D) h) Exponent.nothing
  rwa [List.append_nil, zpow_zero, mul_one] at hdenotes

theorem parse?_whole {w x : List Char} (hw : w.all isDigit = true)
    (hx : ∀ c ∈ x.head?, isDigit c = false ∧ c ≠ '.') :
    Decimal.parse? (w ++ x) =
      if w = [] then none
      else (Decimal.exponent? x).map fun e ↦ { digits := digitsValue 0 w, exponent := e } := by
  have hstop := fun c hc ↦ (hx c hc).1
  unfold Decimal.parse?
  rw [takeWhile_append_of_stop hw hstop, dropWhile_append_of_stop hw hstop]
  dsimp only
  split
  · next ds =>
    exact absurd rfl (hx '.' rfl).2
  · simp [digitsValue]

theorem parse?_pointed {w f x : List Char} (hw : w.all isDigit = true) (hf : f.all isDigit = true)
    (hx : ∀ c ∈ x.head?, isDigit c = false) :
    Decimal.parse? (w ++ '.' :: (f ++ x)) =
      if w = [] ∧ f = [] then none
      else (Decimal.exponent? x).map fun e ↦
        { digits := digitsValue (digitsValue 0 w) f, exponent := e - f.length } := by
  have hstop : ∀ c ∈ ('.' :: (f ++ x)).head?, isDigit c = false := by simp; decide
  unfold Decimal.parse?
  rw [takeWhile_append_of_stop hw hstop, dropWhile_append_of_stop hw hstop]
  simp [takeWhile_append_of_stop hf hx, dropWhile_append_of_stop hf hx]

theorem Exponent.head {D : List Char → List ℕ → Prop} {x : List Char} {e : ℤ}
    (h : Exponent D x e) : ∀ c ∈ x.head?, isBody 10 c = false ∧ c ≠ '.' := by
  intro c hc
  cases h with
  | nothing => cases hc
  | power hmark =>
    obtain rfl := Option.some.inj hc
    rcases hmark with rfl | rfl <;> decide

theorem isDigit_of_isBody (h : isBody 10 c = false) : isDigit c = false ∧ c ≠ '_' := by
  simpa [isBody_ten] using h

theorem head_bare (h : ∀ c ∈ rest.head?, isBody 10 c = false) : (bare rest).head? = rest.head? := by
  apply bare_head
  intro hhead
  exact absurd (h '_' hhead) (by decide)

theorem number_mixed (ds es : List ℕ) (e : ℤ) :
    Decimal.number ⟨value 10 (ds ++ es), e - es.length⟩ =
      (value 10 ds + value 10 es / 10 ^ es.length) * 10 ^ e := by
  have hpow : (10 : ℚ) ^ es.length ≠ 0 := by positivity
  rw [Decimal.number, value_append, zpow_sub₀ (by norm_num), zpow_natCast]
  push_cast
  field_simp

def Optional (D : List Char → List ℕ → Prop) (cs : List Char) (ds : List ℕ) : Prop :=
  cs = [] ∧ ds = [] ∨ D cs ds

theorem Mantissa.of_point {W D : List Char → List ℕ → Prop} {w f : List Char} {es : List ℕ}
    (hw : Optional W w ds) (hf : Optional D f es) (hdigits : W w ds ∨ D f es) :
    Mantissa W D (w ++ '.' :: f) (value 10 ds + value 10 es / 10 ^ es.length) := by
  have hzero : value 10 [] = 0 := rfl
  rcases hdigits with hw' | hf'
  · rcases hf with ⟨rfl, rfl⟩ | hf'
    · rw [hzero, Nat.cast_zero, zero_div, add_zero]
      exact .pointed hw'
    · exact .mixed hw' hf'
  · rcases hw with ⟨rfl, rfl⟩ | hw'
    · rw [hzero, Nat.cast_zero, zero_add]
      exact .fraction hf'
    · exact .mixed hw' hf'

theorem Mantissa.exists_point {W D : List Char → List ℕ → Prop} {m : List Char} {a : ℚ}
    (h : Mantissa W D m a) :
    (∃ ds, W m ds ∧ a = value 10 ds) ∨ ∃ w ds f es, m = w ++ '.' :: f ∧ Optional W w ds ∧
      Optional D f es ∧ (W w ds ∨ D f es) ∧ a = value 10 ds + value 10 es / 10 ^ es.length := by
  have hzero : value 10 [] = 0 := rfl
  cases h with
  | whole hw => exact .inl ⟨_, hw, rfl⟩
  | pointed hw =>
    exact .inr ⟨_, _, [], [], rfl, .inr hw, .inl ⟨rfl, rfl⟩, .inl hw, by simp [hzero]⟩
  | mixed hw hf => exact .inr ⟨_, _, _, _, rfl, .inr hw, .inr hf, .inl hw, rfl⟩
  | fraction hf =>
    exact .inr ⟨[], [], _, _, rfl, .inl ⟨rfl, rfl⟩, .inr hf, .inr hf, by simp [hzero]⟩

theorem Optional.digits (h : Optional (Grouped 10) cs ds) :
    List.Forall₂ (Digit 10) (bare cs) ds := by
  rcases h with ⟨rfl, rfl⟩ | h
  · exact .nil
  · exact h.digits

theorem Optional.separatorsOk_append (h : Optional (Grouped 10) cs ds)
    (hrest : ∀ c ∈ rest.head?, isBody 10 c = false) :
    Literal.separatorsOk 10 false (cs ++ rest) = Literal.separatorsOk 10 false rest := by
  rcases h with ⟨rfl, rfl⟩ | h
  · rfl
  · exact Numeral.separatorsOk_append (by omega) h hrest

theorem exists_run (h : Literal.separatorsOk 10 false cs = true) :
    ∃ run ds rest, cs = run ++ rest ∧ Optional (Grouped 10) run ds ∧
      Literal.separatorsOk 10 false rest = true ∧ ∀ c ∈ rest.head?, isBody 10 c = false := by
  obtain ⟨hrun, hrest⟩ := (separatorsOk_run (by omega) false cs).1 h
  have hsplit := (List.takeWhile_append_dropWhile (p := isBody 10) (l := cs)).symm
  have hhead : ∀ c ∈ (cs.dropWhile (isBody 10)).head?, isBody 10 c = false := by
    intro c hc
    have hnot := List.head?_dropWhile_not (isBody 10) cs
    rw [Option.mem_def.1 hc] at hnot
    exact hnot
  rcases continues_start.1 hrun with hnil | ⟨ds, hds⟩
  · exact ⟨_, [], _, hsplit, .inl ⟨hnil, rfl⟩, hrest, hhead⟩
  · exact ⟨_, ds, _, hsplit, .inr hds, hrest, hhead⟩

theorem Optional.bare_eq_nil (h : Optional (Grouped 10) cs ds) :
    bare cs = [] ↔ ¬Grouped 10 cs ds := by
  rcases h with ⟨rfl, rfl⟩ | h
  · exact iff_of_true rfl nofun
  · exact iff_of_false h.bare_ne_nil (not_not_intro h)

theorem parse?_bare_whole {w x : List Char} (hw : Optional (Grouped 10) w ds)
    (hx : ∀ c ∈ x.head?, isBody 10 c = false ∧ c ≠ '.') (d : Decimal) :
    Decimal.parse? (bare (w ++ x)) = some d ↔
      Grouped 10 w ds ∧ ∃ e, Decimal.exponent? (bare x) = some e ∧ d = ⟨value 10 ds, e⟩ := by
  have hstop : ∀ c ∈ (bare x).head?, isDigit c = false ∧ c ≠ '.' := by
    rw [head_bare fun c hc ↦ (hx c hc).1]
    exact fun c hc ↦ ⟨(isDigit_of_isBody (hx c hc).1).1, (hx c hc).2⟩
  rw [bare_append, parse?_whole (all_isDigit hw.digits) hstop, digitsValue_eq hw.digits,
    foldl_eq_value]
  split
  · next hnil => simp [(hw.bare_eq_nil).1 hnil]
  · next hnil =>
    rw [hw.bare_eq_nil, not_not] at hnil
    simp [hnil, eq_comm]

theorem parse?_bare_pointed {w f x : List Char} {es : List ℕ} (hw : Optional (Grouped 10) w ds)
    (hf : Optional (Grouped 10) f es) (hx : ∀ c ∈ x.head?, isBody 10 c = false) (d : Decimal) :
    Decimal.parse? (bare (w ++ '.' :: (f ++ x))) = some d ↔
      (Grouped 10 w ds ∨ Grouped 10 f es) ∧
        ∃ e, Decimal.exponent? (bare x) = some e ∧ d = ⟨value 10 (ds ++ es), e - es.length⟩ := by
  have hstop : ∀ c ∈ (bare x).head?, isDigit c = false := by
    rw [head_bare hx]
    exact fun c hc ↦ (isDigit_of_isBody (hx c hc)).1
  rw [bare_append, bare_cons (by decide), bare_append,
    parse?_pointed (all_isDigit hw.digits) (all_isDigit hf.digits) hstop, digitsValue_eq hw.digits,
    digitsValue_eq hf.digits, ← List.foldl_append, foldl_eq_value, hf.digits.length_eq]
  have hempty : bare w = [] ∧ bare f = [] ↔ ¬(Grouped 10 w ds ∨ Grouped 10 f es) := by
    rw [hw.bare_eq_nil, hf.bare_eq_nil, not_or]
  split
  · next hnil => simp [hempty.1 hnil]
  · next hnil =>
    rw [hempty, not_not] at hnil
    simp [hnil, eq_comm]

theorem denotes_of_parse? {d : Decimal} (hseparators : Literal.separatorsOk 10 false cs = true)
    (h : Decimal.parse? (bare cs) = some d) :
    Denotes (Grouped 10) (Grouped 10) cs d.number := by
  obtain ⟨w, ds, rest, rfl, hw, hrest, hhead⟩ := exists_run hseparators
  by_cases hpoint : rest.head? = some '.'
  · obtain ⟨more, rfl⟩ := List.head?_eq_some_iff.1 hpoint
    rw [separatorsOk_cons (by decide) (by decide)] at hrest
    obtain ⟨f, es, x, rfl, hf, hx, hxhead⟩ := exists_run hrest
    obtain ⟨hdigits, e, he, rfl⟩ := (parse?_bare_pointed hw hf hxhead d).1 h
    rw [number_mixed, ← List.cons_append, ← List.append_assoc]
    exact .intro (.of_point hw hf hdigits) (exponent?_iff.1 ⟨hx, he⟩)
  · have hstop : ∀ c ∈ rest.head?, isBody 10 c = false ∧ c ≠ '.' := by
      intro c hc
      refine ⟨hhead c hc, ?_⟩
      rintro rfl
      exact hpoint hc
    obtain ⟨hdigits, e, he, rfl⟩ := (parse?_bare_whole hw hstop d).1 h
    exact .intro (.whole hdigits) (exponent?_iff.1 ⟨hrest, he⟩)

theorem point_stops (cs : List Char) : ∀ c ∈ ('.' :: cs).head?, isBody 10 c = false := by
  intro c hc
  obtain rfl := Option.some.inj hc
  decide

theorem parse?_of_denotes {q : ℚ} (h : Denotes (Grouped 10) (Grouped 10) cs q) :
    Literal.separatorsOk 10 false cs = true ∧
      ∃ d, Decimal.parse? (bare cs) = some d ∧ d.number = q := by
  obtain ⟨hm, hx⟩ := h
  obtain ⟨hseparators, he⟩ := exponent?_iff.2 hx
  have hstop := fun c hc ↦ (hx.head c hc).1
  rcases hm.exists_point with ⟨ds, hw, rfl⟩ | ⟨w, ds, f, es, rfl, hw, hf, hdigits, rfl⟩
  · refine ⟨?_, _, (parse?_bare_whole (.inr hw) hx.head _).2 ⟨hw, _, he, rfl⟩, rfl⟩
    rw [separatorsOk_append (by omega) hw hstop, hseparators]
  · rw [List.append_assoc, List.cons_append]
    refine ⟨?_, _, (parse?_bare_pointed hw hf hstop _).2 ⟨hdigits, _, he, rfl⟩, number_mixed ..⟩
    rw [hw.separatorsOk_append (point_stops _), separatorsOk_cons (by decide) (by decide),
      hf.separatorsOk_append hstop, hseparators]

theorem rounds_iff {negative : Bool} {x : Double} :
    (Literal.separatorsOk 10 false cs = true ∧
        (Decimal.parse? (bare cs)).map (fun d ↦ Double.signed negative d.nearest) = some x) ↔
      ∃ q, Denotes (Grouped 10) (Grouped 10) cs q ∧ x.Rounds negative q := by
  constructor
  · rintro ⟨hseparators, hx⟩
    obtain ⟨d, hd, rfl⟩ := Option.map_eq_some_iff.1 hx
    exact ⟨_, denotes_of_parse? hseparators hd, .nearest d.isNearest_nearest⟩
  · rintro ⟨q, hq, hx⟩
    obtain ⟨hseparators, d, hd, rfl⟩ := parse?_of_denotes hq
    refine ⟨hseparators, ?_⟩
    rw [hd, Option.map_some, hx.unique (.nearest d.isNearest_nearest)]

theorem Denotes.exists_rounds {q : ℚ} (h : Denotes (Grouped 10) (Grouped 10) cs q)
    (negative : Bool) : ∃ x : Double, x.Rounds negative q := by
  obtain ⟨-, d, -, rfl⟩ := parse?_of_denotes h
  exact ⟨_, .nearest d.isNearest_nearest⟩

def isDecimal (c : Char) : Bool := isBody 10 c || ['.', 'e', 'E', '+', '-'].contains c

theorem Mantissa.exists_head {D : List Char → List ℕ → Prop} {m : List Char} {a : ℚ}
    (h : Mantissa (Grouped 10) D m a) :
    ∃ c rest, m = c :: rest ∧ (isDigit c = true ∨ c = '.') := by
  have hhead : ∀ {w ds} (rest : List Char), Grouped 10 w ds →
      ∃ c more, w ++ rest = c :: more ∧ (isDigit c = true ∨ c = '.') := by
    intro w ds rest hw
    obtain ⟨c, d, more, rfl, hd⟩ := hw.exists_head
    exact ⟨c, more ++ rest, rfl, .inl (digit_ten.1 hd).1⟩
  cases h with
  | whole hw =>
    have hw' := hhead [] hw
    rwa [List.append_nil] at hw'
  | pointed hw => exact hhead _ hw
  | mixed hw hf => exact hhead _ hw
  | fraction hf => exact ⟨_, _, rfl, .inr rfl⟩

section Members

variable {W W' D D' : List Char → List ℕ → Prop} {m x : List Char} {a q : ℚ} {e : ℤ}
  {P : Char → Prop}

theorem Mantissa.forall_mem (h : Mantissa W D m a) (hW : ∀ w ds, W w ds → ∀ c ∈ w, P c)
    (hD : ∀ f es, D f es → ∀ c ∈ f, P c) (hpoint : P '.') : ∀ c ∈ m, P c := by
  cases h with
  | whole hw => exact hW _ _ hw
  | pointed hw =>
    rw [List.forall_mem_append, List.forall_mem_singleton]
    exact ⟨hW _ _ hw, hpoint⟩
  | mixed hw hf =>
    rw [List.forall_mem_append, List.forall_mem_cons]
    exact ⟨hW _ _ hw, hpoint, hD _ _ hf⟩
  | fraction hf =>
    rw [List.forall_mem_cons]
    exact ⟨hpoint, hD _ _ hf⟩

theorem Exponent.forall_mem (h : Exponent D x e) (hD : ∀ f es, D f es → ∀ c ∈ f, P c)
    (hP : ∀ c ∈ ['e', 'E', '+', '-'], P c) : ∀ c ∈ x, P c := by
  cases h with
  | nothing => simp
  | @power mark sign x negative ds hmark hsign hx =>
    rw [List.forall_mem_cons, List.forall_mem_append]
    refine ⟨hP mark ?_, fun c hc ↦ hP c ?_, hD _ _ hx⟩
    · rcases hmark with rfl | rfl <;> simp
    · cases hsign <;> simp_all

theorem Denotes.forall_mem (h : Denotes W D cs q) (hW : ∀ w ds, W w ds → ∀ c ∈ w, P c)
    (hD : ∀ f es, D f es → ∀ c ∈ f, P c) (hP : ∀ c ∈ ['.', 'e', 'E', '+', '-'], P c) :
    ∀ c ∈ cs, P c := by
  obtain ⟨hm, hx⟩ := h
  rw [List.forall_mem_cons] at hP
  rw [List.forall_mem_append]
  exact ⟨hm.forall_mem hW hD hP.1, hx.forall_mem hD hP.2⟩

theorem Mantissa.mono (h : Mantissa W D m a) (hx : ∀ c ∈ x.head?, isBody 10 c = false)
    (hW : ∀ w ds rest, m ++ x = w ++ rest → (∀ c ∈ rest.head?, isBody 10 c = false) →
      W w ds → W' w ds) (hD : ∀ f es, f <:+: m → D f es → D' f es) : Mantissa W' D' m a := by
  cases h with
  | whole hw => exact .whole (hW _ _ x rfl hx hw)
  | pointed hw => exact .pointed (hW _ _ ('.' :: x) (by simp) (point_stops x) hw)
  | @mixed w f _ _ hw hf =>
    exact .mixed (hW _ _ ('.' :: (f ++ x)) (by simp) (point_stops _) hw)
      (hD _ _ ⟨w ++ ['.'], [], by simp⟩ hf)
  | fraction hf => exact .fraction (hD _ _ ⟨['.'], [], by simp⟩ hf)

theorem Exponent.mono (h : Exponent D x e) (hD : ∀ f es, f <:+: x → D f es → D' f es) :
    Exponent D' x e := by
  cases h with
  | nothing => exact .nothing
  | @power mark sign x negative ds hmark hsign hx =>
    exact .power hmark hsign (hD _ _ ⟨mark :: sign, [], by simp⟩ hx)

theorem Denotes.mono (h : Denotes W D cs q)
    (hW : ∀ w ds rest, cs = w ++ rest → (∀ c ∈ rest.head?, isBody 10 c = false) →
      W w ds → W' w ds) (hD : ∀ f es, f <:+: cs → D f es → D' f es) : Denotes W' D' cs q := by
  obtain ⟨hm, hx⟩ := h
  refine .intro (hm.mono (fun c hc ↦ (hx.head c hc).1) hW ?_) (hx.mono ?_)
  · exact fun f es hf ↦ hD f es (hf.trans (List.infix_append' [] _ _))
  · exact fun f es hf ↦ hD f es (hf.trans (List.suffix_append _ _).isInfix)

end Members

theorem isDecimal_of_mem (h : c ∈ ['.', 'e', 'E', '+', '-']) : isDecimal c = true := by
  rw [isDecimal, List.contains_iff_mem.2 h, Bool.or_true]

theorem isDecimal_cases (h : isDecimal c = true) :
    isDigit c = true ∨ c = '_' ∨ c = '.' ∨ c = 'e' ∨ c = 'E' ∨ c = '+' ∨ c = '-' := by
  rw [isDecimal, isBody_ten] at h
  simpa [or_assoc] using h

theorem Grouped.isDecimal (h : Grouped 10 cs ds) : ∀ c ∈ cs, isDecimal c = true := by
  intro c hc
  rw [Numeral.isDecimal, List.all_eq_true.1 (h.all_isBody (by omega)) c hc]
  rfl

theorem Denotes.isDecimal {q : ℚ} (h : Denotes (Grouped 10) (Grouped 10) cs q) :
    ∀ c ∈ cs, isDecimal c = true :=
  h.forall_mem (fun _ _ hw ↦ hw.isDecimal) (fun _ _ hf ↦ hf.isDecimal) fun _ ↦ isDecimal_of_mem

end Numeral

end Transclude
