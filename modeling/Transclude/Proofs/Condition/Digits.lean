import Mathlib.Data.List.TakeWhile
import Mathlib.Data.Nat.Digits.Defs
import Transclude.Proofs.Condition.Diagnosis

namespace Transclude

open Text

theorem radixDigit?_ten (c : Char) :
    radixDigit? 10 c = if isDigit c then some (digitValue c) else none := by
  unfold radixDigit?
  dsimp only
  split
  · next hdigit =>
    obtain ⟨-, hhigh⟩ := isDigit_iff.1 hdigit
    have hlt : digitValue c < 10 := by
      have hzero : '0'.toNat = 48 := rfl
      unfold digitValue
      omega
    rw [Option.filter_some, if_pos (decide_eq_true hlt)]
  · split
    · rw [Option.filter_some, if_neg (by simp)]
    · split
      · rw [Option.filter_some, if_neg (by simp)]
      · rfl

namespace Numeral

/-- `c` is the digit of value `d` in a radix, in either case. -/
def Digit (radix : ℕ) (c : Char) (d : ℕ) : Prop := d < radix ∧ Literal.HexDigit c d

def value (radix : ℕ) (ds : List ℕ) : ℕ := Nat.ofDigits radix ds.reverse

/-- Digits of a radix, with their values. A separator may stand between two of them. -/
inductive Grouped (radix : ℕ) : List Char → List ℕ → Prop
  | last {c : Char} {d : ℕ} : Digit radix c d → Grouped radix [c] [d]
  | next {c : Char} {d : ℕ} {cs : List Char} {ds : List ℕ} :
      Digit radix c d → Grouped radix cs ds → Grouped radix (c :: cs) (d :: ds)
  | separated {c : Char} {d : ℕ} {cs : List Char} {ds : List ℕ} :
      Digit radix c d → Grouped radix cs ds → Grouped radix (c :: '_' :: cs) (d :: ds)

def isBody (radix : ℕ) (c : Char) : Bool := isRadixDigit radix c || c == '_'

variable {radix : ℕ} {c : Char} {d : ℕ} {cs rest : List Char} {ds : List ℕ}

theorem radixDigit?_iff (hradix : radix ≤ 16) (c : Char) (d : ℕ) :
    radixDigit? radix c = some d ↔ Digit radix c d := by
  rw [Digit, ← Literal.radixDigit?_eq_some]
  simp only [radixDigit?, Option.filter_eq_some_iff, decide_eq_true_eq]
  constructor
  · rintro ⟨hc, hd⟩
    exact ⟨hd, hc, by omega⟩
  · rintro ⟨hd, hc, -⟩
    exact ⟨hc, hd⟩

theorem isRadixDigit_iff (hradix : radix ≤ 16) :
    isRadixDigit radix c = true ↔ ∃ d, Digit radix c d := by
  rw [isRadixDigit, Option.isSome_iff_exists]
  exact exists_congr fun d ↦ radixDigit?_iff hradix c d

theorem isRadixDigit_ten (c : Char) : isRadixDigit 10 c = isDigit c := by
  rw [isRadixDigit, radixDigit?_ten]
  cases isDigit c <;> rfl

theorem Digit.ne {b : Char} (h : Digit radix c d) (hb : radixDigit? 16 b = none) : c ≠ b := by
  rintro rfl
  rw [Literal.radixDigit?_eq_some.2 h.2] at hb
  cases hb

theorem Digit.ne_separator (h : Digit radix c d) : c ≠ '_' := h.ne (by decide)

theorem digit_ten : Digit 10 c d ↔ isDigit c = true ∧ digitValue c = d := by
  rw [← radixDigit?_iff (by omega), radixDigit?_ten]
  split <;> simp_all

theorem foldl_eq_value (radix : ℕ) (ds : List ℕ) : ds.foldl (radix * · + ·) 0 = value radix ds := by
  rw [value, Nat.ofDigits_eq_foldr, List.foldr_reverse]
  simp only [Nat.cast_id, Nat.add_comm]

theorem value_append (ds es : List ℕ) :
    value radix (ds ++ es) = value radix ds * radix ^ es.length + value radix es := by
  rw [value, List.reverse_append, Nat.ofDigits_append, List.length_reverse, Nat.mul_comm,
    Nat.add_comm]
  rfl

theorem Grouped.exists_head (h : Grouped radix cs ds) :
    ∃ c d rest, cs = c :: rest ∧ Digit radix c d := by
  cases h with
  | last hd => exact ⟨_, _, _, rfl, hd⟩
  | next hd _ => exact ⟨_, _, _, rfl, hd⟩
  | separated hd _ => exact ⟨_, _, _, rfl, hd⟩

theorem not_grouped_separator : ¬Grouped radix ('_' :: cs) ds := by
  intro h
  obtain ⟨c, d, rest, heq, hd⟩ := h.exists_head
  exact hd.ne_separator (List.cons.inj heq).1.symm

/-- A run of digits and separators that is in order, given whether a digit stands before it. -/
def Continues (radix : ℕ) (afterDigit : Bool) (run : List Char) : Prop :=
  run = [] ∨ (∃ ds, Grouped radix run ds) ∨
    afterDigit = true ∧ ∃ tail ds, run = '_' :: tail ∧ Grouped radix tail ds

theorem continues_separator {afterDigit : Bool} :
    Continues radix afterDigit ('_' :: cs) ↔ afterDigit = true ∧ ∃ ds, Grouped radix cs ds := by
  constructor
  · rintro (h | ⟨ds, h⟩ | ⟨hafter, tail, ds, heq, h⟩)
    · cases h
    · exact absurd h not_grouped_separator
    · cases heq
      exact ⟨hafter, ds, h⟩
  · rintro ⟨hafter, ds, h⟩
    exact .inr (.inr ⟨hafter, cs, ds, rfl, h⟩)

theorem continues_digit {afterDigit : Bool} (hd : Digit radix c d) :
    Continues radix afterDigit (c :: cs) ↔ Continues radix true cs := by
  constructor
  · rintro (h | ⟨ds, h⟩ | ⟨-, tail, ds, heq, h⟩)
    · cases h
    · cases h with
      | last => exact .inl rfl
      | next _ h => exact .inr (.inl ⟨_, h⟩)
      | separated _ h => exact .inr (.inr ⟨rfl, _, _, rfl, h⟩)
    · exact absurd (List.cons.inj heq).1 hd.ne_separator
  · rintro (rfl | ⟨ds, h⟩ | ⟨-, tail, ds, rfl, h⟩)
    · exact .inr (.inl ⟨_, .last hd⟩)
    · exact .inr (.inl ⟨_, .next hd h⟩)
    · exact .inr (.inl ⟨_, .separated hd h⟩)

theorem continues_start : Continues radix false cs ↔ cs = [] ∨ ∃ ds, Grouped radix cs ds := by
  simp [Continues]

theorem head_isRadixDigit (hradix : radix ≤ 16) :
    cs.head?.any (isRadixDigit radix) = true ∧ Continues radix false (cs.takeWhile (isBody radix)) ↔
      ∃ ds, Grouped radix (cs.takeWhile (isBody radix)) ds := by
  rw [continues_start]
  constructor
  · rintro ⟨hhead, hnil | h⟩
    · cases cs with
      | nil => cases hhead
      | cons c cs =>
        have hdigit : isRadixDigit radix c = true := hhead
        simp [isBody, hdigit] at hnil
    · exact h
  · rintro ⟨ds, h⟩
    refine ⟨?_, .inr ⟨ds, h⟩⟩
    obtain ⟨c, d, rest, heq, hd⟩ := h.exists_head
    cases cs with
    | nil => cases heq
    | cons c' cs =>
      rw [List.takeWhile_cons] at heq
      split at heq
      · obtain ⟨rfl, -⟩ := List.cons.inj heq
        exact (isRadixDigit_iff hradix).2 ⟨d, hd⟩
      · cases heq

theorem separatorsOk_run (hradix : radix ≤ 16) (afterDigit : Bool) (cs : List Char) :
    Literal.separatorsOk radix afterDigit cs = true ↔
      Continues radix afterDigit (cs.takeWhile (isBody radix)) ∧
        Literal.separatorsOk radix false (cs.dropWhile (isBody radix)) = true := by
  fun_induction Literal.separatorsOk radix afterDigit cs with
  | case1 => simp [Literal.separatorsOk, Continues]
  | case2 afterDigit cs ih =>
    have hbody : isBody radix '_' = true := by simp [isBody]
    rw [List.takeWhile_cons, List.dropWhile_cons, if_pos hbody, if_pos hbody, continues_separator,
      Bool.and_eq_true, Bool.and_eq_true, ih, ← head_isRadixDigit hradix]
    tauto
  | case3 afterDigit c cs hc ih =>
    rw [List.takeWhile_cons, List.dropWhile_cons]
    cases hdigit : isRadixDigit radix c with
    | false =>
      have hbody : isBody radix c = false := by simp [isBody, hdigit, hc]
      simp [hbody, Literal.separatorsOk, hc, hdigit, Continues]
    | true =>
      have hbody : isBody radix c = true := by simp [isBody, hdigit]
      obtain ⟨d, hd⟩ := (isRadixDigit_iff hradix).1 hdigit
      rw [hdigit] at ih
      rw [if_pos hbody, if_pos hbody, continues_digit hd, ih]

theorem Grouped.all_isBody (hradix : radix ≤ 16) (h : Grouped radix cs ds) :
    cs.all (isBody radix) = true := by
  have hdigit : ∀ {c d}, Digit radix c d → isBody radix c = true := by
    intro c d hd
    rw [isBody, (isRadixDigit_iff hradix).2 ⟨d, hd⟩]
    rfl
  have hseparator : isBody radix '_' = true := by simp [isBody]
  induction h with
  | last hd => simp [hdigit hd]
  | next hd _ ih => rw [List.all_cons, hdigit hd, ih]; rfl
  | separated hd _ ih => rw [List.all_cons, List.all_cons, hdigit hd, hseparator, ih]; rfl

theorem dropWhile_append_of_stop {p : Char → Bool} (hcs : cs.all p = true)
    (hrest : ∀ c ∈ rest.head?, p c = false) : (cs ++ rest).dropWhile p = rest := by
  have hsplit := List.takeWhile_append_dropWhile (p := p) (l := cs ++ rest)
  rw [takeWhile_append_of_stop hcs hrest] at hsplit
  exact List.append_cancel_left hsplit

theorem separatorsOk_append (hradix : radix ≤ 16) (h : Grouped radix cs ds)
    (hrest : ∀ c ∈ rest.head?, isBody radix c = false) :
    Literal.separatorsOk radix false (cs ++ rest) = Literal.separatorsOk radix false rest := by
  have hall := h.all_isBody hradix
  have hrun := separatorsOk_run hradix false (cs ++ rest)
  rw [takeWhile_append_of_stop hall hrest, dropWhile_append_of_stop hall hrest, continues_start,
    and_iff_right (.inr ⟨ds, h⟩)] at hrun
  exact Bool.eq_iff_iff.2 hrun

theorem Grouped.separatorsOk (hradix : radix ≤ 16) (h : Grouped radix cs ds) :
    Literal.separatorsOk radix false cs = true := by
  have hnil : ∀ c ∈ ([] : List Char).head?, isBody radix c = false := by simp
  have happend := separatorsOk_append hradix h hnil
  rwa [List.append_nil] at happend

theorem head_ne_separator (h : Literal.separatorsOk radix false cs = true) :
    cs.head? ≠ some '_' := by
  cases cs with
  | nil => simp
  | cons c cs =>
    intro heq
    obtain rfl := Option.some.inj heq
    simp [Literal.separatorsOk] at h

def bare (cs : List Char) : List Char := cs.filter (· ≠ '_')

theorem bare_append (cs rest : List Char) : bare (cs ++ rest) = bare cs ++ bare rest :=
  List.filter_append ..

theorem bare_cons (hc : c ≠ '_') (cs : List Char) : bare (c :: cs) = c :: bare cs := by
  simp [bare, hc]

theorem Grouped.digits (h : Grouped radix cs ds) : List.Forall₂ (Digit radix) (bare cs) ds := by
  induction h with
  | last hd =>
    rw [bare_cons hd.ne_separator]
    exact .cons hd .nil
  | next hd _ ih =>
    rw [bare_cons hd.ne_separator]
    exact .cons hd ih
  | separated hd _ ih =>
    rw [bare_cons hd.ne_separator]
    exact .cons hd ih

theorem all_isDigit {bs : List Char} (h : List.Forall₂ (Digit 10) bs ds) :
    bs.all isDigit = true := by
  induction h with
  | nil => rfl
  | cons hd _ ih => rw [List.all_cons, (digit_ten.1 hd).1, ih]; rfl

theorem digitsValue_eq {bs : List Char} (h : List.Forall₂ (Digit 10) bs ds) (start : ℕ) :
    digitsValue start bs = ds.foldl (10 * · + ·) start := by
  induction h generalizing start with
  | nil => rfl
  | cons hd _ ih =>
    rw [digitsValue, List.foldl_cons, List.foldl_cons, (digit_ten.1 hd).2]
    exact ih _

theorem Grouped.bare_ne_nil (h : Grouped radix cs ds) : bare cs ≠ [] := by
  obtain ⟨c, d, rest, rfl, hd⟩ := h.exists_head
  rw [bare_cons hd.ne_separator]
  exact List.cons_ne_nil _ _

theorem isBody_ten (c : Char) : isBody 10 c = (isDigit c || c == '_') := by
  rw [isBody, isRadixDigit_ten]

theorem grouped_iff (hradix : radix ≤ 16) (hall : cs.all (isBody radix) = true) :
    cs ≠ [] ∧ Literal.separatorsOk radix false cs = true ↔ ∃ ds, Grouped radix cs ds := by
  have hnil : ∀ c ∈ ([] : List Char).head?, isBody radix c = false := by simp
  have hrun := separatorsOk_run hradix false (cs ++ [])
  rw [takeWhile_append_of_stop hall hnil, dropWhile_append_of_stop hall hnil, List.append_nil,
    continues_start, Literal.separatorsOk, and_iff_left rfl] at hrun
  rw [hrun]
  constructor
  · rintro ⟨hne, rfl | h⟩
    · exact absurd rfl hne
    · exact h
  · rintro ⟨ds, h⟩
    refine ⟨?_, .inr ⟨ds, h⟩⟩
    rintro rfl
    cases h

def Digits (radix : ℕ) (cs : List Char) (ds : List ℕ) : Prop :=
  cs ≠ [] ∧ List.Forall₂ (Digit radix) cs ds

theorem bare_of_not_mem (h : '_' ∉ cs) : bare cs = cs := by
  refine List.filter_eq_self.2 ?_
  intro c hc
  refine decide_eq_true ?_
  rintro rfl
  exact h hc

theorem separatorsOk_of_not_mem (h : '_' ∉ cs) (afterDigit : Bool) :
    Literal.separatorsOk radix afterDigit cs = true := by
  induction cs generalizing afterDigit with
  | nil => rfl
  | cons c cs ih =>
    rw [List.mem_cons, not_or] at h
    rw [Literal.separatorsOk, if_neg (Ne.symm h.1)]
    exact ih h.2 _

theorem digits_iff : Digits radix cs ds ↔ Grouped radix cs ds ∧ '_' ∉ cs := by
  constructor
  · rintro ⟨hne, h⟩
    induction h with
    | nil => exact absurd rfl hne
    | @cons c d cs ds hd htail ih =>
      cases htail with
      | nil => exact ⟨.last hd, by simpa using hd.ne_separator.symm⟩
      | cons hd' htail =>
        obtain ⟨hgrouped, hnone⟩ := ih (List.cons_ne_nil _ _)
        exact ⟨.next hd hgrouped, List.not_mem_cons_of_ne_of_not_mem hd.ne_separator.symm hnone⟩
  · rintro ⟨h, hnone⟩
    have hdigits := h.digits
    have hne := h.bare_ne_nil
    rw [bare_of_not_mem hnone] at hdigits hne
    exact ⟨hne, hdigits⟩

theorem radixDigits?_iff (hradix : radix ≤ 16) (hne : cs ≠ []) {n : ℕ} :
    radixDigits? radix 0 cs = some n ↔ ∃ ds, Digits radix cs ds ∧ n = value radix ds := by
  rw [Literal.radixDigits?_iff (radixDigit?_iff hradix)]
  simp only [foldl_eq_value, Digits, hne, ne_eq, not_false_eq_true, true_and]

theorem radixNumber?_iff (hradix : radix ≤ 16) {n : ℕ} :
    radixNumber? radix cs = some n ↔ ∃ plus ∈ [[], ['+']], ∃ digits ds, cs = plus ++ digits ∧
      Digits radix digits ds ∧ n = value radix ds := by
  constructor
  · intro h
    unfold radixNumber? at h
    split at h
    · cases h
    · cases h
    · next digits hne =>
      obtain ⟨ds, hds, hn⟩ := (radixDigits?_iff hradix (by simpa using hne)).1 h
      exact ⟨['+'], by decide, digits, ds, rfl, hds, hn⟩
    · next hne _ _ =>
      obtain ⟨ds, hds, hn⟩ := (radixDigits?_iff hradix hne).1 h
      exact ⟨[], by decide, cs, ds, rfl, hds, hn⟩
  · rintro ⟨plus, hplus, digits, ds, rfl, hds, hn⟩
    have hread := (radixDigits?_iff hradix hds.1).2 ⟨ds, hds, hn⟩
    simp only [List.mem_cons, List.not_mem_nil, or_false] at hplus
    obtain ⟨c, d, rest, rfl, hd⟩ := (digits_iff.1 hds).1.exists_head
    have hc : c ≠ '+' := hd.ne (by decide)
    rcases hplus with rfl | rfl
    · unfold radixNumber?
      split <;> simp_all
    · exact hread

end Numeral

end Transclude
