import Transclude.Condition.Token
import Transclude.Result
import Transclude.Proofs.Text.Name
import Transclude.Proofs.Text.Span

namespace Transclude

open Text

def Stops (rest : List Char) : Prop := ∀ c ∈ rest.head?, isNamePart c = false ∧ c ≠ '.'

theorem stops_nil : Stops [] := by
  simp [Stops]

theorem stops_cons {c : Char} (h : isNamePart c = false ∧ c ≠ '.') (rest : List Char) :
    Stops (c :: rest) := by
  simpa [Stops] using h

theorem takeWhile_append_of_stop {p : Char → Bool} {cs rest : List Char} (hcs : cs.all p = true)
    (hrest : ∀ c ∈ rest.head?, p c = false) : (cs ++ rest).takeWhile p = cs := by
  rw [List.takeWhile_append_of_pos (List.all_eq_true.1 hcs)]
  cases rest with
  | nil => simp
  | cons c rest => simp [hrest c rfl]

theorem Stops.takeWhile_append {rest : List Char} (h : Stops rest) {p : Char → Bool}
    (hp : ∀ c, p c = true → isNamePart c = true) {cs : List Char} (hcs : cs.all p = true) :
    (cs ++ rest).takeWhile p = cs := by
  refine takeWhile_append_of_stop hcs fun c hc ↦ ?_
  cases hpc : p c with
  | false => rfl
  | true => exact absurd (hp c hpc) (by simp [(h c hc).1])

theorem Stops.not_isNameStart {rest : List Char} (h : Stops rest) :
    rest.head?.any isNameStart = false := by
  cases rest with
  | nil => rfl
  | cons c rest =>
    cases hc : isNameStart c with
    | false => simpa using hc
    | true => exact absurd (isNamePart_of_isNameStart hc) (by simp [(h c rfl).1])

theorem take_length_takeWhile (p : Char → Bool) (cs : List Char) :
    cs.take (cs.takeWhile p).length = cs.takeWhile p :=
  (List.prefix_iff_eq_take.1 (List.takeWhile_prefix p)).symm

namespace Decimal

/-- An exponent mark, which only digits can make part of a numeral. -/
def IsMark (c : Char) : Prop := c = 'e' ∨ c = 'E'

variable {mark : Char}

theorem IsMark.not_isDigit (h : IsMark mark) : isDigit mark = false := by
  rcases h with rfl | rfl <;> decide

theorem exponentValue_of_mark (h : IsMark mark) {ds : List Char} (hlast : ds.getLast? = some mark) :
    exponent?.value ds = none := by
  have hall : ds.all isDigit = false := by
    rw [List.all_eq_false]
    exact ⟨mark, List.mem_of_getLast? hlast, by simp [h.not_isDigit]⟩
  simp [exponent?.value, hall]

theorem getLast?_tail {c d : Char} {cs : List Char} (h : (c :: cs).getLast? = some d)
    (hne : c ≠ d) : cs.getLast? = some d := by
  cases cs with
  | nil => simp [hne] at h
  | cons e cs => rwa [List.getLast?_cons_cons] at h

theorem exponent?_of_mark (h : IsMark mark) {cs : List Char} (hlast : cs.getLast? = some mark) :
    exponent? cs = none := by
  have hsign : ∀ sign ds, sign ≠ mark → (sign :: ds).getLast? = some mark →
      exponent?.value ds = none :=
    fun sign ds hne hds ↦ exponentValue_of_mark h (getLast?_tail hds hne)
  unfold exponent?
  split
  · cases hlast
  · next c cs =>
    split
    · cases cs with
      | nil => rfl
      | cons d ds =>
        rw [List.getLast?_cons_cons] at hlast
        split
        · next heq =>
          cases heq
          rw [hsign _ _ (by rcases h with rfl | rfl <;> decide) hlast]
          rfl
        · next heq =>
          cases heq
          rw [hsign _ _ (by rcases h with rfl | rfl <;> decide) hlast]
          rfl
        · rw [exponentValue_of_mark h hlast]
          rfl
    · rfl

theorem getLast?_dropWhile (h : IsMark mark) {cs : List Char} (hlast : cs.getLast? = some mark) :
    (cs.dropWhile isDigit).getLast? = some mark := by
  induction cs with
  | nil => cases hlast
  | cons c cs ih =>
    rw [List.dropWhile_cons]
    split
    · next hc =>
      refine ih (getLast?_tail hlast ?_)
      rintro rfl
      rw [h.not_isDigit] at hc
      cases hc
    · exact hlast

theorem parse?_of_mark (h : IsMark mark) {cs : List Char} (hlast : cs.getLast? = some mark) :
    parse? cs = none := by
  have hafter := getLast?_dropWhile h hlast
  have hpoint : '.' ≠ mark := by rcases h with rfl | rfl <;> decide
  unfold parse?
  dsimp only
  split
  · next ds hds =>
    rw [hds] at hafter
    rw [exponent?_of_mark h (getLast?_dropWhile h (getLast?_tail hafter hpoint))]
    split <;> rfl
  · rw [exponent?_of_mark h hafter]
    split <;> rfl

end Decimal

theorem Double.ofDecimal?_of_mark {mark : Char} (h : Decimal.IsMark mark) {cs : List Char}
    (hlast : cs.getLast? = some mark) : ofDecimal? cs = none := by
  have hsign : ∀ sign ds, sign ≠ mark → (sign :: ds).getLast? = some mark →
      Decimal.parse? ds = none :=
    fun sign ds hne hlast ↦ Decimal.parse?_of_mark h (Decimal.getLast?_tail hlast hne)
  unfold ofDecimal?
  split
  · rw [hsign _ _ (by rcases h with rfl | rfl <;> decide) hlast]
    rfl
  · rw [hsign _ _ (by rcases h with rfl | rfl <;> decide) hlast]
    rfl
  · rw [Decimal.parse?_of_mark h hlast]
    rfl

namespace Literal

variable {c : Char} {cs rest : List Char}

theorem decimalValue?_last {raw : List Char} {x : Double} (h : decimalValue? raw = some x)
    {mark : Char} (hlast : raw.getLast? = some mark) : ¬Decimal.IsMark mark := by
  intro hmark
  obtain ⟨before, rfl⟩ := List.getLast?_eq_some_iff.1 hlast
  have hkept : (mark ≠ '_') := by rcases hmark with rfl | rfl <;> decide
  unfold decimalValue? at h
  split at h
  · rw [Double.ofDecimal?_of_mark hmark (by simp [hkept])] at h
    cases h
  · cases h

theorem decimalRun_of_stops (hstop : Stops rest) (marked : Bool) :
    decimalRun marked false rest = 0 := by
  cases rest with
  | nil => rfl
  | cons d ds =>
    obtain ⟨hpart, hpoint⟩ := hstop d rfl
    have hdigit : isDigit d = false := by
      cases hd : isDigit d with
      | false => rfl
      | true => exact absurd (isNamePart_of_isDigit hd) (by simp [hpart])
    have hne : ∀ x, isNamePart x = true → d ≠ x := by
      rintro x hx rfl
      rw [hpart] at hx
      cases hx
    have hunderscore := hne '_' (by decide)
    have hlower := hne 'e' (by decide)
    have hupper := hne 'E' (by decide)
    simp [decimalRun, *]

theorem decimalRun_end (hstop : Stops rest) {marked afterMark : Bool}
    (hafter : afterMark = true → Decimal.IsMark c)
    (hlast : ∀ d, [c].getLast? = some d → ¬Decimal.IsMark d) :
    decimalRun marked afterMark rest = 0 := by
  cases afterMark with
  | false => exact decimalRun_of_stops hstop _
  | true => exact absurd (hafter rfl) (hlast c rfl)

theorem decimalRun_cases (marked afterMark : Bool) (d : Char) :
    (∀ xs, decimalRun marked afterMark (d :: xs) = 0) ∨
    ∃ marked' afterMark', (afterMark' = true → Decimal.IsMark d) ∧
      ∀ xs, decimalRun marked afterMark (d :: xs) = decimalRun marked' afterMark' xs + 1 := by
  simp only [decimalRun]
  by_cases hplain : (isDigit d || d == '.' || d == '_') = true
  · exact .inr ⟨marked, false, by simp, by simp [hplain]⟩
  · by_cases hmark : (!marked && (d == 'e' || d == 'E')) = true
    · have hd : Decimal.IsMark d := by
        rw [Bool.and_eq_true, Bool.or_eq_true, beq_iff_eq, beq_iff_eq] at hmark
        exact hmark.2
      exact .inr ⟨true, true, fun _ ↦ hd, fun xs ↦ by rw [if_neg hplain, if_pos hmark]⟩
    · by_cases hsign : (afterMark && (d == '+' || d == '-')) = true
      · exact .inr ⟨marked, false, by simp, fun xs ↦ by
          rw [if_neg hplain, if_neg hmark, if_pos hsign]⟩
      · exact .inl fun xs ↦ by rw [if_neg hplain, if_neg hmark, if_neg hsign]

/-- The run of a decimal literal that does not end in an exponent mark. `c` is the character before
the run, and only after a mark can a sign continue it. -/
theorem decimalRun_append (hstop : Stops rest) {marked afterMark : Bool}
    (hafter : afterMark = true → Decimal.IsMark c)
    (hlast : ∀ d, (c :: cs.take (decimalRun marked afterMark cs)).getLast? = some d →
      ¬Decimal.IsMark d) :
    decimalRun marked afterMark (cs.take (decimalRun marked afterMark cs) ++ rest) =
      decimalRun marked afterMark cs := by
  induction cs generalizing c marked afterMark with
  | nil => exact decimalRun_end hstop hafter hlast
  | cons d ds ih =>
    rcases decimalRun_cases marked afterMark d with hend | ⟨marked', afterMark', hd, hn⟩
    · rw [hend, List.take_zero] at hlast ⊢
      exact decimalRun_end hstop hafter hlast
    · rw [hn, List.take_succ_cons] at hlast ⊢
      rw [List.getLast?_cons_cons] at hlast
      rw [List.cons_append, hn, ih hd hlast]

theorem decimalRun_le (marked afterMark : Bool) (cs : List Char) :
    decimalRun marked afterMark cs ≤ cs.length := by
  induction cs generalizing marked afterMark with
  | nil => exact Nat.le_refl 0
  | cons d ds ih =>
    rcases decimalRun_cases marked afterMark d with hend | ⟨marked', afterMark', -, hn⟩
    · rw [hend]
      exact Nat.zero_le _
    · rw [hn, List.length_cons]
      exact Nat.succ_le_succ (ih _ _)

theorem radix?_eq_some {radix : Nat} (h : radix? c cs = some radix) :
    ∃ mark ds, c = '0' ∧ cs = mark :: ds ∧ ∀ xs, radix? c (mark :: xs) = some radix := by
  unfold radix? at h
  split at h
  · next mark ds => exact ⟨mark, ds, rfl, rfl, fun _ ↦ h⟩
  · cases h

theorem isNamePart_of_radixOfMark? {mark : Char} {radix : Nat}
    (h : radixOfMark? mark = some radix) : isNamePart mark = true := by
  unfold radixOfMark? at h
  split at h
  all_goals first | decide | cases h

/-- A character of one byte that is no blank, as all those of a number are. -/
def Plain (d : Char) : Prop := d.toNat < 0x80 ∧ isBlank d = false

theorem plain_of_isRadixDigit {radix : Nat} {d : Char} (h : isRadixDigit radix d = true) :
    Plain d :=
  ⟨toNat_lt_of_isRadixDigit h, isBlank_of_isNamePart (isNamePart_of_isRadixDigit h)⟩

theorem plain_of_isDigit {d : Char} (h : isDigit d = true) : Plain d := by
  have hle := (isDigit_iff.1 h).2
  exact ⟨by omega, isBlank_of_isNamePart (isNamePart_of_isDigit h)⟩

theorem plain_of_mem {d : Char}
    (h : d ∈ ['.', '_', 'e', 'E', '+', '-', 'x', 'X', 'o', 'O', 'b', 'B']) : Plain d := by
  have hall : ['.', '_', 'e', 'E', '+', '-', 'x', 'X', 'o', 'O', 'b', 'B'].all (fun d ↦
      decide (d.toNat < 0x80 ∧ isBlank d = false)) = true := by
    decide
  have hd : d.toNat < 0x80 ∧ isBlank d = false :=
    of_decide_eq_true (List.all_eq_true.1 hall d h)
  exact hd

theorem plain_of_mem_decimalRun {marked afterMark : Bool} :
    ∀ d ∈ cs.take (decimalRun marked afterMark cs), Plain d := by
  fun_induction decimalRun marked afterMark cs with
  | case1 => exact fun d hd ↦ absurd hd (by simp)
  | case2 marked afterMark c cs hplain ih =>
    rw [List.take_succ_cons, List.forall_mem_cons]
    refine ⟨?_, ih⟩
    simp only [Bool.or_eq_true, beq_iff_eq] at hplain
    rcases hplain with (hdigit | rfl) | rfl
    · exact plain_of_isDigit hdigit
    · exact plain_of_mem (by decide)
    · exact plain_of_mem (by decide)
  | case3 marked afterMark c cs _ hmark ih =>
    rw [List.take_succ_cons, List.forall_mem_cons]
    refine ⟨?_, ih⟩
    simp only [Bool.and_eq_true, Bool.or_eq_true, beq_iff_eq] at hmark
    rcases hmark.2 with rfl | rfl <;> exact plain_of_mem (by decide)
  | case4 marked afterMark c cs _ _ hsign ih =>
    rw [List.take_succ_cons, List.forall_mem_cons]
    refine ⟨?_, ih⟩
    simp only [Bool.and_eq_true, Bool.or_eq_true, beq_iff_eq] at hsign
    rcases hsign.2 with rfl | rfl <;> exact plain_of_mem (by decide)
  | case5 => exact fun d hd ↦ absurd hd (by simp)

theorem Plain.utf8Size_eq (h : Plain c) : c.utf8Size = 1 :=
  Char.utf8Size_eq_one_iff.2 (Nat.le_of_lt_succ h.1)

theorem plain_of_radixOfMark? {mark : Char} {radix : Nat} (h : radixOfMark? mark = some radix) :
    Plain mark := by
  unfold radixOfMark? at h
  split at h
  · exact plain_of_mem (by decide)
  · exact plain_of_mem (by decide)
  · exact plain_of_mem (by decide)
  · exact plain_of_mem (by decide)
  · exact plain_of_mem (by decide)
  · exact plain_of_mem (by decide)
  · cases h

theorem sliceFrom_mark {mark : Char} (h : mark.utf8Size = 1) (ds : List Char) :
    sliceFrom 2 ('0' :: mark :: ds) = ds := by
  have hsize : size ['0', mark] = 2 := by
    rw [size_cons, size_cons, h]
    rfl
  have hslice := sliceFrom_append ['0', mark] ds
  rwa [hsize] at hslice

theorem numberRun_of_none (h : radix? c cs = none) :
    numberRun c cs = decimalRun false false cs := by
  rw [numberRun, h]

theorem numberRun_of_some {radix : Nat} (h : radix? c cs = some radix) :
    numberRun c cs =
      1 + ((cs.drop 1).takeWhile fun d ↦ isRadixDigit radix d || d == '_').length := by
  rw [numberRun, h]
  obtain ⟨mark, ds, rfl, rfl, hmark⟩ := radix?_eq_some h
  dsimp only
  rw [sliceFrom_mark (plain_of_radixOfMark? (hmark [])).utf8Size_eq]
  rfl

theorem plain_of_mem_numberRun : ∀ d ∈ cs.take (numberRun c cs), Plain d := by
  cases hr : radix? c cs with
  | none =>
    rw [numberRun_of_none hr]
    exact plain_of_mem_decimalRun
  | some radix =>
    rw [numberRun_of_some hr]
    obtain ⟨mark, ds, rfl, rfl, hmark⟩ := radix?_eq_some hr
    rw [Nat.add_comm, List.take_succ_cons, List.drop_succ_cons, List.drop_zero,
      take_length_takeWhile, List.forall_mem_cons]
    refine ⟨plain_of_radixOfMark? (hmark []), ?_⟩
    intro d hd
    have hpart := List.all_eq_true.1 List.all_takeWhile d hd
    rcases Bool.or_eq_true_iff.1 hpart with hdigit | hseparator
    · exact plain_of_isRadixDigit hdigit
    · rw [beq_iff_eq.1 hseparator]
      exact plain_of_mem (by decide)

theorem size_of_plain {ds : List Char} (h : ∀ d ∈ ds, Plain d) : size ds = ds.length :=
  size_eq_length fun d hd ↦ (h d hd).1

theorem numberRun_le (c : Char) (cs : List Char) : numberRun c cs ≤ cs.length := by
  cases hr : radix? c cs with
  | none =>
    rw [numberRun_of_none hr]
    exact decimalRun_le _ _ cs
  | some radix =>
    rw [numberRun_of_some hr]
    obtain ⟨mark, ds, rfl, rfl, -⟩ := radix?_eq_some hr
    have hle :=
      (List.takeWhile_prefix (fun d ↦ isRadixDigit radix d || d == '_') (l := ds)).length_le
    rw [List.drop_succ_cons, List.drop_zero, List.length_cons]
    omega

theorem size_take_numberRun (c : Char) (cs : List Char) :
    size (cs.take (numberRun c cs)) = numberRun c cs := by
  rw [size_of_plain plain_of_mem_numberRun, List.length_take, Nat.min_eq_left (numberRun_le c cs)]

theorem size_literal (h : Plain c) :
    size (c :: cs.take (numberRun c cs)) = numberRun c cs + 1 := by
  rw [size_cons, size_take_numberRun, h.utf8Size_eq, Nat.add_comm]

theorem readNumber_eq (c : Char) (cs : List Char) :
    readNumber c cs =
      if (cs.drop (numberRun c cs)).head?.any isNameStart then
        .error (.invalidNumber (String.ofList (c :: cs.take (numberRun c cs) ++
          (cs.drop (numberRun c cs)).takeWhile isNamePart)))
      else
        (numberValue? (radix? c cs) (c :: cs.take (numberRun c cs))).elim
          (.error (.invalidNumber (String.ofList (c :: cs.take (numberRun c cs)))))
          fun x ↦ .ok (x, numberRun c cs) := by
  have htext : c :: cs.take (numberRun c cs) ++ cs.drop (numberRun c cs) = c :: cs := by
    rw [List.cons_append, List.take_append_drop]
  have hstop : size (c :: cs.take (numberRun c cs)) = c.utf8Size + numberRun c cs := by
    rw [size_cons, size_take_numberRun]
  have hraw := sliceChars_zero_append (c :: cs.take (numberRun c cs)) (cs.drop (numberRun c cs))
  have hrest := sliceFrom_append (c :: cs.take (numberRun c cs)) (cs.drop (numberRun c cs))
  rw [htext, hstop] at hraw hrest
  have hglued := sliceChars_zero_append
    (c :: cs.take (numberRun c cs) ++ (cs.drop (numberRun c cs)).takeWhile isNamePart)
    ((cs.drop (numberRun c cs)).dropWhile isNamePart)
  rw [size_append, hstop, List.append_assoc, List.takeWhile_append_dropWhile, htext] at hglued
  unfold readNumber
  dsimp only
  rw [hraw, hrest, hglued]
  cases numberValue? (radix? c cs) (c :: cs.take (numberRun c cs)) <;> rfl

theorem readNumber_ok {x : Double} {n : Nat} :
    readNumber c cs = .ok (x, n) ↔
      n = numberRun c cs ∧ (cs.drop n).head?.any isNameStart = false ∧
        numberValue? (radix? c cs) (c :: cs.take n) = some x := by
  rw [readNumber_eq]
  constructor
  · intro h
    split at h
    · cases h
    · next hglued =>
      cases hy : numberValue? (radix? c cs) (c :: cs.take (numberRun c cs)) with
      | none =>
        rw [hy] at h
        cases h
      | some y =>
        rw [hy] at h
        cases h
        exact ⟨rfl, by simpa using hglued, hy⟩
  · rintro ⟨rfl, hglued, hx⟩
    rw [hglued, hx]
    rfl

theorem radix?_append_of_none (hstop : Stops rest) (h : radix? c cs = none) (n : Nat) :
    radix? c (cs.take n ++ rest) = none := by
  cases hr : radix? c (cs.take n ++ rest) with
  | none => rfl
  | some radix =>
    obtain ⟨mark, ds, rfl, hds, hmark⟩ := radix?_eq_some hr
    have hmark : radixOfMark? mark = some radix := hmark []
    cases hcs : cs.take n with
    | nil =>
      rw [hcs, List.nil_append] at hds
      subst hds
      exact absurd (isNamePart_of_radixOfMark? hmark) (by simp [(hstop mark rfl).1])
    | cons d taken =>
      obtain ⟨xs, hxs⟩ := List.take_prefix n cs
      rw [hcs] at hds hxs
      cases hds
      subst hxs
      exact absurd h (by rw [List.cons_append, radix?, hmark]; simp)

theorem numberRun_append_radix (hstop : Stops rest) {radix : Nat} (h : radix? c cs = some radix) :
    radix? c (cs.take (numberRun c cs) ++ rest) = some radix ∧
      numberRun c (cs.take (numberRun c cs) ++ rest) = numberRun c cs := by
  obtain ⟨mark, ds, rfl, rfl, hmark⟩ := radix?_eq_some h
  let isBody : Char → Bool := fun d ↦ isRadixDigit radix d || d == '_'
  have hpart : ∀ d, isBody d = true → isNamePart d = true := by
    intro d hd
    rcases Bool.or_eq_true_iff.1 hd with hd | hd
    · exact isNamePart_of_isRadixDigit hd
    · rw [beq_iff_eq.1 hd]
      decide
  have hrun : ∀ xs, numberRun '0' (mark :: xs) = 1 + (xs.takeWhile isBody).length := by
    intro xs
    rw [numberRun_of_some (hmark xs)]
    rfl
  have htake : (mark :: ds).take (numberRun '0' (mark :: ds)) = mark :: ds.takeWhile isBody := by
    rw [hrun, Nat.add_comm, List.take_succ_cons, take_length_takeWhile]
  rw [htake, List.cons_append, hmark, hrun, hrun, hstop.takeWhile_append hpart List.all_takeWhile]
  exact ⟨rfl, rfl⟩

theorem readNumber_append (hstop : Stops rest) {x : Double} {n : Nat}
    (h : readNumber c cs = .ok (x, n)) :
    n ≤ cs.length ∧ readNumber c (cs.take n ++ rest) = .ok (x, n) := by
  obtain ⟨rfl, -, hx⟩ := readNumber_ok.1 h
  -- What is read again has the same radix and runs up to the same place.
  obtain ⟨hradix, hrun⟩ : radix? c (cs.take (numberRun c cs) ++ rest) = radix? c cs ∧
      numberRun c (cs.take (numberRun c cs) ++ rest) = numberRun c cs := by
    cases hr : radix? c cs with
    | some radix => exact numberRun_append_radix hstop hr
    | none =>
      have hnone := radix?_append_of_none hstop hr (numberRun c cs)
      refine ⟨hnone, ?_⟩
      rw [numberRun_of_none hnone]
      rw [hr, numberRun_of_none hr] at hx
      rw [numberRun_of_none hr]
      exact decimalRun_append hstop (by simp) fun d hd ↦ decimalValue?_last hx hd
  have hlength : (cs.take (numberRun c cs)).length = numberRun c cs := by
    rw [List.length_take, Nat.min_eq_left (numberRun_le c cs)]
  refine ⟨numberRun_le c cs, readNumber_ok.2 ⟨hrun.symm, ?_, ?_⟩⟩
  · rw [List.drop_left' hlength]
    exact hstop.not_isNameStart
  · rw [List.take_left' hlength, hradix]
    exact hx

end Literal

end Transclude
