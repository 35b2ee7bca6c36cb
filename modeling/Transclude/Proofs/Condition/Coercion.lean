import Transclude.Condition.Value
import Transclude.Proofs.Condition.Number

namespace Transclude.Numeral

open Text Literal

def IsNatural (radix : ℕ) (body : List Char) (n : ℕ) : Prop :=
  ∃ ds, Digits radix body ds ∧ n = value radix ds

def IsWord (radix : ℕ) (body : List Char) (n : ℕ) : Prop :=
  (∃ plus ∈ [[], ['+']], ∃ digits, body = plus ++ digits ∧ IsNatural radix digits n) ∧ n < 2 ^ 64

/-- A text that denotes a number, with the double nearest to it. `R` says which texts denote a
natural in a radix other than ten. -/
inductive Reads (R : ℕ → List Char → ℕ → Prop) : List Char → Double → Prop
  | nothing : Reads R [] .zero
  | infinity {sign : List Char} {negative : Bool} : IsSign sign negative →
      Reads R (sign ++ "Infinity".toList) (.infinity negative)
  | decimal {sign text : List Char} {negative : Bool} {q : ℚ} {x : Double} :
      IsSign sign negative → Denotes (Digits 10) (Digits 10) text q → x.Rounds negative q →
      Reads R (sign ++ text) x
  | radix {mark : Char} {radix n : ℕ} {body : List Char} {x : Double} : (mark, radix) ∈ marks →
      R radix body n → x.Rounds false n → Reads R ('0' :: mark :: body) x

variable {radix n : ℕ} {c : Char} {cs body : List Char} {ds : List ℕ} {q : ℚ} {x : Double}

theorem denotes_digits_iff :
    Denotes (Digits 10) (Digits 10) cs q ↔
      Denotes (Grouped 10) (Grouped 10) cs q ∧ '_' ∉ cs := by
  constructor
  · intro h
    refine ⟨h.mono (fun _ _ _ _ _ hw ↦ (digits_iff.1 hw).1) fun _ _ _ hf ↦ (digits_iff.1 hf).1, ?_⟩
    have hdigits : ∀ f es, Digits 10 f es → ∀ c ∈ f, c ≠ '_' := by
      rintro f es hf _ hc rfl
      exact (digits_iff.1 hf).2 hc
    have hmarks : ∀ c ∈ ['.', 'e', 'E', '+', '-'], c ≠ '_' := by simp
    intro hmem
    exact h.forall_mem hdigits hdigits hmarks _ hmem rfl
  · rintro ⟨h, hnone⟩
    refine h.mono ?_ ?_
    · rintro w ds rest rfl - hw
      exact digits_iff.2 ⟨hw, fun hc ↦ hnone (List.mem_append_left _ hc)⟩
    · intro f es hf hgrouped
      exact digits_iff.2 ⟨hgrouped, fun hc ↦ hnone (hf.subset hc)⟩

theorem not_mem_of_isDigit (h : cs.all isDigit = true) : '_' ∉ cs := by
  intro hc
  exact absurd (List.all_eq_true.1 h _ hc) (by decide)

theorem not_mem_of_exponent? {e : ℤ} (h : Decimal.exponent? cs = some e) : '_' ∉ cs := by
  cases cs with
  | nil => simp
  | cons mark cs =>
    have hmark := mark_of_exponent? h
    obtain ⟨sign, negative, tail, hsign, rfl, htail⟩ := exists_sign cs
    rw [exponent?_cons hmark hsign htail] at h
    obtain ⟨k, hk, -⟩ := Option.map_eq_some_iff.1 h
    have hdigits : tail.all isDigit = true := by
      unfold Decimal.exponent?.value at hk
      split at hk
      · cases hk
      · next hne => simp_all
    rw [List.mem_cons, List.mem_append]
    rintro (rfl | hmem | hmem)
    · exact mark_ne hmark rfl
    · cases hsign <;> simp at hmem
    · exact not_mem_of_isDigit hdigits hmem

theorem exists_digits (cs : List Char) :
    ∃ w rest, cs = w ++ rest ∧ w.all isDigit = true ∧ ∀ c ∈ rest.head?, isDigit c = false := by
  refine ⟨_, _, List.takeWhile_append_dropWhile.symm, List.all_takeWhile, ?_⟩
  intro c hc
  have hnot := List.head?_dropWhile_not isDigit cs
  rw [Option.mem_def.1 hc] at hnot
  exact hnot

theorem not_mem_of_parse? {d : Decimal} (h : Decimal.parse? cs = some d) : '_' ∉ cs := by
  obtain ⟨w, rest, rfl, hw, hrest⟩ := exists_digits cs
  by_cases hpoint : rest.head? = some '.'
  · obtain ⟨more, rfl⟩ := List.head?_eq_some_iff.1 hpoint
    obtain ⟨f, x, rfl, hf, hx⟩ := exists_digits more
    rw [parse?_pointed hw hf hx] at h
    split at h
    · cases h
    · obtain ⟨e, he, -⟩ := Option.map_eq_some_iff.1 h
      simp [not_mem_of_isDigit hw, not_mem_of_isDigit hf, not_mem_of_exponent? he]
  · have hstop : ∀ c ∈ rest.head?, isDigit c = false ∧ c ≠ '.' := by
      intro c hc
      refine ⟨hrest c hc, ?_⟩
      rintro rfl
      exact hpoint hc
    rw [parse?_whole hw hstop] at h
    split at h
    · cases h
    · obtain ⟨e, he, -⟩ := Option.map_eq_some_iff.1 h
      simp [not_mem_of_isDigit hw, not_mem_of_exponent? he]

theorem parse?_digits_iff {negative : Bool} :
    (Decimal.parse? cs).map (fun d ↦ Double.signed negative d.nearest) = some x ↔
      ∃ q, Denotes (Digits 10) (Digits 10) cs q ∧ x.Rounds negative q := by
  have hiff : '_' ∉ cs →
      ((Decimal.parse? cs).map (fun d ↦ Double.signed negative d.nearest) = some x ↔
        ∃ q, Denotes (Grouped 10) (Grouped 10) cs q ∧ x.Rounds negative q) := by
    intro hnone
    rw [← rounds_iff, bare_of_not_mem hnone, and_iff_right (separatorsOk_of_not_mem hnone _)]
  constructor
  · intro h
    obtain ⟨d, hd, -⟩ := Option.map_eq_some_iff.1 h
    have hnone := not_mem_of_parse? hd
    obtain ⟨q, hq, hx⟩ := (hiff hnone).1 h
    exact ⟨q, denotes_digits_iff.2 ⟨hq, hnone⟩, hx⟩
  · rintro ⟨q, hq, hx⟩
    obtain ⟨hgrouped, hnone⟩ := denotes_digits_iff.1 hq
    exact (hiff hnone).2 ⟨q, hgrouped, hx⟩

theorem isOtherLetter_of_isDecimal (h : isDecimal c = true) : isOtherLetter c = false := by
  rcases isDecimal_cases h with hdigit | rfl | rfl | rfl | rfl | rfl | rfl
  · have hlt : ∀ b : Char, 0x39 < b.toNat → ¬b ≤ c := by
      intro b hb hle
      have hdigit := (isDigit_iff.1 hdigit).2
      have hle : b.toNat ≤ c.toNat := hle
      omega
    simp [isOtherLetter, hlt 'a' (by decide), hlt 'A' (by decide)]
  all_goals decide

theorem radixText?_iff : radixText? cs = some (radix, body) ↔
    ∃ mark, (mark, radix) ∈ marks ∧ cs = '0' :: mark :: body := by
  constructor
  · intro h
    unfold radixText? at h
    split at h
    iterate 6
      · cases h
        exact ⟨_, by decide, rfl⟩
    · cases h
  · rintro ⟨mark, hmark, rfl⟩
    have hall : ∀ m ∈ marks, ∀ body, radixText? ('0' :: m.1 :: body) = some (m.2, body) := by
      simp [marks, radixText?]
    exact hall _ hmark body

theorem radixNumberBelow?_iff (hradix : radix ≤ 16) :
    radixNumberBelow? (Nat.pow 2 64) radix body = some n ↔ IsWord radix body n := by
  rw [radixNumberBelow?, Option.filter_eq_some_iff, radixNumber?_iff hradix, decide_eq_true_eq]
  simp only [IsWord, IsNatural, exists_and_left]
  rfl

theorem ofDecimal?_sign {sign : List Char} {negative : Bool} (hsign : IsSign sign negative)
    (hcs : sign = [] → ∀ c ∈ cs.head?, c ≠ '+' ∧ c ≠ '-') :
    Double.ofDecimal? (sign ++ cs) =
      (Decimal.parse? cs).map fun d ↦ .signed negative d.nearest := by
  cases hsign with
  | absent =>
    apply ofDecimal?_of_unsigned
    · exact fun h ↦ (hcs rfl '+' h).1 rfl
    · exact fun h ↦ (hcs rfl '-' h).2 rfl
  | plus => rfl
  | minus => rfl

theorem ofDecimal?_iff : Double.ofDecimal? cs = some x ↔
    ∃ sign negative text q, IsSign sign negative ∧ cs = sign ++ text ∧
      Denotes (Digits 10) (Digits 10) text q ∧ x.Rounds negative q := by
  constructor
  · intro h
    obtain ⟨sign, negative, text, hsign, rfl, htext⟩ := exists_sign cs
    rw [ofDecimal?_sign hsign htext] at h
    obtain ⟨q, hq, hx⟩ := parse?_digits_iff.1 h
    exact ⟨sign, negative, text, q, hsign, rfl, hq, hx⟩
  · rintro ⟨sign, negative, text, q, hsign, rfl, hq, hx⟩
    rw [ofDecimal?_sign hsign]
    · exact parse?_digits_iff.2 ⟨q, hq, hx⟩
    · intro _ c hc
      obtain ⟨⟨hm, -⟩, -⟩ := denotes_digits_iff.1 hq
      obtain ⟨b, m, rfl, hb⟩ := hm.exists_head
      obtain rfl := Option.some.inj hc
      rcases hb with hdigit | rfl
      · exact ⟨ne_of_isDigit hdigit (by decide), ne_of_isDigit hdigit (by decide)⟩
      · decide

theorem reads_of_numberOfText {s : String} (h : numberOfText s ≠ .nan) :
    Reads IsWord (trimChars s.toList) (numberOfText s) := by
  unfold numberOfText at h ⊢
  dsimp only at h ⊢
  generalize trimChars s.toList = cs at h ⊢
  by_cases hempty : cs.isEmpty = true
  · rw [if_pos hempty, List.isEmpty_iff.1 hempty]
    exact .nothing
  rw [if_neg hempty] at h ⊢
  cases hradix : radixText? cs with
  | some marked =>
    obtain ⟨radix, body⟩ := marked
    rw [hradix] at h
    obtain ⟨mark, hmark, rfl⟩ := radixText?_iff.1 hradix
    dsimp only at h ⊢
    cases hn : radixNumberBelow? (Nat.pow 2 64) radix body with
    | some n =>
      exact .radix hmark ((radixNumberBelow?_iff (radix_le hmark)).1 hn) (Double.rounds_ofNat n)
    | none =>
      rw [hn] at h
      exact absurd rfl h
  | none =>
    rw [hradix] at h
    dsimp only at h ⊢
    by_cases hpositive : cs = "Infinity".toList ∨ cs = "+Infinity".toList
    · rw [if_pos hpositive]
      rcases hpositive with rfl | rfl
      · exact Reads.infinity .absent
      · exact Reads.infinity .plus
    rw [if_neg hpositive] at h ⊢
    by_cases hnegative : cs = "-Infinity".toList
    · rw [if_pos hnegative, hnegative]
      exact Reads.infinity .minus
    rw [if_neg hnegative] at h ⊢
    by_cases hletter : cs.any isOtherLetter = true
    · rw [if_pos hletter] at h
      exact absurd rfl h
    rw [if_neg hletter] at h ⊢
    cases hdecimal : Double.ofDecimal? cs with
    | none =>
      rw [hdecimal] at h
      exact absurd rfl h
    | some x =>
      obtain ⟨sign, negative, text, q, hsign, rfl, hq, hx⟩ := ofDecimal?_iff.1 hdecimal
      exact .decimal hsign hq hx

theorem isDecimal_of_signed {sign text : List Char} {negative : Bool}
    (hsign : IsSign sign negative) (hq : Denotes (Digits 10) (Digits 10) text q) :
    ∀ c ∈ sign ++ text, isDecimal c = true := by
  refine List.forall_mem_append.2 ⟨?_, (denotes_digits_iff.1 hq).1.isDecimal⟩
  intro c hc
  apply isDecimal_of_mem
  cases hsign <;> simp_all

theorem radixText?_of_isDecimal (h : ∀ c ∈ cs, isDecimal c = true) : radixText? cs = none := by
  cases hradix : radixText? cs with
  | none => rfl
  | some marked =>
    obtain ⟨mark, hmark, rfl⟩ := radixText?_iff.1 hradix
    have hall : ∀ m ∈ marks, isDecimal m.1 = false := by decide
    have hfalse := hall _ hmark
    rw [h mark (by simp)] at hfalse
    cases hfalse

theorem numberOfText_of_reads {s : String} (h : Reads IsWord (trimChars s.toList) x) :
    numberOfText s = x := by
  unfold numberOfText
  dsimp only
  generalize trimChars s.toList = cs at h ⊢
  cases h with
  | nothing => rfl
  | infinity hsign => cases hsign <;> decide
  | @decimal sign text negative q x hsign hq hx =>
    have hdecimal := isDecimal_of_signed hsign hq
    have hempty : (sign ++ text).isEmpty = false := by
      obtain ⟨⟨hm, -⟩, -⟩ := denotes_digits_iff.1 hq
      obtain ⟨b, m, rfl, -⟩ := hm.exists_head
      simp
    have hinfinity : ∀ t : List Char, 'I' ∈ t → sign ++ text ≠ t := by
      rintro t ht rfl
      exact absurd (hdecimal 'I' ht) (by decide)
    have hletter : (sign ++ text).any isOtherLetter = false := by
      rw [List.any_eq_false]
      intro c hc
      rw [isOtherLetter_of_isDecimal (hdecimal c hc)]
      exact Bool.false_ne_true
    have hread := ofDecimal?_iff.2 ⟨sign, negative, text, q, hsign, rfl, hq, hx⟩
    rw [hempty, radixText?_of_isDecimal hdecimal]
    dsimp only
    rw [if_neg Bool.false_ne_true,
      if_neg (not_or.2 ⟨hinfinity _ (by decide), hinfinity _ (by decide)⟩),
      if_neg (hinfinity _ (by decide)), hletter, hread]
    rfl
  | @radix mark radix n body x hmark hn hx =>
    rw [radixText?_iff.2 ⟨mark, hmark, rfl⟩]
    dsimp only
    rw [(radixNumberBelow?_iff (radix_le hmark)).2 hn]
    exact (Double.rounds_ofNat n).unique hx

/-- A text whose radix mark, if it has one, no plus sign follows, and no natural of more than 64
bits. -/
def Regular (cs : List Char) : Prop :=
  ∀ mark radix body, cs = '0' :: mark :: body → (mark, radix) ∈ marks →
    body.head? ≠ some '+' ∧ ∀ n, IsNatural radix body n → n < 2 ^ 64

theorem isWord_iff (hplus : body.head? ≠ some '+')
    (hbound : ∀ n, IsNatural radix body n → n < 2 ^ 64) :
    IsWord radix body n ↔ IsNatural radix body n := by
  constructor
  · rintro ⟨⟨plus, hmem, digits, rfl, hn⟩, -⟩
    simp only [List.mem_cons, List.not_mem_nil, or_false] at hmem
    rcases hmem with rfl | rfl
    · exact hn
    · exact absurd rfl hplus
  · intro hn
    exact ⟨⟨[], by decide, body, rfl, hn⟩, hbound n hn⟩

theorem Reads.mono {R R' : ℕ → List Char → ℕ → Prop} (h : Reads R cs x)
    (hR : ∀ mark radix body n, cs = '0' :: mark :: body → (mark, radix) ∈ marks →
      R radix body n → R' radix body n) : Reads R' cs x := by
  cases h with
  | nothing => exact .nothing
  | infinity hsign => exact .infinity hsign
  | decimal hsign hq hx => exact .decimal hsign hq hx
  | radix hmark hn hx => exact .radix hmark (hR _ _ _ _ rfl hmark hn) hx

theorem Regular.reads_iff (h : Regular cs) : Reads IsWord cs x ↔ Reads IsNatural cs x := by
  constructor
  · intro hx
    refine hx.mono ?_
    intro mark radix body n hcs hmark
    obtain ⟨hplus, hbound⟩ := h mark radix body hcs hmark
    exact (isWord_iff hplus hbound).1
  · intro hx
    refine hx.mono ?_
    intro mark radix body n hcs hmark
    obtain ⟨hplus, hbound⟩ := h mark radix body hcs hmark
    exact (isWord_iff hplus hbound).2

theorem Reads.ne_nan {R : ℕ → List Char → ℕ → Prop} (h : Reads R cs x) : x ≠ .nan := by
  cases h with
  | nothing => exact Double.noConfusion
  | infinity => exact Double.noConfusion
  | decimal _ _ hx => exact hx.ne_nan
  | radix _ _ hx => exact hx.ne_nan

/-- A text is a number exactly if the grammar has it, blanks around it aside, and the number is the
nearest double. -/
theorem numberOfText_grammar (s : String) :
    (numberOfText s ≠ .nan ↔ ∃ x, Reads IsWord (trimChars s.toList) x) ∧
    (∀ x, Reads IsWord (trimChars s.toList) x → numberOfText s = x) ∧
    (Regular (trimChars s.toList) →
      (numberOfText s ≠ .nan ↔ ∃ x, Reads IsNatural (trimChars s.toList) x) ∧
      ∀ x, Reads IsNatural (trimChars s.toList) x → numberOfText s = x) := by
  have hnumber : numberOfText s ≠ .nan ↔ ∃ x, Reads IsWord (trimChars s.toList) x := by
    constructor
    · exact fun h ↦ ⟨_, reads_of_numberOfText h⟩
    · rintro ⟨x, hx⟩
      rw [numberOfText_of_reads hx]
      exact hx.ne_nan
  refine ⟨hnumber, fun x ↦ numberOfText_of_reads, ?_⟩
  intro hregular
  simp only [← hregular.reads_iff]
  exact ⟨hnumber, fun x ↦ numberOfText_of_reads⟩

theorem isNatural_iff (hradix : radix ≤ 16) (hne : body ≠ []) :
    IsNatural radix body n ↔ radixDigits? radix 0 body = some n :=
  (radixDigits?_iff hradix hne).symm

theorem numberOfText_grammar_hexadecimal :
    Regular "0x1F".toList ∧ Reads IsNatural "0x1F".toList (.ofNat 31) ∧
      numberOfText " 0x1F\n" = .ofNat 31 := by
  have htrim : trimChars " 0x1F\n".toList = "0x1F".toList := by decide
  have hread : radixDigits? 16 0 "1F".toList = some 31 := by decide
  have hregular : Regular "0x1F".toList := by
    intro mark radix body hcs hmark
    obtain ⟨-, htail⟩ := List.cons.inj hcs
    obtain ⟨rfl, rfl⟩ := List.cons.inj htail
    obtain rfl : 16 = radix := Option.some.inj (mem_marks.1 hmark)
    refine ⟨by decide, ?_⟩
    intro n hn
    have hn := (isNatural_iff (by omega) (by decide)).1 hn
    obtain rfl : 31 = n := Option.some.inj (hread.symm.trans hn)
    decide
  have hreads : Reads IsNatural "0x1F".toList (.ofNat 31) :=
    @Reads.radix _ 'x' 16 31 _ _ (by decide) ((isNatural_iff (by omega) (by decide)).2 hread)
      (Double.rounds_ofNat 31)
  obtain ⟨-, -, hgrammar⟩ := numberOfText_grammar " 0x1F\n"
  rw [htrim] at hgrammar
  exact ⟨hregular, hreads, (hgrammar hregular).2 _ hreads⟩

theorem Reads.natural {R : ℕ → List Char → ℕ → Prop} {mark : Char}
    (hmark : (mark, radix) ∈ marks) (h : Reads R ('0' :: mark :: body) x) :
    ∃ n, R radix body n ∧ x.Rounds false n := by
  generalize hcs : '0' :: mark :: body = cs at h
  cases h with
  | nothing => cases hcs
  | infinity hsign => cases hsign <;> cases hcs
  | decimal hsign hq =>
    have hnone := radixText?_of_isDecimal (isDecimal_of_signed hsign hq)
    rw [← hcs, radixText?_iff.2 ⟨mark, hmark, rfl⟩] at hnone
    cases hnone
  | radix hmark' hn hx =>
    obtain ⟨-, htail⟩ := List.cons.inj hcs
    obtain ⟨rfl, rfl⟩ := List.cons.inj htail
    obtain rfl := Option.some.inj ((mem_marks.1 hmark).symm.trans (mem_marks.1 hmark'))
    exact ⟨_, hn, hx⟩

/-- A plus sign after a radix mark is passed over, and a natural of 65 bits is no number. -/
theorem numberOfText_not_grammar :
    (numberOfText "0x+5" = .ofNat 5 ∧ ¬∃ x, Reads IsNatural (trimChars "0x+5".toList) x) ∧
    numberOfText "0x10000000000000000" = .nan ∧
      Reads IsNatural (trimChars "0x10000000000000000".toList) (.ofNat (2 ^ 64)) := by
  refine ⟨⟨by decide +kernel, ?_⟩, by decide +kernel, ?_⟩
  · rintro ⟨x, hx⟩
    have htrim : trimChars "0x+5".toList = "0x+5".toList := by decide
    have hmark : ('x', 16) ∈ marks := by decide
    rw [htrim] at hx
    obtain ⟨n, hn, -⟩ := hx.natural hmark
    have hread := (isNatural_iff (by omega) (by decide)).1 hn
    cases hread
  · have htrim : trimChars "0x10000000000000000".toList = "0x10000000000000000".toList := by decide
    have hread : radixDigits? 16 0 "10000000000000000".toList = some (2 ^ 64) := by decide +kernel
    rw [htrim]
    exact @Reads.radix _ 'x' 16 _ _ _ (by decide)
      ((isNatural_iff (by omega) (by decide)).2 hread) (Double.rounds_ofNat _)

end Transclude.Numeral
