import Transclude.Double.Decimal
import Transclude.Text.Character

namespace Transclude.Text

theorem Ranges.mem_of_contains {ranges : Ranges} {n : Nat} (h : ranges.contains n = true) :
    ∃ r ∈ ranges, r.1 ≤ n ∧ n ≤ r.2 := by
  induction ranges with
  | nil => cases h
  | cons r rest ih =>
    rw [Ranges.contains] at h
    split at h
    · cases h
    · next hlow =>
      split at h
      · next hhigh => exact ⟨r, List.mem_cons_self, Nat.le_of_not_lt hlow, hhigh⟩
      · obtain ⟨q, hq, hn⟩ := ih h
        exact ⟨q, List.mem_cons_of_mem _ hq, hn⟩

theorem Ranges.contains_of_apart {ranges others : Ranges}
    (hapart : ∀ r ∈ ranges, ∀ q ∈ others, r.2 < q.1 ∨ q.2 < r.1) {n : Nat}
    (h : ranges.contains n = true) : others.contains n = false := by
  obtain ⟨r, hr, hlow, hhigh⟩ := mem_of_contains h
  cases ho : others.contains n with
  | false => rfl
  | true =>
    obtain ⟨q, hq, hqlow, hqhigh⟩ := mem_of_contains ho
    have := hapart r hr q hq
    omega

theorem blankRanges_apart :
    ∀ r ∈ letterRanges, ∀ q ∈ blankRanges, r.2 < q.1 ∨ q.2 < r.1 := by
  decide +kernel

theorem numeralRanges_apart :
    ∀ r ∈ numeralRanges, ∀ q ∈ blankRanges, r.2 < q.1 ∨ q.2 < r.1 := by
  decide +kernel

theorem letterRanges_above : ∀ r ∈ letterRanges, 0x41 ≤ r.1 := by
  decide +kernel

variable {c : Char}

theorem isNameStart_cases (h : isNameStart c = true) : isLetter c = true ∨ c = '_' ∨ c = '$' := by
  simpa [isNameStart, or_assoc] using h

theorem isNamePart_of_isNameStart (h : isNameStart c = true) : isNamePart c = true := by
  rcases isNameStart_cases h with h | rfl | rfl <;> simp [isNamePart, *]

theorem isBlank_of_isNameStart (h : isNameStart c = true) : isBlank c = false := by
  rcases isNameStart_cases h with h | rfl | rfl
  · exact Ranges.contains_of_apart blankRanges_apart h
  · decide
  · decide

theorem isBlank_of_isNamePart (h : isNamePart c = true) : isBlank c = false := by
  have hcases : isNameStart c = true ∨ isNumeral c = true := by
    simp only [isNamePart, isNameStart, Bool.or_eq_true] at h ⊢
    rcases h with ((h | h) | h) | h
    · exact .inl (.inl (.inl h))
    · exact .inr h
    · exact .inl (.inl (.inr h))
    · exact .inl (.inr h)
  rcases hcases with h | h
  · exact isBlank_of_isNameStart h
  · exact Ranges.contains_of_apart numeralRanges_apart h

theorem isDigit_iff : isDigit c = true ↔ 0x30 ≤ c.toNat ∧ c.toNat ≤ 0x39 := by
  rw [isDigit, Bool.and_eq_true, decide_eq_true_iff, decide_eq_true_iff]
  rfl

theorem isDigit_of_isNameStart (h : isNameStart c = true) : isDigit c = false := by
  rcases isNameStart_cases h with h | rfl | rfl
  · obtain ⟨r, hr, hlow, -⟩ := Ranges.mem_of_contains h
    have hr := letterRanges_above r hr
    rw [← Bool.not_eq_true, isDigit_iff]
    omega
  · decide
  · decide

theorem isNamePart_of_isDigit (h : isDigit c = true) : isNamePart c = true := by
  obtain ⟨hlow, hhigh⟩ := isDigit_iff.1 h
  have hnumeral : isNumeral c = true := by
    rw [isNumeral, numeralRanges, Ranges.contains, if_neg (by omega), if_pos hhigh]
  simp [isNamePart, hnumeral]

theorem isRadixDigit_cases {radix : Nat} (h : isRadixDigit radix c = true) :
    isDigit c = true ∨ 0x61 ≤ c.toNat ∧ c.toNat ≤ 0x66 ∨ 0x41 ≤ c.toNat ∧ c.toNat ≤ 0x46 := by
  unfold isRadixDigit radixDigit? at h
  split at h
  · next hdigit => exact .inl hdigit
  · split at h
    · next hc =>
      have hc : 'a' ≤ c ∧ c ≤ 'f' := by simpa using hc
      exact .inr (.inl hc)
    · split at h
      · next hc =>
        have hc : 'A' ≤ c ∧ c ≤ 'F' := by simpa using hc
        exact .inr (.inr hc)
      · cases h

theorem isNamePart_of_isRadixDigit {radix : Nat} (h : isRadixDigit radix c = true) :
    isNamePart c = true := by
  rcases isRadixDigit_cases h with hdigit | hn
  · exact isNamePart_of_isDigit hdigit
  · have hlow : ¬c.toNat < 0x41 := by omega
    have hletter : isLetter c = true := by
      rw [isLetter, letterRanges, Ranges.contains, if_neg hlow]
      split
      · rfl
      · rw [Ranges.contains, if_neg (by omega), if_pos (by omega)]
    simp [isNamePart, hletter]

theorem toNat_lt_of_isRadixDigit {radix : Nat} (h : isRadixDigit radix c = true) :
    c.toNat < 0x80 := by
  rcases isRadixDigit_cases h with hdigit | hn
  · have hle := (isDigit_iff.1 hdigit).2
    omega
  · omega

theorem isName_iff {s : String} :
    isName s = true ↔
      ∃ c cs, s.toList = c :: cs ∧ isNameStart c = true ∧ cs.all isNamePart = true := by
  unfold isName
  constructor
  · intro h
    split at h
    · cases h
    · next c cs hs => exact ⟨c, cs, hs, Bool.and_eq_true_iff.1 h⟩
  · rintro ⟨c, cs, hs, h⟩
    rw [hs]
    exact Bool.and_eq_true_iff.2 h

end Transclude.Text
