import Mathlib.Data.List.Lex
import Mathlib.Order.Compare
import Transclude.Text.Encoding

namespace Transclude.Text

theorem compares_compareUnits (as bs : List ℕ) : (compareUnits as bs).Compares as bs := by
  induction as generalizing bs with
  | nil =>
    cases bs with
    | nil => rfl
    | cons b bs => exact List.nil_lt_cons b bs
  | cons a as ih =>
    cases bs with
    | nil => exact List.nil_lt_cons a as
    | cons b bs =>
      rw [compareUnits]
      split
      · next hlt => exact List.cons_lt_cons_iff.2 (.inl hlt)
      split
      · next hgt => exact List.cons_lt_cons_iff.2 (.inl hgt)
      · next hlt hgt =>
        obtain rfl : a = b := by omega
        have htail := ih bs
        cases hcompare : compareUnits as bs with
        | lt =>
          rw [hcompare] at htail
          exact List.cons_lt_cons_iff.2 (.inr ⟨rfl, htail⟩)
        | eq =>
          rw [hcompare] at htail
          exact congrArg (a :: ·) htail
        | gt =>
          rw [hcompare] at htail
          exact List.cons_lt_cons_iff.2 (.inr ⟨rfl, htail⟩)

theorem toNat_cases (c : Char) :
    c.toNat < 0xD800 ∨ 0xDFFF < c.toNat ∧ c.toNat < 0x110000 :=
  c.valid

theorem charUnits_append {c d : Char} {as bs : List ℕ}
    (h : charUnits c ++ as = charUnits d ++ bs) : c = d ∧ as = bs := by
  have hc := toNat_cases c
  have hd := toNat_cases d
  suffices hsame : c.toNat = d.toNat ∧ as = bs from ⟨Char.toNat_inj.1 hsame.1, hsame.2⟩
  unfold charUnits at h
  split at h
  · split at h
    · exact List.cons.inj h
    · -- A single unit is no surrogate.
      have hunit := (List.cons.inj h).1
      omega
  · split at h
    · have hunit := (List.cons.inj h).1
      omega
    · obtain ⟨hhigh, htail⟩ := List.cons.inj h
      obtain ⟨hlow, hrest⟩ := List.cons.inj htail
      exact ⟨by omega, hrest⟩

theorem charUnits_ne_nil (c : Char) : charUnits c ≠ [] := by
  unfold charUnits
  split
  · exact List.cons_ne_nil _ _
  · exact List.cons_ne_nil _ _

theorem flatMap_charUnits_inj {cs ds : List Char}
    (h : cs.flatMap charUnits = ds.flatMap charUnits) : cs = ds := by
  induction cs generalizing ds with
  | nil =>
    cases ds with
    | nil => rfl
    | cons d ds =>
      rw [List.flatMap_cons] at h
      exact absurd (List.append_eq_nil_iff.1 h.symm).1 (charUnits_ne_nil d)
  | cons c cs ih =>
    cases ds with
    | nil =>
      rw [List.flatMap_cons] at h
      exact absurd (List.append_eq_nil_iff.1 h).1 (charUnits_ne_nil c)
    | cons d ds =>
      obtain ⟨rfl, htail⟩ := charUnits_append h
      rw [ih htail]

theorem units_injective : Function.Injective units := by
  intro s t h
  exact String.toList_inj.1 (flatMap_charUnits_inj h)

theorem compareUnits_eq_lt {as bs : List ℕ} : compareUnits as bs = .lt ↔ as < bs :=
  (compares_compareUnits as bs).eq_lt

theorem compareUnits_eq_eq {s t : String} : compareUnits (units s) (units t) = .eq ↔ s = t := by
  rw [(compares_compareUnits _ _).eq_eq, units_injective.eq_iff]

theorem swap_compareUnits (as bs : List ℕ) :
    (compareUnits as bs).swap = compareUnits bs as :=
  (compares_compareUnits as bs).swap.inj (compares_compareUnits bs as)

example : compareUnits (units "😀") (units "\ue000") = .lt ∧ "\ue000" < "😀" := by decide

end Transclude.Text
