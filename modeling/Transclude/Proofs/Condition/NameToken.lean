import Transclude.Proofs.Condition.Reread

namespace Transclude

open Text

namespace Token

variable {s record name : String}

theorem scan_name (h : isName s = true) : scan s = .ok [⟨.name s, s, 0⟩] := by
  have hchars : s.toList = Piece.chars (Expr.plain [] s) := by
    simp [Expr.plain, Expr.namePiece]
  rw [Piece.scan_eq_place hchars (Expr.isLeaf_plain.lexable rfl h stops_nil)]
  simp [Expr.plain, Expr.namePiece, Piece.place]

theorem scan_member (hrecord : isName record = true) (hname : isName name = true) :
    scan (record ++ "." ++ name) =
      .ok [⟨.name record, record, 0⟩, ⟨.punct ".", ".", size record.toList⟩,
        ⟨.name name, name, size record.toList + 1⟩] := by
  have hchars : (record ++ "." ++ name).toList = Piece.chars (Expr.qualified record [] name) := by
    simp [Expr.qualified, Expr.namePiece, Expr.symbolPiece]
  have hpoint : '.'.utf8Size = 1 := by decide
  rw [Piece.scan_eq_place hchars ((Expr.isLeaf_qualified hrecord).lexable rfl hname stops_nil)]
  simp [Expr.qualified, Expr.namePiece, Expr.symbolPiece, Piece.place, hpoint]

theorem isName_iff_scan (s : String) :
    isName s = true ↔
      ∃ t, scan s = .ok [t] ∧ t.kind = .name s ∧ t.start = 0 ∧ t.stop = size s.toList := by
  constructor
  · intro h
    exact ⟨_, scan_name h, rfl, rfl, Nat.zero_add _⟩
  · -- The kind alone decides: what the scanner takes for a name is one, wherever the token stands.
    rintro ⟨t, hscan, hkind, -, -⟩
    exact (isName_of_mem_scanFrom hscan List.mem_cons_self hkind).1

end Token

theorem Expr.isName_of_mem_leaves {e : Expr} (he : e.WellSpelled) {name : String}
    (h : name ∈ e.leaves) : isName name = true := by
  induction e with
  | literal => cases h
  | option word =>
    rw [List.mem_singleton.1 h]
    exact he.1
  | unary _ operand ih => exact ih he h
  | binary _ left right ihleft ihright =>
    rcases List.mem_append.1 h with h | h
    · exact ihleft he.1 h
    · exact ihright he.2 h

namespace Token

/-- The check of a name and the scanner agree on every text, and a name that was checked can stand
before every option that was read: neither swallows the point between them. -/
theorem names_agree :
    (∀ s, isName s = true ↔
      ∃ t, scan s = .ok [t] ∧ t.kind = .name s ∧ t.start = 0 ∧ t.stop = size s.toList) ∧
    ∀ record, isName record = true → ∀ source e, Expr.parse source = .ok e →
      ∀ name ∈ e.leaves, scan (record ++ "." ++ name) =
        .ok [⟨.name record, record, 0⟩, ⟨.punct ".", ".", size record.toList⟩,
          ⟨.name name, name, size record.toList + 1⟩] := by
  refine ⟨isName_iff_scan, ?_⟩
  intro record hrecord source e hparse name hname
  have he : e.WellSpelled := Expr.wellSpelled_of_parse hparse
  exact scan_member hrecord (Expr.isName_of_mem_leaves he hname)

theorem names_agree_umlaut :
    isName "größe" = true ∧
    (∃ e, Expr.parse "!ναί && $x٣ > 1" = .ok e ∧ "$x٣" ∈ e.leaves) ∧
    scan "größe.$x٣" =
      .ok [⟨.name "größe", "größe", 0⟩, ⟨.punct ".", ".", 7⟩, ⟨.name "$x٣", "$x٣", 8⟩] := by
  have hrecord : isName "größe" = true := by decide +kernel
  have hparse : (Expr.parse "!ναί && $x٣ > 1").toOption.any ("$x٣" ∈ ·.leaves) = true := by
    decide +kernel
  cases he : Expr.parse "!ναί && $x٣ > 1" with
  | error err =>
    rw [he] at hparse
    cases hparse
  | ok e =>
    rw [he] at hparse
    have hname : "$x٣" ∈ e.leaves := of_decide_eq_true hparse
    exact ⟨hrecord, ⟨e, rfl, hname⟩, names_agree.2 "größe" hrecord _ e he "$x٣" hname⟩

end Token

end Transclude
