import Transclude.Proofs.Condition.Lexeme

namespace Transclude

open Text

/-- A token to be written, with the blanks before it. -/
structure Piece where
  gap : List Char
  kind : TokenKind
  spelling : List Char

namespace Piece

def chars (ps : List Piece) : List Char := ps.flatMap fun p ↦ p.gap ++ p.spelling

def place (offset : Nat) : List Piece → List Token
  | [] => []
  | p :: ps =>
    let start := offset + size p.gap
    ⟨p.kind, String.ofList p.spelling, start⟩ :: place (start + size p.spelling) ps

/-- No piece runs into what follows it. -/
def Lexable : List Piece → List Char → Prop
  | [], _ => True
  | p :: ps, rest =>
    p.gap.all isBlank = true ∧ Token.Lexes p.kind p.spelling (chars ps ++ rest) ∧ Lexable ps rest

variable {p : Piece} {ps qs : List Piece} {rest : List Char} {offset : Nat}

@[simp]
theorem chars_nil : chars [] = [] := rfl

@[simp]
theorem chars_cons : chars (p :: ps) = p.gap ++ (p.spelling ++ chars ps) := by
  simp [chars]

@[simp]
theorem chars_append : chars (ps ++ qs) = chars ps ++ chars qs := by
  simp [chars]

theorem place_append :
    place offset (ps ++ qs) = place offset ps ++ place (offset + size (chars ps)) qs := by
  induction ps generalizing offset with
  | nil => simp [place]
  | cons p ps ih => simp [place, ih, Nat.add_assoc]

theorem map_kind_place : (place offset ps).map Token.kind = ps.map Piece.kind := by
  induction ps generalizing offset with
  | nil => rfl
  | cons p ps ih => simp [place, ih]

theorem lexable_append :
    Lexable (ps ++ qs) rest ↔ Lexable ps (chars qs ++ rest) ∧ Lexable qs rest := by
  induction ps with
  | nil => simp [Lexable]
  | cons p ps ih => simp [Lexable, ih, and_assoc]

theorem scanFrom_blanks {gap : List Char} (h : gap.all isBlank = true) :
    Token.scanFrom offset (gap ++ rest) = Token.scanFrom (offset + size gap) rest := by
  induction gap generalizing offset with
  | nil => simp
  | cons c gap ih =>
    rw [List.all_cons, Bool.and_eq_true] at h
    rw [List.cons_append, Token.scanFrom, if_pos h.1, ih h.2, size_cons, Nat.add_assoc]

theorem scanFrom_lexes {kind : TokenKind} {spelling : List Char}
    (h : Token.Lexes kind spelling rest) :
    Token.scanFrom offset (spelling ++ rest) =
      (Token.scanFrom (offset + size spelling) rest).map
        (⟨kind, String.ofList spelling, offset⟩ :: ·) := by
  obtain ⟨c, cs, rfl, hblank, hlexeme⟩ := h
  rw [List.cons_append, Token.scanFrom, hblank, hlexeme]
  simp only [Bool.false_eq_true, if_false, bind, Except.bind, List.take_left, List.drop_left]
  cases Token.scanFrom (offset + size (c :: cs)) rest <;> rfl

theorem scanFrom_chars (h : Lexable ps []) :
    Token.scanFrom offset (chars ps) = .ok (place offset ps) := by
  induction ps generalizing offset with
  | nil => rw [chars_nil, Token.scanFrom, place]
  | cons p ps ih =>
    obtain ⟨hgap, hlexes, hps⟩ := h
    rw [List.append_nil] at hlexes
    rw [chars_cons, scanFrom_blanks hgap, scanFrom_lexes hlexes, ih hps]
    rfl

theorem scan_eq_place {s : String} (hchars : s.toList = chars ps) (h : Lexable ps []) :
    Token.scan s = .ok (place 0 ps) := by
  rw [Token.scan, hchars]
  exact scanFrom_chars h

end Piece

end Transclude
