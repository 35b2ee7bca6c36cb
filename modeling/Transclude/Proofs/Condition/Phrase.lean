import Transclude.Proofs.Condition.Reread
import Transclude.Proofs.Condition.Spacing

namespace Transclude

open Text

/-- The text is a phrase with the given tree, before anything that does not prolong a token. -/
def IsPhrase (category : Category) (cs : List Char) (e : Expr) : Prop :=
  ∃ ps, Piece.chars ps = cs ∧ (∀ rest, Stops rest → Piece.Lexable ps rest) ∧
    Derives category (Piece.place 0 ps) e

variable {category : Category} {cs ds gap rest : List Char} {ps : List Piece} {n : Nat}
  {e f : Expr}

theorem Token.Lexes.exists_punct {kind : TokenKind} {c : Char} (h : Lexes kind cs rest)
    (hc : c ∈ cs.head?) (hpunctuation : isPunctuation c = true) (hpoint : c ≠ '.') :
    ∃ p, kind = .punct p ∧ cs = p.toList := by
  obtain ⟨d, ds, rfl, -, hlexeme⟩ := id h
  obtain rfl := Option.some.inj hc
  obtain ⟨p, hp⟩ := kind_of_punctuation hpunctuation (fun h ↦ absurd h hpoint) (hlexeme 0)
  have hkind : kind = .punct p := hp
  rw [hkind] at h
  exact ⟨p, hkind, h.punct_eq.1⟩

namespace Derives

theorem place {offset : Nat} (h : Derives category (Piece.place offset ps) e) (offset' : Nat) :
    Derives category (Piece.place offset' ps) e := by
  apply h.of_map_face
  rw [Piece.map_face_place, Piece.map_face_place]

theorem first_token {ts : List Token} (h : Derives category ts e) :
    ∀ t ∈ ts.head?, ∀ p, t.kind = .punct p → p = "(" ∨ ∃ sign : UnaryOp, p = sign.symbol := by
  induction h with
  | option hk | word hk | number hk | text hk =>
    intro t ht p hp
    obtain rfl := Option.some.inj ht
    rw [hk] at hp
    cases hp
  | group hk =>
    intro t ht p hp
    obtain rfl := Option.some.inj ht
    rw [hk] at hp
    exact .inl (TokenKind.punct.inj hp).symm
  | unary hk hop =>
    intro t ht p hp
    obtain rfl := Option.some.inj ht
    rw [hk] at hp
    rw [← TokenKind.punct.inj hp]
    exact .inr ⟨_, mem_unaryOperators.1 hop⟩
  | primary _ ih | tightest _ ih | tighter _ ih => exact ih
  | binary hleft _ _ _ ih =>
    rw [List.head?_append_of_ne_nil _ hleft.ne_nil]
    exact ih

/-- The only operator of a level may be written without parentheses in its right operand too, if it
is associative. -/
theorem exists_chain {op : BinaryOp} {ts us : List Token} {t : Token}
    (hop : levelOperators n = [(op.symbol, op)])
    (hassoc : ∀ u v w, op.apply (op.apply u v) w = op.apply u (op.apply v w))
    (hleft : Derives (.level n) ts e) (ht : t.kind = .punct op.symbol)
    (hright : Derives (.level n) us f) :
    ∃ g, Derives (.level n) (ts ++ t :: us) g ∧
      ∀ options, g.eval options = op.apply (e.eval options) (f.eval options) := by
  have hmem : (op.symbol, op) ∈ levelOperators n := by
    rw [hop]
    exact List.mem_singleton_self _
  -- By induction on the right operand: all of it but its last part is chained to the left operand
  -- first, since the tree of a level leans to the left.
  generalize hcategory : Category.level n = category at hright
  induction hright with
  | option | word | number | text | group | primary | unary => cases hcategory
  | tightest =>
    cases hcategory
    cases hop
  | tighter hright =>
    cases hcategory
    exact ⟨_, hleft.binary ht hmem hright, fun _ ↦ rfl⟩
  | @binary m u before after symbol op' left last _ hu hop' hlast ih =>
    cases hcategory
    obtain ⟨g, hg, heval⟩ := ih rfl
    rw [hop] at hop'
    obtain ⟨rfl, rfl⟩ := Prod.mk.inj (List.mem_singleton.1 hop')
    refine ⟨.binary op' g last, ?_, ?_⟩
    · rw [← List.cons_append, ← List.append_assoc]
      exact hg.binary hu hmem hlast
    · intro options
      rw [Expr.eval, heval, hassoc]
      rfl

end Derives

namespace IsPhrase

theorem ne_nil (h : IsPhrase category cs e) : cs ≠ [] := by
  obtain ⟨ps, rfl, hps, hd⟩ := h
  cases ps with
  | nil => exact absurd rfl hd.ne_nil
  | cons p ps =>
    obtain ⟨-, hlexes, -⟩ := hps [] stops_nil
    rw [Piece.chars_cons]
    intro hnil
    exact hlexes.ne_nil (List.append_eq_nil_iff.1 (List.append_eq_nil_iff.1 hnil).2).1

theorem head?_append (h : IsPhrase category cs e) (rest : List Char) :
    (cs ++ rest).head? = cs.head? :=
  List.head?_append_of_ne_nil cs h.ne_nil

theorem isPunctuation_of_mem {c : Char} (h : c ∈ ['=', '<', '>', '&', '|', '*']) :
    Token.isPunctuation c = true ∧ c ≠ '.' := by
  have hall : ['=', '<', '>', '&', '|', '*'].all (fun c ↦
      decide (Token.isPunctuation c = true ∧ c ≠ '.')) = true := by
    decide
  exact of_decide_eq_true (List.all_eq_true.1 hall c h)

/-- No operator of two operands is prolonged by a phrase, a sum or difference aside. -/
theorem not_mem_head (h : IsPhrase category cs e) :
    ∀ c ∈ cs.head?, c ∉ ['=', '<', '>', '&', '|', '*'] := by
  obtain ⟨ps, rfl, hps, hd⟩ := h
  cases ps with
  | nil => exact absurd rfl hd.ne_nil
  | cons p ps =>
    obtain ⟨hgap, hlexes, -⟩ := hps [] stops_nil
    rw [Piece.chars_cons]
    refine Token.forall_head_blanks hgap ?_ ?_
    · intro c hblank hmem
      obtain ⟨hpunctuation, -⟩ := isPunctuation_of_mem hmem
      rw [(Token.isPunctuation_iff.1 hpunctuation).1] at hblank
      cases hblank
    · intro c hc hmem
      rw [List.head?_append_of_ne_nil _ hlexes.ne_nil] at hc
      obtain ⟨hpunctuation, hpoint⟩ := isPunctuation_of_mem hmem
      obtain ⟨q, hkind, hchars⟩ := hlexes.exists_punct hc hpunctuation hpoint
      rw [hchars] at hc
      rcases hd.first_token _ rfl q hkind with rfl | ⟨sign, rfl⟩
      · obtain rfl : '(' = c := Option.some.inj hc
        exact absurd hmem (by decide)
      · obtain ⟨s, hs, hnot⟩ := Expr.sign_symbol sign
        rw [hs] at hc
        obtain rfl := Option.some.inj hc
        exact hnot hmem

theorem looser {m : Nat} (hnm : n ≤ m) (h : IsPhrase (.level m) cs e) :
    IsPhrase (.level n) cs e := by
  obtain ⟨ps, hchars, hps, hd⟩ := h
  exact ⟨ps, hchars, hps, hd.looser hnm⟩

theorem level (h : IsPhrase .unary cs e) (hn : n ≤ 10) : IsPhrase (.level n) cs e := by
  obtain ⟨ps, hchars, hps, hd⟩ := h
  exact ⟨ps, hchars, hps, hd.tightest.looser hn⟩

theorem of_wellSpelled (h : e.WellSpelled) :
    IsPhrase .unary (Piece.chars (e.pieces Expr.plain [])) e := by
  refine ⟨e.pieces Expr.plain [], rfl, ?_, Expr.derives_pieces h [] 0⟩
  intro rest hrest
  exact Expr.lexable_pieces Expr.isLeaf_plain h rfl hrest

theorem literal {spelling : String} {value : Literal}
    (h : (Expr.literal spelling value).WellSpelled) :
    IsPhrase .unary spelling.toList (.literal spelling value) := by
  have hphrase := of_wellSpelled h
  rwa [Expr.pieces, Piece.chars_cons, Piece.chars_nil, List.append_nil] at hphrase

theorem option {name : String} (h : (Expr.option name).WellSpelled) :
    IsPhrase .unary name.toList (.option name) := by
  have hphrase := of_wellSpelled h
  rwa [Expr.pieces, Expr.plain, Expr.chars_namePiece, Piece.chars_nil, List.append_nil] at hphrase

theorem blanks (hgap : gap.all isBlank = true) (h : IsPhrase category cs e) :
    IsPhrase category (gap ++ cs) e := by
  obtain ⟨ps, rfl, hps, hd⟩ := h
  cases ps with
  | nil => exact absurd rfl hd.ne_nil
  | cons p ps =>
    refine ⟨{ p with gap := gap ++ p.gap } :: ps, ?_, ?_, hd.of_map_face ?_⟩
    · simp only [Piece.chars_cons, List.append_assoc]
    · intro rest hrest
      obtain ⟨hpgap, hlexes, hps⟩ := hps rest hrest
      refine ⟨?_, hlexes, hps⟩
      rw [List.all_append, hgap, hpgap]
      rfl
    · rw [Piece.map_face_place, Piece.map_face_place]
      rfl

theorem group (h : IsPhrase (.level 0) cs e) (hgap : gap.all isBlank = true) :
    IsPhrase .unary ('(' :: (cs ++ (gap ++ [')']))) e := by
  obtain ⟨ps, rfl, hps, hd⟩ := h
  refine ⟨Expr.symbolPiece [] "(" :: (ps ++ [Expr.symbolPiece gap ")"]), ?_, ?_, ?_⟩
  · simp [Expr.symbolPiece]
  · intro rest hrest
    refine ⟨rfl, Expr.lexes_parenthesis (by decide) _, Piece.lexable_append.2 ⟨?_, hgap, ?_⟩⟩
    · rw [Expr.chars_symbolPiece, List.append_assoc]
      exact hps _ (Token.stops_blanks hgap (Expr.stops_close _))
    · exact ⟨Expr.lexes_parenthesis (by decide) _, trivial⟩
  · rw [Piece.place, Piece.place_append]
    exact .primary (.group rfl (hd.place _) rfl)

theorem unary (op : UnaryOp) (h : IsPhrase .unary cs e)
    (hhead : ∀ c ∈ cs.head?, c ∉ Token.prolongations op.symbol) :
    IsPhrase .unary (op.symbol.toList ++ cs) (.unary op e) := by
  obtain ⟨hmem, hpoint⟩ := Expr.sign_mem_punctuators op
  have hlexes : ∀ rest, Token.Lexes (.punct op.symbol) op.symbol.toList (cs ++ rest) := by
    intro rest
    refine Token.lexes_punct hmem fun c hc ↦ ⟨?_, fun heq ↦ absurd heq hpoint⟩
    rw [h.head?_append] at hc
    exact hhead c hc
  obtain ⟨ps, rfl, hps, hd⟩ := h
  refine ⟨Expr.symbolPiece [] op.symbol :: ps, Expr.chars_symbolPiece, ?_, ?_⟩
  · exact fun rest hrest ↦ ⟨rfl, hlexes rest, hps rest hrest⟩
  · exact .unary rfl (mem_unaryOperators.2 rfl) (hd.place _)

theorem exists_pieces {left right : Category} {op : BinaryOp} (hsign : op.symbol ∉ ["+", "-"])
    (hleft : IsPhrase left cs e) (hgap : gap.all isBlank = true) (hright : IsPhrase right ds f) :
    ∃ ps t ts us, Piece.chars ps = cs ++ (gap ++ (op.symbol.toList ++ ds)) ∧
      (∀ rest, Stops rest → Piece.Lexable ps rest) ∧ Piece.place 0 ps = ts ++ t :: us ∧
      Derives left ts e ∧ t.kind = .punct op.symbol ∧ Derives right us f := by
  have hlexes : ∀ rest, Token.Lexes (.punct op.symbol) op.symbol.toList (ds ++ rest) := by
    intro rest
    apply Expr.lexes_operator
    intro c hc hmem
    rw [hright.head?_append] at hc
    rcases Expr.prolongations_binary op hmem with hother | ⟨hplus, hop⟩
    · exact hright.not_mem_head c hc hother
    · apply hsign
      rw [← op.symbol.ofList_toList, hop]
      have hsigns : c = '+' ∨ c = '-' := by simpa using hplus
      rcases hsigns with rfl | rfl <;> decide
  obtain ⟨ps, rfl, hps, hd⟩ := hleft
  obtain ⟨qs, rfl, hqs, hd'⟩ := hright
  refine ⟨ps ++ Expr.symbolPiece gap op.symbol :: qs, _, _, _, ?_, ?_, Piece.place_append, hd, rfl,
    hd'.place _⟩
  · rw [Piece.chars_append, Expr.chars_symbolPiece]
  · intro rest hrest
    refine Piece.lexable_append.2 ⟨?_, hgap, hlexes rest, hqs rest hrest⟩
    rw [Expr.chars_symbolPiece]
    simp only [List.append_assoc]
    exact hps _ (Token.stops_blanks hgap (Expr.stops_operator op _))

theorem binary {op : BinaryOp} (hop : op.precedence = n + 1) (hsign : op.symbol ∉ ["+", "-"])
    (hleft : IsPhrase (.level n) cs e) (hgap : gap.all isBlank = true)
    (hright : IsPhrase (.level (n + 1)) ds f) :
    IsPhrase (.level n) (cs ++ (gap ++ (op.symbol.toList ++ ds))) (.binary op e f) := by
  obtain ⟨ps, t, ts, us, hchars, hps, hplace, hd, ht, hd'⟩ :=
    exists_pieces hsign hleft hgap hright
  refine ⟨ps, hchars, hps, ?_⟩
  rw [hplace]
  exact hd.binary ht (mem_levelOperators.2 ⟨rfl, hop⟩) hd'

theorem exists_chain (op : BinaryOp) (hop : levelOperators n = [(op.symbol, op)])
    (hassoc : ∀ u v w, op.apply (op.apply u v) w = op.apply u (op.apply v w))
    (hsign : op.symbol ∉ ["+", "-"]) (hleft : IsPhrase (.level n) cs e)
    (hgap : gap.all isBlank = true) (hright : IsPhrase (.level n) ds f) :
    ∃ g, IsPhrase (.level n) (cs ++ (gap ++ (op.symbol.toList ++ ds))) g ∧
      ∀ options, g.eval options = op.apply (e.eval options) (f.eval options) := by
  obtain ⟨ps, t, ts, us, hchars, hps, hplace, hd, ht, hd'⟩ :=
    exists_pieces hsign hleft hgap hright
  obtain ⟨g, hg, heval⟩ := hd.exists_chain hop hassoc ht hd'
  refine ⟨g, ⟨ps, hchars, hps, ?_⟩, heval⟩
  rw [hplace]
  exact hg

theorem compile {source : String} (h : IsPhrase (.level 0) cs e) (hgap : gap.all isBlank = true)
    (hsource : source.toList = cs ++ gap) :
    Condition.compile source = .ok ⟨trim source, e⟩ := by
  obtain ⟨ps, rfl, hps, hd⟩ := h
  refine Condition.compile_of_derives hsource (hps gap ?_) hgap hd
  have hstops := Token.stops_blanks hgap stops_nil
  rwa [List.append_nil] at hstops

end IsPhrase

end Transclude
