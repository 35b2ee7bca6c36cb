import Transclude.Condition.Expr
import Transclude.Proofs.Condition.Grammar
import Transclude.Proofs.Condition.Piece

namespace Transclude

open Text

/-- The name of the member, if three tokens in a row read a member of the record. -/
def member? (record : String) : TokenKind → TokenKind → TokenKind → Option String
  | .name word, .punct symbol, .name name =>
    if word = record ∧ symbol = "." then some name else none
  | _, _, _ => none

def members (record : String) : List TokenKind → List String
  | a :: b :: c :: rest => (member? record a b c).toList ++ members record (b :: c :: rest)
  | _ => []

/-- A text from an offset on, with `name` in place of every `record.name`. -/
def unqualified (record : String) (text : List Char) (offset : Nat) : List Token → List Char
  | t :: dot :: name :: rest =>
    match member? record t.kind dot.kind name.kind with
    | some _ =>
      sliceChars offset t.start text ++ sliceChars name.start name.stop text ++
        unqualified record text name.stop rest
    | none => sliceChars offset t.stop text ++ unqualified record text t.stop (dot :: name :: rest)
  | _ => sliceChars offset (size text) text

def Literal.kind (spelling : String) : Literal → TokenKind
  | .number x => .number x
  | .text s => .text s
  | .boolean _ | .null => .name spelling

namespace Expr

def printedKinds (record : String) : Expr → List TokenKind
  | .literal spelling value => [value.kind spelling]
  | .option name => [.name record, .punct ".", .name name]
  | .unary op operand =>
    .punct op.symbol :: .punct "(" :: (operand.printedKinds record ++ [.punct ")"])
  | .binary op left right =>
    .punct "(" :: (left.printedKinds record ++
      .punct op.symbol :: (right.printedKinds record ++ [.punct ")"]))

def leaves : Expr → List String
  | .literal .. => []
  | .option name => [name]
  | .unary _ operand => operand.leaves
  | .binary _ left right => left.leaves ++ right.leaves

end Expr

theorem Literal.kind_ne_punct {spelling symbol : String} (value : Literal) :
    value.kind spelling ≠ .punct symbol := by
  cases value <;> exact TokenKind.noConfusion

theorem member?_eq_none {record : String} {a b : TokenKind}
    (h : a ≠ .name record ∨ b ≠ .punct ".") (c : TokenKind) : member? record a b c = none := by
  unfold member?
  split
  · refine if_neg ?_
    rintro ⟨rfl, rfl⟩
    rcases h with h | h
    · exact h rfl
    · exact h rfl
  · rfl

@[simp]
theorem member?_name {record name : String} :
    member? record (.name record) (.punct ".") (.name name) = some name := by
  simp [member?]

theorem members_cons {record : String} {k : TokenKind} {ks : List TokenKind}
    (h : k ≠ .name record ∨ ks.head? ≠ some (.punct ".")) :
    members record (k :: ks) = members record ks := by
  match ks with
  | [] => rfl
  | [_] => rfl
  | b :: c :: rest =>
    rw [members, member?_eq_none (h.imp_right fun hne hb ↦ hne (congrArg some hb))]
    rfl

theorem sliceChars_eq {text : List Char} {start stop : Nat} (before piece rest : List Char)
    (htext : text = before ++ (piece ++ rest)) (hstart : start = size before)
    (hstop : stop = start + size piece) : sliceChars start stop text = piece := by
  rw [htext, hstop, hstart, sliceChars_append]

namespace Piece

def fuse (record : String) : List Piece → List Piece
  | p :: dot :: name :: rest =>
    match member? record p.kind dot.kind name.kind with
    | some _ => { name with gap := p.gap } :: fuse record rest
    | none => p :: fuse record (dot :: name :: rest)
  | ps => ps

variable {record : String} {p : Piece} {ps : List Piece}

theorem fuse_cons (h : p.kind ≠ .name record ∨ ps.head?.map Piece.kind ≠ some (.punct ".")) :
    fuse record (p :: ps) = p :: fuse record ps := by
  match ps with
  | [] => rfl
  | [_] => rfl
  | dot :: name :: rest =>
    rw [fuse, member?_eq_none (h.imp_right fun hne hdot ↦ hne (congrArg some hdot))]

theorem unqualified_place {text before : List Char} {offset : Nat}
    (htext : text = before ++ chars ps) (hoffset : offset = size before) :
    unqualified record text offset (place offset ps) = chars (fuse record ps) := by
  induction ps using fuse.induct record generalizing before offset with
  | case1 p dot name rest member hmember ih =>
    have hgap : sliceChars offset (offset + size p.gap) text = p.gap :=
      sliceChars_eq before _ _ (by rw [htext, chars_cons]) hoffset rfl
    let passed := before ++ p.gap ++ p.spelling ++ dot.gap ++ dot.spelling ++ name.gap
    have hpassed : offset + size p.gap + size p.spelling + size dot.gap + size dot.spelling +
        size name.gap = size passed := by
      simp [passed, hoffset, Nat.add_assoc]
    have hname : sliceChars (size passed) (size passed + size name.spelling) text = name.spelling :=
      sliceChars_eq passed _ (chars rest) (by simp [passed, htext]) rfl rfl
    have hrest : unqualified record text (size passed + size name.spelling)
        (place (size passed + size name.spelling) rest) = chars (fuse record rest) :=
      ih (by simp [passed, htext] : text = (passed ++ name.spelling) ++ chars rest)
        (size_append _ _).symm
    simp only [place, unqualified, fuse, hmember, Token.stop, String.toList_ofList, hpassed, hgap,
      hname, hrest, chars_cons, List.append_assoc]
  | case2 p dot name rest hmember ih =>
    have hp : sliceChars offset (offset + size p.gap + size p.spelling) text =
        p.gap ++ p.spelling :=
      sliceChars_eq before _ (chars (dot :: name :: rest)) (by simp [htext]) hoffset
        (by simp [Nat.add_assoc])
    have hrest : unqualified record text (offset + size p.gap + size p.spelling)
        (place (offset + size p.gap + size p.spelling) (dot :: name :: rest)) =
          chars (fuse record (dot :: name :: rest)) :=
      ih (by simp [htext] : text = (before ++ (p.gap ++ p.spelling)) ++ chars (dot :: name :: rest))
        (by simp [hoffset, Nat.add_assoc])
    rw [place, place, place, unqualified]
    simp only [hmember, Token.stop, String.toList_ofList, hp]
    rw [← place, ← place, hrest, fuse]
    simp only [hmember, chars_cons, List.append_assoc]
  | case3 ps hshort =>
    have hall := sliceChars_eq before (chars ps) [] (by simpa using htext) hoffset
      (show size text = offset + size (chars ps) by simp [htext, hoffset])
    rcases ps with - | ⟨p, - | ⟨dot, - | ⟨name, rest⟩⟩⟩
    · exact hall
    · exact hall
    · exact hall
    · exact absurd rfl (hshort p dot name rest)

end Piece

namespace Expr

/-- Spelled as a condition can be: every leaf is read again where it ends. -/
def WellSpelled : Expr → Prop
  | .literal spelling value =>
    (∀ rest, Stops rest → Token.Lexes (value.kind spelling) spelling.toList rest) ∧
      ∀ start, Derives .primary [⟨value.kind spelling, spelling, start⟩] (.literal spelling value)
  | .option name => isName name = true ∧ name ∉ wordLiterals.map (·.1) ∧ name ∉ reservedWords
  | .unary _ operand => operand.WellSpelled
  | .binary _ left right => left.WellSpelled ∧ right.WellSpelled

theorem wellSpelled_of_derives {source : String} {tokens : List Token}
    (hscan : Token.scan source = .ok tokens) {c : Category} {ts : List Token} {e : Expr}
    (h : Derives c ts e) (hmem : ∀ t ∈ ts, t ∈ tokens) : e.WellSpelled := by
  induction h with
  | @option t word hk hword hreserved =>
    obtain ⟨hname, -⟩ := Token.isName_of_mem_scanFrom hscan (hmem t List.mem_cons_self) hk
    exact ⟨hname, hword, hreserved⟩
  | @word t word value hk hword =>
    have ht := hmem t List.mem_cons_self
    obtain ⟨-, rfl⟩ := Token.isName_of_mem_scanFrom hscan ht hk
    have hkind : value.kind t.spelling = t.kind := by
      rw [hk]
      simp only [wordLiterals, List.mem_cons, Prod.mk.injEq, List.not_mem_nil, or_false] at hword
      rcases hword with ⟨-, rfl⟩ | ⟨-, rfl⟩ | ⟨-, rfl⟩ <;> rfl
    refine ⟨fun rest hstop ↦ ?_, fun start ↦ .word (hkind.trans hk) hword⟩
    rw [hkind]
    exact Token.lexes_of_mem_scanFrom hscan ht (by simp [hk]) hstop
  | @number t x hk =>
    refine ⟨fun rest hstop ↦ ?_, fun start ↦ .number rfl⟩
    have := Token.lexes_of_mem_scanFrom hscan (hmem t List.mem_cons_self) (by simp [hk]) hstop
    rwa [hk] at this
  | @text t s hk =>
    refine ⟨fun rest hstop ↦ ?_, fun start ↦ .text rfl⟩
    have := Token.lexes_of_mem_scanFrom hscan (hmem t List.mem_cons_self) (by simp [hk]) hstop
    rwa [hk] at this
  | group _ _ _ ih => exact ih fun t ht ↦ hmem t (by simp [ht])
  | primary _ ih | tightest _ ih | tighter _ ih => exact ih hmem
  | unary _ _ _ ih => exact ih fun t ht ↦ hmem t (by simp [ht])
  | binary _ _ _ _ ihe ihf =>
    exact ⟨ihe fun t ht ↦ hmem t (by simp [ht]), ihf fun t ht ↦ hmem t (by simp [ht])⟩

theorem wellSpelled_of_parse {source : String} {e : Expr} (h : parse source = .ok e) :
    e.WellSpelled := by
  obtain ⟨tokens, hscan, -⟩ := bind_ok h
  exact wellSpelled_of_derives hscan (derives_of_parse hscan h) fun _ ht ↦ ht

def clashes (op : BinaryOp) : Expr → Bool
  | .unary sign _ => sign.symbol == op.symbol
  | _ => false

def symbolPiece (gap : List Char) (symbol : String) : Piece := ⟨gap, .punct symbol, symbol.toList⟩

def namePiece (gap : List Char) (name : String) : Piece := ⟨gap, .name name, name.toList⟩

def pieces (leaf : List Char → String → List Piece) (gap : List Char) : Expr → List Piece
  | .literal spelling value => [⟨gap, value.kind spelling, spelling.toList⟩]
  | .option name => leaf gap name
  | .unary op operand =>
    symbolPiece gap op.symbol :: symbolPiece [] "(" ::
      (operand.pieces leaf [] ++ [symbolPiece [] ")"])
  | .binary op left right =>
    symbolPiece gap "(" :: (left.pieces leaf [] ++ symbolPiece [] op.symbol ::
      (right.pieces leaf (if clashes op right then [' '] else []) ++ [symbolPiece [] ")"]))

def plain (gap : List Char) (name : String) : List Piece := [namePiece gap name]

def qualified (record : String) (gap : List Char) (name : String) : List Piece :=
  [namePiece gap record, symbolPiece [] ".", namePiece [] name]

theorem chars_symbolPiece {gap : List Char} {symbol : String} {ps : List Piece} :
    Piece.chars (symbolPiece gap symbol :: ps) = gap ++ (symbol.toList ++ Piece.chars ps) :=
  Piece.chars_cons

theorem chars_namePiece {gap : List Char} {name : String} {ps : List Piece} :
    Piece.chars (namePiece gap name :: ps) = gap ++ (name.toList ++ Piece.chars ps) :=
  Piece.chars_cons

structure IsLeaf (leaf : List Char → String → List Piece) : Prop where
  gap (gap : List Char) (name : String) :
    Piece.chars (leaf gap name) = gap ++ Piece.chars (leaf [] name)
  lexable {gap : List Char} {name : String} {rest : List Char} : gap.all isBlank = true →
    isName name = true → Stops rest → Piece.Lexable (leaf gap name) rest
  head {name : String} : isName name = true →
    ∀ c ∈ (Piece.chars (leaf [] name)).head?, isNameStart c = true

theorem isNameStart_head {name : String} (h : isName name = true) (rest : List Char) :
    ∀ c ∈ (name.toList ++ rest).head?, isNameStart c = true := by
  obtain ⟨c, cs, hname, hstart, -⟩ := isName_iff.1 h
  simp [hname, hstart]

theorem isLeaf_plain : IsLeaf plain where
  gap gap name := by simp [plain, namePiece]
  lexable hgap hname hstop :=
    ⟨hgap, Token.lexes_name hname fun c hc ↦ (hstop c hc).1, trivial⟩
  head hname := by
    rw [plain, chars_namePiece, List.nil_append]
    exact isNameStart_head hname _

theorem isLeaf_qualified {record : String} (hrecord : isName record = true) :
    IsLeaf (qualified record) where
  gap gap name := by simp [qualified, namePiece]
  lexable {gap name rest} hgap hname hstop := by
    have hpoint : ∀ c ∈ (['.'] ++ (name.toList ++ rest)).head?, isNamePart c = false := by
      intro c hc
      obtain rfl := Option.some.inj hc
      decide
    have hmember : ∀ c ∈ (name.toList ++ rest).head?,
        c ∉ Token.prolongations "." ∧ ("." = "." → isDigit c = false) := by
      intro c hc
      have hc := isNameStart_head hname rest c hc
      refine ⟨fun hmem ↦ ?_, fun _ ↦ isDigit_of_isNameStart hc⟩
      have hall : (Token.prolongations ".").all (!isNameStart ·) = true := by decide
      have hno := List.all_eq_true.1 hall c hmem
      rw [hc] at hno
      cases hno
    have hlexable : Piece.Lexable [symbolPiece [] ".", namePiece [] name] rest :=
      ⟨rfl, Token.lexes_punct (by decide) (by simpa [namePiece] using hmember), rfl,
        Token.lexes_name hname fun c hc ↦ (hstop c hc).1, trivial⟩
    refine ⟨hgap, Token.lexes_name hrecord ?_, hlexable⟩
    simpa [symbolPiece, namePiece] using hpoint
  head hname := by
    rw [qualified, chars_namePiece, List.nil_append]
    exact isNameStart_head hrecord _

theorem operator_mem_punctuators (op : BinaryOp) :
    op.symbol ∈ Token.punctuators ∧ op.symbol ≠ "." := by
  cases op <;> decide

theorem sign_mem_punctuators (sign : UnaryOp) :
    sign.symbol ∈ Token.punctuators ∧ sign.symbol ≠ "." := by
  cases sign <;> decide

/-- An operator is prolonged by characters that start no operand, and by a sign only if the operator
is that sign. -/
theorem prolongations_binary (op : BinaryOp) {c : Char} (h : c ∈ Token.prolongations op.symbol) :
    c ∈ ['=', '<', '>', '&', '|', '*'] ∨ c ∈ ['+', '-'] ∧ op.symbol.toList = [c] := by
  have hall : ∀ op ∈ BinaryOp.all, (Token.prolongations op.symbol).all (fun c ↦
      decide (c ∈ ['=', '<', '>', '&', '|', '*'] ∨ c ∈ ['+', '-'] ∧ op.symbol.toList = [c])) := by
    decide +kernel
  exact of_decide_eq_true (List.all_eq_true.1 (hall op (by cases op <;> decide)) c h)

theorem isPunctuation_prolongation {op : BinaryOp} {c : Char}
    (h : c ∈ Token.prolongations op.symbol) :
    Token.isPunctuation c = true ∧ c ∉ ['.', '(', ')', ' '] := by
  have hall : ['=', '<', '>', '&', '|', '*', '+', '-'].all (fun c ↦
      decide (Token.isPunctuation c = true ∧ c ∉ ['.', '(', ')', ' '])) = true := by
    decide
  refine of_decide_eq_true (List.all_eq_true.1 hall c ?_)
  rcases prolongations_binary op h with h | ⟨h, -⟩
  · exact List.mem_append_left ['+', '-'] h
  · exact List.mem_append_right ['=', '<', '>', '&', '|', '*'] h

theorem sign_symbol (sign : UnaryOp) :
    ∃ c, sign.symbol.toList = [c] ∧ c ∉ ['=', '<', '>', '&', '|', '*'] := by
  cases sign <;> exact ⟨_, rfl, by decide⟩

theorem literal_head {spelling : String} {value : Literal}
    (h : (Expr.literal spelling value).WellSpelled) {c : Char} (hc : c ∈ spelling.toList.head?)
    (hpunctuation : Token.isPunctuation c = true) : c = '.' := by
  obtain ⟨d, ds, hspelling, -, hlexeme⟩ := h.1 [] stops_nil
  rw [hspelling] at hc
  obtain rfl := Option.some.inj hc
  refine Decidable.byContradiction fun hpoint ↦ ?_
  obtain ⟨p, hp⟩ := Token.kind_of_punctuation hpunctuation (fun h ↦ absurd h hpoint) (hlexeme 0)
  exact Literal.kind_ne_punct value hp

theorem pieces_head {leaf : List Char → String → List Piece} (hleaf : IsLeaf leaf) {op : BinaryOp}
    {right : Expr} (hright : right.WellSpelled) (h : clashes op right = false) :
    ∀ c ∈ (Piece.chars (right.pieces leaf [])).head?, c ∉ Token.prolongations op.symbol := by
  intro c hc hmem
  obtain ⟨hpunctuation, hnot⟩ := isPunctuation_prolongation hmem
  cases right with
  | literal spelling value =>
    obtain rfl := literal_head hright (by simpa [pieces] using hc) hpunctuation
    exact hnot (by decide)
  | option name =>
    have hstart := hleaf.head hright.1 c hc
    rw [(Token.isPunctuation_iff.1 hpunctuation).2.1] at hstart
    cases hstart
  | unary sign operand =>
    obtain ⟨s, hs, hne⟩ := sign_symbol sign
    obtain rfl : s = c := by simpa [pieces, symbolPiece, hs] using hc
    rcases prolongations_binary op hmem with hmem | ⟨-, hop⟩
    · exact hne hmem
    · have heq : sign.symbol = op.symbol := String.toList_inj.1 (hs.trans hop.symm)
      simp [clashes, heq] at h
  | binary op' left right =>
    obtain rfl := Option.some.inj hc
    exact hnot (by decide)

theorem lexes_parenthesis {p : String} (hp : p ∈ ["(", ")"]) (rest : List Char) :
    Token.Lexes (.punct p) p.toList rest := by
  have hall : ∀ p ∈ ["(", ")"], p ∈ Token.punctuators ∧ Token.prolongations p = [] ∧ p ≠ "." := by
    decide
  obtain ⟨hmem, hnil, hpoint⟩ := hall p hp
  refine Token.lexes_punct hmem fun c _ ↦ ⟨?_, fun h ↦ absurd h hpoint⟩
  rw [hnil]
  exact List.not_mem_nil

theorem lexes_sign (sign : UnaryOp) (rest : List Char) :
    Token.Lexes (.punct sign.symbol) sign.symbol.toList ('(' :: rest) := by
  obtain ⟨hmem, hpoint⟩ := sign_mem_punctuators sign
  refine Token.lexes_punct hmem fun c hc ↦ ⟨?_, fun h ↦ absurd h hpoint⟩
  obtain rfl := Option.some.inj hc
  cases sign <;> decide

theorem lexes_operator {op : BinaryOp} {rest : List Char}
    (h : ∀ c ∈ rest.head?, c ∉ Token.prolongations op.symbol) :
    Token.Lexes (.punct op.symbol) op.symbol.toList rest := by
  obtain ⟨hmem, hpoint⟩ := operator_mem_punctuators op
  exact Token.lexes_punct hmem fun c hc ↦ ⟨h c hc, fun h ↦ absurd h hpoint⟩

theorem stops_operator (op : BinaryOp) (rest : List Char) : Stops (op.symbol.toList ++ rest) := by
  have hhead : ∃ c cs, op.symbol.toList = c :: cs ∧ isNamePart c = false ∧ c ≠ '.' := by
    cases op <;> exact ⟨_, _, rfl, by decide⟩
  obtain ⟨c, cs, hop, hc⟩ := hhead
  rw [hop]
  exact stops_cons hc _

theorem stops_close (rest : List Char) : Stops (')' :: rest) :=
  stops_cons (by decide) rest

theorem chars_pieces_gap {leaf : List Char → String → List Piece} (hleaf : IsLeaf leaf)
    (gap : List Char) (e : Expr) :
    Piece.chars (e.pieces leaf gap) = gap ++ Piece.chars (e.pieces leaf []) := by
  cases e with
  | option name => exact hleaf.gap gap name
  | literal | unary | binary => simp [pieces, symbolPiece]

theorem lexes_operator_pieces {leaf : List Char → String → List Piece} (hleaf : IsLeaf leaf)
    {op : BinaryOp} {right : Expr} (hright : right.WellSpelled) (rest : List Char) :
    Token.Lexes (.punct op.symbol) op.symbol.toList
      (Piece.chars (right.pieces leaf (if clashes op right then [' '] else [])) ++
        ')' :: rest) := by
  refine lexes_operator fun c hc hmem ↦ ?_
  obtain ⟨-, hnot⟩ := isPunctuation_prolongation hmem
  rw [chars_pieces_gap hleaf] at hc
  cases hclash : clashes op right with
  | true =>
    obtain rfl : ' ' = c := by simpa [hclash] using hc
    exact hnot (by decide)
  | false =>
    cases hchars : Piece.chars (right.pieces leaf []) with
    | nil =>
      obtain rfl : ')' = c := by simpa [hclash, hchars] using hc
      exact hnot (by decide)
    | cons d ds =>
      obtain rfl : d = c := by simpa [hclash, hchars] using hc
      exact pieces_head hleaf hright hclash d (by rw [hchars]; rfl) hmem

theorem lexable_pieces {leaf : List Char → String → List Piece} (hleaf : IsLeaf leaf) {e : Expr}
    (he : e.WellSpelled) {gap : List Char} (hgap : gap.all isBlank = true) {rest : List Char}
    (hstop : Stops rest) : Piece.Lexable (e.pieces leaf gap) rest := by
  have hclose : ∀ rest, Piece.Lexable [symbolPiece [] ")"] rest :=
    fun rest ↦ ⟨rfl, lexes_parenthesis (by decide) _, trivial⟩
  induction e generalizing gap rest with
  | literal spelling value => exact ⟨hgap, he.1 rest hstop, trivial⟩
  | option name => exact hleaf.lexable hgap he.1 hstop
  | unary op operand ih =>
    refine ⟨hgap, lexes_sign op _, rfl, lexes_parenthesis (by decide) _, ?_⟩
    exact Piece.lexable_append.2 ⟨ih he rfl (stops_close rest), hclose rest⟩
  | binary op left right ihl ihr =>
    refine ⟨hgap, lexes_parenthesis (by decide) _, Piece.lexable_append.2 ⟨?_, rfl, ?_, ?_⟩⟩
    · rw [chars_symbolPiece, List.nil_append, List.append_assoc]
      exact ihl he.1 rfl (stops_operator op _)
    · rw [Piece.chars_append, List.append_assoc]
      exact lexes_operator_pieces hleaf he.2 rest
    · refine Piece.lexable_append.2 ⟨ihr he.2 ?_ (stops_close rest), hclose rest⟩
      split <;> decide

theorem merges_of_head {symbol right : List Char} (h : ∀ c ∈ right.head?, c ≠ '+' ∧ c ≠ '-') :
    merges symbol right = false := by
  unfold merges
  split
  · next c d _ hd =>
    obtain ⟨hplus, hminus⟩ := h d hd
    by_cases hcd : c = d
    · simp [hcd, hplus, hminus]
    · simp [hcd]
  · rfl

theorem merges_printChars {record : String} (hrecord : isName record = true) (op : BinaryOp)
    {right : Expr} (hright : right.WellSpelled) :
    merges op.symbol.toList (right.printChars record.toList) = clashes op right := by
  have hsigns : ∀ c, c = '+' ∨ c = '-' → Token.isPunctuation c = true ∧ c ≠ '.' := by
    rintro c (rfl | rfl) <;> decide
  cases right with
  | literal spelling value =>
    refine merges_of_head fun c hc ↦ ?_
    rw [← not_or]
    intro hsign
    obtain ⟨hpunctuation, hpoint⟩ := hsigns c hsign
    exact hpoint (literal_head hright hc hpunctuation)
  | option name =>
    refine merges_of_head fun c hc ↦ ?_
    have hstart := isNameStart_head hrecord _ c hc
    rw [← not_or]
    intro hsign
    rw [(Token.isPunctuation_iff.1 (hsigns c hsign).1).2.1] at hstart
    cases hstart
  | unary sign operand =>
    obtain ⟨c, hc, -⟩ := sign_symbol sign
    have hhead : merges op.symbol.toList ((Expr.unary sign operand).printChars record.toList) =
        merges op.symbol.toList sign.symbol.toList := by
      simp [printChars, merges, hc]
    rw [hhead, clashes]
    cases op <;> cases sign <;> decide
  | binary op' left right => exact merges_of_head (by simp [printChars])

theorem chars_pieces_qualified {record : String} (hrecord : isName record = true) {e : Expr}
    (he : e.WellSpelled) (gap : List Char) :
    Piece.chars (e.pieces (qualified record) gap) = gap ++ e.printChars record.toList := by
  induction e generalizing gap with
  | literal spelling value => simp [pieces, printChars]
  | option name => simp [pieces, qualified, namePiece, symbolPiece, printChars]
  | unary op operand ih => simp [pieces, symbolPiece, printChars, ih he]
  | binary op left right ihl ihr =>
    simp only [pieces, symbolPiece, printChars, Piece.chars_cons, Piece.chars_append, ihl he.1,
      ihr he.2, merges_printChars hrecord op he.2]
    cases clashes op right <;> simp

theorem fuse_pieces {record : String} {e : Expr} {rest : List Piece} (gap : List Char)
    (hrest : rest.head?.map Piece.kind ≠ some (.punct ".")) :
    Piece.fuse record (e.pieces (qualified record) gap ++ rest) =
      e.pieces plain gap ++ Piece.fuse record rest := by
  have hsymbol : ∀ gap symbol ps, Piece.fuse record (symbolPiece gap symbol :: ps) =
      symbolPiece gap symbol :: Piece.fuse record ps :=
    fun gap symbol ps ↦ Piece.fuse_cons (.inl TokenKind.noConfusion)
  induction e generalizing gap rest with
  | literal spelling value => exact Piece.fuse_cons (.inr hrest)
  | option name =>
    simp [pieces, qualified, plain, Piece.fuse, namePiece, symbolPiece]
  | unary op operand ih =>
    simp only [pieces, List.cons_append, List.append_assoc, hsymbol]
    rw [ih [] (by simp [symbolPiece])]
    simp [hsymbol]
  | binary op left right ihl ihr =>
    have hop : op.symbol ≠ "." := (operator_mem_punctuators op).2
    simp only [pieces, List.cons_append, List.append_assoc, hsymbol]
    rw [ihl [] (by simpa [symbolPiece] using hop), hsymbol, ihr _ (by simp [symbolPiece])]
    simp [hsymbol]

theorem derives_group {op : BinaryOp} {ts us : List Token} {left right : Expr}
    {first t close : Token} (hfirst : first.kind = .punct "(") (hleft : Derives .unary ts left)
    (ht : t.kind = .punct op.symbol) (hright : Derives .unary us right)
    (hclose : close.kind = .punct ")") :
    Derives .unary (first :: (ts ++ t :: (us ++ [close]))) (.binary op left right) := by
  obtain ⟨n, hn, hmax⟩ : ∃ n, op.precedence = n + 1 ∧ n ≤ 9 := by
    cases op <;> exact ⟨_, rfl, by decide⟩
  have hbinary := (hleft.tightest.looser (by omega)).binary ht (mem_levelOperators.2 ⟨rfl, hn⟩)
    (hright.tightest.looser (by omega))
  have hgroup := Derives.group hfirst (hbinary.looser (Nat.zero_le n)) hclose
  rw [List.append_assoc, List.cons_append] at hgroup
  exact hgroup.primary

theorem derives_pieces {e : Expr} (he : e.WellSpelled) (gap : List Char) (offset : Nat) :
    Derives .unary (Piece.place offset (e.pieces plain gap)) e := by
  induction e generalizing gap offset with
  | literal spelling value =>
    rw [pieces, Piece.place, Piece.place, String.ofList_toList]
    exact .primary (he.2 _)
  | option name => exact .primary (.option rfl he.2.1 he.2.2)
  | unary op operand ih =>
    simp only [pieces, Piece.place, Piece.place_append]
    exact .unary rfl (mem_unaryOperators.2 rfl)
      (.primary (.group rfl ((ih he _ _).tightest.looser (Nat.zero_le _)) rfl))
  | binary op left right ihl ihr =>
    simp only [pieces, Piece.place, Piece.place_append]
    exact derives_group rfl (ihl he.1 _ _) rfl (ihr he.2 _ _) rfl

theorem kind_pieces (record : String) (gap : List Char) (e : Expr) :
    (e.pieces (qualified record) gap).map Piece.kind = e.printedKinds record := by
  induction e generalizing gap with
  | literal | option => rfl
  | unary op operand ih => simp [pieces, printedKinds, symbolPiece, ih]
  | binary op left right ihl ihr => simp [pieces, printedKinds, symbolPiece, ihl, ihr]

theorem members_printedKinds {record : String} {e : Expr} {rest : List TokenKind}
    (hrest : rest.head? ≠ some (.punct ".")) :
    members record (e.printedKinds record ++ rest) = e.leaves ++ members record rest := by
  have hsymbol : ∀ symbol ks, members record (.punct symbol :: ks) = members record ks :=
    fun symbol ks ↦ members_cons (.inl TokenKind.noConfusion)
  induction e generalizing rest with
  | literal spelling value => exact members_cons (.inr hrest)
  | option name =>
    change members record (.name record :: .punct "." :: .name name :: rest) = _
    rw [members, member?_name, hsymbol, members_cons (.inr hrest)]
    rfl
  | unary op operand ih =>
    simp only [printedKinds, leaves, List.cons_append, List.append_assoc, hsymbol]
    rw [ih (by simp), List.nil_append, hsymbol]
  | binary op left right ihl ihr =>
    have hop : op.symbol ≠ "." := (operator_mem_punctuators op).2
    simp only [printedKinds, leaves, List.cons_append, List.append_assoc, hsymbol]
    rw [ihl (by simpa using hop), hsymbol, ihr (by simp), List.nil_append, hsymbol]

variable {record : String} {e : Expr}

theorem toList_print (hrecord : isName record = true) (he : e.WellSpelled) :
    (e.print record).toList = Piece.chars (e.pieces (qualified record) []) := by
  rw [chars_pieces_qualified hrecord he, print, String.toList_ofList, List.nil_append]

theorem scan_print (hrecord : isName record = true) (he : e.WellSpelled) :
    Token.scan (e.print record) = .ok (Piece.place 0 (e.pieces (qualified record) [])) := by
  have hlexable : Piece.Lexable (e.pieces (qualified record) []) [] :=
    lexable_pieces (isLeaf_qualified hrecord) he rfl stops_nil
  exact Piece.scan_eq_place (toList_print hrecord he) hlexable

theorem unqualified_print (hrecord : isName record = true) (he : e.WellSpelled) :
    unqualified record (e.print record).toList 0
      (Piece.place 0 (e.pieces (qualified record) [])) = Piece.chars (e.pieces plain []) := by
  have hchars : (e.print record).toList = [] ++ Piece.chars (e.pieces (qualified record) []) :=
    toList_print hrecord he
  have hfuse : Piece.fuse record (e.pieces (qualified record) [] ++ []) = e.pieces plain [] ++ [] :=
    fuse_pieces [] (by simp)
  rw [List.append_nil, List.append_nil] at hfuse
  rw [← hfuse]
  exact Piece.unqualified_place hchars rfl

theorem parse_plain (he : e.WellSpelled) :
    parse (String.ofList (Piece.chars (e.pieces plain []))) = .ok e := by
  have hlexable : Piece.Lexable (e.pieces plain []) [] :=
    lexable_pieces isLeaf_plain he rfl stops_nil
  have hscan : Token.scan (String.ofList (Piece.chars (e.pieces plain []))) =
      .ok (Piece.place 0 (e.pieces plain [])) :=
    Piece.scan_eq_place String.toList_ofList hlexable
  exact parse_of_derives hscan ((derives_pieces he [] 0).tightest.looser (Nat.zero_le _))

/-- The printed condition has the tokens of its expression, an option being read as a member of the
record where the expression has the option and nowhere else; without the record it is read as the
same expression. -/
theorem parse_unqualified_print {source : String} (h : parse source = .ok e)
    (hrecord : isName record = true) :
    ∃ tokens, Token.scan (e.print record) = .ok tokens ∧
      tokens.map Token.kind = e.printedKinds record ∧
      members record (tokens.map Token.kind) = e.leaves ∧
      parse (String.ofList (unqualified record (e.print record).toList 0 tokens)) = .ok e := by
  have he := wellSpelled_of_parse h
  have hkinds : (Piece.place 0 (e.pieces (qualified record) [])).map Token.kind =
      e.printedKinds record := by
    rw [Piece.map_kind_place, kind_pieces]
  have hmembers : members record (e.printedKinds record ++ []) = e.leaves ++ [] :=
    members_printedKinds (by simp)
  rw [List.append_nil, List.append_nil] at hmembers
  refine ⟨_, scan_print hrecord he, hkinds, by rw [hkinds, hmembers], ?_⟩
  rw [unqualified_print hrecord he]
  exact parse_plain he

theorem parse_unqualified_signs :
    ∃ tokens, Token.scan "((o.a- -(o.o))==='`?')" = .ok tokens ∧
      members "o" (tokens.map Token.kind) = ["a", "o"] ∧
      parse (String.ofList (unqualified "o" "((o.a- -(o.o))==='`?')".toList 0 tokens)) =
        .ok (.binary .identical
          (.binary .subtract (.option "a") (.unary .negate (.option "o")))
          (.literal "'`?'" (.text "`?"))) := by
  have hparse : (parse "a - -o === '`?'").toOption = some
      (.binary .identical
        (.binary .subtract (.option "a") (.unary .negate (.option "o")))
        (.literal "'`?'" (.text "`?"))) := by
    decide +kernel
  obtain ⟨tokens, hscan, -, hmembers, hread⟩ :=
    parse_unqualified_print (eq_ok_of_toOption hparse) (by decide : isName "o" = true)
  have hprint : print "o" (.binary .identical
      (.binary .subtract (.option "a") (.unary .negate (.option "o")))
      (.literal "'`?'" (.text "`?"))) = "((o.a- -(o.o))==='`?')" := by
    decide
  rw [hprint] at hscan hread
  exact ⟨tokens, hscan, hmembers, hread⟩

end Expr

end Transclude
