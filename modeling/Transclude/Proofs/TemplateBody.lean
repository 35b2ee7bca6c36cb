import Transclude.Proofs.Condition.Reread
import Transclude.Proofs.NormalForm

namespace Transclude

open Text

/-- Reads an expression in which the options are members of a record. -/
def Expr.reread (record : String) (text : String) : Except ConditionError Expr := do
  let tokens ← Token.scan text
  Expr.parse (String.ofList (unqualified record text.toList 0 tokens))

namespace Template

def opening? (kind : TokenKind) (rest : List Char) : Option (List Char) :=
  match kind, trimLeft rest with
  | .punct "?", '\x60' :: body => some body
  | _, _ => none

def endOfGuard : List Char := ['\x60', ':', '\x22', '\x22', '\x7d']

def closing? : List Char → Option (List Char)
  | '\x60' :: ':' :: '\x22' :: '\x22' :: '\x7d' :: rest => some rest
  | _ => none

@[simp]
theorem closing?_endOfGuard (rest : List Char) : closing? (endOfGuard ++ rest) = some rest := rfl

theorem length_of_opening? {kind : TokenKind} {rest body : List Char}
    (h : opening? kind rest = some body) : body.length < rest.length := by
  unfold opening? at h
  split at h
  · next heq =>
    cases h
    have hle : (trimLeft rest).length ≤ rest.length := (List.dropWhile_suffix _).length_le
    rw [heq, List.length_cons] at hle
    exact hle
  · cases h

theorem length_of_closing? {cs rest : List Char} (h : closing? cs = some rest) :
    rest.length < cs.length := by
  unfold closing? at h
  split at h
  · cases h
    simp only [List.length_cons]
    omega
  · cases h

/-- A condition, read token by token up to `?` and a backtick: its text, and what follows. -/
def condition? (cs : List Char) : Option (List Char × List Char) :=
  match cs with
  | [] => none
  | c :: cs =>
    if isBlank c then (condition? cs).map fun (text, body) ↦ (c :: text, body)
    else
      match Token.lexeme 0 c cs with
      | .error _ => none
      | .ok found =>
        let rest := cs.drop found.tail
        match opening? found.kind rest with
        | some body => some ([], body)
        | none => (condition? rest).map fun (text, body) ↦ (c :: cs.take found.tail ++ text, body)
termination_by cs.length
decreasing_by all_goals (simp only [List.length_cons, List.length_drop]; omega)

theorem length_of_condition? {cs text body : List Char} (h : condition? cs = some (text, body)) :
    body.length < cs.length := by
  fun_induction condition? cs generalizing text body with
  | case1 | case3 => cases h
  | case2 c cs _ ih =>
    obtain ⟨⟨text', body'⟩, hrest, heq⟩ := Option.map_eq_some_iff.1 h
    cases heq
    exact Nat.lt_succ_of_lt (ih hrest)
  | case4 c cs _ found _ rest inside =>
    cases h
    have hlt := length_of_opening? ‹opening? found.kind rest = some inside›
    rw [List.length_drop] at hlt
    rw [List.length_cons]
    omega
  | case5 c cs _ found _ rest =>
    rename_i ih
    obtain ⟨⟨text', body'⟩, hrest, heq⟩ := Option.map_eq_some_iff.1 h
    cases heq
    have hlt := ih hrest
    rw [List.length_drop] at hlt
    rw [List.length_cons]
    omega

structure Reading (cs : List Char) where
  text : List Char
  rest : List Char
  notLonger : rest.length ≤ cs.length

/-- Evaluates a template body up to its closing backtick. Ordinary characters are copied. A guard
contributes what is under it if its condition holds; escapes are not read. -/
def body (record : String) (options : Json) (cs : List Char) : Option (Reading cs) :=
  match cs with
  | [] => some ⟨[], [], Nat.le_refl _⟩
  | '\x60' :: cs => some ⟨[], '\x60' :: cs, Nat.le_refl _⟩
  | '\\' :: _ => none
  | '$' :: '\x7b' :: cs =>
    match hcondition : condition? cs with
    | none => none
    | some (text, inside) => do
      let e ← (Expr.reread record (String.ofList text)).toOption
      let inner ← body record options inside
      match hclosing : closing? inner.rest with
      | none => none
      | some outside =>
        let after ← body record options outside
        some ⟨(if (e.eval options).isTruthy then inner.text else []) ++ after.text, after.rest, by
          have := length_of_condition? hcondition
          have := inner.notLonger
          have := length_of_closing? hclosing
          have := after.notLonger
          simp only [List.length_cons]
          omega⟩
  | c :: cs => do
    let after ← body record options cs
    some ⟨c :: after.text, after.rest, Nat.le_succ_of_le after.notLonger⟩
termination_by cs.length
decreasing_by
  · have := length_of_condition? hcondition
    simp only [List.length_cons]
    omega
  · have := length_of_condition? hcondition
    have := inner.notLonger
    have := length_of_closing? hclosing
    simp only [List.length_cons]
    omega
  · simp

def evaluate (record : String) (options : Json) (s : String) : Option String := do
  let reading ← body record options s.toList
  if reading.rest.isEmpty then some (String.ofList reading.text) else none

variable {record : String} {options : Json}

theorem lexes_question (rest : List Char) :
    Token.Lexes (.punct "?") ['?'] ('\x60' :: rest) := by
  refine Token.lexes_punct (by decide) fun c hc ↦ ?_
  obtain rfl := Option.some.inj hc
  decide

theorem condition?_blanks {gap rest : List Char} (h : gap.all isBlank = true) :
    condition? (gap ++ rest) = (condition? rest).map fun (text, body) ↦ (gap ++ text, body) := by
  induction gap with
  | nil => simp
  | cons c gap ih =>
    rw [List.all_cons, Bool.and_eq_true] at h
    rw [List.cons_append, condition?, if_pos h.1, ih h.2, Option.map_map]
    rfl

theorem condition?_lexes {kind : TokenKind} {spelling rest : List Char}
    (h : Token.Lexes kind spelling rest) :
    condition? (spelling ++ rest) =
      match opening? kind rest with
      | some body => some ([], body)
      | none => (condition? rest).map fun (text, body) ↦ (spelling ++ text, body) := by
  obtain ⟨c, cs, rfl, hblank, hlexeme⟩ := h
  rw [List.cons_append, condition?, hblank, hlexeme]
  simp only [Bool.false_eq_true, if_false, List.take_left, List.drop_left]

theorem opening?_of_ne {kind : TokenKind} (h : kind ≠ .punct "?") (rest : List Char) :
    opening? kind rest = none := by
  unfold opening?
  split
  · exact absurd rfl h
  · rfl

theorem condition?_pieces {ps : List Piece} {rest : List Char}
    (h : Piece.Lexable ps ('?' :: '\x60' :: rest)) (hkinds : ∀ p ∈ ps, p.kind ≠ .punct "?") :
    condition? (Piece.chars ps ++ '?' :: '\x60' :: rest) = some (Piece.chars ps, rest) := by
  induction ps with
  | nil =>
    have hend : opening? (.punct "?") ('\x60' :: rest) = some rest := by
      have hblank : isBlank '\x60' = false := by decide
      simp [opening?, trimLeft, hblank]
    have hcondition := condition?_lexes (lexes_question rest)
    rw [hend] at hcondition
    exact hcondition
  | cons p ps ih =>
    obtain ⟨hgap, hlexes, hps⟩ := h
    obtain ⟨hp, hkinds⟩ := List.forall_mem_cons.1 hkinds
    rw [Piece.chars_cons, List.append_assoc, List.append_assoc, condition?_blanks hgap,
      condition?_lexes hlexes, opening?_of_ne hp, ih hps hkinds]
    rfl

def Ends (rest : List Char) : Prop := rest = [] ∨ ∃ cs, rest = '\x60' :: cs

def Gives (record : String) (options : Json) (cs text rest : List Char) : Prop :=
  ∃ hle, body record options cs = some ⟨text, rest, hle⟩

theorem gives_end {rest : List Char} (h : Ends rest) : Gives record options rest [] rest := by
  rcases h with rfl | ⟨cs, rfl⟩
  · exact ⟨_, by rw [body]⟩
  · exact ⟨_, by rw [body]⟩

theorem gives_char {c : Char} {cs text rest : List Char} (hc : c ≠ '\x60') (hescape : c ≠ '\\')
    (hguard : c = '$' → cs.head? ≠ some '\x7b') (h : Gives record options cs text rest) :
    Gives record options (c :: cs) (c :: text) rest := by
  obtain ⟨hle, h⟩ := h
  refine ⟨Nat.le_succ_of_le hle, ?_⟩
  rw [body, h]
  · rfl
  · exact hc
  · exact hescape
  · rintro cs' rfl rfl
    exact hguard rfl rfl

theorem gives_guard {cs condition inside text outside after rest : List Char} {e : Expr}
    (hcondition : condition? cs = some (condition, inside))
    (he : Expr.reread record (String.ofList condition) = .ok e)
    (hinside : Gives record options inside text (endOfGuard ++ outside))
    (hafter : Gives record options outside after rest) :
    Gives record options ('$' :: '\x7b' :: cs)
      ((if (e.eval options).isTruthy then text else []) ++ after) rest := by
  obtain ⟨hle, hinside⟩ := hinside
  obtain ⟨hle', hafter⟩ := hafter
  have hlt := length_of_condition? hcondition
  have hlt' := length_of_closing? (closing?_endOfGuard outside)
  have hbound : rest.length ≤ ('$' :: '\x7b' :: cs).length := by
    simp only [List.length_cons]
    omega
  refine ⟨hbound, ?_⟩
  rw [body]
  split
  · next hnone =>
    rw [hcondition] at hnone
    cases hnone
  · next text' inside' hsome =>
    obtain ⟨rfl, rfl⟩ := Prod.mk.inj (Option.some.inj (hcondition.symm.trans hsome))
    rw [he, hinside]
    simp only [Except.toOption, bind, Option.bind]
    split
    · next hnone =>
      rw [closing?_endOfGuard] at hnone
      cases hnone
    · next outside' houtside =>
      obtain rfl := Option.some.inj ((closing?_endOfGuard outside).symm.trans houtside)
      rw [hafter]

def Ordinary (cs : List Char) : Prop :=
  '\x60' ∉ cs ∧ '\\' ∉ cs ∧ ¬['$', '\x7b'] <:+: cs

instance (cs : List Char) : Decidable (Ordinary cs) := inferInstanceAs (Decidable (_ ∧ _ ∧ _))

theorem gives_text {cs next text rest : List Char} (hcs : Ordinary cs)
    (hnext : next.head? ≠ some '\x7b') (h : Gives record options next text rest) :
    Gives record options (cs ++ next) (cs ++ text) rest := by
  induction cs with
  | nil => exact h
  | cons c cs ih =>
    obtain ⟨htick, hescape, hguard⟩ := hcs
    rw [List.mem_cons, not_or] at htick hescape
    have hcs : Ordinary cs :=
      ⟨htick.2, hescape.2, fun hpart ↦ hguard (hpart.trans (List.suffix_cons c cs).isInfix)⟩
    refine gives_char (Ne.symm htick.1) (Ne.symm hescape.1) ?_ (ih hcs)
    rintro rfl hhead
    cases cs with
    | nil => exact hnext hhead
    | cons d cs =>
      obtain rfl : d = '\x7b' := Option.some.inj hhead
      exact hguard (List.prefix_append ['$', '\x7b'] cs).isInfix

theorem reread_print (hrecord : isName record = true) {e : Expr} (he : e.WellSpelled) :
    Expr.reread record (e.print record) = .ok e := by
  rw [Expr.reread, Expr.scan_print hrecord he]
  change Expr.parse (String.ofList (unqualified record _ 0 _)) = _
  rw [Expr.unqualified_print hrecord he]
  exact Expr.parse_plain he

theorem printedKinds_ne_question (e : Expr) :
    ∀ k ∈ e.printedKinds record, k ≠ .punct "?" := by
  induction e with
  | literal spelling value => simp [Expr.printedKinds, Literal.kind_ne_punct]
  | option name => simp [Expr.printedKinds]
  | unary op operand ih =>
    have hop : op.symbol ≠ "?" := by cases op <;> decide
    simpa [Expr.printedKinds, hop, or_imp, forall_and] using ih
  | binary op left right ihl ihr =>
    have hop : op.symbol ≠ "?" := by cases op <;> decide
    simpa [Expr.printedKinds, hop, or_imp, forall_and] using ⟨ihl, ihr⟩

theorem condition?_print (hrecord : isName record = true) {e : Expr} (he : e.WellSpelled)
    (rest : List Char) :
    condition? ((e.print record).toList ++ '?' :: '\x60' :: rest) =
      some ((e.print record).toList, rest) := by
  have hstop : Stops ('?' :: '\x60' :: rest) := stops_cons (by decide) _
  rw [Expr.toList_print hrecord he]
  refine condition?_pieces (Expr.lexable_pieces (Expr.isLeaf_qualified hrecord) he rfl hstop) ?_
  intro p hp
  have hmem : p.kind ∈ e.printedKinds record := by
    rw [← Expr.kind_pieces record []]
    exact List.mem_map_of_mem hp
  exact printedKinds_ne_question e p.kind hmem

theorem templateBody_head {s : String} {e : Expansion} {rest : List Char}
    (h : Expansion.Apart (.text s) e) (hrest : Ends rest) :
    ((Expansion.templateBody record e).toList ++ rest).head? ≠ some '\x7b' := by
  cases e with
  | nil =>
    rcases hrest with rfl | ⟨cs, rfl⟩ <;> simp [Expansion.templateBody]
  | cons segment e =>
    cases segment with
    | text t => exact h.elim
    | guarded c body => simp [Expansion.templateBody, Expansion.templateSegment]

theorem wellSpelled_of_compile {source : String} {c : Condition}
    (h : Condition.compile source = .ok c) : c.expr.WellSpelled := by
  obtain ⟨e, he, h⟩ := bind_ok h
  cases h
  exact Expr.wellSpelled_of_parse he

open Expansion in
/-- The induction goes over the segments and what they guard; `rest` is the end of the literal
around them. -/
theorem gives_templateBody (hrecord : isName record = true) (options : Json) (e : Expansion)
    {depth : Nat} {rest : List Char} (hnormal : Normal e)
    (htexts : ∀ d s, (d, .text s) ∈ leveled depth e → Ordinary s.toList) (hrest : Ends rest) :
    Gives record options ((templateBody record e).toList ++ rest) (render options e).toList
      rest := by
  match e with
  | [] => simpa [templateBody, render] using gives_end hrest
  | .text s :: e =>
    obtain ⟨-, hapart, hnormal⟩ := hnormal
    simp only [leveled, leveledSegment, List.mem_append, List.mem_singleton] at htexts
    have ih := gives_templateBody hrecord options e hnormal
      (fun d s hs ↦ htexts d s (.inr hs)) hrest
    have htext := gives_text (htexts depth s (.inl rfl)) (templateBody_head hapart hrest) ih
    simpa [templateBody, templateSegment, render, renderSegment] using htext
  | .guarded c body :: e =>
    obtain ⟨⟨⟨source, hcompile⟩, hbody⟩, -, hnormal⟩ := hnormal
    have hc := wellSpelled_of_compile hcompile
    simp only [leveled, leveledSegment, List.mem_append, List.mem_cons] at htexts
    let outside := (templateBody record e).toList ++ rest
    have ih : Gives record options outside (render options e).toList rest :=
      gives_templateBody hrecord options e hnormal (fun d s hs ↦ htexts d s (.inr hs)) hrest
    have ihbody : Gives record options ((templateBody record body).toList ++ endOfGuard ++ outside)
        (render options body).toList (endOfGuard ++ outside) := by
      rw [List.append_assoc]
      exact gives_templateBody hrecord options body hbody
        (fun d s hs ↦ htexts d s (.inl (.inr hs))) (.inr ⟨_, rfl⟩)
    have hreread :
        Expr.reread record (String.ofList (c.expr.print record).toList) = .ok c.expr := by
      rw [String.ofList_toList]
      exact reread_print hrecord hc
    have hguard := gives_guard (condition?_print hrecord hc _) hreread ihbody ih
    have hrender : (render options (.guarded c body :: e)).toList =
        (if (c.expr.eval options).isTruthy then (render options body).toList else []) ++
          (render options e).toList := by
      rw [render, renderSegment, Condition.holds, String.toList_append]
      split <;> rfl
    rw [hrender]
    simpa [templateBody, templateSegment, endOfGuard, outside, Condition.print] using hguard
termination_by sizeOf e

/-- For every host, the template body of an expansion evaluates to the text that the expansion
renders to. -/
theorem evaluate_templateBody {host : Host} {root : SourceFile} {e : Expansion} {cache : Cache}
    (hexpand : expand host root = (.ok e, cache))
    (htexts : ∀ depth s, (depth, .text s) ∈ Expansion.leveled 0 e → Ordinary s.toList)
    {record : String} (hrecord : isName record = true) (options : Json) :
    evaluate record options (Expansion.templateBody record e) =
      some (Expansion.render options e) := by
  have h := gives_templateBody hrecord options e (Expansion.normal_of_expand hexpand) htexts
    (.inl rfl)
  rw [List.append_nil] at h
  obtain ⟨hle, h⟩ := h
  rw [evaluate, h]
  simp

def isOrdinary : Segment → Bool
  | .text s => decide (Ordinary s.toList)
  | .guarded .. => true

def guardedHost : MemoryHost :=
  .ofEntries [(⟨"/p/d"⟩, "$"), (⟨"/p/x"⟩, "X\n#include d if !off\n")] []

def guardedRoot : SourceFile :=
  ⟨⟨"/p/r"⟩, ⟨"/p"⟩, "#include d\n#include x if on === '`?'\nend"⟩

theorem evaluate_guarded :
    ∃ e cache, expand guardedHost.toHost guardedRoot = (.ok e, cache) ∧
      Expansion.templateBody "o" e =
        "$$\x7b(o.on==='`?')?`X\n$\x7b!(o.off)?`$`:\"\"\x7d`:\"\"\x7dend" ∧
      evaluate "o" (.object [("on", .string "`?")]) (Expansion.templateBody "o" e) =
        some "$X\n$end" := by
  have hcheck : ((expand guardedHost.toHost guardedRoot).1.map fun e ↦
      (Expansion.templateBody "o" e, Expansion.render (.object [("on", .string "`?")]) e,
        (Expansion.leveled 0 e).all fun p ↦ isOrdinary p.2)).toOption =
      some ("$$\x7b(o.on==='`?')?`X\n$\x7b!(o.off)?`$`:\"\"\x7d`:\"\"\x7dend", "$X\n$end",
        true) := by
    decide +kernel
  cases hexpand : expand guardedHost.toHost guardedRoot with
  | mk result cache =>
    rw [hexpand] at hcheck
    cases result with
    | error err => cases hcheck
    | ok e =>
      obtain ⟨hbody, hcheck⟩ := Prod.mk.inj (Option.some.inj hcheck)
      obtain ⟨hrender, hall⟩ := Prod.mk.inj hcheck
      have htexts : ∀ depth s, (depth, .text s) ∈ Expansion.leveled 0 e → Ordinary s.toList :=
        fun depth s hs ↦ of_decide_eq_true (List.all_eq_true.1 hall _ hs)
      refine ⟨e, cache, rfl, hbody, ?_⟩
      rw [evaluate_templateBody hexpand htexts (by decide), hrender]

end Template

end Transclude
