import Transclude.Proofs.Condition.Blame
import Transclude.Proofs.Condition.Spacing

namespace Transclude

open Text Literal

namespace Token

/-- Somewhere in an expression the token begins a construct that conditions do not have. -/
def Offends (t : Token) (construct : Construct) : Prop :=
  t.opening? = some construct ∨ t.suffix? = some construct ∨ t.continuation? = some construct

/-- The fragment is a piece of the text and has the token in it. -/
def LiesIn (source fragment : String) (t : Token) : Prop :=
  ∃ start before after, StandsAt source start fragment.toList ∧
    fragment.toList = before ++ (t.spelling.toList ++ after) ∧ t.start = start + size before

/-- The places to which the scanner gets, each with the text that is left there. -/
inductive Visits (source : String) : Nat → List Char → Prop
  | start : Visits source 0 source.toList
  | blank {offset : Nat} {c : Char} {cs : List Char} : Visits source offset (c :: cs) →
      isBlank c = true → Visits source (offset + c.utf8Size) cs
  | token {offset : Nat} {c : Char} {cs : List Char} {found : Lexeme} :
      Visits source offset (c :: cs) → isBlank c = false → lexeme offset c cs = .ok found →
      Visits source (offset + size (c :: cs.take found.tail)) (cs.drop found.tail)

structure ReachedAt (source : String) (offset : Nat) (piece : List Char) : Prop where
  standsAt : StandsAt source offset piece
  visits : ∃ rest, Visits source offset (piece ++ rest)

end Token

/-- What an error says is true of the text. -/
def ConditionError.Holds (source : String) : ConditionError → Prop
  | .empty => source.toList.all isBlank = true
  | .unexpectedEnd _ => True
  | .unexpectedToken found offset => found ≠ "" ∧ StandsAt source offset found.toList
  | .unexpectedCharacter found offset => Token.ReachedAt source offset [found]
  | .unterminatedString offset =>
    ∃ quote, (quote = '\x22' ∨ quote = '\x27') ∧ Token.ReachedAt source offset [quote]
  | .invalidEscape offset =>
    ∃ quote start body ds, (quote = '\x22' ∨ quote = '\x27') ∧
      Token.ReachedAt source start (quote :: (body ++ ['\\'])) ∧ Items (Accepted quote) body ds ∧
      offset = start + size (quote :: body)
  | .invalidNumber literal =>
    ∃ start c cs, literal.toList = c :: cs ∧ (isDigit c = true ∨ c = '.') ∧
      Token.ReachedAt source start literal.toList
  | .unsupported construct fragment =>
    fragment ≠ "" ∧ ∃ tokens, Token.scan source = .ok tokens ∧
      ∃ t ∈ tokens, t.Offends construct ∧ t.LiesIn source fragment

theorem Literal.readNumber_error {c : Char} {cs : List Char} {e : ConditionError}
    (h : readNumber c cs = .error e) :
    ∃ taken rest, cs = taken ++ rest ∧ e = .invalidNumber (String.ofList (c :: taken)) := by
  rw [readNumber_eq] at h
  split at h
  · cases h
    refine ⟨cs.take (numberRun c cs) ++ (cs.drop (numberRun c cs)).takeWhile isNamePart,
      (cs.drop (numberRun c cs)).dropWhile isNamePart, ?_, by rw [List.cons_append]⟩
    rw [List.append_assoc, List.takeWhile_append_dropWhile, List.take_append_drop]
  · cases hx : numberValue? (radix? c cs) (c :: cs.take (numberRun c cs)) with
    | some x =>
      rw [hx] at h
      cases h
    | none =>
      rw [hx] at h
      cases h
      exact ⟨_, _, (List.take_append_drop _ _).symm, rfl⟩

namespace Token

variable {source : String} {offset : Nat} {c : Char} {cs rest piece : List Char}
  {e : ConditionError} {t : Token} {tokens : List Token}

theorem Visits.exists_append (h : Visits source offset cs) :
    ∃ before, source.toList = before ++ cs ∧ offset = size before := by
  induction h with
  | start => exact ⟨[], rfl, rfl⟩
  | @blank offset c cs _ _ ih =>
    obtain ⟨before, hsource, rfl⟩ := ih
    refine ⟨before ++ [c], ?_, ?_⟩
    · rw [hsource, List.append_assoc, List.singleton_append]
    · rw [size_append]
      rfl
  | @token offset c cs found _ _ _ ih =>
    obtain ⟨before, hsource, rfl⟩ := ih
    refine ⟨before ++ c :: cs.take found.tail, ?_, (size_append _ _).symm⟩
    rw [hsource, List.append_assoc, List.cons_append, List.take_append_drop]

theorem Visits.reachedAt (h : Visits source offset (piece ++ rest)) :
    ReachedAt source offset piece := by
  obtain ⟨before, hsource, rfl⟩ := h.exists_append
  exact ⟨⟨before, rest, hsource, rfl⟩, rest, h⟩

theorem Visits.reachedAt_head (h : Visits source offset (c :: rest)) :
    ReachedAt source offset [c] :=
  reachedAt h

theorem Visits.lexeme_error (hvisits : Visits source offset cs)
    (h : scanFrom offset cs = .error e) :
    ∃ offset c rest, Visits source offset (c :: rest) ∧ lexeme offset c rest = .error e := by
  fun_induction scanFrom offset cs with
  | case1 => cases h
  | case2 offset c cs hblank ih => exact ih (hvisits.blank hblank) h
  | case3 offset c cs hblank ih =>
    rw [Bool.not_eq_true] at hblank
    rcases bind_error h with h | ⟨found, hfound, h⟩
    · exact ⟨offset, c, cs, hvisits, h⟩
    · rcases bind_error h with h | ⟨_, _, h⟩
      · exact ih found (hvisits.token hblank hfound) h
      · cases h

theorem holds_of_readString (hquote : c = '\x22' ∨ c = '\x27')
    (hvisits : Visits source offset (c :: rest)) (h : readString c offset rest = .error e) :
    e.Holds source := by
  rcases stringItems_error (ne_backslash hquote) (eq_error_of_map h) with
    rfl | ⟨body, ds, more, rfl, hitems, rfl⟩
  · exact ⟨c, hquote, hvisits.reachedAt_head⟩
  · have hreached : ReachedAt source offset (c :: (body ++ ['\\'])) := by
      have heq : c :: (body ++ '\\' :: more) = c :: (body ++ ['\\']) ++ more := by simp
      rw [heq] at hvisits
      exact hvisits.reachedAt
    refine ⟨c, offset, body, ds, hquote, hreached, hitems, ?_⟩
    have hone : c.utf8Size = 1 := by rcases hquote with rfl | rfl <;> decide
    rw [size_cons, hone, Nat.add_assoc]

theorem holds_of_lexeme (hvisits : Visits source offset (c :: rest))
    (h : lexeme offset c rest = .error e) : e.Holds source := by
  rcases lexeme_error h with ⟨hnumber, h⟩ | ⟨hquote, h⟩ | rfl
  · obtain ⟨taken, more, rfl, rfl⟩ := readNumber_error h
    refine ⟨offset, c, taken, String.toList_ofList, ?_, ?_⟩
    · simp only [startsNumber, Bool.or_eq_true, Bool.and_eq_true, beq_iff_eq] at hnumber
      exact hnumber.imp_right And.left
    · rw [String.toList_ofList]
      exact hvisits.reachedAt
  · exact holds_of_readString hquote hvisits h
  · exact hvisits.reachedAt_head

theorem isBoundary_size (source : String) : IsBoundary source (size source.toList) :=
  isBoundary_iff.2 ⟨source.toList, [], (List.append_nil _).symm, rfl⟩

theorem isRange_whole (source : String) : IsRange source 0 (size source.toList) :=
  ⟨Nat.zero_le _, isBoundary_iff.2 ⟨[], source.toList, rfl, rfl⟩, isBoundary_size source⟩

theorem isRange_from (hscan : scan source = .ok tokens) (ht : t ∈ tokens) :
    IsRange source t.start (size source.toList) ∧ t.stop ≤ size source.toList := by
  obtain ⟨before, after, hread⟩ := readIn_of_mem_scan hscan ht
  have hstop : t.stop ≤ size source.toList := by
    rw [stop, hread.start_eq, hread.toList_eq, size_append, size_append]
    omega
  have hlt := hread.start_lt_stop
  exact ⟨⟨by omega, hread.standsAt.isRange.start_isBoundary, isBoundary_size source⟩, hstop⟩

theorem isRange_through {front used next : List Token}
    (hscan : scan source = .ok (front ++ t :: (used ++ next))) :
    IsRange source t.start (Expr.fragmentStop source next) := by
  have hcovers := covers_of_scan hscan
  have ht : t ∈ front ++ t :: (used ++ next) :=
    List.mem_append_right _ List.mem_cons_self
  have hto : ∀ u ∈ next, IsRange source t.start u.stop := by
    intro u hu
    have hmem : u ∈ front ++ t :: (used ++ next) :=
      List.mem_append_right _ (List.mem_cons_of_mem _ (List.mem_append_right _ hu))
    have hordered := (List.pairwise_cons.1 (List.pairwise_append.1 hcovers.ordered).2.1).1 u
      (List.mem_append_right _ hu)
    have hlt := hcovers.nonempty t ht
    have hrange := hcovers.isRange u hmem
    have hle := hrange.le
    exact ⟨by omega, (hcovers.isRange t ht).start_isBoundary, hrange.stop_isBoundary⟩
  match next with
  | [] => exact (isRange_from hscan ht).1
  | [u] => exact hto u List.mem_cons_self
  | _ :: u :: _ => exact hto u (List.mem_cons_of_mem _ List.mem_cons_self)

theorem Offends.kind_ne_text {construct : Construct} (h : t.Offends construct) (s : String) :
    t.kind ≠ .text s := by
  intro hkind
  rcases h with h | h | h
  · simp [opening?, hkind] at h
  · simp [suffix?, hkind] at h
  · simp [continuation?, hkind] at h

theorem liesIn_trim (hscan : scan source = .ok tokens) (ht : t ∈ tokens)
    (hkind : ∀ s, t.kind ≠ .text s) {start stop : Nat} (hrange : IsRange source start stop)
    (hstart : start ≤ t.start) (hstop : t.stop ≤ stop) :
    t.LiesIn source (trim (slice start stop source)) := by
  obtain ⟨front, behind, hread⟩ := readIn_of_mem_scan hscan ht
  obtain ⟨piece, hpiece, rfl⟩ := hrange.exists_standsAt
  obtain ⟨before, after, heq, hoffset⟩ := hpiece.within hread.standsAt hstart hstop
  obtain ⟨lead, trail, before', after', hlead, rfl, hkept⟩ :=
    (trims_trimChars piece).keeps heq hread.lexes.ne_nil (hread.lexes.isBlank_eq_false hkind)
  rw [hpiece.slice_eq, trim, String.toList_ofList]
  refine ⟨start + size lead, before', after', ?_, ?_, ?_⟩
  · rw [String.toList_ofList]
    rw [hlead] at hpiece
    exact hpiece.part
  · rw [String.toList_ofList, hkept]
  · rw [hoffset, size_append, Nat.add_assoc]

theorem holds_unsupported (hscan : scan source = .ok tokens) (ht : t ∈ tokens)
    {construct : Construct} (hoffends : t.Offends construct) {start stop : Nat}
    (hrange : IsRange source start stop) (hstart : start ≤ t.start) (hstop : t.stop ≤ stop) :
    (ConditionError.unsupported construct (trim (slice start stop source))).Holds source := by
  have hlies := liesIn_trim hscan ht hoffends.kind_ne_text hrange hstart hstop
  refine ⟨?_, tokens, hscan, t, ht, hoffends, hlies⟩
  obtain ⟨_, _, hread⟩ := readIn_of_mem_scan hscan ht
  obtain ⟨_, before, after, -, hfragment, -⟩ := hlies
  intro hempty
  rw [hempty] at hfragment
  have hnil := List.append_eq_nil_iff.1 (List.append_eq_nil_iff.1 hfragment.symm).2
  exact hread.lexes.ne_nil hnil.1

theorem holds_of_blames (hscan : scan source = .ok tokens) (h : Expr.Blames source tokens e) :
    e.Holds source := by
  have hcovers := covers_of_scan hscan
  cases h with
  | ended => trivial
  | @token t ht =>
    obtain ⟨_, _, hread⟩ := readIn_of_mem_scan hscan ht
    refine ⟨?_, hread.standsAt⟩
    intro hempty
    refine hread.lexes.ne_nil ?_
    rw [hempty]
    rfl
  | @opening t construct ht hopening =>
    obtain ⟨hrange, hstop⟩ := isRange_from hscan ht
    exact holds_unsupported hscan ht (.inl hopening) hrange (Nat.le_refl _) hstop
  | @suffix front used rest t u construct htokens hsuffix =>
    subst htokens
    have hu : u ∈ front ++ t :: (used ++ u :: rest) :=
      List.mem_append_right _ (List.mem_cons_of_mem _ (List.mem_append_right _ List.mem_cons_self))
    obtain ⟨-, hafter, -⟩ := List.pairwise_append.1 hcovers.ordered
    obtain ⟨hfirst, hafter⟩ := List.pairwise_cons.1 hafter
    have hlt := hcovers.nonempty t (List.mem_append_right _ List.mem_cons_self)
    have hstart := hfirst u (List.mem_append_right _ List.mem_cons_self)
    have hstop : u.stop ≤ Expr.fragmentStop source (u :: rest) := by
      cases rest with
      | nil => exact Nat.le_refl _
      | cons v rest =>
        obtain ⟨-, hnext, -⟩ := List.pairwise_append.1 hafter
        have hle := (List.pairwise_cons.1 hnext).1 v List.mem_cons_self
        exact Nat.le_trans hle (Nat.le_add_right _ _)
    exact holds_unsupported hscan hu (.inr (.inl hsuffix)) (isRange_through hscan) (by omega) hstop
  | @continuation t construct ht hcontinuation =>
    obtain ⟨-, hstop⟩ := isRange_from hscan ht
    have hwhole : slice 0 (size source.toList) source = source := by
      have hstands : StandsAt source 0 source.toList := ⟨[], [], by simp, rfl⟩
      have hslice := hstands.slice_eq
      rwa [Nat.zero_add, String.ofList_toList] at hslice
    have hholds := holds_unsupported hscan ht (.inr (.inr hcontinuation)) (isRange_whole source)
      (Nat.zero_le _) hstop
    rwa [hwhole] at hholds

theorem holds_of_parse (h : Expr.parse source = .error e) : e.Holds source := by
  rcases Expr.parse_error h with h | ⟨tokens, hscan, ⟨rfl, rfl⟩ | h⟩
  · obtain ⟨offset, c, rest, hvisits, herror⟩ := Visits.start.lexeme_error h
    exact holds_of_lexeme hvisits herror
  · obtain ⟨ps, gap, hsource, -, hgap, hplace⟩ := exists_pieces_of_scan hscan
    cases ps with
    | nil =>
      change source.toList.all isBlank = true
      rw [hsource]
      exact hgap
    | cons p ps => cases hplace
  · exact holds_of_blames hscan h

end Token

/-- The pieces that the number reader cuts out of the text `c :: cs` and of the literal in it. It
counts the characters of the literal and cuts after as many bytes. -/
inductive Literal.Cut (c : Char) (cs : List Char) : String → Nat → Nat → Prop
  | afterMark {radix : Nat} : radix? c cs = some radix →
      Cut c cs (String.ofList (c :: cs)) 2 (size (c :: cs))
  | literal : Cut c cs (String.ofList (c :: cs)) 0 (numberRun c cs + 1)
  | behind : Cut c cs (String.ofList (c :: cs)) (numberRun c cs + 1) (size (c :: cs))
  | glued : Cut c cs (String.ofList (c :: cs)) 0
      (numberRun c cs + 1 + size ((cs.drop (numberRun c cs)).takeWhile isNamePart))
  | body {radix : Nat} : radix? c cs = some radix →
      Cut c cs (String.ofList (c :: cs.take (numberRun c cs))) 2
        (size (c :: cs.take (numberRun c cs)))
  | afterZero : c = '0' →
      Cut c cs (String.ofList (c :: cs.take (numberRun c cs))) 1
        (size (c :: cs.take (numberRun c cs)))
  | digits {radix : Nat} : radix? c cs = some radix →
      Cut c cs (String.ofList ((c :: cs.take (numberRun c cs)).filter (· ≠ '_'))) 2
        (size ((c :: cs.take (numberRun c cs)).filter (· ≠ '_')))

/-- The pieces that the scanner and the parser cut out of the condition, or of a part of it. -/
inductive Condition.Cut (source : String) : String → Nat → Nat → Prop
  | ahead {offset : Nat} {cs : List Char} : Token.Visits source offset cs →
      Cut source source offset (size source.toList)
  | aheadInName {offset k : Nat} {c : Char} {cs : List Char} :
      Token.Visits source offset (c :: cs) → isNameStart c = true →
      k ≤ (cs.takeWhile isNamePart).length →
      Cut source source (offset + size (c :: cs.take k)) (size source.toList)
  | name {offset : Nat} {c : Char} {cs : List Char} : Token.Visits source offset (c :: cs) →
      isNameStart c = true →
      Cut source source offset (offset + size (c :: cs.takeWhile isNamePart))
  | number {offset start stop : Nat} {c : Char} {cs : List Char} {text : String} :
      Token.Visits source offset (c :: cs) → Token.startsNumber c cs = true →
      Literal.Cut c cs text start stop → Cut source text start stop
  | token {tokens : List Token} {t : Token} : Token.scan source = .ok tokens → t ∈ tokens →
      Cut source source t.start t.stop
  | fragmentFrom {tokens : List Token} {t : Token} : Token.scan source = .ok tokens → t ∈ tokens →
      Cut source source t.start (size source.toList)
  | fragmentThrough {front used next : List Token} {t : Token} :
      Token.scan source = .ok (front ++ t :: (used ++ next)) →
      Cut source source t.start (Expr.fragmentStop source next)

theorem isRange_append {cs before rest : List Char} (h : cs = before ++ rest) :
    IsRange (String.ofList cs) 0 (size before) ∧
      IsRange (String.ofList cs) (size before) (size cs) := by
  have hfront : StandsAt (String.ofList cs) 0 before :=
    ⟨[], rest, by rw [String.toList_ofList, h, List.nil_append], rfl⟩
  have hback : StandsAt (String.ofList cs) (size before) rest :=
    ⟨before, [], by rw [String.toList_ofList, h, List.append_nil], rfl⟩
  have hranges := And.intro hfront.isRange hback.isRange
  rwa [Nat.zero_add, ← size_append, ← h] at hranges

namespace Literal

variable {c : Char} {cs : List Char} {text : String} {start stop : Nat}

theorem plain_of_startsNumber (h : Token.startsNumber c cs = true) : Plain c := by
  simp only [Token.startsNumber, Bool.or_eq_true, Bool.and_eq_true, beq_iff_eq] at h
  rcases h with hdigit | ⟨rfl, -⟩
  · exact plain_of_isDigit hdigit
  · exact plain_of_mem (by decide)

theorem exists_mark {radix : Nat} (h : radix? c cs = some radix) :
    ∃ mark ds, c :: cs = ['0', mark] ++ ds ∧ size ['0', mark] = 2 ∧ mark ≠ '_' ∧
      c :: cs.take (numberRun c cs) = ['0', mark] ++ ds.take (numberRun c cs - 1) := by
  obtain ⟨mark, ds, rfl, rfl, hmark⟩ := radix?_eq_some h
  have hradix : radixOfMark? mark = some radix := hmark []
  have hplain := plain_of_radixOfMark? hradix
  have hsize : size ['0', mark] = 2 :=
    size_of_plain (by simpa using ⟨plain_of_isDigit (by decide), hplain⟩)
  refine ⟨mark, ds, rfl, hsize, ?_, ?_⟩
  · rintro rfl
    cases hradix
  · have hrun : numberRun '0' (mark :: ds) = numberRun '0' (mark :: ds) - 1 + 1 := by
      rw [numberRun_of_some h]
      omega
    rw [hrun, List.take_succ_cons]
    rfl

theorem Cut.isRange (hstarts : Token.startsNumber c cs = true) (h : Cut c cs text start stop) :
    IsRange text start stop := by
  have hsize : size (c :: cs.take (numberRun c cs)) = numberRun c cs + 1 :=
    size_literal (plain_of_startsNumber hstarts)
  have hsplit : c :: cs = c :: cs.take (numberRun c cs) ++ cs.drop (numberRun c cs) := by
    rw [List.cons_append, List.take_append_drop]
  cases h with
  | afterMark hradix =>
    obtain ⟨mark, ds, heq, htwo, -, -⟩ := exists_mark hradix
    have hrange := (isRange_append heq).2
    rwa [htwo] at hrange
  | literal =>
    have hrange := (isRange_append hsplit).1
    rwa [hsize] at hrange
  | behind =>
    have hrange := (isRange_append hsplit).2
    rwa [hsize] at hrange
  | glued =>
    have hglued : c :: cs = (c :: cs.take (numberRun c cs) ++
        (cs.drop (numberRun c cs)).takeWhile isNamePart) ++
          (cs.drop (numberRun c cs)).dropWhile isNamePart := by
      rw [List.append_assoc, List.takeWhile_append_dropWhile]
      exact hsplit
    have hrange := (isRange_append hglued).1
    rwa [size_append, hsize] at hrange
  | body hradix =>
    obtain ⟨mark, ds, -, htwo, -, heq⟩ := exists_mark hradix
    have hrange := (isRange_append heq).2
    rwa [htwo] at hrange
  | afterZero hzero =>
    have heq : c :: cs.take (numberRun c cs) = [c] ++ cs.take (numberRun c cs) := rfl
    have hrange := (isRange_append heq).2
    rw [hzero] at hrange ⊢
    exact hrange
  | digits hradix =>
    obtain ⟨mark, ds, -, htwo, hmark, heq⟩ := exists_mark hradix
    have hkept : (c :: cs.take (numberRun c cs)).filter (· ≠ '_') =
        ['0', mark] ++ (ds.take (numberRun c cs - 1)).filter (· ≠ '_') := by
      rw [heq, List.filter_append]
      simp [hmark]
    have hrange := (isRange_append hkept).2
    rwa [htwo] at hrange

end Literal

namespace Condition

theorem isRange_ahead {source : String} {before rest : List Char}
    (h : source.toList = before ++ rest) : IsRange source (size before) (size source.toList) := by
  have hrange := (isRange_append h).2
  rwa [String.ofList_toList] at hrange

theorem Cut.isRange {source text : String} {start stop : Nat} (h : Cut source text start stop) :
    IsRange text start stop := by
  cases h with
  | ahead hvisits =>
    obtain ⟨before, hsource, rfl⟩ := hvisits.exists_append
    exact isRange_ahead hsource
  | @aheadInName offset k c cs hvisits =>
    obtain ⟨before, hsource, rfl⟩ := hvisits.exists_append
    have hsplit : source.toList = (before ++ c :: cs.take k) ++ cs.drop k := by
      rw [hsource, List.append_assoc, List.cons_append, List.take_append_drop]
    rw [← size_append]
    exact isRange_ahead hsplit
  | @name offset c cs hvisits =>
    have hsplit : c :: cs = c :: cs.takeWhile isNamePart ++ cs.dropWhile isNamePart := by
      rw [List.cons_append, List.takeWhile_append_dropWhile]
    rw [hsplit] at hvisits
    exact hvisits.reachedAt.standsAt.isRange
  | number _ hstarts hcut => exact hcut.isRange hstarts
  | token hscan ht => exact (Token.covers_of_scan hscan).isRange _ ht
  | fragmentFrom hscan ht => exact (Token.isRange_from hscan ht).1
  | fragmentThrough hscan => exact Token.isRange_through hscan

/-- Every error says of the text what is true of it, and every cut is made between characters. -/
theorem compile_diagnosis (source : String) :
    (∀ e, compile source = .error e → e.Holds source) ∧
    ∀ text start stop, Cut source text start stop → IsRange text start stop := by
  refine ⟨?_, fun _ _ _ ↦ Cut.isRange⟩
  intro e h
  rcases bind_error h with h | ⟨_, _, h⟩
  · exact Token.holds_of_parse h
  · cases h

theorem compile_diagnosis_member :
    (ConditionError.unsupported .member "a.b").Holds "é - a.b" ∧ IsRange "é - a.b" 5 8 := by
  obtain ⟨hholds, hcuts⟩ := compile_diagnosis "é - a.b"
  have hcompile : compile "é - a.b" = .error (.unsupported .member "a.b") := by
    decide +kernel
  have hscan : (Token.scan "é - a.b").toOption = some
      ([⟨.name "é", "é", 0⟩, ⟨.punct "-", "-", 3⟩] ++ ⟨.name "a", "a", 5⟩ ::
        ([] ++ [⟨.punct ".", ".", 6⟩, ⟨.name "b", "b", 7⟩])) := by
    decide +kernel
  exact ⟨hholds _ hcompile, hcuts _ _ _ (.fragmentThrough (eq_ok_of_toOption hscan))⟩

end Condition

end Transclude
