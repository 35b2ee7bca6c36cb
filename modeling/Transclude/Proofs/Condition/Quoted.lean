import Mathlib.Data.List.Forall2
import Mathlib.Tactic.IntervalCases
import Transclude.Proofs.Condition.Grammar
import Transclude.Proofs.Condition.Scanning
import Transclude.Proofs.Text.Span

namespace Transclude

open Text

namespace Literal

def HexDigit (c : Char) (d : Nat) : Prop :=
  "0123456789abcdef".toList[d]? = some c ∨ "0123456789ABCDEF".toList[d]? = some c

def HexNumber (digits : List Char) (n : Nat) : Prop :=
  ∃ values, List.Forall₂ HexDigit digits values ∧ n = values.foldl (16 * · + ·) 0

def codePointMarks : List (Char × Nat) := [('x', 2), ('u', 4)]

/-- The characters that some escapes stand for. All others stand for themselves. -/
def controls : List (Char × Char) :=
  [('n', '\n'), ('t', '\t'), ('r', '\r'), ('b', '\x08'), ('f', '\x0c'), ('v', '\x0b'),
    ('0', '\x00')]

inductive Item (quote : Char) : List Char → Char → Prop
  | plain {c : Char} : c ∉ [quote, '\\', '\n', '\r'] → Item quote [c] c
  | escaped {c : Char} : c ∉ codePointMarks.map (·.1) →
      Item quote ['\\', c] ((controls.lookup c).getD c)
  | codePoint {mark : Char} {digits : List Char} {n : Nat} :
      (mark, digits.length) ∈ codePointMarks → HexNumber digits n → n.isValidChar →
      Item quote ('\\' :: mark :: digits) (Char.ofNat n)

/-- An escape with a plus sign in place of its first digit. -/
inductive SignedItem : List Char → Char → Prop
  | codePoint {mark : Char} {digits : List Char} {n : Nat} :
      (mark, digits.length + 1) ∈ codePointMarks → HexNumber digits n → n.isValidChar →
      SignedItem ('\\' :: mark :: '+' :: digits) (Char.ofNat n)

/-- All that the reader takes for an item. -/
def Accepted (quote : Char) (item : List Char) (d : Char) : Prop :=
  Item quote item d ∨ SignedItem item d

inductive Items (P : List Char → Char → Prop) : List Char → List Char → Prop
  | nil : Items P [] []
  | cons {item cs ds : List Char} {d : Char} :
      P item d → Items P cs ds → Items P (item ++ cs) (d :: ds)

/-- No escape that names a code point has a plus sign. -/
def Unsigned (cs : List Char) : Prop :=
  ∀ mark ∈ codePointMarks.map (·.1), ¬['\\', mark, '+'] <:+: cs

def Closes (P : List Char → Char → Prop) (quote : Char) (cs ds : List Char) (n : Nat) : Prop :=
  ∃ body rest, cs = body ++ quote :: rest ∧ n = body.length + 1 ∧ Items P body ds

def Spells (P : Char → List Char → Char → Prop) (spelling value : String) : Prop :=
  ∃ quote body, (quote = '\x22' ∨ quote = '\x27') ∧
    spelling.toList = quote :: (body ++ [quote]) ∧ Items (P quote) body value.toList

variable {quote c d : Char} {cs ds digits item : List Char} {start offset n width : Nat}

theorem hexDigit_of_toNat {c : Char} {k d : Nat} (hc : c.toNat = k + d)
    (hk : k = 48 ∧ d < 10 ∨ (k = 87 ∨ k = 55) ∧ 10 ≤ d ∧ d < 16) : HexDigit c d := by
  obtain rfl : c = Char.ofNat (k + d) := by rw [← hc, Char.ofNat_toNat]
  rcases hk with ⟨rfl, hd⟩ | ⟨rfl | rfl, hlow, hd⟩
  · exact .inl (by interval_cases d <;> rfl)
  · exact .inl (by interval_cases d <;> rfl)
  · exact .inr (by interval_cases d <;> rfl)

theorem hexDigit_of_radixDigit? {c : Char} {d : Nat} (h : radixDigit? 16 c = some d) :
    HexDigit c d := by
  obtain ⟨hvalue, -⟩ := Option.filter_eq_some_iff.1 h
  split at hvalue
  · next hdigit =>
    obtain ⟨hlow, hhigh⟩ := isDigit_iff.1 hdigit
    have hd : c.toNat - 48 = d := Option.some.inj hvalue
    exact hexDigit_of_toNat (k := 48) (by omega) (by omega)
  · split at hvalue
    · next hletter =>
      have hrange : 'a' ≤ c ∧ c ≤ 'f' := by simpa using hletter
      have hletter : 97 ≤ c.toNat ∧ c.toNat ≤ 102 := hrange
      have hd : c.toNat - 97 + 10 = d := Option.some.inj hvalue
      exact hexDigit_of_toNat (k := 87) (by omega) (by omega)
    · split at hvalue
      · next hletter =>
        have hrange : 'A' ≤ c ∧ c ≤ 'F' := by simpa using hletter
        have hletter : 65 ≤ c.toNat ∧ c.toNat ≤ 70 := hrange
        have hd : c.toNat - 65 + 10 = d := Option.some.inj hvalue
        exact hexDigit_of_toNat (k := 55) (by omega) (by omega)
      · cases hvalue

theorem hexDigit_cases {d : Nat} (h : HexDigit c d) :
    radixDigit? 16 c = some d ∧ c.toNat < 0x80 ∧ c ≠ '+' := by
  have hd : d < 16 := by
    rcases h with h | h <;> exact (List.getElem?_eq_some_iff.1 h).1
  unfold HexDigit at h
  interval_cases d <;> rcases h with h | h <;> cases h <;> decide

theorem radixDigit?_eq_some {d : Nat} : radixDigit? 16 c = some d ↔ HexDigit c d :=
  ⟨hexDigit_of_radixDigit?, fun h ↦ (hexDigit_cases h).1⟩

theorem radixDigits?_iff {radix : Nat} {P : Char → Nat → Prop}
    (hP : ∀ c d, radixDigit? radix c = some d ↔ P c d) :
    radixDigits? radix start digits = some n ↔
      ∃ values, List.Forall₂ P digits values ∧ n = values.foldl (radix * · + ·) start := by
  induction digits generalizing start with
  | nil => simp [radixDigits?, eq_comm]
  | cons c digits ih =>
    simp only [radixDigits?, Option.bind_eq_bind, Option.bind_eq_some_iff, hP, ih,
      List.forall₂_cons_left_iff]
    constructor
    · rintro ⟨d, hd, values, hvalues, rfl⟩
      exact ⟨d :: values, ⟨d, values, hd, hvalues, rfl⟩, rfl⟩
    · rintro ⟨-, ⟨d, values, hd, hvalues, rfl⟩, rfl⟩
      exact ⟨d, hd, values, hvalues, rfl⟩

theorem radixDigits?_eq_some :
    radixDigits? 16 start digits = some n ↔
      ∃ values, List.Forall₂ HexDigit digits values ∧ n = values.foldl (16 * · + ·) start :=
  radixDigits?_iff fun _ _ ↦ radixDigit?_eq_some

theorem HexNumber.ascii (h : HexNumber digits n) : ∀ c ∈ digits, c.toNat < 0x80 ∧ c ≠ '+' := by
  obtain ⟨values, hvalues, -⟩ := h
  intro c hc
  induction hvalues with
  | nil => cases hc
  | cons hd _ ih =>
    rcases List.mem_cons.1 hc with rfl | hc
    · exact (hexDigit_cases hd).2
    · exact ih hc

theorem HexNumber.size_eq (h : HexNumber digits n) : size digits = digits.length :=
  size_eq_length fun c hc ↦ (h.ascii c hc).1

theorem HexNumber.not_signed {more : List Char} : ¬HexNumber ('+' :: more) n :=
  fun h ↦ (h.ascii '+' List.mem_cons_self).2 rfl

theorem radixNumber?_eq_some (hne : digits ≠ []) :
    radixNumber? 16 digits = some n ↔
      HexNumber digits n ∨ ∃ more, digits = '+' :: more ∧ more ≠ [] ∧ HexNumber more n := by
  unfold radixNumber?
  split
  · exact absurd rfl hne
  · simp [HexNumber.not_signed]
  · next more hmore =>
    rw [radixDigits?_eq_some]
    simp only [HexNumber.not_signed, false_or, List.cons.injEq, true_and]
    constructor
    · intro h
      exact ⟨more, rfl, hmore, h⟩
    · rintro ⟨_, rfl, -, hnumber⟩
      exact hnumber
  · next hsign =>
    rw [radixDigits?_eq_some]
    constructor
    · exact .inl
    · rintro (h | ⟨more, rfl, -, -⟩)
      · exact h
      · exact absurd rfl (hsign more)

theorem escapeWidth?_eq_some : escapeWidth? c = some width ↔ (c, width) ∈ codePointMarks := by
  unfold escapeWidth? codePointMarks
  split <;> simp_all [eq_comm]

theorem escapeWidth?_eq_none : escapeWidth? c = none ↔ c ∉ codePointMarks.map (·.1) := by
  unfold escapeWidth? codePointMarks
  split <;> simp_all

theorem escaped_eq (c : Char) : escaped c = (controls.lookup c).getD c := by
  unfold escaped
  split
  case h_8 =>
    have hnone : controls.lookup c = none := by
      rw [List.lookup_eq_none_iff]
      simp_all [controls]
    rw [hnone]
    rfl
  all_goals rfl

theorem codePoint?_eq_some :
    codePoint? width digits = some d ↔ size digits = width ∧
      ∃ n, radixNumber? 16 digits = some n ∧ n.isValidChar ∧ d = Char.ofNat n := by
  unfold codePoint?
  split
  · next hsize =>
    rw [Option.bind_eq_some_iff]
    simp [hsize, eq_comm]
  · next hsize => simp [hsize]

theorem ne_nil_of_mark (hmark : (c, width) ∈ codePointMarks) (hsize : size digits = width) :
    digits ≠ [] := by
  have hall : ∀ p ∈ codePointMarks, p.2 ≠ 0 := by decide
  rintro rfl
  exact hall _ hmark hsize.symm

theorem accepted_of_codePoint? (hmark : (c, width) ∈ codePointMarks)
    (h : codePoint? width digits = some d) :
    digits.length = width ∧ Accepted quote ('\\' :: c :: digits) d := by
  obtain ⟨hsize, n, hnumber, hvalid, rfl⟩ := codePoint?_eq_some.1 h
  rcases (radixNumber?_eq_some (ne_nil_of_mark hmark hsize)).1 hnumber with
    hnumber | ⟨more, rfl, -, hnumber⟩
  · rw [hnumber.size_eq] at hsize
    subst hsize
    exact ⟨rfl, .inl (.codePoint hmark hnumber hvalid)⟩
  · have hlength : more.length + 1 = width := by
      rw [← hsize, size_cons, hnumber.size_eq, Nat.add_comm]
      rfl
    subst hlength
    exact ⟨rfl, .inr (.codePoint hmark hnumber hvalid)⟩

theorem codePoint?_of_hexNumber (hmark : (c, digits.length) ∈ codePointMarks)
    (hnumber : HexNumber digits n) (hvalid : n.isValidChar) :
    codePoint? digits.length digits = some (Char.ofNat n) := by
  have hsize := hnumber.size_eq
  refine codePoint?_eq_some.2 ⟨hsize, n, ?_, hvalid, rfl⟩
  exact (radixNumber?_eq_some (ne_nil_of_mark hmark hsize)).2 (.inl hnumber)

theorem codePoint?_of_signed (hmark : (c, digits.length + 1) ∈ codePointMarks)
    (hnumber : HexNumber digits n) (hvalid : n.isValidChar) :
    codePoint? (digits.length + 1) ('+' :: digits) = some (Char.ofNat n) := by
  have hne : digits ≠ [] := by
    have hall : ∀ p ∈ codePointMarks, p.2 ≠ 1 := by decide
    rintro rfl
    exact hall _ hmark rfl
  refine codePoint?_eq_some.2 ⟨?_, n, ?_, hvalid, rfl⟩
  · rw [size_cons, hnumber.size_eq, Nat.add_comm]
    rfl
  · exact (radixNumber?_eq_some (by simp)).2 (.inr ⟨digits, rfl, hne, hnumber⟩)

def prepend (d : Char) (item : List Char) (read : Except ConditionError (List Char × Nat)) :
    Except ConditionError (List Char × Nat) :=
  read.map fun (ds, n) ↦ (d :: ds, n + item.length)

theorem utf8Size_of_mark (hmark : (c, width) ∈ codePointMarks) : c.utf8Size = 1 := by
  have hall : ∀ p ∈ codePointMarks, p.1.utf8Size = 1 := by decide
  exact hall _ hmark

theorem stringItems_codePoint {mark : Char} (hquote : quote ≠ '\\')
    (hmark : (mark, digits.length) ∈ codePointMarks)
    (h : codePoint? digits.length digits = some d) (start offset : Nat) (cs : List Char) :
    stringItems quote start offset ('\\' :: mark :: digits ++ cs) =
      prepend d ('\\' :: mark :: digits)
        (stringItems quote start (offset + size ('\\' :: mark :: digits)) cs) := by
  have hsize : offset + size ('\\' :: mark :: digits) = offset + 2 + digits.length := by
    have hslash : '\\'.utf8Size = 1 := rfl
    have hdigits := (codePoint?_eq_some.1 h).1
    rw [size_cons, size_cons, utf8Size_of_mark hmark, hslash, hdigits]
    omega
  rw [hsize, List.cons_append, List.cons_append, stringItems, if_neg hquote.symm,
    if_neg (by decide), if_pos rfl]
  simp only [escapeWidth?_eq_some.2 hmark, List.take_left, List.drop_left, h,
    Nat.add_right_comm _ 2]
  rfl

theorem stringItems_item (hquote : quote ≠ '\\') (h : Accepted quote item d)
    (start offset : Nat) (cs : List Char) :
    stringItems quote start offset (item ++ cs) =
      prepend d item (stringItems quote start (offset + size item) cs) := by
  rcases h with h | h
  · cases h with
    | plain hc =>
      simp only [List.mem_cons, List.not_mem_nil, or_false, not_or] at hc
      rw [List.singleton_append, stringItems.eq_def]
      dsimp only
      rw [if_neg hc.1, if_neg (not_or.2 ⟨hc.2.2.1, hc.2.2.2⟩), if_neg hc.2.1]
      rfl
    | @escaped c hc =>
      have hsize : offset + size ['\\', c] = offset + 1 + c.utf8Size := by
        rw [Nat.add_assoc]
        rfl
      rw [hsize, List.cons_append, List.singleton_append, stringItems, if_neg hquote.symm,
        if_neg (by decide), if_pos rfl]
      simp only [escapeWidth?_eq_none.2 hc, escaped_eq]
      rfl
    | codePoint hmark hnumber hvalid =>
      exact stringItems_codePoint hquote hmark (codePoint?_of_hexNumber hmark hnumber hvalid) _ _ _
  · obtain ⟨hmark, hnumber, hvalid⟩ := h
    exact stringItems_codePoint hquote hmark (codePoint?_of_signed hmark hnumber hvalid) _ _ _

theorem Accepted.length_lt (h : Accepted quote item d) (rest : List Char) :
    rest.length < (item ++ rest).length := by
  have hne : item ≠ [] := by
    rcases h with h | h <;> cases h <;> simp
  have hpos := List.length_pos_of_ne_nil hne
  rw [List.length_append]
  omega

/-- All that the reader can do at a place: end at the quote, take an item, or give up. -/
theorem stringItems_cases (quote : Char) (start offset : Nat) (cs : List Char) :
    (∃ rest, cs = quote :: rest ∧ stringItems quote start offset cs = .ok ([], 1)) ∨
    (∃ item d rest, cs = item ++ rest ∧ Accepted quote item d) ∨
    stringItems quote start offset cs = .error (.unterminatedString start) ∨
    ∃ rest, cs = '\\' :: rest ∧
      stringItems quote start offset cs = .error (.invalidEscape offset) := by
  fun_cases stringItems quote start offset cs with
  | case1 | case3 | case4 => exact .inr (.inr (.inl rfl))
  | case2 rest => exact .inl ⟨rest, rfl, rfl⟩
  | case5 e rest => exact .inr (.inr (.inr ⟨e :: rest, rfl, rfl⟩))
  | case6 e rest width hwidth d hd =>
    obtain ⟨-, haccepted⟩ := accepted_of_codePoint? (escapeWidth?_eq_some.1 hwidth) hd
    refine .inr (.inl ⟨_, d, rest.drop width, ?_, haccepted⟩)
    rw [List.cons_append, List.cons_append, List.take_append_drop]
  | case7 e rest hwidth =>
    exact .inr (.inl ⟨['\\', e], _, rest, rfl, .inl (.escaped (escapeWidth?_eq_none.1 hwidth))⟩)
  | case8 c rest hend hbreak hescape =>
    refine .inr (.inl ⟨[c], c, rest, rfl, .inl (.plain ?_)⟩)
    simp only [List.mem_cons, List.not_mem_nil, or_false, not_or]
    exact ⟨hend, hescape, not_or.1 hbreak⟩

theorem stringItems_of_items (hquote : quote ≠ '\\') {body : List Char}
    (h : Items (Accepted quote) body ds) (start offset : Nat) (rest : List Char) :
    stringItems quote start offset (body ++ quote :: rest) = .ok (ds, body.length + 1) := by
  induction h generalizing offset with
  | nil =>
    rw [List.nil_append, stringItems.eq_def]
    exact if_pos rfl
  | @cons item body ds d hitem _ ih =>
    have hlength : (item ++ body).length + 1 = body.length + 1 + item.length := by
      rw [List.length_append]
      omega
    rw [List.append_assoc, stringItems_item hquote hitem, ih, hlength]
    rfl

theorem closes_of_stringItems (hquote : quote ≠ '\\') {cs ds : List Char} {offset n : Nat}
    (h : stringItems quote start offset cs = .ok (ds, n)) :
    Closes (Accepted quote) quote cs ds n := by
  rcases stringItems_cases quote start offset cs with
    ⟨rest, rfl, hend⟩ | ⟨item, d, rest, hcs, hitem⟩ | herror | ⟨_, _, herror⟩
  · cases hend.symm.trans h
    exact ⟨[], rest, rfl, rfl, .nil⟩
  · have hlt : rest.length < cs.length := hcs ▸ hitem.length_lt rest
    rw [hcs, stringItems_item hquote hitem] at h
    obtain ⟨⟨es, m⟩, hread, heq⟩ := map_ok h
    cases heq
    obtain ⟨body, rest', hrest, rfl, hitems⟩ := closes_of_stringItems hquote hread
    refine ⟨item ++ body, rest', by rw [hcs, hrest, List.append_assoc], ?_, .cons hitem hitems⟩
    rw [List.length_append]
    omega
  · cases herror.symm.trans h
  · cases herror.symm.trans h
termination_by cs.length

theorem stringItems_error (hquote : quote ≠ '\\') {cs : List Char} {offset : Nat}
    {e : ConditionError} (h : stringItems quote start offset cs = .error e) :
    e = .unterminatedString start ∨ ∃ body ds rest, cs = body ++ '\\' :: rest ∧
      Items (Accepted quote) body ds ∧ e = .invalidEscape (offset + size body) := by
  rcases stringItems_cases quote start offset cs with
    ⟨rest, rfl, hend⟩ | ⟨item, d, rest, hcs, hitem⟩ | herror | ⟨rest, rfl, herror⟩
  · cases hend.symm.trans h
  · have hlt : rest.length < cs.length := hcs ▸ hitem.length_lt rest
    rw [hcs, stringItems_item hquote hitem] at h
    rcases stringItems_error hquote (eq_error_of_map h) with
      rfl | ⟨body, ds, rest', hrest, hitems, rfl⟩
    · exact .inl rfl
    · refine .inr ⟨item ++ body, d :: ds, rest', ?_, .cons hitem hitems, ?_⟩
      · rw [hcs, hrest, List.append_assoc]
      · rw [size_append, Nat.add_assoc]
  · cases herror.symm.trans h
    exact .inl rfl
  · cases herror.symm.trans h
    exact .inr ⟨[], [], rest, rfl, .nil, rfl⟩
termination_by cs.length

theorem ne_backslash (hquote : quote = '\x22' ∨ quote = '\x27') : quote ≠ '\\' := by
  rcases hquote with rfl | rfl <;> decide

theorem Unsigned.of_part (h : Unsigned cs) (hds : ds <:+: cs) : Unsigned ds :=
  fun mark hmark hin ↦ h mark hmark (hin.trans hds)

theorem unsigned_of_not_mem (h : '+' ∉ cs) : Unsigned cs :=
  fun _ _ hin ↦ h (hin.subset (by simp))

theorem Items.of_accepted {body : List Char} (h : Items (Accepted quote) body ds)
    (hunsigned : Unsigned body) : Items (Item quote) body ds := by
  induction h with
  | nil => exact .nil
  | @cons item body ds d hitem _ ih =>
    have hbody := ih (hunsigned.of_part (List.suffix_append item body).isInfix)
    rcases hitem with hitem | @⟨mark, digits, n, hmark, -, -⟩
    · exact .cons hitem hbody
    · refine absurd ?_ (hunsigned mark (List.mem_map_of_mem hmark))
      exact ⟨[], digits ++ body, rfl⟩

theorem Items.accepted {body : List Char} (h : Items (Item quote) body ds) :
    Items (Accepted quote) body ds := by
  induction h with
  | nil => exact .nil
  | cons hitem _ ih => exact .cons (.inl hitem) ih

theorem readString_eq_ok (hquote : quote ≠ '\\') {s : String} :
    readString quote offset cs = .ok (s, n) ↔ Closes (Accepted quote) quote cs s.toList n := by
  constructor
  · intro h
    obtain ⟨⟨ds, m⟩, hm, heq⟩ := map_ok h
    cases heq
    rw [String.toList_ofList]
    exact closes_of_stringItems hquote hm
  · rintro ⟨body, rest, rfl, rfl, hitems⟩
    rw [readString, stringItems_of_items hquote hitems]
    simp only [Except.map, String.ofList_toList]

theorem closes_of_unsigned (hunsigned : Unsigned (cs.take n)) :
    Closes (Accepted quote) quote cs ds n ↔ Closes (Item quote) quote cs ds n := by
  constructor
  · rintro ⟨body, rest, rfl, rfl, hitems⟩
    rw [List.take_length_add_append] at hunsigned
    have hbody : body <:+: body ++ [quote] := (List.prefix_append _ _).isInfix
    exact ⟨body, rest, rfl, rfl, hitems.of_accepted (hunsigned.of_part hbody)⟩
  · rintro ⟨body, rest, rfl, rfl, hitems⟩
    exact ⟨body, rest, rfl, rfl, hitems.accepted⟩

end Literal

namespace Expr

def texts : Expr → List (String × String)
  | .literal spelling (.text s) => [(spelling, s)]
  | .literal _ _ | .option _ => []
  | .unary _ operand => operand.texts
  | .binary _ left right => left.texts ++ right.texts

end Expr

open Literal

theorem Token.Lexes.spells {s : String} {spelling rest : List Char}
    (h : Lexes (.text s) spelling rest) : Spells Accepted (String.ofList spelling) s := by
  obtain ⟨c, cs, rfl, -⟩ := id h
  obtain ⟨-, hfound⟩ := lexes_iff_found.1 h
  have hfound := hfound 0
  generalize hkind : TokenKind.text s = kind at hfound
  generalize hn : cs.length = n at hfound
  cases hfound with
  | text hquote hs =>
    cases hkind
    obtain ⟨body, more, hcs, rfl, hitems⟩ := (readString_eq_ok (ne_backslash hquote)).1 hs
    refine ⟨c, body, hquote, ?_, hitems⟩
    have htake := congrArg (List.take cs.length) hcs
    rw [List.take_left, hn, List.take_length_add_append] at htake
    rw [String.toList_ofList, htake]
    rfl
  | name | number | backtick | punct => cases hkind

theorem Token.spells_of_mem_scanFrom {offset : Nat} {cs : List Char} {tokens : List Token}
    (h : scanFrom offset cs = .ok tokens) {t : Token} (ht : t ∈ tokens) {s : String}
    (hkind : t.kind = .text s) : Spells Accepted t.spelling s := by
  obtain ⟨start, c, cs, n, hfound, hspelling, hblank⟩ := lexeme_of_mem_scanFrom h ht
  have hlexes := lexes_of_lexeme hfound hblank
  rw [hkind, ← hspelling] at hlexes
  have hspells := hlexes.spells
  rwa [String.ofList_toList] at hspells

theorem Expr.spells_of_derives {source : String} {tokens : List Token}
    (hscan : Token.scan source = .ok tokens) {category : Category} {ts : List Token} {e : Expr}
    (h : Derives category ts e) (hmem : ∀ t ∈ ts, t ∈ tokens) :
    ∀ p ∈ e.texts, Spells Accepted p.1 p.2 := by
  induction h with
  | option | number => exact fun p hp ↦ absurd hp List.not_mem_nil
  | word _ hword =>
    simp only [wordLiterals, List.mem_cons, Prod.mk.injEq, List.not_mem_nil, or_false] at hword
    rcases hword with ⟨-, rfl⟩ | ⟨-, rfl⟩ | ⟨-, rfl⟩ <;>
      exact fun p hp ↦ absurd hp List.not_mem_nil
  | @text t s hkind =>
    intro p hp
    obtain rfl := List.mem_singleton.1 hp
    exact Token.spells_of_mem_scanFrom hscan (hmem t List.mem_cons_self) hkind
  | group _ _ _ ih => exact ih fun t ht ↦ hmem t (by simp [ht])
  | primary _ ih | tightest _ ih | tighter _ ih => exact ih hmem
  | unary _ _ _ ih => exact ih fun t ht ↦ hmem t (by simp [ht])
  | binary _ _ _ _ ihe ihf =>
    intro p hp
    rcases List.mem_append.1 hp with hp | hp
    · exact ihe (fun t ht ↦ hmem t (by simp [ht])) p hp
    · exact ihf (fun t ht ↦ hmem t (by simp [ht])) p hp

theorem Expr.spells_of_parse {source : String} {e : Expr} (h : parse source = .ok e) :
    ∀ p ∈ e.texts, Spells Accepted p.1 p.2 := by
  obtain ⟨tokens, hscan, -⟩ := bind_ok h
  exact spells_of_derives hscan (derives_of_parse hscan h) fun _ ht ↦ ht

namespace Literal

theorem Spells.of_accepted {spelling value : String} (h : Spells Accepted spelling value)
    (hunsigned : Unsigned spelling.toList) : Spells Item spelling value := by
  obtain ⟨quote, body, hquote, hspelling, hitems⟩ := h
  refine ⟨quote, body, hquote, hspelling, hitems.of_accepted (hunsigned.of_part ?_)⟩
  rw [hspelling]
  exact ⟨[quote], [quote], rfl⟩

/-- The reader accepts exactly the literals of the grammar, up to signs in escapes, and gives the
characters that their items stand for. What is printed for a string and what it is compared by are
the two sides of the same items. -/
theorem readString_ok_iff {quote : Char} (hquote : quote = '\x22' ∨ quote = '\x27') (offset : Nat)
    (cs : List Char) (s : String) (n : Nat) :
    (readString quote offset cs = .ok (s, n) ↔ Closes (Accepted quote) quote cs s.toList n) ∧
    (Unsigned (cs.take n) →
      (readString quote offset cs = .ok (s, n) ↔ Closes (Item quote) quote cs s.toList n)) ∧
    ∀ source e, Expr.parse source = .ok e → ∀ p ∈ e.texts,
      Spells Accepted p.1 p.2 ∧ (Unsigned p.1.toList → Spells Item p.1 p.2) := by
  have hread : readString quote offset cs = .ok (s, n) ↔
      Closes (Accepted quote) quote cs s.toList n :=
    readString_eq_ok (ne_backslash hquote)
  refine ⟨hread, ?_, ?_⟩
  · intro hunsigned
    rw [hread, closes_of_unsigned hunsigned]
  · intro source e hparse p hp
    have hspells := Expr.spells_of_parse hparse p hp
    exact ⟨hspells, hspells.of_accepted⟩

theorem readString_escapes :
    Closes (Item '\x27') '\x27' "\\u00e9\\'s \\x41\\q' + b".toList "é's Aq".toList 17 ∧
      Spells Item "'\\0x'" "\x00x" := by
  have hread : (readString '\x27' 4 "\\u00e9\\'s \\x41\\q' + b".toList).toOption =
      some ("é's Aq", 17) := by
    decide +kernel
  have hparse : (Expr.parse "!(a === '\\0x')").toOption = some
      (.unary .not (.binary .identical (.option "a") (.literal "'\\0x'" (.text "\x00x")))) := by
    decide +kernel
  obtain ⟨-, hitems, hspells⟩ := readString_ok_iff (.inr rfl) 4
    "\\u00e9\\'s \\x41\\q' + b".toList "é's Aq" 17
  have hplain := (hitems (unsigned_of_not_mem (by decide))).1 (eq_ok_of_toOption hread)
  have htext := (hspells _ _ (eq_ok_of_toOption hparse) _ List.mem_cons_self).2
  exact ⟨hplain, htext (unsigned_of_not_mem (by decide))⟩

/-- An escape with a sign is read, although it has too few digits. -/
theorem readString_signed :
    readString '\x27' 0 "\\x+4'".toList = .ok ("\x04", 5) ∧
      ¬Closes (Item '\x27') '\x27' "\\x+4'".toList "\x04".toList 5 := by
  refine ⟨eq_ok_of_toOption (by decide +kernel), ?_⟩
  rintro ⟨body, rest, hcs, hlength, hitems⟩
  have hbody : body = ['\\', 'x', '+', '4'] := by
    have htake := congrArg (List.take 4) hcs
    rw [List.take_left' (Nat.succ.inj hlength).symm] at htake
    exact htake.symm
  generalize "\x04".toList = ds at hitems
  cases hitems with
  | nil => cases hbody
  | @cons item tail _ _ hitem =>
    cases hitem with
    | plain hc =>
      obtain ⟨rfl, -⟩ := List.cons.inj hbody
      exact hc (by decide)
    | escaped hc =>
      obtain ⟨rfl, -⟩ := List.cons.inj (List.cons.inj hbody).2
      exact hc (by decide)
    | @codePoint mark digits n hmark hnumber =>
      obtain ⟨rfl, hdigits⟩ := List.cons.inj (List.cons.inj hbody).2
      cases digits with
      | nil => exact absurd hmark (by decide)
      | cons c digits =>
        obtain ⟨rfl, -⟩ := List.cons.inj hdigits
        exact HexNumber.not_signed hnumber

end Literal

end Transclude
