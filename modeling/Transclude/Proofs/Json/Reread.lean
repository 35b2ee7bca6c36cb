import Mathlib.Algebra.BigOperators.Group.List.Basic
import Mathlib.Data.List.Induction
import Mathlib.Data.String.Basic
import Transclude.Json.Parser
import Transclude.Json.Printer

namespace Transclude.Json

abbrev Gap (cs : List Char) : Prop := cs.all isSpace = true

/-- Values without numbers, truth values and null, with the fields of objects in order. -/
inductive Textual : Json → Prop
  | string (s : String) : Textual (.string s)
  | array {items : List Json} : (∀ item ∈ items, Textual item) → Textual (.array items)
  | object {fields : List (String × Json)} :
      ofFields fields = .object fields → (∀ field ∈ fields, Textual field.2) →
      Textual (.object fields)

variable {gap cs rest : List Char} {depth budget : Nat}

theorem skipSpace_cons {c : Char} (hc : isSpace c = false) (cs : List Char) :
    skipSpace (c :: cs) = c :: cs := by
  rw [skipSpace, List.dropWhile_cons_of_neg (by simp [hc])]

theorem skipSpace_gap (hgap : Gap gap) {c : Char} (hc : isSpace c = false) (cs : List Char) :
    skipSpace (gap ++ c :: cs) = c :: cs := by
  rw [skipSpace, List.dropWhile_append_of_pos (by simpa using hgap)]
  exact skipSpace_cons hc cs

section Strings

theorem radixDigits?_hexByte :
    ∀ n < 0x20, radixDigits? 16 0 ('0' :: '0' :: hexByte n) = some n := by
  decide

theorem stringTail?_escape {e c : Char} (he : e ≠ 'u') (h : simpleEscape? e = some c)
    (budget : Nat) (cs : List Char) :
    stringTail? (budget + 1) ('\\' :: e :: cs) =
      (stringTail? budget cs).map fun (ds, rest) ↦ (c :: ds, rest) := by
  rw [stringTail?.eq_def]
  dsimp only
  rw [if_neg (by decide), if_neg (by decide), if_pos rfl]
  split
  · cases ‹_ :: _ = []›
  · next heq => exact absurd (List.cons.inj heq).1 he
  · next heq =>
    obtain ⟨rfl, rfl⟩ := List.cons.inj heq
    rw [h]
    cases stringTail? budget cs <;> rfl

theorem stringTail?_control {c : Char} (h : c.toNat < 0x20) (budget : Nat) (cs : List Char) :
    stringTail? (budget + 1) ('\\' :: 'u' :: '0' :: '0' :: (hexByte c.toNat ++ cs)) =
      (stringTail? budget cs).map fun (ds, rest) ↦ (c :: ds, rest) := by
  have hdigits := radixDigits?_hexByte c.toNat h
  have hescape : unicodeEscape? c.toNat cs = some (c, cs) := by
    rw [unicodeEscape?.eq_def, if_pos (.inl (by omega)), Char.ofNat_toNat]
  rw [stringTail?, if_neg (by decide), if_neg (by decide), if_pos rfl]
  rw [hexByte] at hdigits ⊢
  simp only [List.cons_append, List.nil_append, hex4?, hdigits, Option.map_some,
    Option.bind_eq_bind, Option.bind_some, hescape]
  cases stringTail? budget cs <;> rfl

theorem stringTail?_plain {c : Char} (hquote : c ≠ '\x22') (hslash : c ≠ '\\')
    (hcontrol : ¬c.toNat < 0x20) (budget : Nat) (cs : List Char) :
    stringTail? (budget + 1) (c :: cs) =
      (stringTail? budget cs).map fun (ds, rest) ↦ (c :: ds, rest) := by
  rw [stringTail?.eq_def]
  dsimp only
  rw [if_neg hquote, if_neg hcontrol, if_neg hslash]
  cases stringTail? budget cs <;> rfl

theorem stringTail?_quoteChar (c : Char) (budget : Nat) (cs : List Char) :
    stringTail? (budget + 1) (quoteChar c ++ cs) =
      (stringTail? budget cs).map fun (ds, rest) ↦ (c :: ds, rest) := by
  unfold quoteChar
  split
  case h_8 hquote hslash _ _ _ _ _ =>
    split
    · next hcontrol => exact stringTail?_control hcontrol budget cs
    · next hcontrol => exact stringTail?_plain hquote hslash hcontrol budget cs
  all_goals exact stringTail?_escape (by decide) rfl budget cs

theorem stringTail?_quoted {s : List Char} (h : s.length < budget) (rest : List Char) :
    stringTail? budget (s.flatMap quoteChar ++ '\x22' :: rest) = some (s, rest) := by
  induction s generalizing budget with
  | nil =>
    obtain ⟨budget, rfl⟩ := Nat.exists_eq_succ_of_ne_zero (Nat.ne_of_gt h)
    simp [stringTail?]
  | cons c s ih =>
    obtain ⟨budget, rfl⟩ := Nat.exists_eq_succ_of_ne_zero (Nat.ne_of_gt (Nat.zero_lt_of_lt h))
    rw [List.flatMap_cons, List.append_assoc, Nat.succ_eq_add_one, stringTail?_quoteChar,
      ih (Nat.lt_of_succ_lt_succ h)]
    rfl

theorem toList_quote (s : String) :
    (quote s).toList = '\x22' :: (s.toList.flatMap quoteChar ++ ['\x22']) := by
  simp [quote]

theorem stringTail?_quote (s : String) (rest : List Char) :
    ∃ tail, (quote s).toList ++ rest = '\x22' :: tail ∧
      stringTail? (tail.length + 1) tail = some (s.toList, rest) := by
  refine ⟨s.toList.flatMap quoteChar ++ '\x22' :: rest, by simp [toList_quote], ?_⟩
  refine stringTail?_quoted ?_ rest
  have hlength : s.toList.length ≤ (s.toList.flatMap quoteChar).length := by
    have hone : ∀ n ∈ s.toList.map (fun c ↦ (quoteChar c).length), 1 ≤ n := by
      simp only [List.forall_mem_map]
      intro c _
      unfold quoteChar
      split <;> (try split) <;> simp
    simpa [List.length_flatMap] using List.length_le_sum_of_one_le _ hone
  rw [List.length_append, List.length_cons]
  omega

end Strings

section Containers

/-- Wherever the text stands, the value is read from it. -/
def ReadsAs (depth budget : Nat) (text : List Char) (j : Json) : Prop :=
  ∀ gap rest, Gap gap → value? depth budget (gap ++ (text ++ rest)) = some (j, rest)

variable {inner close : List Char} {text : Json → List Char}

theorem items?_intercalate (hinner : Gap inner) (hclose : Gap close) {item : Json}
    {items : List Json}
    (h : ∀ j ∈ item :: items, ∀ budget, sizeOf j ≤ budget → ReadsAs depth budget (text j) j)
    (hbudget : sizeOf (item :: items) ≤ budget) (hgap : Gap gap) (rest : List Char) :
    items? depth budget (gap ++ ((',' :: inner).intercalate ((item :: items).map text) ++
      (close ++ ']' :: rest))) = some (item :: items, rest) := by
  induction items generalizing item budget gap with
  | nil =>
    rw [List.cons.sizeOf_spec] at hbudget
    obtain ⟨budget, rfl⟩ := Nat.exists_eq_add_of_le' (show 1 ≤ budget by omega)
    have hitem := h item List.mem_cons_self budget (by omega) gap (close ++ ']' :: rest) hgap
    rw [List.map_singleton, List.intercalate_singleton, items?, hitem]
    simp [skipSpace_gap hclose (c := ']') (by decide) rest]
  | cons next items ih =>
    rw [List.cons.sizeOf_spec] at hbudget
    obtain ⟨budget, rfl⟩ := Nat.exists_eq_add_of_le' (show 1 ≤ budget by omega)
    obtain ⟨hitem, hitems⟩ := List.forall_mem_cons.1 h
    have hsize : sizeOf (next :: items) ≤ budget := by omega
    have hrest := ih hitems hsize hinner
    rw [List.map_cons] at hrest
    rw [List.map_cons, List.map_cons, List.intercalate_cons_cons, List.append_assoc,
      List.append_assoc, items?, hitem budget (by omega) gap _ hgap, List.cons_append]
    simp [skipSpace_cons (c := ',') (by decide), hrest]

theorem fields?_field {budget : Nat} {name : String} {value : Json}
    (hvalue : ReadsAs depth budget (text value) value) (hgap : Gap gap) (cs : List Char) :
    fields? depth (budget + 1) (gap ++ ((quote name).toList ++ ':' :: ' ' :: text value ++ cs)) =
      match skipSpace cs with
      | '\x7d' :: rest => some ([(name, value)], rest)
      | ',' :: rest => do
        let (fields, rest) ← fields? depth budget rest
        some ((name, value) :: fields, rest)
      | _ => none := by
  obtain ⟨tail, htail, hname⟩ := stringTail?_quote name (':' :: ' ' :: (text value ++ cs))
  have hread : value? depth budget (' ' :: (text value ++ cs)) = some (value, cs) :=
    hvalue [' '] cs (by decide)
  rw [List.append_assoc, List.cons_append, List.cons_append, htail, fields?,
    skipSpace_gap hgap (by decide)]
  simp only [hname, Option.bind_eq_bind, Option.bind_some, String.ofList_toList,
    skipSpace_cons (c := ':') (by decide)]
  rewrite [hread]
  rfl

theorem fields?_intercalate (hinner : Gap inner) (hclose : Gap close) {field : String × Json}
    {fields : List (String × Json)}
    (h : ∀ f ∈ field :: fields, ∀ budget, sizeOf f.2 ≤ budget →
      ReadsAs depth budget (text f.2) f.2)
    (hbudget : sizeOf (field :: fields) ≤ budget) (hgap : Gap gap) (rest : List Char) :
    fields? depth budget (gap ++ ((',' :: inner).intercalate ((field :: fields).map
      fun f ↦ (quote f.1).toList ++ ':' :: ' ' :: text f.2) ++ (close ++ '\x7d' :: rest))) =
      some (field :: fields, rest) := by
  induction fields generalizing field budget gap with
  | nil =>
    rw [List.cons.sizeOf_spec, Prod.mk.sizeOf_spec] at hbudget
    obtain ⟨budget, rfl⟩ := Nat.exists_eq_add_of_le' (show 1 ≤ budget by omega)
    have hvalue := h field List.mem_cons_self budget (by omega)
    rw [List.map_singleton, List.intercalate_singleton, fields?_field hvalue hgap,
      skipSpace_gap hclose (by decide)]
    rfl
  | cons next fields ih =>
    rw [List.cons.sizeOf_spec, Prod.mk.sizeOf_spec] at hbudget
    obtain ⟨budget, rfl⟩ := Nat.exists_eq_add_of_le' (show 1 ≤ budget by omega)
    obtain ⟨hvalue, hvalues⟩ := List.forall_mem_cons.1 h
    have hsize : sizeOf (next :: fields) ≤ budget := by omega
    have hrest := ih hvalues hsize hinner
    rw [List.map_cons] at hrest
    rw [List.map_cons, List.map_cons, List.intercalate_cons_cons, List.append_assoc,
      List.append_assoc, fields?_field (hvalue budget (by omega)) hgap, List.cons_append,
      skipSpace_cons (by decide)]
    simp [hrest]

theorem value?_array {c : Char} (hgap : Gap gap) (hinner : Gap inner) (hc : isSpace c = false)
    (hclosing : c ≠ ']') (depth budget : Nat) (cs : List Char) :
    value? (depth + 1) (budget + 1) (gap ++ '[' :: (inner ++ c :: cs)) =
      (items? depth budget (c :: cs)).map fun (items, rest) ↦ (.array items, rest) := by
  rw [value?, skipSpace_gap hgap (by decide)]
  simp only [skipSpace_gap hinner hc cs]
  cases hitems : items? depth budget (c :: cs) <;> simp [hclosing, hitems]

theorem value?_object {c : Char} (hgap : Gap gap) (hinner : Gap inner) (hc : isSpace c = false)
    (hclosing : c ≠ '\x7d') (depth budget : Nat) (cs : List Char) :
    value? (depth + 1) (budget + 1) (gap ++ '\x7b' :: (inner ++ c :: cs)) =
      (fields? depth budget (c :: cs)).map fun (fields, rest) ↦ (.ofFields fields, rest) := by
  rw [value?, skipSpace_gap hgap (by decide)]
  simp only [skipSpace_gap hinner hc cs]
  cases hfields : fields? depth budget (c :: cs) <;> simp [hclosing, hfields]

theorem exists_intercalate_cons {first : List Char} {c : Char} (h : first = c :: cs)
    (sep : List Char) (others : List (List Char)) :
    ∃ tail, sep.intercalate (first :: others) = c :: tail := by
  subst h
  cases others with
  | nil => exact ⟨cs, List.intercalate_singleton⟩
  | cons => exact ⟨_, by rw [List.intercalate_cons_cons, List.cons_append, List.cons_append]⟩

theorem readsAs_array (hinner : Gap inner) (hclose : Gap close) {item : Json} {items : List Json}
    (h : ∀ j ∈ item :: items, ∀ budget, sizeOf j ≤ budget → ReadsAs depth budget (text j) j)
    (hhead : ∃ c cs, text item = c :: cs ∧ isSpace c = false ∧ c ≠ ']')
    (hbudget : sizeOf (item :: items) ≤ budget) :
    ReadsAs (depth + 1) (budget + 1)
      ('[' :: (inner ++ ((',' :: inner).intercalate ((item :: items).map text) ++
        (close ++ [']']))))
      (.array (item :: items)) := by
  intro gap rest hgap
  have hitems := items?_intercalate hinner hclose h hbudget (show Gap [] from rfl) rest
  obtain ⟨c, cs, htext, hspace, hclosing⟩ := hhead
  obtain ⟨tail, htail⟩ := exists_intercalate_cons htext (',' :: inner) (items.map text)
  rw [List.map_cons, htail, List.nil_append, List.cons_append] at hitems
  rw [List.map_cons, htail]
  have hvalue := value?_array hgap hinner hspace hclosing depth budget
    (tail ++ (close ++ ']' :: rest))
  rw [hitems] at hvalue
  simpa using hvalue

theorem readsAs_object (text : Json → List Char) (hinner : Gap inner) (hclose : Gap close)
    {field : String × Json} {fields : List (String × Json)}
    (h : ∀ f ∈ field :: fields, ∀ budget, sizeOf f.2 ≤ budget →
      ReadsAs depth budget (text f.2) f.2)
    (hordered : ofFields (field :: fields) = .object (field :: fields))
    (hbudget : sizeOf (field :: fields) ≤ budget) :
    ReadsAs (depth + 1) (budget + 1)
      ('\x7b' :: (inner ++ ((',' :: inner).intercalate ((field :: fields).map
        fun f ↦ (quote f.1).toList ++ ':' :: ' ' :: text f.2) ++ (close ++ ['\x7d']))))
      (.object (field :: fields)) := by
  intro gap rest hgap
  have hfields := fields?_intercalate hinner hclose h hbudget (show Gap [] from rfl) rest
  have hquote : (quote field.1).toList ++ ':' :: ' ' :: text field.2 =
      '\x22' :: (field.1.toList.flatMap quoteChar ++ '\x22' :: ':' :: ' ' :: text field.2) := by
    simp [toList_quote]
  obtain ⟨tail, htail⟩ := exists_intercalate_cons hquote (',' :: inner)
    (fields.map fun f ↦ (quote f.1).toList ++ ':' :: ' ' :: text f.2)
  rw [List.map_cons, htail, List.nil_append, List.cons_append] at hfields
  rw [List.map_cons, htail]
  have hvalue := value?_object hgap hinner (c := '\x22') (by decide) (by decide) depth budget
    (tail ++ (close ++ '\x7d' :: rest))
  rw [hfields] at hvalue
  simpa [hordered] using hvalue

end Containers

section Printing

theorem indentedItems_eq (indent : String) (items : List Json) :
    indentedItems indent items = items.map (indented indent) := by
  induction items with
  | nil => rw [indentedItems, List.map_nil]
  | cons item items ih => rw [indentedItems, ih, List.map_cons]

theorem indentedFields_eq (indent : String) (fields : List (String × Json)) :
    indentedFields indent fields =
      fields.map fun f ↦ quote f.1 ++ ": " ++ f.2.indented indent := by
  induction fields with
  | nil => rw [indentedFields, List.map_nil]
  | cons field fields ih => rw [indentedFields, ih, List.map_cons]

theorem toList_enclose {entries : List String} (h : entries ≠ [])
    (opening closing indent : String) :
    (enclose opening closing indent entries).toList =
      opening.toList ++ ('\n' :: (indent ++ "  ").toList ++
        ((',' :: '\n' :: (indent ++ "  ").toList).intercalate (entries.map String.toList) ++
          ('\n' :: indent.toList ++ closing.toList))) := by
  simp [enclose, String.toList_intercalate, h]

theorem head_indented {j : Json} (h : Textual j) (indent : String) :
    ∃ c cs, (j.indented indent).toList = c :: cs ∧ isSpace c = false ∧ c ≠ ']' := by
  cases h with
  | string s => exact ⟨'\x22', _, by rw [indented, toList_quote], by decide, by decide⟩
  | @array items _ =>
    rw [indented, indentedItems_eq]
    cases items with
    | nil => exact ⟨'[', [']'], by simp [enclose], by decide, by decide⟩
    | cons => exact ⟨'[', _, by rw [toList_enclose (by simp)]; rfl, by decide, by decide⟩
  | @object fields _ _ =>
    rw [indented, indentedFields_eq]
    cases fields with
    | nil => exact ⟨'\x7b', ['\x7d'], by simp [enclose], by decide, by decide⟩
    | cons => exact ⟨'\x7b', _, by rw [toList_enclose (by simp)]; rfl, by decide, by decide⟩

theorem Textual.readsAs {j : Json} (h : Textual j) (hdepth : sizeOf j ≤ depth)
    (hbudget : sizeOf j ≤ budget) {indent : String} (hindent : Gap indent.toList) :
    ReadsAs depth budget (j.indented indent).toList j := by
  have hnewline {cs : List Char} (h : Gap cs) : Gap ('\n' :: cs) := by
    rw [Gap, List.all_cons, h]
    decide
  have hdeeper {indent : String} (h : Gap indent.toList) : Gap (indent ++ "  ").toList := by
    rw [String.toList_append, Gap, List.all_append, h]
    decide
  induction h generalizing depth budget indent with
  | string s =>
    rw [string.sizeOf_spec] at hbudget
    obtain ⟨budget, rfl⟩ := Nat.exists_eq_add_of_le' (show 1 ≤ budget by omega)
    intro gap rest hgap
    obtain ⟨tail, htail, hs⟩ := stringTail?_quote s rest
    rw [indented, htail, value?, skipSpace_gap hgap (by decide)]
    simp [hs]
  | @array items hitems ih =>
    rw [array.sizeOf_spec] at hbudget hdepth
    obtain ⟨budget, rfl⟩ := Nat.exists_eq_add_of_le' (show 1 ≤ budget by omega)
    obtain ⟨depth, rfl⟩ := Nat.exists_eq_add_of_le' (show 1 ≤ depth by omega)
    rw [indented, indentedItems_eq]
    cases items with
    | nil =>
      intro gap rest hgap
      have htext : (enclose "[" "]" indent []).toList ++ rest = '[' :: ']' :: rest := by
        simp [enclose]
      rw [List.map_nil, htext, value?, skipSpace_gap hgap (by decide)]
      simp [skipSpace_cons (c := ']') (by decide)]
    | cons item items =>
      rw [toList_enclose (by simp), List.map_map]
      refine readsAs_array (hnewline (hdeeper hindent)) (hnewline hindent) ?_
        (head_indented (hitems item List.mem_cons_self) _) (by omega)
      intro j hj budget hbudget
      have hsize := List.sizeOf_lt_of_mem hj
      exact ih j hj (by omega) hbudget (hdeeper hindent)
  | @object fields hordered hfields ih =>
    rw [object.sizeOf_spec] at hbudget hdepth
    obtain ⟨budget, rfl⟩ := Nat.exists_eq_add_of_le' (show 1 ≤ budget by omega)
    obtain ⟨depth, rfl⟩ := Nat.exists_eq_add_of_le' (show 1 ≤ depth by omega)
    rw [indented, indentedFields_eq]
    cases fields with
    | nil =>
      intro gap rest hgap
      have htext : (enclose "\x7b" "\x7d" indent []).toList ++ rest = '\x7b' :: '\x7d' :: rest := by
        simp [enclose]
      rw [List.map_nil, htext, value?, skipSpace_gap hgap (by decide)]
      simp [skipSpace_cons (c := '\x7d') (by decide)]
    | cons field fields =>
      have hlines : (field :: fields).map (String.toList ∘ fun f ↦
          quote f.1 ++ ": " ++ f.2.indented (indent ++ "  ")) = (field :: fields).map fun f ↦
          (quote f.1).toList ++ ':' :: ' ' :: (f.2.indented (indent ++ "  ")).toList := by
        simp
      rw [toList_enclose (by simp), List.map_map, hlines]
      refine readsAs_object (fun j ↦ (j.indented (indent ++ "  ")).toList)
        (hnewline (hdeeper hindent)) (hnewline hindent) ?_ hordered (by omega)
      intro f hf budget hbudget
      have hsize := List.sizeOf_lt_of_mem hf
      rw [Prod.mk.sizeOf_spec] at hsize
      exact ih f hf (by omega) hbudget (hdeeper hindent)

theorem Textual.value?_pretty {j : Json} (h : Textual j) (hdepth : sizeOf j ≤ depth)
    (hbudget : sizeOf j ≤ budget) (rest : String) :
    value? depth budget (j.pretty ++ rest).toList = some (j, rest.toList) := by
  rw [String.toList_append]
  exact h.readsAs hdepth hbudget (show Gap "".toList from rfl) [] rest.toList rfl

end Printing

section Fields

theorem lookup_cons (key name : String) (value : Json) (fields : List (String × Json)) :
    ((name, value) :: fields).lookup key =
      if key = name then some value else fields.lookup key := by
  rw [List.lookup_cons]
  cases hkey : key == name with
  | true => rw [if_pos (by simpa using hkey)]
  | false => rw [if_neg (by simpa using hkey)]

theorem lookup_insertField (key name : String) (value : Json) (fields : List (String × Json)) :
    (insertField name value fields).lookup key =
      if key = name then some value else fields.lookup key := by
  induction fields with
  | nil => rw [insertField, lookup_cons]
  | cons field fields ih =>
    obtain ⟨other, old⟩ := field
    rw [insertField]
    split
    · rw [lookup_cons]
    · split
      · next hname =>
        rw [lookup_cons, lookup_cons, hname]
        split <;> rfl
      · next hname =>
        rw [lookup_cons, ih, lookup_cons]
        by_cases hkey : key = other
        · rw [if_pos hkey, if_pos hkey, if_neg fun heq ↦ hname (heq.symm.trans hkey)]
        · rw [if_neg hkey, if_neg hkey]

theorem field?_ofFields (fields : List (String × Json)) (key : String) :
    (ofFields fields).field? key = fields.reverse.lookup key := by
  rw [ofFields, field?]
  induction fields using List.reverseRecOn with
  | nil => rfl
  | append_singleton fields field ih =>
    rw [List.foldl_append, List.foldl_cons, List.foldl_nil, lookup_insertField, ih,
      List.reverse_append, List.reverse_singleton, List.singleton_append, lookup_cons]

abbrev Ordered (fields : List (String × Json)) : Prop := fields.Pairwise (·.1 < ·.1)

theorem mem_insertField {name : String} {value : Json} {fields : List (String × Json)}
    {field : String × Json} (h : field ∈ insertField name value fields) :
    field = (name, value) ∨ field ∈ fields := by
  induction fields with
  | nil => exact .inl (List.mem_singleton.1 h)
  | cons first fields ih =>
    rw [insertField] at h
    split at h
    · exact List.mem_cons.1 h
    · split at h
      · exact (List.mem_cons.1 h).imp id (List.mem_cons_of_mem first)
      · rcases List.mem_cons.1 h with rfl | h
        · exact .inr List.mem_cons_self
        · exact (ih h).imp id (List.mem_cons_of_mem first)

theorem Ordered.insertField {fields : List (String × Json)} (h : Ordered fields) (name : String)
    (value : Json) : Ordered (insertField name value fields) := by
  induction fields with
  | nil => exact List.pairwise_singleton ..
  | cons first fields ih =>
    obtain ⟨hfirst, hfields⟩ := List.pairwise_cons.1 h
    rw [Json.insertField]
    split
    · next hlt =>
      refine List.pairwise_cons.2 ⟨List.forall_mem_cons.2 ⟨hlt, fun f hf ↦ ?_⟩, h⟩
      exact hlt.trans (hfirst f hf)
    · next hge =>
      split
      · next heq => exact List.pairwise_cons.2 ⟨heq ▸ hfirst, hfields⟩
      · next hne =>
        refine List.pairwise_cons.2 ⟨fun f hf ↦ ?_, ih hfields⟩
        rcases mem_insertField hf with rfl | hf
        · exact lt_of_le_of_ne (not_lt.1 hge) (Ne.symm hne)
        · exact hfirst f hf

theorem insertField_of_forall_lt {name : String} {fields : List (String × Json)}
    (h : ∀ field ∈ fields, field.1 < name) (value : Json) :
    insertField name value fields = fields ++ [(name, value)] := by
  induction fields with
  | nil => rfl
  | cons first fields ih =>
    obtain ⟨hfirst, hfields⟩ := List.forall_mem_cons.1 h
    rw [insertField, if_neg hfirst.asymm, if_neg hfirst.ne', ih hfields, List.cons_append]

theorem ofFields_concat {fields sorted : List (String × Json)}
    (h : ofFields fields = .object sorted) (field : String × Json) :
    ofFields (fields ++ [field]) = .object (insertField field.1 field.2 sorted) := by
  rw [ofFields, object.injEq] at h
  rw [ofFields, List.foldl_append, h]
  rfl

theorem ofFields_of_ordered {fields : List (String × Json)} (h : Ordered fields) :
    ofFields fields = .object fields := by
  induction fields using List.reverseRecOn with
  | nil => rfl
  | append_singleton fields field ih =>
    obtain ⟨hfields, -, hlast⟩ := List.pairwise_append.1 h
    rw [ofFields_concat (ih hfields),
      insertField_of_forall_lt fun f hf ↦ hlast f hf field List.mem_cons_self]

theorem exists_ordered_ofFields (fields : List (String × Json)) :
    ∃ sorted, ofFields fields = .object sorted ∧ Ordered sorted ∧ sorted ⊆ fields := by
  induction fields using List.reverseRecOn with
  | nil => exact ⟨[], rfl, .nil, List.Subset.refl []⟩
  | append_singleton fields field ih =>
    obtain ⟨sorted, hsorted, hordered, hsubset⟩ := ih
    refine ⟨_, ofFields_concat hsorted field, hordered.insertField .., fun f hf ↦ ?_⟩
    rcases mem_insertField hf with rfl | hf
    · exact List.mem_append_right fields List.mem_cons_self
    · exact List.mem_append_left [field] (hsubset hf)

theorem textual_ofFields {fields : List (String × Json)}
    (h : ∀ field ∈ fields, Textual field.2) : Textual (ofFields fields) := by
  obtain ⟨sorted, hsorted, hordered, hsubset⟩ := exists_ordered_ofFields fields
  rw [hsorted]
  exact .object (ofFields_of_ordered hordered) fun field hfield ↦ h field (hsubset hfield)

end Fields

end Transclude.Json
