import Transclude.Directive

namespace Transclude

open Text Directive

/-- A line without its terminator, and the terminator, which only the last line may lack. -/
structure Line where
  content : List Char
  ending : List Char
  deriving DecidableEq

namespace Line

def chars (l : Line) : List Char := l.content ++ l.ending

def consHead (c : Char) : List Line → List Line
  | [] => [⟨[c], []⟩]
  | l :: ls => ⟨c :: l.content, l.ending⟩ :: ls

def cut : List Char → List Line
  | [] => []
  | '\r' :: '\n' :: cs => ⟨[], ['\r', '\n']⟩ :: cut cs
  | '\n' :: cs => ⟨[], ['\n']⟩ :: cut cs
  | '\r' :: cs => ⟨[], ['\r']⟩ :: cut cs
  | c :: cs => consHead c (cut cs)

def join (ls : List Line) : List Char := ls.flatMap chars

def argument? (l : Line) : Option (List Char) :=
  if marker.isPrefixOf l.content && marker.length < l.content.length then
    some (l.content.drop marker.length)
  else none

/-- The reference and the condition of a directive line: what stands before the first separator,
without the blanks around it, and what stands after it, as it is. -/
def directive? (l : Line) : Option (String × Option String) :=
  l.argument?.map fun argument ↦
    match splitFirst? separator argument with
    | some (before, after) => (String.ofList (trimChars before), some (String.ofList after))
    | none => (String.ofList (trimChars argument), none)

def directivesFrom (offset : Nat) : List Line → List Directive
  | [] => []
  | l :: ls =>
    match l.argument? with
    | some argument =>
      ofArgument offset argument l.ending :: directivesFrom (offset + size l.chars) ls
    | none => directivesFrom (offset + size l.chars) ls

/-- A text after which a line ends, given what follows it. -/
inductive Ends : List Char → List Char → Prop
  | newline (rest : List Char) : Ends ['\n'] rest
  | both (rest : List Char) : Ends ['\r', '\n'] rest
  | carriage {rest : List Char} : rest.head? ≠ some '\n' → Ends ['\r'] rest
  | last : Ends [] []

theorem join_consHead (c : Char) (ls : List Line) : join (consHead c ls) = c :: join ls := by
  cases ls <;> rfl

theorem join_cut (cs : List Char) : join (cut cs) = cs := by
  induction cs using cut.induct with
  | case1 => rfl
  | case2 cs ih => simpa [cut, join, chars] using ih
  | case3 cs ih => simpa [cut, join, chars] using ih
  | case4 cs hcs ih =>
    rw [cut]
    · simpa [join, chars] using ih
    · exact hcs
  | case5 c cs h₁ h₂ h₃ ih =>
    rw [cut, join_consHead, ih]
    · exact h₁
    · exact h₂
    · exact h₃

/-- Every text that is not empty is a first line and the rest, cut on its own. -/
theorem cut_of_ne_nil {cs : List Char} (hcs : cs ≠ []) :
    ∃ content ending rest, cs = content ++ (ending ++ rest) ∧ (∀ d ∈ content, !isLineEnd d) ∧
      Ends ending rest ∧ rest.length < cs.length ∧ cut cs = ⟨content, ending⟩ :: cut rest := by
  induction cs using cut.induct with
  | case1 => exact absurd rfl hcs
  | case2 rest =>
    have hlt : rest.length < ('\r' :: '\n' :: rest).length := by
      simp only [List.length_cons]
      omega
    exact ⟨[], ['\r', '\n'], rest, rfl, by simp, .both rest, hlt, rfl⟩
  | case3 rest => exact ⟨[], ['\n'], rest, rfl, by simp, .newline rest, by simp, rfl⟩
  | case4 rest hrest =>
    refine ⟨[], ['\r'], rest, rfl, by simp, .carriage ?_, by simp, ?_⟩
    · cases rest with
      | nil => simp
      | cons d ds => exact fun hd ↦ hrest ds (by simpa using hd)
    · rw [cut]
      exact hrest
  | case5 c cs h₁ h₂ h₃ ih =>
    have hc : (!isLineEnd c) = true := by
      simpa [isLineEnd] using And.intro h₂ h₃
    rw [cut]
    · by_cases hne : cs = []
      · subst hne
        exact ⟨[c], [], [], rfl, by simpa using hc, .last, by simp, rfl⟩
      · obtain ⟨content, ending, rest, he, hcontent, hends, hlt, hcut⟩ := ih hne
        refine ⟨c :: content, ending, rest, by rw [he]; rfl, ?_, hends, ?_, by rw [hcut]; rfl⟩
        · exact List.forall_mem_cons.2 ⟨hc, hcontent⟩
        · exact Nat.lt_succ_of_lt hlt
    · exact h₁
    · exact h₂
    · exact h₃

theorem Ends.head?_append {ending rest : List Char} (h : Ends ending rest) :
    (ending ++ rest).head?.all isLineEnd := by
  cases h <;> rfl

theorem Ends.terminator_append {ending rest : List Char} (h : Ends ending rest) :
    terminator (ending ++ rest) = ending := by
  cases h with
  | newline => rfl
  | both => rfl
  | last => rfl
  | @carriage rest hrest =>
    cases rest with
    | nil => rfl
    | cons d ds =>
      rw [List.singleton_append, terminator]
      · rfl
      · simpa using hrest

theorem isPrefixOf_append {tail : List Char} (htail : tail.head?.all isLineEnd)
    (word content : List Char) (hword : ∀ c ∈ word, !isLineEnd c) :
    word.isPrefixOf (content ++ tail) = word.isPrefixOf content := by
  induction word generalizing content with
  | nil => rfl
  | cons w word ih =>
    obtain ⟨hw, hword⟩ := List.forall_mem_cons.1 hword
    cases content with
    | cons c content => simp [List.isPrefixOf, ih content hword]
    | nil =>
      cases tail with
      | nil => rfl
      | cons d ds =>
        have hne : w ≠ d := by
          rintro rfl
          simp_all
        simp [List.isPrefixOf, hne]

theorem takeWhile_append {content tail : List Char} (htail : tail.head?.all isLineEnd)
    (hcontent : ∀ c ∈ content, !isLineEnd c) :
    (content ++ tail).takeWhile (!isLineEnd ·) = content := by
  rw [List.takeWhile_append_of_pos hcontent]
  cases tail with
  | nil => simp
  | cons d ds => simp_all

theorem argument?_append {content ending rest : List Char} (hcontent : ∀ c ∈ content, !isLineEnd c)
    (hends : Ends ending rest) :
    Directive.argument? (content ++ (ending ++ rest)) =
      (argument? ⟨content, ending⟩).map fun argument ↦ (argument, ending) := by
  have hword : marker.all (!isLineEnd ·) = true := by decide
  have hmarker := isPrefixOf_append hends.head?_append marker content (List.all_eq_true.1 hword)
  unfold Directive.argument? argument?
  rw [hmarker]
  by_cases hp : marker.isPrefixOf content
  · obtain ⟨argument, rfl⟩ := List.isPrefixOf_iff_prefix.1 hp
    have hargument : ∀ c ∈ argument, !isLineEnd c := fun c hc ↦
      hcontent c (List.mem_append_right _ hc)
    have htake : ((marker ++ argument ++ (ending ++ rest)).drop marker.length).takeWhile
        (!isLineEnd ·) = argument := by
      rw [List.append_assoc, List.drop_left]
      exact takeWhile_append hends.head?_append hargument
    have hdrop : (marker ++ argument ++ (ending ++ rest)).drop
        (marker.length + argument.length) = ending ++ rest := by
      rw [← List.length_append, List.drop_left]
    simp only [hp, htake, hdrop, hends.terminator_append, if_true]
    cases argument <;> simp
  · simp [hp]

theorem content_of_argument? {l : Line} {argument : List Char} (h : l.argument? = some argument) :
    l.content = marker ++ argument := by
  unfold argument? at h
  split at h
  · next hc =>
    obtain ⟨hp, -⟩ := Bool.and_eq_true_iff.1 hc
    obtain ⟨rest, he⟩ := List.isPrefixOf_iff_prefix.1 hp
    rw [← he, List.drop_left] at h
    rw [← he, Option.some.inj h]
  · cases h

theorem chars_of_argument? {l : Line} {argument : List Char} (h : l.argument? = some argument) :
    l.chars = marker ++ argument ++ l.ending := by
  rw [chars, content_of_argument? h]

@[simp]
theorem ofArgument_start (offset : Nat) (argument ending : List Char) :
    (ofArgument offset argument ending).start = offset := by
  unfold ofArgument
  cases splitFirst? separator argument <;> rfl

@[simp]
theorem ofArgument_stop (offset : Nat) (argument ending : List Char) :
    (ofArgument offset argument ending).stop = offset + size (marker ++ argument ++ ending) := by
  unfold ofArgument
  cases splitFirst? separator argument <;> rfl

theorem directive?_eq_none {l : Line} : l.directive? = none ↔ l.argument? = none := by
  simp [directive?]

theorem directive?_eq {l : Line} {argument : List Char} (h : l.argument? = some argument)
    (offset : Nat) :
    l.directive? = some ((ofArgument offset argument l.ending).reference,
      (ofArgument offset argument l.ending).condition) := by
  simp only [directive?, ofArgument, h, Option.map_some]
  cases splitFirst? separator argument <;> rfl

theorem scanFrom_pass {content ending rest : List Char} (hcontent : ∀ c ∈ content, !isLineEnd c)
    (hends : Ends ending rest) (offset : Nat) :
    scanFrom offset false (content ++ (ending ++ rest)) =
      scanFrom (offset + size (content ++ ending)) true rest := by
  induction content generalizing offset with
  | cons c content ih =>
    obtain ⟨hc, hcontent⟩ := List.forall_mem_cons.1 hcontent
    have hends' : endsLine c (content ++ (ending ++ rest)) = false := by
      simp_all [endsLine, isLineEnd]
    rw [List.cons_append, scanFrom, if_neg (by decide), hends', ih hcontent]
    simp [Nat.add_assoc]
  | nil =>
    cases hends with
    | newline => simp [scanFrom, endsLine]
    | both => simp [scanFrom, endsLine, Nat.add_assoc]
    | carriage hrest =>
      have hfresh : (rest.head? != some '\n') = true := by simpa using hrest
      simp [scanFrom, endsLine, hfresh]
    | last => simp [scanFrom]

theorem scanFrom_stale {cs : List Char} (h : Directive.argument? cs = none) (offset : Nat) :
    scanFrom offset true cs = scanFrom offset false cs := by
  cases cs with
  | nil => simp [scanFrom]
  | cons c cs => rw [scanFrom, scanFrom, if_pos rfl, h, if_neg (by decide)]

theorem scanFrom_directive {argument ending tail : List Char} {cs : List Char}
    (h : Directive.argument? cs = some (argument, ending))
    (hcs : cs = marker ++ argument ++ ending ++ tail) (offset : Nat) :
    scanFrom offset true cs = ofArgument offset argument ending ::
      scanFrom (offset + size (marker ++ argument ++ ending)) true tail := by
  cases cs with
  | nil => cases h
  | cons c cs =>
    have htail : cs.drop ((marker ++ argument ++ ending).length - 1) = tail := by
      have hpos : 0 < (marker ++ argument ++ ending).length := by
        simp only [List.length_append]
        exact Nat.lt_of_lt_of_le (show 0 < marker.length by decide) (by omega)
      rw [← List.drop_succ_cons (a := c), Nat.sub_add_cancel hpos, hcs, List.drop_left]
    rw [scanFrom]
    simp only [if_true, h, htail]

theorem scanFrom_eq (offset : Nat) (cs : List Char) :
    scanFrom offset true cs = directivesFrom offset (cut cs) := by
  by_cases hcs : cs = []
  · subst hcs
    simp [scanFrom, cut, directivesFrom]
  obtain ⟨content, ending, rest, he, hcontent, hends, hlt, hcut⟩ := cut_of_ne_nil hcs
  have ih := scanFrom_eq (offset + size (content ++ ending)) rest
  have harg := argument?_append hcontent hends
  rw [hcut, directivesFrom]
  cases ha : argument? ⟨content, ending⟩ with
  | none =>
    rw [ha, Option.map_none, ← he] at harg
    rw [scanFrom_stale harg, he, scanFrom_pass hcontent hends, ih]
    rfl
  | some argument =>
    rw [ha, Option.map_some, ← he] at harg
    have hchars : content ++ ending = marker ++ argument ++ ending := chars_of_argument? ha
    rw [hchars] at ih
    have hline : cs = marker ++ argument ++ ending ++ rest := by
      rw [he, ← List.append_assoc, hchars]
    rw [scanFrom_directive harg hline, ih, chars_of_argument? ha]
termination_by cs.length

theorem scan_eq (text : String) : scan text = directivesFrom 0 (cut text.toList) :=
  scanFrom_eq 0 text.toList

end Line

end Transclude
