import Transclude.Proofs.Line

namespace Transclude

open Text Directive

namespace Line

variable {content ending rest : List Char} {a b cs : List Char} {l : Line}

/-- Breaks off where a marker, begun at the start of the line, could go on. -/
def isStub (l : Line) : Bool := l.ending.isEmpty && l.content.isPrefixOf marker

def Quiet (cs : List Char) : Prop := ∀ l ∈ cut cs, l.argument? = none

/-- No line is a directive, and none breaks off within a marker. -/
def Closed (cs : List Char) : Prop := ∀ l ∈ cut cs, l.argument? = none ∧ l.isStub = false

theorem Closed.quiet (h : Closed cs) : Quiet cs := fun l hl ↦ (h l hl).1

theorem quiet_nil : Quiet [] := by
  intro l hl
  cases hl

theorem closed_nil : Closed [] := by
  intro l hl
  cases hl

theorem cut_append (hcontent : ∀ c ∈ content, !isLineEnd c) (hends : Ends ending rest)
    (hne : content ++ ending ≠ []) :
    cut (content ++ (ending ++ rest)) = ⟨content, ending⟩ :: cut rest := by
  induction content with
  | nil =>
    cases hends with
    | newline => rfl
    | both => rfl
    | carriage hrest =>
      rw [List.nil_append, List.singleton_append, cut]
      rintro ds rfl
      exact hrest rfl
    | last => exact absurd rfl hne
  | cons c content ih =>
    obtain ⟨hc, hcontent⟩ := List.forall_mem_cons.1 hcontent
    have hcut : cut (c :: (content ++ (ending ++ rest))) =
        consHead c (cut (content ++ (ending ++ rest))) := by
      rw [cut]
      · rintro ds rfl -
        simp [isLineEnd] at hc
      · rintro rfl
        simp [isLineEnd] at hc
      · rintro rfl
        simp [isLineEnd] at hc
    rw [List.cons_append, hcut]
    by_cases hempty : content ++ ending = []
    · obtain ⟨rfl, rfl⟩ := List.append_eq_nil_iff.1 hempty
      cases hends
      rfl
    · rw [ih hcontent hempty]
      rfl

@[elab_as_elim]
theorem lineInduction {motive : List Char → Prop} (nil : motive [])
    (line : ∀ {content ending rest : List Char}, (∀ c ∈ content, !isLineEnd c) →
      Ends ending rest → content ++ ending ≠ [] → motive rest →
      motive (content ++ (ending ++ rest)))
    (cs : List Char) : motive cs := by
  by_cases hcs : cs = []
  · rw [hcs]
    exact nil
  obtain ⟨content, ending, rest, he, hcontent, hends, hlt, -⟩ := cut_of_ne_nil hcs
  have hne : content ++ ending ≠ [] := by
    intro hempty
    rw [he, ← List.append_assoc, hempty] at hlt
    exact Nat.lt_irrefl _ hlt
  rw [he]
  exact line hcontent hends hne (lineInduction nil line rest)
termination_by cs.length

theorem of_mem_cut (h : l ∈ cut cs) :
    (∀ c ∈ l.content, !isLineEnd c) ∧ Ends l.ending [] ∧ l.content ++ l.ending ≠ [] := by
  induction cs using lineInduction with
  | nil => cases h
  | line hcontent hends hne ih =>
    rw [cut_append hcontent hends hne] at h
    rcases List.mem_cons.1 h with rfl | h
    · refine ⟨hcontent, ?_, hne⟩
      cases hends with
      | newline => exact .newline []
      | both => exact .both []
      | carriage => exact .carriage (by simp)
      | last => exact .last
    · exact ih h

theorem cut_chars (h : l ∈ cut cs) : cut l.chars = [l] := by
  obtain ⟨hcontent, hends, hne⟩ := of_mem_cut h
  have hcut := cut_append hcontent hends hne
  rwa [List.append_nil] at hcut

theorem quiet_chars (h : l ∈ cut cs) (hl : l.argument? = none) : Quiet l.chars := by
  intro l' hl'
  rw [cut_chars h] at hl'
  obtain rfl := List.mem_singleton.1 hl'
  exact hl

theorem closed_chars (h : l ∈ cut cs) (hl : l.argument? = none) (hstub : l.isStub = false) :
    Closed l.chars := by
  intro l' hl'
  rw [cut_chars h] at hl'
  obtain rfl := List.mem_singleton.1 hl'
  exact ⟨hl, hstub⟩

theorem Ends.append (h : Ends ending rest) (hne : ending ≠ []) (b : List Char) :
    Ends ending (rest ++ b) ∨
      ending = ['\r'] ∧ rest = [] ∧ ∃ b', b = '\n' :: b' := by
  cases h with
  | newline => exact .inl (.newline _)
  | both => exact .inl (.both _)
  | last => exact absurd rfl hne
  | carriage hrest =>
    cases rest with
    | cons d ds => exact .inl (.carriage hrest)
    | nil =>
      by_cases hb : b.head? = some '\n'
      · obtain ⟨b', rfl⟩ := List.head?_eq_some_iff.1 hb
        exact .inr ⟨rfl, rfl, b', rfl⟩
      · exact .inl (.carriage hb)

theorem mem_cut_continued (hcontent : ∀ c ∈ content, !isLineEnd c) (hne : content ≠ [])
    (h : l ∈ cut (content ++ b)) :
    l ∈ cut b ∨ ∃ more, l.content = content ++ more := by
  induction b using lineInduction with
  | nil =>
    have hcut := cut_append hcontent .last (by simpa using hne)
    rw [List.append_nil] at h
    rw [List.append_nil, List.append_nil] at hcut
    rw [hcut] at h
    obtain rfl := List.mem_singleton.1 h
    exact .inr ⟨[], by simp⟩
  | line hcontent' hends' hne' _ =>
    have hjoined : ∀ c ∈ content ++ _, !isLineEnd c := fun c hc ↦
      (List.mem_append.1 hc).elim (hcontent c) (hcontent' c)
    rw [← List.append_assoc, cut_append hjoined hends' (by simp [hne])] at h
    rw [cut_append hcontent' hends' hne']
    rcases List.mem_cons.1 h with rfl | h
    · exact .inr ⟨_, rfl⟩
    · exact .inl (List.mem_cons_of_mem _ h)

/-- A line of two texts put together is a whole line of the first, a line of the second, or what the
first breaks off with and the second continues. -/
theorem mem_cut_append (h : l ∈ cut (a ++ b)) :
    (∃ ending, ⟨l.content, ending⟩ ∈ cut a ∧ l.ending ≠ []) ∨ l ∈ cut b ∨
      ∃ content more, ⟨content, []⟩ ∈ cut a ∧ l.content = content ++ more := by
  induction a using lineInduction with
  | nil => exact .inr (.inl h)
  | @line content ending rest hcontent hends hne ih =>
    rw [cut_append hcontent hends hne]
    by_cases hending : ending = []
    · subst hending
      cases hends
      rw [List.append_nil, List.append_nil] at h
      rcases mem_cut_continued hcontent (by simpa using hne) h with hmem | ⟨more, hl⟩
      · exact .inr (.inl hmem)
      · exact .inr (.inr ⟨content, more, List.mem_cons_self, hl⟩)
    rw [List.append_assoc, List.append_assoc] at h
    rcases hends.append hending b with hends' | ⟨rfl, rfl, b', rfl⟩
    · rw [cut_append hcontent hends' hne] at h
      rcases List.mem_cons.1 h with rfl | h
      · exact .inl ⟨ending, List.mem_cons_self, hending⟩
      · rcases ih h with ⟨ending', hmem, hne'⟩ | hmem | ⟨content', more, hmem, hl⟩
        · exact .inl ⟨ending', List.mem_cons_of_mem _ hmem, hne'⟩
        · exact .inr (.inl hmem)
        · exact .inr (.inr ⟨content', more, List.mem_cons_of_mem _ hmem, hl⟩)
    · -- The newline that starts the second text completes the terminator of the first.
      have hboth := cut_append hcontent (.both b') (by simp)
      rw [show content ++ (['\r'] ++ ([] ++ '\n' :: b')) = content ++ (['\r', '\n'] ++ b') by rfl,
        hboth] at h
      rcases List.mem_cons.1 h with rfl | h
      · exact .inl ⟨['\r'], List.mem_cons_self, by simp⟩
      · exact .inr (.inl (List.mem_cons_of_mem _ h))

theorem argument?_eq_none_iff :
    l.argument? = none ↔ ¬(marker <+: l.content ∧ marker.length < l.content.length) := by
  unfold argument?
  rw [ite_eq_right_iff]
  simp [List.isPrefixOf_iff_prefix]

theorem argument?_continued (hl : argument? ⟨content, []⟩ = none)
    (hstub : isStub ⟨content, []⟩ = false) (more ending : List Char) :
    argument? ⟨content ++ more, ending⟩ = none := by
  rw [argument?_eq_none_iff] at hl ⊢
  have hno : ¬content <+: marker := by
    intro hp
    simp [isStub, List.isPrefixOf_iff_prefix.2 hp] at hstub
  rintro ⟨hp, -⟩
  rcases List.prefix_or_prefix_of_prefix hp (List.prefix_append content more) with hle | hle
  · refine hl ⟨hle, Nat.lt_of_not_le fun hlen ↦ hno ?_⟩
    exact hle.eq_of_length_le hlen ▸ List.prefix_refl content
  · exact hno hle

theorem isStub_continued (hstub : isStub ⟨content, []⟩ = false) (more ending : List Char) :
    isStub ⟨content ++ more, ending⟩ = false := by
  have hno : ¬content <+: marker := by
    intro hp
    simp [isStub, List.isPrefixOf_iff_prefix.2 hp] at hstub
  have hno' : (content ++ more).isPrefixOf marker = false := by
    rw [← Bool.not_eq_true, List.isPrefixOf_iff_prefix]
    exact fun hp ↦ hno ((List.prefix_append content more).trans hp)
  simp [isStub, hno']

theorem Closed.append_quiet (ha : Closed a) (hb : Quiet b) : Quiet (a ++ b) := by
  intro l hl
  rcases mem_cut_append hl with ⟨ending, hmem, -⟩ | hmem | ⟨content, more, hmem, hl⟩
  · exact argument?_eq_none_iff.2 (argument?_eq_none_iff.1 (ha _ hmem).1)
  · exact hb l hmem
  · obtain ⟨harg, hstub⟩ := ha _ hmem
    have hcontinued := argument?_continued harg hstub more l.ending
    rwa [← hl] at hcontinued

theorem Closed.append (ha : Closed a) (hb : Closed b) : Closed (a ++ b) := by
  intro l hl
  refine ⟨ha.append_quiet hb.quiet l hl, ?_⟩
  rcases mem_cut_append hl with ⟨ending, -, hne⟩ | hmem | ⟨content, more, hmem, hl⟩
  · simp [isStub, hne]
  · exact (hb l hmem).2
  · have hcontinued := isStub_continued (ha _ hmem).2 more l.ending
    rwa [← hl] at hcontinued

theorem closed_of_head {c : Char} (hcs : ∀ d ∈ c :: cs, !isLineEnd d) (hc : c ≠ '#') :
    Closed (c :: cs) := by
  have hcut : cut (c :: cs) = [⟨c :: cs, []⟩] := by
    simpa [cut] using cut_append hcs .last (by simp)
  have hmarker : marker = '#' :: "include ".toList := by decide
  intro l hl
  rw [hcut] at hl
  obtain rfl := List.mem_singleton.1 hl
  constructor
  · rw [argument?_eq_none_iff, hmarker]
    rintro ⟨hp, -⟩
    exact hc (List.cons_prefix_cons.1 hp).1.symm
  · rw [isStub, hmarker, List.isPrefixOf]
    simp [hc]

theorem directivesFrom_eq_nil {ls : List Line} (offset : Nat) :
    directivesFrom offset ls = [] ↔ ∀ l ∈ ls, l.argument? = none := by
  induction ls generalizing offset with
  | nil => simp [directivesFrom]
  | cons l ls ih =>
    rw [directivesFrom, List.forall_mem_cons]
    cases hl : l.argument? with
    | none => simpa using ih _
    | some argument => simp

theorem occursIn_eq_false_iff {text : String} : occursIn text = false ↔ Quiet text.toList := by
  rw [← Bool.not_eq_true, occursIn_iff, Classical.not_not, scan_eq]
  exact directivesFrom_eq_nil 0

end Line

end Transclude
