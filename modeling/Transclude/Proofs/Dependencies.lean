import Transclude.Command.Session
import Transclude.Proofs.Registration

namespace Transclude

namespace Makefile

def unescape : List Char → List Char
  | [] => []
  | '\\' :: ' ' :: cs => ' ' :: unescape cs
  | c :: cs => c :: unescape cs

/-- The words that are separated by unescaped spaces, of which the first has begun. -/
def wordsFrom (word : List Char) : List Char → List (List Char)
  | [] => if word = [] then [] else [word]
  | '\\' :: ' ' :: cs => wordsFrom (word ++ [' ']) cs
  | c :: cs =>
    if c = ' ' then (if word = [] then [] else [word]) ++ wordsFrom [] cs
    else wordsFrom (word ++ [c]) cs

/-- The target of a rule, which ends at the first colon, and its prerequisites, which end at a
newline with nothing behind it. -/
def read? (text : String) : Option (Path × List Path) :=
  let target := text.toList.takeWhile (· ≠ ':')
  match text.toList.dropWhile (· ≠ ':') with
  | [] => none
  | _ :: rest =>
    let line := rest.takeWhile (· ≠ '\n')
    if rest = line ++ ['\n'] then
      some (⟨String.ofList (unescape target)⟩,
        (wordsFrom [] line).map fun word ↦ ⟨String.ofList word⟩)
    else none

theorem escape_cons (c : Char) (cs : List Char) :
    escape (c :: cs) = if c = ' ' then '\\' :: ' ' :: escape cs else c :: escape cs := rfl

theorem head_escape (cs : List Char) : (escape cs).head? ≠ some ' ' := by
  cases cs with
  | nil => simp [escape]
  | cons c cs =>
    rw [escape_cons]
    split <;> simp_all

theorem unescape_cons {c : Char} {cs : List Char} (h : c ≠ '\\' ∨ cs.head? ≠ some ' ') :
    unescape (c :: cs) = c :: unescape cs := by
  rw [unescape]
  rintro rest rfl rfl
  simp at h

/-- A backslash of the text itself is never taken for that of a space, because an escaped text does
not start with a space. -/
theorem unescape_escape (cs : List Char) : unescape (escape cs) = cs := by
  induction cs with
  | nil => rfl
  | cons c cs ih =>
    rw [escape_cons]
    split
    · next hspace => rw [unescape, ih, hspace]
    · rw [unescape_cons (.inr (head_escape cs)), ih]

theorem mem_escape {c : Char} {cs : List Char} (h : c ∈ escape cs) : c = '\\' ∨ c ∈ cs := by
  induction cs with
  | nil => cases h
  | cons d cs ih =>
    rw [escape_cons] at h
    split at h
    · next hspace =>
      rcases List.mem_cons.1 h with hslash | h
      · exact .inl hslash
      · rcases List.mem_cons.1 h with rfl | h
        · exact .inr (by simp [hspace])
        · exact (ih h).imp_right (List.mem_cons_of_mem d)
    · rcases List.mem_cons.1 h with rfl | h
      · exact .inr List.mem_cons_self
      · exact (ih h).imp_right (List.mem_cons_of_mem d)

theorem wordsFrom_of_ne {c : Char} (hspace : c ≠ ' ') (hslash : c ≠ '\\') (word cs : List Char) :
    wordsFrom word (c :: cs) = wordsFrom (word ++ [c]) cs := by
  rw [wordsFrom, if_neg hspace]
  rintro rest rfl
  exact absurd rfl hslash

theorem wordsFrom_escape {p : List Char} (hp : '\\' ∉ p) (word rest : List Char) :
    wordsFrom word (escape p ++ rest) = wordsFrom (word ++ p) rest := by
  induction p generalizing word with
  | nil => simp [escape]
  | cons c p ih =>
    obtain ⟨hc, hp⟩ : '\\' ≠ c ∧ '\\' ∉ p := by simpa using hp
    rw [escape_cons]
    split
    · next hspace => simp [wordsFrom, ih hp, hspace]
    · next hspace => simp [wordsFrom_of_ne hspace (Ne.symm hc), ih hp]

theorem wordsFrom_flatMap {words : List (List Char)} (h : ∀ p ∈ words, p ≠ [] ∧ '\\' ∉ p)
    (word : List Char) :
    wordsFrom word (words.flatMap fun p ↦ ' ' :: escape p) =
      (if word = [] then [] else [word]) ++ words := by
  induction words generalizing word with
  | nil => simp [wordsFrom]
  | cons p words ih =>
    obtain ⟨⟨hne, hslash⟩, hwords⟩ := List.forall_mem_cons.1 h
    rw [List.flatMap_cons, List.cons_append, wordsFrom, if_pos rfl, wordsFrom_escape hslash,
      List.nil_append, ih hwords, if_neg hne, List.singleton_append]
    simp

theorem takeWhile_ne {a : Char} {cs : List Char} (h : a ∉ cs) (rest : List Char) :
    (cs ++ a :: rest).takeWhile (· ≠ a) = cs := by
  rw [List.takeWhile_append_of_pos]
  · simp
  · intro c hc
    simpa using fun heq : c = a ↦ h (heq ▸ hc)

theorem dropWhile_ne {a : Char} {cs : List Char} (h : a ∉ cs) (rest : List Char) :
    (cs ++ a :: rest).dropWhile (· ≠ a) = a :: rest := by
  have hsplit := (cs ++ a :: rest).takeWhile_append_dropWhile (p := (· ≠ a))
  rw [takeWhile_ne h] at hsplit
  exact List.append_cancel_left hsplit

theorem not_mem_escape {c : Char} {p : Path} (hslash : c ≠ '\\') (h : c ∉ p.text.toList) :
    c ∉ escape p.text.toList := by
  intro hmem
  exact (mem_escape hmem).elim hslash h

theorem read?_rule {target : Path} {dependencies : List Path} (htarget : ':' ∉ target.text.toList)
    (hdependencies : ∀ p ∈ dependencies,
      p.text ≠ "" ∧ '\\' ∉ p.text.toList ∧ '\n' ∉ p.text.toList) :
    read? (rule target dependencies) = some (target, dependencies) := by
  have htext : (rule target dependencies).toList = escape target.text.toList ++
      ':' :: ((dependencies.flatMap fun p ↦ ' ' :: escape p.text.toList) ++ ['\n']) := by
    simp [rule]
  have hnewline : '\n' ∉ dependencies.flatMap fun p ↦ ' ' :: escape p.text.toList := by
    intro hmem
    obtain ⟨p, hp, hmem⟩ := List.mem_flatMap.1 hmem
    rcases List.mem_cons.1 hmem with hspace | hmem
    · simp at hspace
    · exact not_mem_escape (by decide) (hdependencies p hp).2.2 hmem
  have hwords : wordsFrom [] (dependencies.flatMap fun p ↦ ' ' :: escape p.text.toList) =
      dependencies.map (·.text.toList) := by
    have hflat : (dependencies.flatMap fun p ↦ ' ' :: escape p.text.toList) =
        (dependencies.map (·.text.toList)).flatMap fun p ↦ ' ' :: escape p := by
      rw [List.flatMap_map]
    rw [hflat, wordsFrom_flatMap]
    · rfl
    · intro word hword
      obtain ⟨p, hp, rfl⟩ := List.mem_map.1 hword
      obtain ⟨hne, hslash, -⟩ := hdependencies p hp
      exact ⟨by simpa using hne, hslash⟩
  have htarget := not_mem_escape (by decide) htarget
  simp only [read?, htext, takeWhile_ne htarget, dropWhile_ne htarget, takeWhile_ne hnewline,
    unescape_escape, hwords]
  simp [Function.comp_def]

end Makefile

section Locations

variable {seen locations : List Path} {p : Path}

theorem foldl_registerOnce (h : (seen ++ locations).Pairwise fun x y ↦ ¬x.same y) :
    locations.foldl registerOnce seen = seen ++ locations := by
  induction locations generalizing seen with
  | nil => simp
  | cons l locations ih =>
    have hnew : ¬seen.any (·.same l) := by
      intro hany
      obtain ⟨x, hx, hsame⟩ := List.any_eq_true.1 hany
      exact (List.pairwise_append.1 h).2.2 x hx l List.mem_cons_self hsame
    rw [List.foldl_cons, registerOnce, if_neg hnew, ih (by simpa using h)]
    simp

end Locations

theorem buildTree_of_compile {host : Host} {root : SourceFile} {c : Cache} {format : ModuleFormat}
    {parameter text : String} (h : compile host format parameter root = (.ok text, c)) :
    ∃ tree, buildTree host root = (.ok tree, c) := by
  unfold compile at h
  cases hexpand : expand host root with
  | mk result c' =>
    rw [hexpand] at h
    cases result with
    | error e => cases h
    | ok e =>
      cases h
      obtain ⟨tree, hbuild, -⟩ := buildTree_of_expand hexpand
      exact ⟨tree, hbuild⟩

namespace Session

variable {s : Session} {c : Cache} {tree : IncludeTree} {schedule : List (List Nat)}

/-- The dependencies of a session are its root, which comes first, and the files of a tree, each
named once. -/
structure Lists (s : Session) (c : Cache) (tree : IncludeTree) : Prop where
  head : (s.dependencies c).head? = some s.root.location
  distinct : (s.dependencies c).Pairwise fun x y ↦ ¬x.same y
  members : ∀ p, p ∈ s.dependencies c ↔ p = s.root.location ∨ ∃ n ∈ tree.nodes, n.location = p

theorem dependencies_eq (h : Registered s.root c) :
    s.dependencies c = s.root.location :: c.journal.dependencies := by
  have hdistinct : (([] : List Path) ++ c.journal.dependencies).Pairwise fun x y ↦ ¬x.same y :=
    h.distinct
  have hother : c.journal.dependencies.filter (!·.same s.root.location) =
      c.journal.dependencies := by
    refine List.filter_eq_self.2 fun l hl ↦ ?_
    simpa using fun hsame ↦ h.avoids l hl (Path.same_symm hsame)
  rw [dependencies, foldl_registerOnce hdistinct, List.nil_append, hother]

theorem lists_of_outcome? (h : IncludeTree.outcome? s.host s.root schedule = some (.ok tree)) :
    s.Lists (IncludeTree.cacheAfter s.host s.root schedule) tree := by
  obtain ⟨hregistered, hmem, -⟩ := IncludeTree.registered_of_outcome? h
  have hdependencies := dependencies_eq hregistered
  constructor
  · rw [hdependencies, List.head?_cons]
  · rw [hdependencies]
    exact List.pairwise_cons.2 ⟨hregistered.avoids, hregistered.distinct⟩
  · intro p
    rw [hdependencies, List.mem_cons, hmem]

/-- What a session depends on once its root is compiled, in whatever order the branches of the build
move, and what can be read from the rule for any target and any files. -/
theorem dependencies_complete :
    (∀ (s : Session) (schedule : List (List Nat)) (tree : IncludeTree),
      IncludeTree.outcome? s.host s.root schedule = some (.ok tree) →
      s.Lists (IncludeTree.cacheAfter s.host s.root schedule) tree) ∧
    (∀ (s : Session) (text : String) (c : Cache),
      compile s.host s.format s.parameter s.root = (.ok text, c) →
      ∃ tree, buildTree s.host s.root = (.ok tree, c) ∧ s.Lists c tree) ∧
    ∀ (target : Path) (files : List Path), ':' ∉ target.text.toList →
      (∀ p ∈ files, p.text ≠ "" ∧ '\\' ∉ p.text.toList ∧ '\n' ∉ p.text.toList) →
      Makefile.read? (Makefile.rule target files) = some (target, files) := by
  refine ⟨fun s schedule tree ↦ lists_of_outcome?, ?_, fun target files ↦ Makefile.read?_rule⟩
  intro s text c hcompile
  obtain ⟨tree, hbuild⟩ := buildTree_of_compile hcompile
  obtain ⟨schedule, -, houtcome, hcache⟩ := IncludeTree.exists_prompt s.host s.root
  rw [hbuild] at houtcome hcache
  have hlists := lists_of_outcome? houtcome
  rw [hcache] at hlists
  exact ⟨tree, hbuild, hlists⟩

def busySession : Session := ⟨busyRoot, busyHost.toHost, .esm, "options"⟩

theorem dependencies_busy :
    (∃ tree, IncludeTree.outcome? busySession.host busySession.root busySideBySide =
        some (.ok tree) ∧
      busySession.dependencies
          (IncludeTree.cacheAfter busySession.host busySession.root busySideBySide) =
        [⟨"/p/r"⟩, ⟨"/p/b"⟩, ⟨"/p/a"⟩, ⟨"/p/c"⟩] ∧
      busySession.Lists
        (IncludeTree.cacheAfter busySession.host busySession.root busySideBySide) tree) ∧
    (∃ text c tree, compile busySession.host busySession.format busySession.parameter
        busySession.root = (.ok text, c) ∧
      buildTree busySession.host busySession.root = (.ok tree, c) ∧ busySession.Lists c tree) ∧
    Makefile.rule ⟨"out put.js"⟩ [⟨" a  b "⟩, ⟨"c:d"⟩] = "out\\ put.js: \\ a\\ \\ b\\  c:d\n" ∧
    Makefile.read? "out\\ put.js: \\ a\\ \\ b\\  c:d\n" =
      some (⟨"out put.js"⟩, [⟨" a  b "⟩, ⟨"c:d"⟩]) := by
  obtain ⟨hside, hsession, hrule⟩ := dependencies_complete
  have hdone : (IncludeTree.outcome? busySession.host busySession.root busySideBySide).map
        Except.toBool = some true ∧
      busySession.dependencies
          (IncludeTree.cacheAfter busySession.host busySession.root busySideBySide) =
        [⟨"/p/r"⟩, ⟨"/p/b"⟩, ⟨"/p/a"⟩, ⟨"/p/c"⟩] := by
    decide +kernel
  have hok : (compile busySession.host busySession.format busySession.parameter
      busySession.root).1.toOption.isSome := by
    decide +kernel
  have hwritten : Makefile.rule ⟨"out put.js"⟩ [⟨" a  b "⟩, ⟨"c:d"⟩] =
      "out\\ put.js: \\ a\\ \\ b\\  c:d\n" := by
    decide +kernel
  refine ⟨?_, ?_, hwritten, ?_⟩
  · obtain ⟨hdone, hdependencies⟩ := hdone
    obtain ⟨result, hresult, hok⟩ := Option.map_eq_some_iff.1 hdone
    cases result with
    | error e => cases hok
    | ok tree => exact ⟨tree, hresult, hdependencies, hside _ _ _ hresult⟩
  · cases hcompile : compile busySession.host busySession.format busySession.parameter
        busySession.root with
    | mk result c =>
      rw [hcompile] at hok
      cases result with
      | error e => cases hok
      | ok text =>
        obtain ⟨tree, hbuild, hlists⟩ := hsession busySession text c hcompile
        exact ⟨text, c, tree, rfl, hbuild, hlists⟩
  · rw [← hwritten]
    exact hrule _ _ (by decide +kernel) (by decide +kernel)

end Session

end Transclude
