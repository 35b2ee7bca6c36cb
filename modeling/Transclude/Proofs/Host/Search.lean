import Transclude.Host.Search

namespace Transclude

def FileLookup.found? (files : FileLookup) (p : Path) : Option Path :=
  if files.isFile p then files.canonical? p else none

namespace Search

variable (files : FileLookup) (context : Path) (reference : String)

def foundAt? (s : Search) (base : Path) : Option Path := (s.variants base).findSome? files.found?

def isPlain : Bool := !(Path.mk reference).isAbsolute && !isExplicitlyRelative reference

theorem resolve_eq_findSome? (s : Search) :
    s.resolve files context reference =
      (s.bases context reference).findSome? (s.foundAt? files) := by
  rw [resolve, candidates]
  induction s.bases context reference with
  | nil => rfl
  | cons base bases ih =>
    rw [List.flatMap_cons, List.findSome?_append, ih, List.findSome?_cons]
    change (s.foundAt? files base).or _ = _
    cases s.foundAt? files base <;> rfl

theorem bases_eq (s : Search) :
    s.bases context reference =
      context.join reference ::
        if isPlain reference then s.paths.map (·.join reference) else [] := by
  rw [bases, isPlain]
  cases habsolute : (Path.mk reference).isAbsolute with
  | true => simp [Path.join, habsolute]
  | false => cases isExplicitlyRelative reference <;> rfl

theorem resolve_eq_or (s : Search) :
    s.resolve files context reference =
      (s.foundAt? files (context.join reference)).or
        (if isPlain reference then
          s.paths.findSome? fun root ↦ s.foundAt? files (root.join reference)
        else none) := by
  rw [resolve_eq_findSome?, bases_eq, List.findSome?_cons]
  cases s.foundAt? files (context.join reference) with
  | some location => rfl
  | none =>
    cases isPlain reference with
    | true => simp [List.findSome?_map, Function.comp_def]
    | false => rfl

theorem resolve_append (paths more : List Path) (extensions : List String) :
    resolve ⟨paths ++ more, extensions⟩ files context reference =
      (resolve ⟨paths, extensions⟩ files context reference).or
        (resolve ⟨more, extensions⟩ files context reference) := by
  have hplace (others : List Path) (base : Path) :
      foundAt? files ⟨others, extensions⟩ base = foundAt? files ⟨[], extensions⟩ base := rfl
  simp only [resolve_eq_or, hplace]
  -- A file at the place that the reference names is found by all three searches.
  cases foundAt? files ⟨[], extensions⟩ (context.join reference) with
  | some location => rfl
  | none =>
    cases isPlain reference with
    | true => simp [List.findSome?_append]
    | false => rfl

theorem resolve_of_not_plain (h : isPlain reference = false) (paths others : List Path)
    (extensions : List String) :
    resolve ⟨paths, extensions⟩ files context reference =
      resolve ⟨others, extensions⟩ files context reference := by
  simp only [resolve_eq_or, h]
  rfl

theorem isPlain_eq_false (h : (Path.mk reference).isAbsolute ∨
    "./".toList <+: reference.toList ∨ "../".toList <+: reference.toList) :
    isPlain reference = false := by
  rw [isPlain, isExplicitlyRelative]
  rcases h with habsolute | hhere | habove
  · rw [habsolute]
    rfl
  · rw [List.isPrefixOf_iff_prefix.2 hhere]
    simp
  · rw [List.isPrefixOf_iff_prefix.2 habove]
    simp

theorem dotted_dot {e : String} (h : e.toList.head? ≠ some '.') : dotted e = dotted ("." ++ e) := by
  rw [dotted, if_neg h, dotted, if_pos (by simp)]

theorem resolve_congr_dotted {extensions extensions' : List String}
    (h : extensions.map dotted = extensions'.map dotted) (paths : List Path) :
    resolve ⟨paths, extensions⟩ files context reference =
      resolve ⟨paths, extensions'⟩ files context reference := by
  have hvariants (base : Path) :
      variants ⟨paths, extensions⟩ base = variants ⟨paths, extensions'⟩ base := by
    have htexts := congrArg (List.map fun e ↦ Path.mk (base.text ++ e)) h
    rw [List.map_map, List.map_map] at htexts
    exact congrArg (base :: ·) htexts
  have hfound : foundAt? files ⟨paths, extensions⟩ = foundAt? files ⟨paths, extensions'⟩ := by
    funext base
    rw [foundAt?, foundAt?, hvariants]
  rw [resolve_eq_or, resolve_eq_or, hfound]

theorem foundAt?_of_found {s : Search} {base location : Path}
    (h : files.found? base = some location) : s.foundAt? files base = some location := by
  rw [foundAt?, variants, List.findSome?_cons, h]

/-- How a search depends on its settings, whatever files there are: more search paths change nothing
that was found, and nothing at all for a reference that is absolute or starts with `./` or `../`;
an extension may be given with or without its dot; and the file at the very place that a reference
names is always the one found. -/
theorem resolve_conservative (extensions : List String) (paths more : List Path) :
    (∀ location, resolve ⟨paths, extensions⟩ files context reference = some location →
      resolve ⟨paths ++ more, extensions⟩ files context reference = some location) ∧
    ((Path.mk reference).isAbsolute ∨
        "./".toList <+: reference.toList ∨ "../".toList <+: reference.toList →
      resolve ⟨paths, extensions⟩ files context reference =
        resolve ⟨more, extensions⟩ files context reference) ∧
    (∀ before e after, e.toList.head? ≠ some '.' →
      resolve ⟨paths, before ++ e :: after⟩ files context reference =
        resolve ⟨paths, before ++ ("." ++ e) :: after⟩ files context reference) ∧
    (∀ location, files.isFile (context.join reference) →
      files.canonical? (context.join reference) = some location →
      resolve ⟨paths, extensions⟩ files context reference = some location) := by
  refine ⟨?_, ?_, ?_, ?_⟩
  · intro location hfound
    rw [resolve_append, hfound]
    rfl
  · intro hfixed
    exact resolve_of_not_plain files context reference (isPlain_eq_false reference hfixed) ..
  · intro before e after hdot
    refine resolve_congr_dotted files context reference ?_ paths
    rw [List.map_append, List.map_cons, dotted_dot hdot, List.map_append, List.map_cons]
  · intro location hfile hcanonical
    have hfound : files.found? (context.join reference) = some location := by
      rw [FileLookup.found?, if_pos hfile, hcanonical]
    rw [resolve_eq_or, foundAt?_of_found files hfound]
    rfl

def shelves : FileLookup where
  isFile p := p.text ∈ ["/p/nav", "/s/nav", "/s/foot", "/s/foot.tpl", "/t/foot.tpl"]
  canonical? p := if p.text = "/s/foot" then none else some p

theorem resolve_conservative_shelves :
    resolve ⟨[⟨"/s"⟩], ["tpl"]⟩ shelves ⟨"/p"⟩ "foot" = some ⟨"/s/foot.tpl"⟩ ∧
    resolve ⟨[⟨"/s"⟩, ⟨"/t"⟩], ["tpl"]⟩ shelves ⟨"/p"⟩ "foot" = some ⟨"/s/foot.tpl"⟩ ∧
    resolve ⟨[⟨"/s"⟩], ["tpl"]⟩ shelves ⟨"/p"⟩ "../t/foot" =
      resolve ⟨[], ["tpl"]⟩ shelves ⟨"/p"⟩ "../t/foot" ∧
    resolve ⟨[⟨"/t"⟩], ["html", "tpl"]⟩ shelves ⟨"/p"⟩ "foot" =
      resolve ⟨[⟨"/t"⟩], ["html", ".tpl"]⟩ shelves ⟨"/p"⟩ "foot" ∧
    resolve ⟨[⟨"/s"⟩], ["tpl"]⟩ shelves ⟨"/p"⟩ "nav" = some ⟨"/p/nav"⟩ := by
  have hfound : resolve ⟨[⟨"/s"⟩], ["tpl"]⟩ shelves ⟨"/p"⟩ "foot" = some ⟨"/s/foot.tpl"⟩ := by
    decide +kernel
  obtain ⟨hmore, -, -, -⟩ :=
    resolve_conservative shelves ⟨"/p"⟩ "foot" ["tpl"] [⟨"/s"⟩] [⟨"/t"⟩]
  obtain ⟨-, hfixed, -, -⟩ := resolve_conservative shelves ⟨"/p"⟩ "../t/foot" ["tpl"] [⟨"/s"⟩] []
  obtain ⟨-, -, hdot, -⟩ := resolve_conservative shelves ⟨"/p"⟩ "foot" [] [⟨"/t"⟩] []
  obtain ⟨-, -, -, hexact⟩ := resolve_conservative shelves ⟨"/p"⟩ "nav" ["tpl"] [⟨"/s"⟩] []
  refine ⟨hfound, hmore _ hfound, hfixed (.inr (.inr (by simp))), ?_, ?_⟩
  · exact hdot ["html"] "tpl" [] (by simp)
  · exact hexact ⟨"/p/nav"⟩ (by decide +kernel) (by decide +kernel)

end Search

end Transclude
