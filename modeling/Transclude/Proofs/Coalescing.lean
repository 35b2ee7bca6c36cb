import Mathlib
import Transclude.Cache.Requests

namespace Transclude

def Path.distinct (paths : List Path) : List Path :=
  paths.pwFilter fun p q ↦ p.components ≠ q.components

theorem Path.map_components_distinct (paths : List Path) :
    (distinct paths).map components = (paths.map components).dedup := by
  rw [distinct, List.dedup, List.pwFilter_map]

namespace Cache

variable {c : Cache} {location location' : Path} {file : SourceFile}

theorem find?_same (c : Cache) (h : location.same location') :
    c.find? location = c.find? location' := by
  unfold find?
  simp only [Path.same, Path.same_iff.1 h]

theorem find?_eq_none : c.find? location = none ↔ ∀ f ∈ c.files, ¬f.location.same location := by
  simp [find?]

theorem find?_keep_of_some (h : c.find? location = some file) (f : SourceFile) :
    (c.keep f).find? location = some file := by
  rw [find?] at h ⊢
  rw [keep, List.find?_append, h, Option.some_or]

theorem find?_keep_of_none (h : c.find? location = none) (f : SourceFile) :
    (c.keep f).find? location = if f.location.same location then some f else none := by
  rw [find?] at h ⊢
  rw [keep, List.find?_append, h, Option.none_or, List.find?_singleton]

theorem readCount_startRead (c : Cache) (l : Path) :
    (c.startRead l).journal.readCount location =
      c.journal.readCount location + if l.same location then 1 else 0 := by
  simp [startRead, Journal.addDependency, Journal.addRead, Journal.readCount, List.countP_append,
    List.countP_singleton]

end Cache

/-- A request that neither reads nor has its answer. -/
def RequestState.Pending (s : RequestState) : Prop := s = .idle ∨ s = .waiting

namespace Requests

def start (locations : List Path) : Requests :=
  ⟨{}, locations.map fun l ↦ { location := l }⟩

def success? (r : Requests) : RequestEvent → Option Path
  | .complete i (.ok _) =>
    match r.tasks[i]? with
    | some ⟨location, .reading⟩ => some location
    | _ => none
  | _ => none

def successes (r : Requests) : List RequestEvent → List Path
  | [] => []
  | event :: events => (r.success? event).toList ++ (r.step event).successes events

inductive Moves (r : Requests) : Option Path → Requests → Prop
  | stay : Moves r none r
  | answer {i : Nat} {location : Path} {state : RequestState} {file : SourceFile} {cache : Cache} :
      r.tasks[i]? = some ⟨location, state⟩ → state.Pending → r.cache.find? location = some file →
      cache.files = r.cache.files → cache.journal = r.cache.journal →
      cache.misses = r.cache.misses →
      Moves r none ({ r with cache := cache }.setState i (.finished (.ok file)))
  | wait {i : Nat} {location : Path} {state : RequestState} :
      r.tasks[i]? = some ⟨location, state⟩ → state.Pending → Moves r none (r.setState i .waiting)
  | read {i : Nat} {location : Path} {state : RequestState} :
      r.tasks[i]? = some ⟨location, state⟩ → state.Pending → r.cache.find? location = none →
      ¬r.inFlight location →
      Moves r none ({ r with cache := r.cache.startRead location }.setState i .reading)
  | succeed {i : Nat} {location : Path} (text : String) :
      r.tasks[i]? = some ⟨location, .reading⟩ →
      Moves r (some location) ({ r with cache := r.cache.keep (.ofText location text) }.setState i
        (.finished (.ok (.ofText location text))))
  | fail {i : Nat} {location : Path} (fault : Fault) :
      r.tasks[i]? = some ⟨location, .reading⟩ →
      Moves r none (r.setState i (.finished (.error fault)))

variable {r r' : Requests} {i j : Nat} {location : Path} {state s : RequestState} {t : Request}
  {found : Option Path}

theorem moves_readOrWait (hi : r.tasks[i]? = some ⟨location, state⟩) (hstate : state.Pending)
    (hnone : r.cache.find? location = none) : Moves r none (r.readOrWait i location) := by
  unfold readOrWait
  split
  · exact .wait hi hstate
  · next hfree => exact .read hi hstate hnone hfree

theorem moves_step (r : Requests) (event : RequestEvent) :
    Moves r (r.success? event) (r.step event) := by
  cases event with
  | ask i =>
    change Moves r none (r.step (.ask i))
    rw [step]
    split
    · next location hi =>
      split
      · next file hfile => exact .answer hi (.inl rfl) hfile rfl rfl rfl
      · next hnone => exact moves_readOrWait hi (.inl rfl) hnone
    · exact .stay
  | wake i =>
    change Moves r none (r.step (.wake i))
    rw [step]
    split
    · next location hi =>
      split
      · next file hfile => exact .answer hi (.inr rfl) hfile rfl rfl rfl
      · next hnone => exact moves_readOrWait hi (.inr rfl) hnone
    · exact .stay
  | complete i result =>
    cases result with
    | error fault =>
      change Moves r none (r.step (.complete i (.error fault)))
      rw [step]
      split
      · next location hi => exact .fail fault hi
      · exact .stay
    | ok text =>
      by_cases hreads : ∃ location, r.tasks[i]? = some ⟨location, .reading⟩
      · obtain ⟨location, hi⟩ := hreads
        simp only [step, success?, hi]
        exact .succeed text hi
      · have hstep : r.step (.complete i (.ok text)) = r := by
          rw [step]
          split
          · next location hi => exact absurd ⟨location, hi⟩ hreads
          · rfl
        have hnone : r.success? (.complete i (.ok text)) = none := by
          rw [success?]
          split
          · next location hi => exact absurd ⟨location, hi⟩ hreads
          · rfl
        rw [hstep, hnone]
        exact .stay

theorem getElem?_setState (hi : r.tasks[i]? = some ⟨location, state⟩)
    (h : (r.setState i s).tasks[j]? = some t) :
    j = i ∧ t = ⟨location, s⟩ ∨ j ≠ i ∧ r.tasks[j]? = some t := by
  by_cases hj : j = i
  · subst hj
    simp only [setState, List.getElem?_modify_eq, hi] at h
    cases h
    exact .inl ⟨rfl, rfl⟩
  · rw [setState, List.getElem?_modify_ne _ _ (Ne.symm hj)] at h
    exact .inr ⟨hj, h⟩

@[simp]
theorem map_location_setState (r : Requests) (i : Nat) (s : RequestState) :
    (r.setState i s).tasks.map Request.location = r.tasks.map Request.location := by
  refine List.ext_getElem? fun j ↦ ?_
  rw [List.getElem?_map, List.getElem?_map, setState, List.getElem?_modify]
  cases r.tasks[j]? with
  | none => rfl
  | some t => by_cases hij : i = j <;> simp [hij]

theorem not_same_of_reading (hfree : ¬r.inFlight location) {location' : Path}
    (hi : r.tasks[i]? = some ⟨location', .reading⟩) : ¬location'.same location :=
  fun hsame ↦ hfree (List.any_eq_true.2 ⟨_, List.mem_of_getElem? hi, hsame⟩)

/-- How requests, cache and journal fit together. -/
structure Coherent (r : Requests) : Prop where
  single : ∀ {i j : Nat} {l l' : Path}, r.tasks[i]? = some ⟨l, .reading⟩ →
    r.tasks[j]? = some ⟨l', .reading⟩ → l.same l' → i = j
  unread : ∀ {i : Nat} {l : Path}, r.tasks[i]? = some ⟨l, .reading⟩ → r.cache.find? l = none
  answered : ∀ {i : Nat} {l : Path} {file : SourceFile},
    r.tasks[i]? = some ⟨l, .finished (.ok file)⟩ → r.cache.find? l = some file
  distinct : r.cache.files.Pairwise fun f g ↦ ¬f.location.same g.location
  registered : r.cache.journal.dependencies = r.cache.journal.reads
  counted : r.cache.misses = r.cache.journal.reads.length
  requested : r.cache.journal.reads ⊆ r.tasks.map Request.location

theorem coherent_start (locations : List Path) : Coherent (start locations) := by
  have hidle {i : Nat} {l : Path} {s : RequestState}
      (h : (start locations).tasks[i]? = some ⟨l, s⟩) : s = .idle := by
    simp only [start, List.getElem?_map, Option.map_eq_some_iff, Request.mk.injEq] at h
    obtain ⟨_, -, -, rfl⟩ := h
    rfl
  refine ⟨fun h _ _ ↦ ?_, fun h ↦ ?_, fun h ↦ ?_, .nil, rfl, rfl, List.nil_subset _⟩
  · cases hidle h
  · cases hidle h
  · cases hidle h

theorem Coherent.setState (h : Coherent r) (hi : r.tasks[i]? = some ⟨location, state⟩)
    {cache : Cache} (hfiles : cache.files = r.cache.files)
    (hjournal : cache.journal = r.cache.journal) (hmisses : cache.misses = r.cache.misses)
    (hs : s ≠ .reading)
    (hok : ∀ file, s = .finished (.ok file) → r.cache.find? location = some file) :
    Coherent ({ r with cache := cache }.setState i s) := by
  have hfind (l : Path) : cache.find? l = r.cache.find? l := by
    rw [Cache.find?, hfiles, Cache.find?]
  constructor
  · intro j k l l' hj hk hsame
    rcases getElem?_setState hi hj with ⟨-, ht⟩ | ⟨-, hj⟩
    · exact absurd (Request.mk.inj ht).2.symm hs
    rcases getElem?_setState hi hk with ⟨-, ht⟩ | ⟨-, hk⟩
    · exact absurd (Request.mk.inj ht).2.symm hs
    exact h.single hj hk hsame
  · intro j l hj
    rcases getElem?_setState hi hj with ⟨-, ht⟩ | ⟨-, hj⟩
    · exact absurd (Request.mk.inj ht).2.symm hs
    · exact (hfind l).trans (h.unread hj)
  · intro j l file hj
    rcases getElem?_setState hi hj with ⟨-, ht⟩ | ⟨-, hj⟩
    · obtain ⟨rfl, rfl⟩ := Request.mk.inj ht
      exact (hfind l).trans (hok file rfl)
    · exact (hfind l).trans (h.answered hj)
  · change cache.files.Pairwise _
    rw [hfiles]
    exact h.distinct
  · change cache.journal.dependencies = cache.journal.reads
    rw [hjournal]
    exact h.registered
  · change cache.misses = cache.journal.reads.length
    rw [hmisses, hjournal]
    exact h.counted
  · rw [map_location_setState]
    change cache.journal.reads ⊆ _
    rw [hjournal]
    exact h.requested

theorem Coherent.read (h : Coherent r) (hi : r.tasks[i]? = some ⟨location, state⟩)
    (hnone : r.cache.find? location = none) (hfree : ¬r.inFlight location) :
    Coherent ({ r with cache := r.cache.startRead location }.setState i .reading) := by
  constructor
  · intro j k l l' hj hk hsame
    rcases getElem?_setState hi hj with ⟨hji, htj⟩ | ⟨-, hj'⟩ <;>
      rcases getElem?_setState hi hk with ⟨hki, htk⟩ | ⟨-, hk'⟩
    · exact hji.trans hki.symm
    · obtain ⟨rfl, -⟩ := Request.mk.inj htj
      exact absurd (Path.same_symm hsame) (not_same_of_reading hfree hk')
    · obtain ⟨rfl, -⟩ := Request.mk.inj htk
      exact absurd hsame (not_same_of_reading hfree hj')
    · exact h.single hj' hk' hsame
  · intro j l hj
    rcases getElem?_setState hi hj with ⟨-, ht⟩ | ⟨-, hj⟩
    · obtain ⟨rfl, -⟩ := Request.mk.inj ht
      exact hnone
    · exact h.unread hj
  · intro j l file hj
    rcases getElem?_setState hi hj with ⟨-, ht⟩ | ⟨-, hj⟩
    · cases (Request.mk.inj ht).2
    · exact h.answered hj
  · exact h.distinct
  · exact congrArg (· ++ [location]) h.registered
  · change r.cache.misses + 1 = (r.cache.journal.reads ++ [location]).length
    rw [h.counted, List.length_append, List.length_singleton]
  · rw [map_location_setState]
    refine List.append_subset.2 ⟨h.requested, fun l hl ↦ ?_⟩
    obtain rfl := List.mem_singleton.1 hl
    exact List.mem_map.2 ⟨_, List.mem_of_getElem? hi, rfl⟩

theorem Coherent.succeed (h : Coherent r) (hi : r.tasks[i]? = some ⟨location, .reading⟩)
    (text : String) :
    Coherent ({ r with cache := r.cache.keep (.ofText location text) }.setState i
      (.finished (.ok (.ofText location text)))) := by
  have hnone := h.unread hi
  constructor
  · intro j k l l' hj hk hsame
    rcases getElem?_setState hi hj with ⟨-, ht⟩ | ⟨-, hj⟩
    · cases (Request.mk.inj ht).2
    rcases getElem?_setState hi hk with ⟨-, ht⟩ | ⟨-, hk⟩
    · cases (Request.mk.inj ht).2
    exact h.single hj hk hsame
  · intro j l hj
    rcases getElem?_setState hi hj with ⟨-, ht⟩ | ⟨hne, hj⟩
    · cases (Request.mk.inj ht).2
    · -- There is one read of the location, so the others that are under way are not answered.
      have hother : ¬location.same l := fun hsame ↦ hne (h.single hi hj hsame).symm
      exact (Cache.find?_keep_of_none (h.unread hj) _).trans (if_neg hother)
  · intro j l file hj
    rcases getElem?_setState hi hj with ⟨-, ht⟩ | ⟨-, hj⟩
    · obtain ⟨rfl, hstate⟩ := Request.mk.inj ht
      cases hstate
      exact (Cache.find?_keep_of_none hnone _).trans (if_pos (Path.same_self _))
    · exact Cache.find?_keep_of_some (h.answered hj) _
  · refine List.pairwise_append.2 ⟨h.distinct, List.pairwise_singleton _ _, fun f hf g hg ↦ ?_⟩
    obtain rfl := List.mem_singleton.1 hg
    exact Cache.find?_eq_none.1 hnone f hf
  · exact h.registered
  · exact h.counted
  · rw [map_location_setState]
    exact h.requested

theorem Coherent.moves (h : Coherent r) (hmove : Moves r found r') : Coherent r' := by
  cases hmove with
  | stay => exact h
  | answer hi _ hfile hfiles hjournal hmisses =>
    refine h.setState hi hfiles hjournal hmisses (by simp) fun file hs ↦ ?_
    cases hs
    exact hfile
  | wait hi _ => exact h.setState hi rfl rfl rfl (by simp) (by simp)
  | read hi _ hnone hfree => exact h.read hi hnone hfree
  | succeed text hi => exact h.succeed hi text
  | fail fault hi => exact h.setState hi rfl rfl rfl (by simp) (by simp)

theorem Coherent.run (h : Coherent r) (events : List RequestEvent) : Coherent (r.run events) := by
  induction events generalizing r with
  | nil => exact h
  | cons event events ih => exact ih (h.moves (moves_step r event))

theorem run_append (r : Requests) (before after : List RequestEvent) :
    r.run (before ++ after) = (r.run before).run after := List.foldl_append

theorem Moves.kept {file : SourceFile} (hmove : Moves r found r')
    (hfile : r.cache.find? location = some file) :
    r'.cache.find? location = some file ∧
      r'.cache.journal.readCount location = r.cache.journal.readCount location := by
  cases hmove with
  | stay => exact ⟨hfile, rfl⟩
  | answer hi _ hfound hfiles hjournal hmisses =>
    simp only [setState, Cache.find?, hfiles, hjournal]
    exact ⟨hfile, trivial⟩
  | wait hi _ => exact ⟨hfile, rfl⟩
  | @read i other state hi _ hnone hfree =>
    -- A read starts only for a location that has no file yet.
    have hother : ¬other.same location := fun hsame ↦ by
      rw [Cache.find?_same r.cache hsame, hfile] at hnone
      cases hnone
    refine ⟨hfile, (Cache.readCount_startRead r.cache other).trans ?_⟩
    rw [if_neg hother, Nat.add_zero]
  | succeed text hi => exact ⟨Cache.find?_keep_of_some hfile _, rfl⟩
  | fail fault hi => exact ⟨hfile, rfl⟩

theorem run_kept {file : SourceFile} (hfile : r.cache.find? location = some file)
    (events : List RequestEvent) :
    (r.run events).cache.find? location = some file ∧
      (r.run events).cache.journal.readCount location = r.cache.journal.readCount location := by
  induction events generalizing r with
  | nil => exact ⟨hfile, rfl⟩
  | cons event events ih =>
    obtain ⟨hfile', hcount⟩ := (moves_step r event).kept hfile
    obtain ⟨hrun, hcount'⟩ := ih hfile'
    exact ⟨hrun, hcount'.trans hcount⟩

theorem Moves.files (hmove : Moves r found r') :
    r'.cache.files.map SourceFile.location =
      r.cache.files.map SourceFile.location ++ found.toList := by
  cases hmove with
  | answer hi _ hfound hfiles hjournal hmisses => simp [setState, hfiles]
  | succeed text hi => simp [setState, Cache.keep, SourceFile.ofText]
  | _ => simp [setState, Cache.startRead]

theorem files_run (r : Requests) (events : List RequestEvent) :
    (r.run events).cache.files.map SourceFile.location =
      r.cache.files.map SourceFile.location ++ r.successes events := by
  induction events generalizing r with
  | nil => simp [run, successes]
  | cons event events ih =>
    calc ((r.step event).run events).cache.files.map SourceFile.location
      _ = (r.step event).cache.files.map SourceFile.location ++ (r.step event).successes events :=
        ih _
      _ = r.cache.files.map SourceFile.location ++ r.successes (event :: events) := by
        rw [(moves_step r event).files, List.append_assoc, successes]

theorem map_location_moves (hmove : Moves r found r') :
    r'.tasks.map Request.location = r.tasks.map Request.location := by
  cases hmove with
  | stay => rfl
  | _ => exact map_location_setState _ _ _

theorem map_location_run (r : Requests) (events : List RequestEvent) :
    (r.run events).tasks.map Request.location = r.tasks.map Request.location := by
  induction events generalizing r with
  | nil => rfl
  | cons event events ih => exact (ih _).trans (map_location_moves (moves_step r event))

theorem readCount_run_append {locations : List Path} {before : List RequestEvent} {l l' : Path}
    (hl : l ∈ (start locations).successes before) (hsame : l.same l')
    (after : List RequestEvent) :
    ((start locations).run (before ++ after)).cache.journal.readCount l' =
      ((start locations).run before).cache.journal.readCount l' := by
  have hfiles : l ∈ ((start locations).run before).cache.files.map SourceFile.location := by
    rw [files_run]
    exact List.mem_append_right _ hl
  obtain ⟨f, hf, rfl⟩ := List.mem_map.1 hfiles
  have hsome : ((start locations).run before).cache.find? l' ≠ none :=
    fun hnone ↦ Cache.find?_eq_none.1 hnone f hf hsame
  obtain ⟨file, hfile⟩ := Option.ne_none_iff_exists'.1 hsome
  rw [run_append]
  exact (run_kept hfile after).2

theorem Coherent.sum_readCount (h : Coherent r) :
    ((Path.distinct (r.tasks.map Request.location)).map r.cache.journal.readCount).sum =
      r.cache.misses := by
  -- Texts of the same path are one summand, so the sum goes over lists of components.
  let requested := (r.tasks.map Request.location).map Path.components
  let reads : Multiset (List Path.Component) := r.cache.journal.reads.map Path.components
  have hcount : r.cache.journal.readCount = (reads.count ·) ∘ Path.components := by
    funext l
    rw [Journal.readCount, Function.comp, Multiset.count, Multiset.coe_countP, List.countP_map]
    exact List.countP_congr fun p _ ↦ by simpa [Path.same_iff] using eq_comm
  have hreads : ∀ p ∈ reads, p ∈ requested.dedup.toFinset := fun p hp ↦ by
    rw [List.mem_toFinset, List.mem_dedup]
    exact List.map_subset _ h.requested hp
  calc ((Path.distinct (r.tasks.map Request.location)).map r.cache.journal.readCount).sum
    _ = (requested.dedup.map (reads.count ·)).sum := by
      rw [hcount, ← List.map_map, Path.map_components_distinct]
    _ = ∑ p ∈ requested.dedup.toFinset, reads.count p :=
      (List.sum_toFinset _ (List.nodup_dedup _)).symm
    _ = reads.card := Multiset.sum_count_eq_card hreads
    _ = r.cache.misses := by rw [Multiset.coe_card, List.length_map, h.counted]

/-- What holds of requests to an empty cache at every moment, that is, after any schedule. -/
structure Coalesced (locations : List Path) (events : List RequestEvent) (r : Requests) :
    Prop where
  /-- No two requests are reading the same location. -/
  single : ∀ {i j : Nat} {l l' : Path}, r.tasks[i]? = some ⟨l, .reading⟩ →
    r.tasks[j]? = some ⟨l', .reading⟩ → l.same l' → i = j
  /-- A location is not read again after a successful read of it. -/
  final : ∀ {before after : List RequestEvent}, events = before ++ after →
    ∀ l ∈ (start locations).successes before, ∀ l', l.same l' →
      r.cache.journal.readCount l' =
        ((start locations).run before).cache.journal.readCount l'
  registered : ∀ l,
    r.cache.journal.dependencies.countP (·.same l) = r.cache.journal.readCount l
  counted : ((Path.distinct locations).map r.cache.journal.readCount).sum = r.cache.misses
  /-- Requests of the same location that are answered have the same file. -/
  shared : ∀ {i j : Nat} {l l' : Path} {file file' : SourceFile},
    r.tasks[i]? = some ⟨l, .finished (.ok file)⟩ →
    r.tasks[j]? = some ⟨l', .finished (.ok file')⟩ → l.same l' → file = file'
  kept : r.cache.files.length = (Path.distinct ((start locations).successes events)).length

/-- Reads of the same location are coalesced, whatever the order of the events. -/
theorem coalesced_run (locations : List Path) (events : List RequestEvent) :
    Coalesced locations events ((start locations).run events) := by
  have h : Coherent ((start locations).run events) := (coherent_start locations).run events
  have hfiles := files_run (start locations) events
  constructor
  · exact h.single
  · intro before after hevents l hl l' hsame
    rw [hevents]
    exact readCount_run_append hl hsame after
  · intro l
    rw [h.registered, Journal.readCount]
  · have hlocations : ((start locations).run events).tasks.map Request.location = locations := by
      rw [map_location_run, start, List.map_map]
      exact List.map_id locations
    rw [← h.sum_readCount, hlocations]
  · intro i j l l' file file' hi hj hsame
    have hfile := h.answered hi
    rw [Cache.find?_same _ hsame, h.answered hj] at hfile
    exact (Option.some.inj hfile).symm
  · have hdistinct : ((start locations).successes events).Pairwise
        fun p q ↦ p.components ≠ q.components := by
      have hpairs := h.distinct.map (S := fun p q : Path ↦ p.components ≠ q.components)
        SourceFile.location fun f g hne heq ↦ hne (Path.same_iff.2 heq)
      rwa [hfiles] at hpairs
    rw [Path.distinct, List.pwFilter_eq_self.2 hdistinct, ← List.length_map, hfiles]
    rfl

end Requests

end Transclude
