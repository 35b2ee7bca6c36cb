import Transclude.Proofs.Ledger
import Transclude.Proofs.Schedule

namespace Transclude

open IncludeTree (addLocation)

/-- The location of a read that has left no file, be it under way or failed. -/
def Request.unkept? (t : Request) : Option Path :=
  match t.state with
  | .reading | .finished (.error _) => some t.location
  | _ => none

namespace Requests

variable {host : Host} {r r' : Requests} {i j : Nat} {location : Path} {state s : RequestState}
  {found : Option Path} {file : SourceFile}

def unkept (r : Requests) : List Path := r.tasks.filterMap Request.unkept?

theorem count_unkept_setState (hi : r.tasks[i]? = some ⟨location, state⟩) (cache : Cache)
    (s : RequestState) (p : Path) :
    ({ r with cache := cache }.setState i s).unkept.count p +
        (Request.unkept? ⟨location, state⟩).toList.count p =
      r.unkept.count p + (Request.unkept? ⟨location, s⟩).toList.count p := by
  obtain ⟨hlt, hget⟩ := List.getElem?_eq_some_iff.1 hi
  have hmiddle (t : Request) : ((r.tasks.take i ++ t :: r.tasks.drop (i + 1)).filterMap
      Request.unkept?).count p = ((r.tasks.take i).filterMap Request.unkept?).count p +
        t.unkept?.toList.count p + ((r.tasks.drop (i + 1)).filterMap Request.unkept?).count p := by
    rw [List.filterMap_append, List.filterMap_cons, List.count_append]
    cases t.unkept? with
    | none => simp
    | some l =>
      simp only [List.count_cons, Option.toList_some, List.count_nil]
      omega
  have hold : r.tasks = r.tasks.take i ++ ⟨location, state⟩ :: r.tasks.drop (i + 1) := by
    rw [← hget, List.getElem_cons_drop, List.take_append_drop]
  have hnew : ({ r with cache := cache }.setState i s).tasks =
      r.tasks.take i ++ ⟨location, s⟩ :: r.tasks.drop (i + 1) := by
    rw [setState, List.modify_eq_take_cons_drop hlt, hget]
  have hcount := hmiddle ⟨location, state⟩
  rw [← hold] at hcount
  rw [unkept, unkept, hnew, hmiddle, hcount]
  omega

theorem answer?_eq_some {answer : Except Fault SourceFile} :
    r.answer? i = some answer ↔ ∃ l, r.tasks[i]? = some ⟨l, .finished answer⟩ := by
  unfold answer?
  split
  · next l result hi => simp [hi]
  · next hnone =>
    constructor
    · intro h
      cases h
    · rintro ⟨l, hi⟩
      exact absurd hi (hnone l answer)

theorem answer?_setState {cache : Cache} {answer : Except Fault SourceFile}
    (hj : r.tasks[j]? = some ⟨location, state⟩) (hstate : state ≠ .finished answer)
    (h : r.answer? i = some answer) :
    ({ r with cache := cache }.setState j s).answer? i = some answer := by
  obtain ⟨l, hi⟩ := answer?_eq_some.1 h
  have hne : j ≠ i := by
    rintro rfl
    exact hstate (Request.mk.inj (Option.some.inj (hj.symm.trans hi))).2
  refine answer?_eq_some.2 ⟨l, ?_⟩
  rw [setState, List.getElem?_modify_ne _ _ hne]
  exact hi

theorem Moves.answered {answer : Except Fault SourceFile} (hmove : Moves r found r')
    (h : r.answer? i = some answer) : r'.answer? i = some answer := by
  have hpending {state : RequestState} (hstate : state.Pending) : state ≠ .finished answer := by
    rcases hstate with rfl | rfl <;> simp
  cases hmove with
  | stay => exact h
  | answer hj hstate | wait hj hstate | read hj hstate =>
    exact answer?_setState hj (hpending hstate) h
  | succeed text hj | fail fault hj => exact answer?_setState hj (by simp) h

theorem Moves.files_subset (hmove : Moves r found r') : r.cache.files ⊆ r'.cache.files := by
  cases hmove with
  | answer _ _ _ hfiles => exact hfiles ▸ List.Subset.refl _
  | succeed text hi => exact List.subset_append_left _ _
  | stay | wait | read | fail => exact List.Subset.refl _

theorem unkept?_of_pending (hstate : state.Pending) : Request.unkept? ⟨location, state⟩ = none := by
  rcases hstate with rfl | rfl <;> rfl

theorem answer?_add {answer : Except Fault SourceFile} (h : r.answer? i = some answer)
    (location : Path) : (r.add location).answer? i = some answer := by
  obtain ⟨l, hi⟩ := answer?_eq_some.1 h
  refine answer?_eq_some.2 ⟨l, ?_⟩
  rw [Requests.add, List.getElem?_append_left (List.getElem?_eq_some_iff.1 hi).1, hi]

theorem Coherent.mem_of_answer? (h : Coherent r) (hi : r.answer? i = some (.ok file)) :
    file ∈ r.cache.files := by
  obtain ⟨l, hl⟩ := answer?_eq_some.1 hi
  exact List.mem_of_find?_eq_some (h.answered hl)

/-- Every read is under way, has failed or is kept, and what is kept is the answer of a request. -/
structure Booked (r : Requests) : Prop extends Coherent r where
  reads : ∀ p, r.cache.journal.reads.count p =
    r.unkept.count p + (r.cache.files.map SourceFile.location).count p
  kept : ∀ file ∈ r.cache.files, ∃ i, r.answer? i = some (.ok file)

theorem booked_empty : Booked ⟨{}, []⟩ where
  toCoherent := coherent_start []
  reads _ := rfl
  kept file hfile := by cases hfile

theorem Booked.add (h : Booked r) (location : Path) : Booked (r.add location) := by
  have hold {i : Nat} {l : Path} {s : RequestState} (hs : s ≠ .idle)
      (hi : (r.add location).tasks[i]? = some ⟨l, s⟩) : r.tasks[i]? = some ⟨l, s⟩ := by
    rw [Requests.add, List.getElem?_append] at hi
    split at hi
    · exact hi
    · exact absurd (Request.mk.inj (List.mem_singleton.1 (List.mem_of_getElem? hi))).2 hs
  refine ⟨⟨fun hi hj ↦ ?_, fun hi ↦ ?_, fun hi ↦ ?_, h.distinct, h.registered, h.counted, ?_⟩,
    ?_, ?_⟩
  · exact h.single (hold (by simp) hi) (hold (by simp) hj)
  · exact h.unread (hold (by simp) hi)
  · exact h.answered (hold (by simp) hi)
  · rw [Requests.add, List.map_append]
    exact List.subset_append_of_subset_left _ h.requested
  · have hnew : Request.unkept? { location } = none := rfl
    intro p
    simpa [Requests.add, unkept, List.filterMap_cons, hnew] using h.reads p
  · intro file hfile
    obtain ⟨i, hi⟩ := h.kept file hfile
    exact ⟨i, answer?_add hi location⟩

theorem Booked.reads_setState (h : Booked r) (hi : r.tasks[i]? = some ⟨location, state⟩)
    (cache : Cache) (s : RequestState) (p : Path)
    (hbalance : cache.journal.reads.count p + (Request.unkept? ⟨location, state⟩).toList.count p +
        (r.cache.files.map SourceFile.location).count p =
      r.cache.journal.reads.count p + (Request.unkept? ⟨location, s⟩).toList.count p +
        (cache.files.map SourceFile.location).count p) :
    cache.journal.reads.count p = ({ r with cache := cache }.setState i s).unkept.count p +
      (cache.files.map SourceFile.location).count p := by
  have hreads := h.reads p
  have hcount := count_unkept_setState hi cache s p
  omega

theorem Booked.moves (h : Booked r) (hmove : Moves r found r') : Booked r' := by
  refine ⟨h.toCoherent.moves hmove, fun p ↦ ?_, ?_⟩
  · cases hmove with
    | stay => exact h.reads p
    | @answer i location state file cache hi hstate hfile hfiles hjournal =>
      refine h.reads_setState hi cache _ p ?_
      rw [hfiles, hjournal, unkept?_of_pending hstate]
      rfl
    | wait hi hstate =>
      refine h.reads_setState hi r.cache _ p ?_
      rw [unkept?_of_pending hstate]
      rfl
    | @read i location state hi hstate hnone hfree =>
      refine h.reads_setState hi (r.cache.startRead location) _ p ?_
      change (r.cache.journal.reads ++ [location]).count p + _ + _ = _ + [location].count p + _
      rw [unkept?_of_pending hstate, List.count_append]
      rfl
    | @succeed i location text hi =>
      refine h.reads_setState hi (r.cache.keep (.ofText location text)) _ p ?_
      change r.cache.journal.reads.count p + [location].count p + _ =
        r.cache.journal.reads.count p + 0 + ((r.cache.files ++ [_]).map _).count p
      rw [List.map_append, List.count_append]
      change _ = _ + (_ + [location].count p)
      omega
    | fail fault hi => exact h.reads_setState hi r.cache _ p rfl
  · intro file hfile
    by_cases hold : file ∈ r.cache.files
    · obtain ⟨i, hi⟩ := h.kept file hold
      exact ⟨i, hmove.answered hi⟩
    -- A file is new only at the moment at which a read ends.
    · cases hmove with
      | answer _ _ _ hfiles => exact absurd (hfiles ▸ hfile) hold
      | @succeed i location text hi =>
        have hnew : file = .ofText location text :=
          List.mem_singleton.1 ((List.mem_append.1 hfile).resolve_left hold)
        refine ⟨i, answer?_eq_some.2 ⟨location, ?_⟩⟩
        rw [hnew, setState, List.getElem?_modify_eq]
        exact congrArg _ hi
      | stay | wait | read | fail => exact absurd hfile hold

end Requests

/-- What a directive at work holds on to: the request that it waits for, or the file that it has. -/
inductive Holding where
  | request (i : Nat)
  | file (file : SourceFile)

namespace Task

mutual

def holdings : Task → List Holding
  | .fresh _ => []
  | .fetching _ _ _ i => [.request i]
  | .joining _ _ _ file below => .file file :: holdingsList below

def holdingsList : List Task → List Holding
  | [] => []
  | t :: rest => t.holdings ++ holdingsList rest

end

theorem holdingsList_ofFile (file : SourceFile) : holdingsList (ofFile file) = [] := by
  unfold ofFile
  induction Directive.scan file.text with
  | nil => rfl
  | cons d ds ih =>
    rw [List.map_cons, holdingsList, ih]
    rfl

theorem exists_holdings {tasks : List Task} {i : Nat} {t : Task} (hi : tasks[i]? = some t) :
    ∃ before after, holdingsList tasks = before ++ t.holdings ++ after ∧
      ∀ t', holdingsList (tasks.set i t') = before ++ t'.holdings ++ after := by
  induction tasks generalizing i with
  | nil => cases hi
  | cons t₁ rest ih =>
    cases i with
    | zero =>
      cases hi
      exact ⟨[], holdingsList rest, rfl, fun t' ↦ rfl⟩
    | succ i =>
      obtain ⟨before, after, hrest, hset⟩ := ih hi
      refine ⟨t₁.holdings ++ before, after, ?_, fun t' ↦ ?_⟩
      · rw [holdingsList, hrest]
        simp
      · rw [List.set_cons_succ, holdingsList, hset]
        simp

mutual

theorem holdings_of_node? {t : Task} {n : Node} (h : t.node? = some n) (depth : Nat) :
    t.holdings = (Node.preorder depth n).map fun p ↦ .file p.2.file := by
  match t with
  | .fresh d => cases h
  | .fetching d condition location i => cases h
  | .joining d condition location included below =>
    obtain ⟨nodes, hnodes, rfl⟩ := Option.map_eq_some_iff.1 h
    rw [holdings, Node.preorder, List.map_cons, holdingsList_of_nodes? hnodes (depth + 1)]
    rfl

theorem holdingsList_of_nodes? {tasks : List Task} {nodes : List Node}
    (h : nodes? tasks = some nodes) (depth : Nat) :
    holdingsList tasks = (Node.preorderList depth nodes).map fun p ↦ .file p.2.file := by
  match tasks with
  | [] =>
    cases h
    rfl
  | t :: rest =>
    rw [nodes?] at h
    obtain ⟨n, hn, h⟩ := Option.bind_eq_some_iff.1 h
    obtain ⟨ns, hns, h⟩ := Option.bind_eq_some_iff.1 h
    cases h
    rw [holdingsList, holdings_of_node? hn depth, holdingsList_of_nodes? hns depth,
      Node.preorderList, List.map_append]

end

end Task

inductive Advances (host : Host) (root : Path) (r : Requests) :
    List Holding → Requests → List Holding → Prop
  | stay {held : List Holding} : Advances host root r held r held
  | ask {before after : List Holding} {location : Path} : ¬root.same location →
      Advances host root r (before ++ after) (r.add location)
        (before ++ .request r.tasks.length :: after)
  | proceed {held : List Holding} (i : Nat) : Advances host root r held (r.proceed host i) held
  | take {before after : List Holding} {i : Nat} {file : SourceFile} :
      r.answer? i = some (.ok file) →
      Advances host root r (before ++ .request i :: after) r (before ++ .file file :: after)

variable {host : Host} {root : Path} {branch : List Path} {file : SourceFile} {r r' : Requests}
  {t t' : Task} {tasks tasks' : List Task} {held held' : List Holding}

theorem Advances.frame (h : Advances host root r held r' held') (before after : List Holding) :
    Advances host root r (before ++ held ++ after) r' (before ++ held' ++ after) := by
  cases h with
  | stay => exact .stay
  | proceed i => exact .proceed i
  | @ask first last location hroot =>
    have hask : Advances host root r ((before ++ first) ++ (last ++ after)) (r.add location)
        ((before ++ first) ++ .request r.tasks.length :: (last ++ after)) := .ask hroot
    simpa using hask
  | @take first last i file hanswer =>
    have htake : Advances host root r ((before ++ first) ++ .request i :: (last ++ after)) r
        ((before ++ first) ++ .file file :: (last ++ after)) := .take hanswer
    simpa using htake

theorem Task.move_advances (hroot : root ∈ branch)
    (h : t.move host branch file r = .ok (r', t')) :
    Advances host root r t.holdings r' t'.holdings := by
  cases t with
  | fresh d =>
    obtain ⟨⟨condition, location⟩, hprepare, hmoved⟩ := map_ok h
    cases hmoved
    exact @Advances.ask host root r [] [] _ ((Build.prepare_ok hprepare).not_root hroot)
  | fetching d condition location i =>
    rw [Task.move] at h
    split at h
    · cases h
      exact .proceed i
    · next included hanswer =>
      cases h
      rw [holdings, holdings, holdingsList_ofFile]
      exact @Advances.take host root r [] [] _ _ hanswer
    · cases h
  | joining d condition location included below =>
    cases h
    exact .stay

theorem Task.advance_advances {branch : List Path} {file : SourceFile} {tasks tasks' : List Task}
    {place : List Nat} (hroot : root ∈ branch)
    (h : advance host branch file place (r, tasks) = .ok (r', tasks')) :
    Advances host root r (holdingsList tasks) r' (holdingsList tasks') := by
  match place with
  | [] =>
    cases h
    exact .stay
  | [i] =>
    rw [advance] at h
    split at h
    · next t ht =>
      obtain ⟨⟨r₁, t₁⟩, hmove, hstate⟩ := map_ok h
      cases hstate
      obtain ⟨before, after, htasks, hset⟩ := exists_holdings ht
      rw [htasks, hset]
      exact (move_advances hroot hmove).frame before after
    · cases h
      exact .stay
  | i :: j :: place =>
    rw [advance] at h
    split at h
    · next d condition location included below ht =>
      obtain ⟨⟨r₁, below₁⟩, hbelow, hstate⟩ := map_ok h
      cases hstate
      obtain ⟨before, after, htasks, hset⟩ := exists_holdings ht
      rw [htasks, hset]
      have hdeep := advance_advances (List.mem_append_left _ hroot) hbelow
      have hwhole := hdeep.frame (before ++ [.file included]) after
      simpa [holdings] using hwhole
    · cases h
      exact .stay

/-- Every request is waited for, or has its answer held. What is held was kept. -/
structure Accounted (root : Path) (r : Requests) (held : List Holding) : Prop where
  booked : r.Booked
  avoids : ∀ l ∈ r.tasks.map Request.location, ¬root.same l
  files : ∀ file, .file file ∈ held → file ∈ r.cache.files
  claimed : ∀ i < r.tasks.length, .request i ∈ held ∨
    ∃ file, .file file ∈ held ∧ r.answer? i = some (.ok file)

theorem accounted_empty (root : Path) : Accounted root ⟨{}, []⟩ [] where
  booked := Requests.booked_empty
  avoids l hl := by cases hl
  files file hfile := by cases hfile
  claimed i hi := absurd hi (Nat.not_lt_zero i)

theorem Accounted.advances (h : Accounted root r held)
    (hadvances : Advances host root r held r' held') : Accounted root r' held' := by
  cases hadvances with
  | stay => exact h
  | @ask before after location hroot =>
    refine ⟨h.booked.add location, ?_, fun file hfile ↦ ?_, fun i hi ↦ ?_⟩
    · rw [Requests.add, List.map_append]
      exact List.forall_mem_append.2 ⟨h.avoids, List.forall_mem_singleton.2 hroot⟩
    · exact h.files file (by simpa using hfile)
    · have hlength : i < r.tasks.length + 1 := by simpa [Requests.add] using hi
      rcases Nat.lt_succ_iff_lt_or_eq.1 hlength with hold | rfl
      · rcases h.claimed i hold with hrequest | ⟨file, hfile, hanswer⟩
        · left
          simp only [List.mem_append, List.mem_cons] at hrequest ⊢
          tauto
        · exact .inr ⟨file, by simpa using hfile, Requests.answer?_add hanswer location⟩
      · exact .inl (by simp)
  | proceed i =>
    obtain ⟨found, hmove⟩ := Requests.moves_proceed host r i
    have hlocations := Requests.map_location_moves hmove
    have hlength := congrArg List.length hlocations
    rw [List.length_map, List.length_map] at hlength
    refine ⟨h.booked.moves hmove, ?_, fun file hfile ↦ ?_, fun j hj ↦ ?_⟩
    · rw [hlocations]
      exact h.avoids
    · exact hmove.files_subset (h.files file hfile)
    · refine (h.claimed j (hlength ▸ hj)).imp_right ?_
      rintro ⟨file, hfile, hanswer⟩
      exact ⟨file, hfile, hmove.answered hanswer⟩
  | @take before after i file hanswer =>
    refine ⟨h.booked, h.avoids, fun file' hfile ↦ ?_, fun j hj ↦ ?_⟩
    · have hcases : file' = file ∨ .file file' ∈ before ++ .request i :: after := by
        simp only [List.mem_append, List.mem_cons, Holding.file.injEq] at hfile ⊢
        tauto
      rcases hcases with rfl | hold
      · exact h.booked.mem_of_answer? hanswer
      · exact h.files file' hold
    · rcases h.claimed j hj with hrequest | ⟨file', hfile, hanswer'⟩
      · by_cases hij : j = i
        · subst hij
          exact .inr ⟨file, by simp, hanswer⟩
        · left
          simp only [List.mem_append, List.mem_cons, Holding.request.injEq] at hrequest ⊢
          tauto
      · right
        refine ⟨file', ?_, hanswer'⟩
        simp only [List.mem_append, List.mem_cons] at hfile ⊢
        tauto

theorem Accounted.last {branch : List Path} {file : SourceFile} {state : Requests × List Task}
    (hroot : root ∈ branch) (h : Accounted root state.1 (Task.holdingsList state.2))
    (schedule : List (List Nat)) :
    Accounted root (Task.last host branch file state schedule).1
      (Task.holdingsList (Task.last host branch file state schedule).2) := by
  induction schedule generalizing state with
  | nil => exact h
  | cons place schedule ih =>
    rw [Task.last]
    split
    · next state' hadvance => exact ih (h.advances (Task.advance_advances hroot hadvance))
    · exact h

theorem Accounted.reads_perm (h : Accounted root r held) (hdone : ∀ i, .request i ∉ held) :
    r.cache.journal.reads.Perm (r.cache.files.map SourceFile.location) ∧
      ∀ file, file ∈ r.cache.files ↔ .file file ∈ held := by
  have hanswered {i : Nat} (hi : i < r.tasks.length) :
      ∃ file, .file file ∈ held ∧ r.answer? i = some (.ok file) :=
    (h.claimed i hi).resolve_left (hdone i)
  refine ⟨List.perm_iff_count.2 fun p ↦ ?_, fun file ↦ ⟨fun hfile ↦ ?_, h.files file⟩⟩
  · have hunkept : r.unkept = [] := by
      refine List.filterMap_eq_nil_iff.2 fun t ht ↦ ?_
      obtain ⟨i, hi, rfl⟩ := List.mem_iff_getElem.1 ht
      obtain ⟨file, -, hanswer⟩ := hanswered hi
      obtain ⟨l, hl⟩ := Requests.answer?_eq_some.1 hanswer
      rw [(List.getElem?_eq_some_iff.1 hl).2]
      rfl
    rw [h.booked.reads, hunkept, List.count_nil, Nat.zero_add]
  · obtain ⟨i, hi⟩ := h.booked.kept file hfile
    obtain ⟨l, hl⟩ := Requests.answer?_eq_some.1 hi
    obtain ⟨file', hheld, hanswer⟩ := hanswered (List.getElem?_eq_some_iff.1 hl).1
    cases hi.symm.trans hanswer
    exact hheld

section Locations

variable {seen locations : List Path} {p : Path}

theorem pairwise_foldl_addLocation (h : seen.Pairwise fun x y ↦ ¬x.same y) :
    (locations.foldl addLocation seen).Pairwise fun x y ↦ ¬x.same y := by
  induction locations generalizing seen with
  | nil => exact h
  | cons l locations ih =>
    refine ih ?_
    rw [addLocation]
    split
    · exact h
    · next hnew => exact pairwise_append_unvisited h hnew

theorem mem_foldl_addLocation
    (h : ∀ x ∈ seen ++ locations, ∀ y ∈ seen ++ locations, x.same y → x = y) :
    p ∈ locations.foldl addLocation seen ↔ p ∈ seen ∨ p ∈ locations := by
  induction locations generalizing seen with
  | nil => simp
  | cons l locations ih =>
    have hadd : ∀ x, x ∈ addLocation seen l ↔ x ∈ seen ∨ x = l := by
      intro x
      rw [addLocation]
      split
      · next hany =>
        obtain ⟨y, hy, hsame⟩ := List.any_eq_true.1 hany
        obtain rfl := h y (by simp [hy]) l (by simp) hsame
        exact (or_iff_left_of_imp fun hx ↦ hx ▸ hy).symm
      · simp
    rw [List.foldl_cons, ih, hadd, or_assoc, List.mem_cons]
    intro x hx y hy
    refine h x ?_ y ?_
    · simpa [hadd, or_assoc] using hx
    · simpa [hadd, or_assoc] using hy

theorem nodup_components (h : locations.Pairwise fun x y ↦ ¬x.same y) :
    (locations.map Path.components).Nodup :=
  List.pairwise_map.2 (h.imp fun hne heq ↦ hne (Path.same_iff.2 heq))

end Locations

namespace IncludeTree

variable {host : Host} {root : SourceFile} {schedule : List (List Nat)} {tree : IncludeTree}

theorem accounted_of_outcome? (h : outcome? host root schedule = some (.ok tree)) :
    ∃ r, r.cache = cacheAfter host root schedule ∧
      Accounted root.location r (tree.nodes.map fun n ↦ .file n.file) := by
  unfold outcome? at h
  split at h
  · cases h
  · next r tasks hrun =>
    obtain ⟨nodes, hnodes, htree⟩ := Option.map_eq_some_iff.1 h
    cases htree
    have hlast := Task.last_of_run hrun
    refine ⟨r, by rw [cacheAfter, hlast], ?_⟩
    have hstart : Accounted root.location ⟨{}, []⟩ (Task.holdingsList (Task.ofFile root)) := by
      rw [Task.holdingsList_ofFile]
      exact accounted_empty _
    have hend : Accounted root.location
        (Task.last host [root.location] root (⟨{}, []⟩, Task.ofFile root) schedule).1
        (Task.holdingsList
          (Task.last host [root.location] root (⟨{}, []⟩, Task.ofFile root) schedule).2) :=
      Accounted.last (List.mem_singleton_self _) hstart schedule
    rw [hlast, Task.holdingsList_of_nodes? hnodes 0] at hend
    simpa [IncludeTree.nodes, leveled, Function.comp_def] using hend

theorem registered_of_outcome? (h : outcome? host root schedule = some (.ok tree)) :
    Registered root (cacheAfter host root schedule) ∧
      (∀ p, p ∈ (cacheAfter host root schedule).journal.dependencies ↔
        ∃ n ∈ tree.nodes, n.location = p) ∧
      (cacheAfter host root schedule).journal.dependencies.Perm tree.locations ∧
      (cacheAfter host root schedule).files.length = tree.locations.length := by
  obtain ⟨r, hr, haccounted⟩ := accounted_of_outcome? h
  rw [← hr]
  obtain ⟨hreads, hfiles⟩ := haccounted.reads_perm (by simp)
  have hcoherent := haccounted.booked.toCoherent
  have hdistinct : (r.cache.files.map SourceFile.location).Pairwise fun x y ↦ ¬x.same y :=
    List.pairwise_map.2 hcoherent.distinct
  have hledger : r.cache.Ledger root.location := {
    registered := hcoherent.registered
    counted := hcoherent.counted
    distinct := (hreads.pairwise_iff fun hne hsame ↦ hne (Path.same_symm hsame)).2 hdistinct
    avoids := fun l hl ↦ haccounted.avoids l (hcoherent.requested hl) }
  have hmem (p : Path) : p ∈ r.cache.journal.dependencies ↔ ∃ n ∈ tree.nodes, n.location = p := by
    rw [hledger.registered, hreads.mem_iff, List.mem_map]
    constructor
    · rintro ⟨file, hfile, rfl⟩
      obtain ⟨n, hn, hheld⟩ := List.mem_map.1 ((hfiles file).1 hfile)
      exact ⟨n, hn, congrArg SourceFile.location (Holding.file.inj hheld)⟩
    · rintro ⟨n, hn, rfl⟩
      exact ⟨n.file, (hfiles n.file).2 (List.mem_map_of_mem hn), rfl⟩
  -- Nodes of the same location have the same file, so that their locations have one spelling.
  have hlocations (p : Path) : p ∈ tree.locations ↔ p ∈ r.cache.journal.dependencies := by
    rw [locations, mem_foldl_addLocation, hmem]
    · simp
    · intro x hx y hy hsame
      have hx : x ∈ r.cache.journal.dependencies := (hmem x).2 (by simpa using hx)
      have hy : y ∈ r.cache.journal.dependencies := (hmem y).2 (by simpa using hy)
      exact List.inj_on_of_nodup_map (nodup_components hledger.registered_of.distinct) hx hy
        (Path.same_iff.1 hsame)
  have hperm : r.cache.journal.dependencies.Perm tree.locations := by
    refine (List.perm_ext_iff_of_nodup ?_ ?_).2 fun p ↦ (hlocations p).symm
    · exact (nodup_components hledger.registered_of.distinct).of_map
    · exact (nodup_components (pairwise_foldl_addLocation .nil)).of_map
  refine ⟨hledger.registered_of, hmem, hperm, ?_⟩
  rw [← hperm.length_eq, hledger.registered, hreads.length_eq, List.length_map]

/-- In whatever order its branches move, a build that succeeds has registered, read and kept the
locations of its tree, each of them once. If none is suspended while it could go on, the order is
that of the tree and every other request is a hit, and a build that fails has registered and read
no location twice. -/
theorem registered_of_schedule (host : Host) (root : SourceFile) {schedule : List (List Nat)}
    {result : Except IncludeError IncludeTree} {c : Cache}
    (h : outcome? host root schedule = some result) (hc : cacheAfter host root schedule = c) :
    (∀ tree, result = .ok tree → Registered root c ∧
      c.journal.dependencies.Perm tree.locations ∧ c.files.length = tree.locations.length) ∧
    (Prompt host root schedule → Registered root c ∧ ∀ tree, result = .ok tree →
      c.journal.dependencies = tree.locations ∧ c.files.length = tree.locations.length ∧
        c.hits + tree.locations.length = tree.nodes.length) := by
  subst hc
  constructor
  · rintro tree rfl
    obtain ⟨hregistered, -, hperm, hlength⟩ := registered_of_outcome? h
    exact ⟨hregistered, hperm, hlength⟩
  · intro hprompt
    exact registered_of_buildTree (hprompt.outcome_eq h)

end IncludeTree

def busyHost : MemoryHost :=
  .ofEntries [(⟨"/p/a"⟩, "#include c\n#include ./c if on\n"), (⟨"/p/b"⟩, "#include c\r"),
    (⟨"/p/c"⟩, "C\n")] [⟨"/p/u"⟩]

def busyRoot : SourceFile := ⟨⟨"/p/r"⟩, ⟨"/p"⟩, "#include b\n#include a\n#include c\n"⟩

def abortedRoot : SourceFile := ⟨⟨"/p/r"⟩, ⟨"/p"⟩, "#include b\n#include c\n#include u\n#include a"⟩

def busyInTurn : List (List Nat) :=
  List.replicate 4 [0] ++ List.replicate 4 [0, 0] ++ List.replicate 4 [1] ++
    List.replicate 3 [1, 0] ++ List.replicate 3 [1, 1] ++ List.replicate 3 [2]

def busySideBySide : List (List Nat) :=
  [[0], [1], [2], [0], [1], [2]] ++ List.replicate 2 [0] ++ List.replicate 2 [1] ++
    List.replicate 2 [2] ++ List.replicate 3 [0, 0] ++ List.replicate 3 [1, 0] ++
    List.replicate 3 [1, 1]

def abortedInTurn : List (List Nat) :=
  List.replicate 4 [0] ++ List.replicate 4 [0, 0] ++ List.replicate 3 [1] ++ List.replicate 4 [2]

open IncludeTree in
theorem registered_busy :
    (∃ tree, outcome? busyHost.toHost busyRoot busyInTurn = some (.ok tree) ∧
      (cacheAfter busyHost.toHost busyRoot busyInTurn).journal.dependencies =
        [⟨"/p/b"⟩, ⟨"/p/c"⟩, ⟨"/p/a"⟩] ∧
      tree.locations = [⟨"/p/b"⟩, ⟨"/p/c"⟩, ⟨"/p/a"⟩] ∧
      (cacheAfter busyHost.toHost busyRoot busyInTurn).hits + 3 = tree.nodes.length) ∧
    (∃ tree, outcome? busyHost.toHost busyRoot busySideBySide = some (.ok tree) ∧
      Registered busyRoot (cacheAfter busyHost.toHost busyRoot busySideBySide) ∧
      (cacheAfter busyHost.toHost busyRoot busySideBySide).journal.dependencies =
        [⟨"/p/b"⟩, ⟨"/p/a"⟩, ⟨"/p/c"⟩] ∧
      [(⟨"/p/b"⟩ : Path), ⟨"/p/a"⟩, ⟨"/p/c"⟩].Perm tree.locations) ∧
    ∃ e, outcome? busyHost.toHost abortedRoot abortedInTurn = some (.error e) ∧
      Registered abortedRoot (cacheAfter busyHost.toHost abortedRoot abortedInTurn) ∧
      (cacheAfter busyHost.toHost abortedRoot abortedInTurn).journal.dependencies =
        [⟨"/p/b"⟩, ⟨"/p/c"⟩, ⟨"/p/u"⟩] := by
  have hturn : (outcome? busyHost.toHost busyRoot busyInTurn).map (Except.map locations) =
        some (.ok [⟨"/p/b"⟩, ⟨"/p/c"⟩, ⟨"/p/a"⟩]) ∧
      Prompt busyHost.toHost busyRoot busyInTurn := by
    decide +kernel
  have hside : (outcome? busyHost.toHost busyRoot busySideBySide).map (Except.map locations) =
        some (.ok [⟨"/p/b"⟩, ⟨"/p/c"⟩, ⟨"/p/a"⟩]) ∧
      (cacheAfter busyHost.toHost busyRoot busySideBySide).journal.dependencies =
        [⟨"/p/b"⟩, ⟨"/p/a"⟩, ⟨"/p/c"⟩] := by
    decide +kernel
  have habort : (outcome? busyHost.toHost abortedRoot abortedInTurn).map Except.toBool =
        some false ∧
      Prompt busyHost.toHost abortedRoot abortedInTurn ∧
      (cacheAfter busyHost.toHost abortedRoot abortedInTurn).journal.dependencies =
        [⟨"/p/b"⟩, ⟨"/p/c"⟩, ⟨"/p/u"⟩] := by
    decide +kernel
  refine ⟨?_, ?_, ?_⟩
  · obtain ⟨hmap, hprompt⟩ := hturn
    obtain ⟨result, hresult, hmap⟩ := Option.map_eq_some_iff.1 hmap
    obtain ⟨tree, rfl, hlocations⟩ := map_ok hmap
    obtain ⟨-, htree⟩ := (registered_of_schedule _ _ hresult rfl).2 hprompt
    obtain ⟨hdependencies, -, hhits⟩ := htree tree rfl
    rw [← hlocations] at hdependencies hhits
    exact ⟨tree, hresult, hdependencies, hlocations.symm, hhits⟩
  · obtain ⟨hmap, hdependencies⟩ := hside
    obtain ⟨result, hresult, hmap⟩ := Option.map_eq_some_iff.1 hmap
    obtain ⟨tree, rfl, -⟩ := map_ok hmap
    obtain ⟨hregistered, hperm, -⟩ := (registered_of_schedule _ _ hresult rfl).1 tree rfl
    exact ⟨tree, hresult, hregistered, hdependencies, hdependencies ▸ hperm⟩
  · obtain ⟨hmap, hprompt, hdependencies⟩ := habort
    obtain ⟨result, hresult, hmap⟩ := Option.map_eq_some_iff.1 hmap
    cases result with
    | ok tree => cases hmap
    | error e =>
      obtain ⟨hregistered, -⟩ := (registered_of_schedule _ _ hresult rfl).2 hprompt
      exact ⟨e, hresult, hregistered, hdependencies⟩

end Transclude
