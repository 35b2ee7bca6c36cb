import Transclude.Proofs.IncludeGraph
import Transclude.Result

namespace Transclude

/-- The parts of a reported cycle fit together: the chain leads from the root along directives and
ends with a location that it has passed once before. -/
structure IsCycle (host : Host) (root : SourceFile) (reference : String) (referrer location : Path)
    (chain : List Path) : Prop where
  starts : chain.head? = some root.location
  ends : chain.getLast? = some location
  distinct : chain.dropLast.Pairwise fun x y ↦ ¬x.same y
  closes : chain.dropLast.countP (·.same location) = 1
  last : chain.dropLast.getLast? = some referrer
  directive : ∃ file d, fileAt? host root referrer = some file ∧ d ∈ Directive.scan file.text ∧
    d.reference = reference ∧ host.resolve file.context reference = some location
  edges : chain.IsChain (Includes host root)

theorem countP_same_eq_one {paths : List Path} {location : Path}
    (hdistinct : paths.Pairwise fun x y ↦ ¬x.same y) (hvisited : paths.any (·.same location)) :
    paths.countP (·.same location) = 1 := by
  induction paths with
  | nil => cases hvisited
  | cons p paths ih =>
    obtain ⟨hp, hdistinct⟩ := List.pairwise_cons.1 hdistinct
    by_cases hsame : p.same location
    · have hnone : paths.countP (·.same location) = 0 := by
        refine List.countP_eq_zero.2 fun q hq hq' ↦ ?_
        exact hp q hq (Path.same_trans hsame (Path.same_symm hq'))
      simp [hsame, hnone]
    · have hrest : paths.any (·.same location) := by simpa [hsame] using hvisited
      simp [hsame, ih hdistinct hrest]

theorem Leads.isCycle {host : Host} {root : SourceFile} {branch : List Path} {file : SourceFile}
    {d : Directive} {location : Path} (h : Leads host root branch file)
    (hd : d ∈ Directive.scan file.text)
    (hres : host.resolve file.context d.reference = some location)
    (hvisited : branch.any (·.same location)) :
    IsCycle host root d.reference file.location location (branch ++ [location]) where
  starts := by simp [h.head]
  ends := by simp
  distinct := by simpa using h.distinct
  closes := by simpa using countP_same_eq_one h.distinct hvisited
  last := by simpa using h.last
  directive := ⟨file, d, h.fileAt, hd, rfl, hres⟩
  edges := h.isChain_append (h.includes hd hres)

theorem FailsAt.isCycle {host : Host} {root : SourceFile} {place : List Nat} {reference : String}
    {referrer location : Path} {chain : List Path}
    (h : FailsAt host [root.location] root place (.circular reference referrer location chain)) :
    IsCycle host root reference referrer location chain := by
  obtain ⟨branch, file, d, hoccurs, hfails⟩ := h
  obtain ⟨hleads, hd⟩ := hoccurs.leads (leads_root host root)
  cases hfails with
  | circular _ hres hvisited => exact hleads.isCycle hd hres hvisited

/-- A cycle that the build of a root reports is real. So is one that another order of its branches
would report, that is, a cycle at any place under the root. -/
theorem isCycle_of_circular (h : MemoryHost) {root : SourceFile} {reference : String}
    {referrer location : Path} {chain : List Path}
    (herror : (buildTree h.toHost root).1 = .error (.circular reference referrer location chain) ∨
      ∃ place, FailsAt h.toHost [root.location] root place
        (.circular reference referrer location chain)) :
    IsCycle h.toHost root reference referrer location chain := by
  rcases herror with herror | ⟨place, hfails⟩
  · obtain ⟨place, hfirst⟩ := h.failsFirst_of_buildTree (Prod.ext herror rfl)
    exact hfirst.1.isCycle
  · exact hfails.isCycle

def loopHost : MemoryHost :=
  .ofEntries [(⟨"/p/a"⟩, "A\r#include parts/b"), (⟨"/p/parts/b"⟩, "#include .././a if on\n")] []

def loopRoot : SourceFile := ⟨⟨"/p/r"⟩, ⟨"/p"⟩, "#include parts/../a\n"⟩

theorem isCycle_loop :
    (buildTree loopHost.toHost loopRoot).1 = .error (.circular ".././a" ⟨"/p/parts/b"⟩ ⟨"/p/a"⟩
      [⟨"/p/r"⟩, ⟨"/p/a"⟩, ⟨"/p/parts/b"⟩, ⟨"/p/a"⟩]) ∧
    IsCycle loopHost.toHost loopRoot ".././a" ⟨"/p/parts/b"⟩ ⟨"/p/a"⟩
      [⟨"/p/r"⟩, ⟨"/p/a"⟩, ⟨"/p/parts/b"⟩, ⟨"/p/a"⟩] := by
  have herror : (buildTree loopHost.toHost loopRoot).1 = .error (.circular ".././a"
      ⟨"/p/parts/b"⟩ ⟨"/p/a"⟩ [⟨"/p/r"⟩, ⟨"/p/a"⟩, ⟨"/p/parts/b"⟩, ⟨"/p/a"⟩]) := by
    refine eq_error_of_map (f := fun _ ↦ ()) ?_
    decide +kernel
  exact ⟨herror, isCycle_of_circular loopHost (.inl herror)⟩

end Transclude
