import Transclude.Fault

namespace Transclude

structure Host where
  resolve : (context : Path) → (reference : String) → Option Path
  read : Path → Except Fault String
  suggest : (context : Path) → (reference : String) → List String
  locations : List Path
  resolve_mem : ∀ {context reference location},
    resolve context reference = some location → location ∈ locations

namespace Text

/-- One row of the distance table from the row above it. `diagonal` is the entry up and to the
left of the next one, `left` the entry to its left. -/
def distanceRow (c : Char) : List Char → List Nat → (diagonal left : Nat) → List Nat
  | d :: ds, up :: above, diagonal, left =>
    let entry := min (min (up + 1) (left + 1)) (diagonal + if c = d then 0 else 1)
    entry :: distanceRow c ds above up entry
  | _, _, _, _ => []

def distanceFrom (target : List Char) : List Char → (first : Nat) → List Nat → Nat
  | [], first, row => row.getLastD first
  | c :: cs, first, row =>
    distanceFrom target cs (first + 1) (distanceRow c target row first (first + 1))

def distance (a b : String) : Nat :=
  distanceFrom b.toList a.toList 0 (List.range' 1 b.toList.length)

end Text

def maxDistance : Nat := 3

def maxSuggestions : Nat := 3

/-- The names closest to a wanted one, nearest first, and in order of the names among equals. -/
def closestNames (wanted : String) (names : List String) : List String :=
  let scored := (names.map fun name ↦ (Text.distance wanted name, name)).filter
    (·.1 ≤ maxDistance)
  let sorted := scored.mergeSort fun a b ↦ a.1 < b.1 || (a.1 == b.1 && a.2 ≤ b.2)
  (sorted.take maxSuggestions).map (·.2)

end Transclude
