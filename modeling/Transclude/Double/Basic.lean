namespace Transclude

/-- The rank of infinity, one more than that of the greatest finite double. -/
def infinityRank : Nat := 0x7FF0000000000000

/-- The place of a magnitude among all of them. -/
abbrev Rank := Fin (infinityRank + 1)

/-- Binary double-precision numbers. A number other than NaN is a sign and a rank: the finite
magnitudes in increasing order have the ranks 0, 1, 2, …, and infinity has the rank after the last
of them. The rank is at once the low 63 bits of the binary64 form. -/
inductive Double where
  | nan
  | signed (negative : Bool) (rank : Rank)
  deriving DecidableEq, Inhabited

namespace Rank

def ofNat (n : Nat) : Rank := ⟨min n infinityRank, Nat.lt_succ_of_le (Nat.min_le_right ..)⟩

def zero : Rank := ofNat 0

def infinity : Rank := ofNat infinityRank

def perBinade : Nat := 0x10000000000000

/-- The magnitude as a multiple of the least positive double, `2 ^ (-1074)`. The formula also gives
infinity the value `2 ^ 1024`, the first that no finite double reaches. -/
def units (r : Rank) : Nat :=
  if r.val < perBinade then r.val
  else (perBinade + r.val % perBinade) * Nat.pow 2 (r.val / perBinade - 1)

end Rank

def unitsPerOne : Nat := Nat.pow 2 1074

namespace Double

def zero : Double := .signed false .zero

def infinity (negative : Bool) : Double := .signed negative .infinity

/-- The binary64 form; NaN has the quiet form without payload. -/
def bits : Double → Nat
  | .nan => 0x7FF8000000000000
  | .signed negative rank => (if negative then 0x8000000000000000 else 0) + rank.val

def isNaN : Double → Bool
  | .nan => true
  | .signed .. => false

/-- The rank with its sign, in which the two zeros are one. -/
def signedRank : (negative : Bool) → Rank → Int
  | true, rank => -(rank.val : Int)
  | false, rank => rank.val

/-- The order of two numbers; NaN has none. -/
def compare? : Double → Double → Option Ordering
  | .signed n r, .signed m s => some (compare (signedRank n r) (signedRank m s))
  | _, _ => none

def equals (x y : Double) : Bool := compare? x y == some .eq

def isNonzero : Double → Bool
  | .nan => false
  | .signed _ rank => rank.val != 0

end Double

/-- The quotient rounded to the nearest natural, a tie going to the even one. -/
def roundDiv (num den : Nat) : Nat :=
  let q := num / den
  let r := num % den
  if 2 * r < den then q
  else if den < 2 * r then q + 1
  else q + q % 2

/-- The rank of the double nearest to `num / den` units. A magnitude of `53 + s` bits is kept to
its first 53 bits; each further binade adds `perBinade` to the rank. -/
def Rank.nearest (num den : Nat) : Rank :=
  let s := Nat.log2 (num / den) - 52
  .ofNat (s * perBinade + roundDiv num (den * Nat.pow 2 s))

namespace Double

def ofNat (n : Nat) : Double := .signed false (.nearest (n * unitsPerOne) 1)

def ofInt (n : Int) : Double := .signed (n < 0) (.nearest (n.natAbs * unitsPerOne) 1)

end Double

end Transclude
