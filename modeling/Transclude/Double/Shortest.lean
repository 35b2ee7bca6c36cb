import Transclude.Double.Decimal

namespace Transclude

/-- Which way a number halfway between two decimals goes. -/
inductive Tie where
  | up
  | even
  deriving DecidableEq

def Tie.goesUp (tie : Tie) (low : Nat) : Bool :=
  match tie with
  | .up => true
  | .even => low % 2 == 1

/-- Whether `c * 10 ^ e` reads back as the magnitude, that is, lies between the midpoints to its
neighbours, where a midpoint itself belongs to the even rank. -/
def Rank.readsBack (r : Rank) (c : Nat) (e : Int) : Bool :=
  let own := r.units
  let below := (Rank.ofNat (r.val - 1)).units + own
  let above := own + (Rank.ofNat (r.val + 1)).units
  let (num, den) :=
    if e < 0 then (2 * c * unitsPerOne, Nat.pow 10 (-e).toNat)
    else (2 * c * unitsPerOne * Nat.pow 10 e.toNat, 1)
  if r.val % 2 = 0 then below * den ≤ num && num ≤ above * den
  else below * den < num && num < above * den

namespace Decimal

/-- The number of digits before the point of a positive magnitude, zero or negative below one
tenth of it. The search starts from `bound`, which must not be less. -/
def pointPosition (units : Nat) (bound : Int) : (steps : Nat) → Int
  | 0 => bound
  | steps + 1 =>
    let p := bound - 1
    let reaches :=
      if p < 0 then unitsPerOne ≤ units * Nat.pow 10 (-p).toNat
      else Nat.pow 10 p.toNat * unitsPerOne ≤ units
    if reaches then bound else pointPosition units p steps

/-- The decimals with exponent `e` next to a magnitude: the one not above it, and twice the
distance to it set against the grid's width. -/
def gridFloor (units : Nat) (e : Int) : Nat × Ordering :=
  let (num, den) :=
    if e < 0 then (units * Nat.pow 10 (-e).toNat, unitsPerOne)
    else (units, unitsPerOne * Nat.pow 10 e.toNat)
  (num / den, compare (2 * (num % den)) den)

def nearer (tie : Tie) (low : Nat) : Ordering → Nat
  | .lt => low
  | .eq => if tie.goesUp low then low + 1 else low
  | .gt => low + 1

def shortestFrom (tie : Tie) (r : Rank) (position : Int) : (count steps : Nat) → Decimal
  | count, 0 => ⟨(gridFloor r.units (position - count)).1, position - count⟩
  | count, steps + 1 =>
    let e := position - count
    let (low, side) := gridFloor r.units e
    let lowHit := r.readsBack low e
    let highHit := r.readsBack (low + 1) e
    if lowHit && highHit then ⟨nearer tie low side, e⟩
    else if lowHit then ⟨low, e⟩
    else if highHit then ⟨low + 1, e⟩
    else shortestFrom tie r position (count + 1) steps

def dropZeros (d : Decimal) : (steps : Nat) → Decimal
  | 0 => d
  | steps + 1 =>
    if d.digits ≠ 0 ∧ d.digits % 10 = 0 then dropZeros ⟨d.digits / 10, d.exponent + 1⟩ steps
    else d

/-- The decimal with the fewest digits that reads back as a positive finite magnitude, and of those
with as few digits the one nearest to it. -/
def shortest (tie : Tie) (r : Rank) : Decimal :=
  dropZeros (shortestFrom tie r (pointPosition r.units 310 640) 1 17) 20

def digitText (d : Decimal) : List Char := Nat.toDigits 10 d.digits

def positional (d : Decimal) : List Char :=
  let ds := d.digitText
  if 0 ≤ d.exponent then ds ++ List.replicate d.exponent.toNat '0'
  else
    let places := (-d.exponent).toNat
    if places < ds.length then ds.take (ds.length - places) ++ '.' :: ds.drop (ds.length - places)
    else '0' :: '.' :: List.replicate (places - ds.length) '0' ++ ds

end Decimal

end Transclude
