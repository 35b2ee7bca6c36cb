import Transclude.Double.Basic

namespace Transclude.Double

def signedUnits (negative : Bool) (rank : Rank) : Int :=
  if negative then -(rank.units : Int) else rank.units

def neg : Double → Double
  | .nan => .nan
  | .signed negative rank => .signed (!negative) rank

/-- A sum; an exact zero is negative only if both operands are. -/
def add : Double → Double → Double
  | .signed n r, .signed m s =>
    if r = .infinity then
      if s = .infinity ∧ n ≠ m then .nan else .signed n r
    else if s = .infinity then .signed m s
    else
      let total := signedUnits n r + signedUnits m s
      if total = 0 then .signed (n && m) .zero
      else .signed (total < 0) (.nearest total.natAbs 1)
  | _, _ => .nan

def sub (x y : Double) : Double := add x (neg y)

def mul : Double → Double → Double
  | .signed n r, .signed m s =>
    if r = .infinity ∨ s = .infinity then
      if r = .zero ∨ s = .zero then .nan else infinity (n != m)
    else .signed (n != m) (.nearest (r.units * s.units) unitsPerOne)
  | _, _ => .nan

def div : Double → Double → Double
  | .signed n r, .signed m s =>
    if r = .infinity then
      if s = .infinity then .nan else infinity (n != m)
    else if s = .infinity then .signed (n != m) .zero
    else if s = .zero then
      if r = .zero then .nan else infinity (n != m)
    else .signed (n != m) (.nearest (r.units * unitsPerOne) s.units)
  | _, _ => .nan

/-- The remainder of a division toward zero, with the sign of the dividend. -/
def rem : Double → Double → Double
  | .signed n r, .signed _ s =>
    if r = .infinity ∨ s = .zero then .nan
    else if s = .infinity then .signed n r
    else .signed n (.nearest (r.units % s.units) 1)
  | _, _ => .nan

def trunc? : Double → Option Int
  | .nan => none
  | .signed negative rank =>
    if rank = .infinity then none
    else
      let whole : Nat := rank.units / unitsPerOne
      some (if negative then -(whole : Int) else whole)

def isInteger : Double → Bool
  | .nan => false
  | .signed _ rank => rank != .infinity && rank.units % unitsPerOne == 0

def isFinite : Double → Bool
  | .nan => false
  | .signed _ rank => rank != .infinity

def trunc : Double → Double
  | .nan => .nan
  | .signed negative rank =>
    if rank = .infinity then .signed negative rank
    else .signed negative (.nearest (rank.units / unitsPerOne * unitsPerOne) 1)

def abs : Double → Double
  | .nan => .nan
  | .signed _ rank => .signed false rank

/-- The remainder of a division toward zero, or its sum with the divisor if that is negative. -/
def remEuclid (x y : Double) : Double :=
  let r := x.rem y
  if r.compare? zero = some .lt then r.add y.abs else r

/-- The integer part as a word; what is beyond the words becomes the nearest one, and NaN zero. -/
def clampWord : Double → BitVec 32
  | .nan => 0
  | .signed negative rank =>
    if negative then 0 else BitVec.ofNat 32 (min (rank.units / unitsPerOne) (Nat.pow 2 32 - 1))

/-- The integer part modulo `2 ^ 32`; zero for NaN and the infinities. -/
def toWord (x : Double) : BitVec 32 :=
  if x.isFinite then (x.trunc.remEuclid (.ofNat (Nat.pow 2 32))).clampWord else 0

end Transclude.Double
