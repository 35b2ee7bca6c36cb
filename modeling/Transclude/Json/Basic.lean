import Transclude.Double.Basic

namespace Transclude

/-- An integer as long as it is written with neither a fraction nor an exponent and fits into 64
bits. -/
inductive JsonNumber where
  | natural (value : Nat)
  | negative (magnitude : Nat)
  | double (value : Double)
  deriving DecidableEq

def JsonNumber.toDouble : JsonNumber → Double
  | .natural n => .ofNat n
  | .negative n => .ofInt (-(n : Int))
  | .double x => x

/-- The fields of an object are in the order of their names. -/
inductive Json where
  | null
  | boolean (value : Bool)
  | number (value : JsonNumber)
  | string (value : String)
  | array (items : List Json)
  | object (fields : List (String × Json))

namespace Json

def field? (j : Json) (name : String) : Option Json :=
  match j with
  | .object fields => fields.lookup name
  | _ => none

def insertField (name : String) (value : Json) : List (String × Json) → List (String × Json)
  | [] => [(name, value)]
  | (n, v) :: rest =>
    if name < n then (name, value) :: (n, v) :: rest
    else if name = n then (name, value) :: rest
    else (n, v) :: insertField name value rest

/-- An object from fields in any order; of two fields of one name the later stays. -/
def ofFields (fields : List (String × Json)) : Json :=
  .object (fields.foldl (fun sorted (name, value) ↦ insertField name value sorted) [])

end Json

end Transclude
