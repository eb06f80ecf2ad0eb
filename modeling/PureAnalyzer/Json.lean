-- The JSON values that the language server reads and writes, as `serde_json`
-- keeps them.
import Mathlib.Algebra.GroupWithZero.Nat
import Mathlib.Data.List.Basic

namespace json

/-- A number is kept as `u64` or as a negative `i64` where it is one, and else
as the bits of an `f64`. -/
inductive Number where
  | PosInt (n : Nat)
  | NegInt (n : Int)
  | Float (bits : Nat)
deriving DecidableEq, Repr

/-- The fields of an object stand in the order of their names, each name once. -/
inductive Value where
  | Null
  | Bool (b : Bool)
  | Number (n : Number)
  | String (s : String)
  | Array (items : List Value)
  | Object (fields : List (String × Value))
deriving Repr

/-! ## Equality -/

/-- Zero has two bit patterns. -/
def sameNumber : Number → Number → Bool
  | .Float a, .Float b => a = b || (a % 2 ^ 63 = 0 && b % 2 ^ 63 = 0)
  | m, n => m = n

mutual

def sameValue : Value → Value → Bool
  | .Null, .Null => true
  | .Bool a, .Bool b => a = b
  | .Number m, .Number n => sameNumber m n
  | .String s, .String t => s = t
  | .Array xs, .Array ys => sameItems xs ys
  | .Object xs, .Object ys => sameFields xs ys
  | _, _ => false

def sameItems : List Value → List Value → Bool
  | [], [] => true
  | x :: xs, y :: ys => sameValue x y && sameItems xs ys
  | _, _ => false

def sameFields : List (String × Value) → List (String × Value) → Bool
  | [], [] => true
  | (name, x) :: xs, (name', y) :: ys => name = name' && sameValue x y && sameFields xs ys
  | _, _ => false

end

/-! ## Access -/

def Number.asI64 : Number → Option Int
  | PosInt n => if n < 2 ^ 63 then some n else none
  | NegInt n => some n
  | Float _ => none

def Number.asU64 : Number → Option Nat
  | PosInt n => some n
  | NegInt _ | Float _ => none

def asStr : Value → Option String
  | .String s => some s
  | _ => none

def asI64 : Value → Option Int
  | .Number n => n.asI64
  | _ => none

def asU64 : Value → Option Nat
  | .Number n => n.asU64
  | _ => none

def asArray : Value → Option (List Value)
  | .Array items => some items
  | _ => none

def asObject : Value → Option (List (String × Value))
  | .Object fields => some fields
  | _ => none

def field (name : String) (fields : List (String × Value)) : Option Value :=
  (fields.find? (·.1 = name)).map Prod.snd

/-- Only an object has fields. -/
def get (name : String) (value : Value) : Option Value := (asObject value).bind (field name)

end json
