import Mathlib.Algebra.GroupWithZero.Nat
import Mathlib.Data.List.Basic

/-!
# JSON values

`serde_json::Value` and the accessors that read it. A parser of JSON text is a parameter where one is called.
-/

namespace Cuca

/-- `serde_json::Number`; a float by its bits. -/
inductive Number where
  | posInt (n : Nat)
  | negInt (n : Int)
  | float (bits : UInt64)
  deriving DecidableEq, Repr

/-- An object's keys are distinct. -/
inductive Value where
  | null
  | bool (b : Bool)
  | number (n : Number)
  | string (s : String)
  | array (elements : List Value)
  | object (members : List (String × Value))
  deriving Repr

namespace Value

/-- The member of an object. -/
def get (key : String) : Value → Option Value
  | object members => members.lookup key
  | _ => none

def asStr : Value → Option String
  | string s => some s
  | _ => none

def asU64 : Value → Option Nat
  | number (.posInt n) => some n
  | _ => none

def asBool : Value → Option Bool
  | bool b => some b
  | _ => none

def asArray : Value → Option (List Value)
  | array elements => some elements
  | _ => none

def isNull : Value → Bool
  | null => true
  | _ => false

end Value
end Cuca
