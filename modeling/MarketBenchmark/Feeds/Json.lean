import Mathlib

/-!
# JSON values

A message that the collectors inspect by hand is a value of `serde_json`.
Looking up a field of anything but an object finds nothing.
-/

namespace MarketBenchmark.Feeds

/-- `serde_json::Number`. -/
inductive Number where
  | posInt (value : Nat)
  | negInt (value : Int)
  | float (bits : Nat)

/-- `serde_json::Value`; the fields of an object have distinct names. -/
inductive Json where
  | null
  | bool (value : Bool)
  | number (value : Number)
  | string (text : String)
  | array (elements : List Json)
  | object (fields : List (String × Json))

namespace Number

def asU64 : Number → Option Nat
  | posInt value => some value
  | _ => none

end Number

namespace Json

/-- The field of an object. -/
def get (value : Json) (field : String) : Option Json :=
  match value with
  | object fields => fields.lookup field
  | _ => none

def asStr : Json → Option String
  | string text => some text
  | _ => none

def asArray : Json → Option (List Json)
  | array elements => some elements
  | _ => none

def isObject : Json → Bool
  | object _ => true
  | _ => false

theorem isObject_of_get {value found : Json} {field : String}
    (present : value.get field = some found) : value.isObject = true := by
  cases value with
  | object fields => rfl
  | null | bool | number | string | array => cases present

end Json

end MarketBenchmark.Feeds
