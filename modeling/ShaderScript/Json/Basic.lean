/-!
# JSON values

* `Json`: a JSON value. The fields of an object are kept in the order of their keys.
* `Json.insertField`: adds a field; of two with one key the later counts.
* `Json.field?`: the field of an object with a key.
-/

namespace ShaderScript

/-- A JSON number: an integer of at most 64 bits, or a double. -/
inductive Json.Number where
  | int (n : Int)
  | double (x : Float)
deriving Inhabited

/-- A JSON value. -/
inductive Json where
  | null
  | bool (value : Bool)
  | num (value : Json.Number)
  | str (text : String)
  | arr (items : List Json)
  | obj (fields : List (String × Json))
deriving Inhabited

namespace Json

/-- Adds a field in the order of keys, in place of one with the same key. -/
def insertField (key : String) (value : Json) : List (String × Json) → List (String × Json)
  | [] => [(key, value)]
  | (k, v) :: fields =>
    if key < k then (key, value) :: (k, v) :: fields
    else if key = k then (key, value) :: fields
    else (k, v) :: insertField key value fields

/-- An object with fields given in any order. -/
def ofFields (fields : List (String × Json)) : Json :=
  obj (fields.foldl (fun sorted kv => insertField kv.1 kv.2 sorted) [])

/-- The field of an object with a key. -/
def field? (key : String) : Json → Option Json
  | obj fields => fields.lookup key
  | _ => none

/-- The text of a string value. -/
def text? : Json → Option String
  | str text => some text
  | _ => none

/-- The items of an array. -/
def items? : Json → Option (List Json)
  | arr items => some items
  | _ => none

/-- A truth value. -/
def bool? : Json → Option Bool
  | bool value => some value
  | _ => none

/-- A natural number. -/
def nat? : Json → Option Nat
  | num (.int (.ofNat n)) => some n
  | _ => none

mutual

/-- The number of containers around the deepest part of a value. -/
def depth : Json → Nat
  | arr items => depthItems items + 1
  | obj fields => depthFields fields + 1
  | _ => 0

/-- The depth of the deepest item. -/
def depthItems : List Json → Nat
  | [] => 0
  | v :: items => max (depth v) (depthItems items)

/-- The depth of the deepest field. -/
def depthFields : List (String × Json) → Nat
  | [] => 0
  | (_, v) :: fields => max (depth v) (depthFields fields)

end

end Json

end ShaderScript
