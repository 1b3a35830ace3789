/-!
# JSON values

The values that settings and reports are exchanged as, with readers for the shapes that occur in them. A reader gives
none for a value of another shape. Of a number only whole ones have a value.
-/

namespace CilProbes

inductive JsonValue where
  | null
  | bool (value : Bool)
  | whole (value : Int)
  /-- A number that is not written as a whole one. -/
  | fraction
  | text (value : String)
  | list (items : List JsonValue)
  | record (fields : List (String × JsonValue))
deriving Inhabited

namespace JsonValue

def asText : JsonValue → Option String
  | text value => some value
  | _ => none

/-- A whole number below `2 ^ bits`. -/
def asWord (bits : Nat) : JsonValue → Option Nat
  | whole value => if 0 ≤ value ∧ value.toNat < 1 <<< bits then some value.toNat else none
  | _ => none

/-- A list of values of one shape. -/
def asList {α : Type} (item : JsonValue → Option α) : JsonValue → Option (List α)
  | list items => items.mapM item
  | _ => none

def asRecord : JsonValue → Option (List (String × JsonValue))
  | record fields => some fields
  | _ => none

/-- A field that has to be there. -/
def required {α : Type} (fields : List (String × JsonValue)) (key : String) (value : JsonValue → Option α) :
    Option α :=
  (fields.lookup key).bind value

/-- A field with a value for when it is not there. -/
def optional {α : Type} (fields : List (String × JsonValue)) (key : String) (value : JsonValue → Option α)
    (fallback : α) : Option α :=
  match fields.lookup key with
  | some found => value found
  | none => some fallback

end JsonValue

end CilProbes
