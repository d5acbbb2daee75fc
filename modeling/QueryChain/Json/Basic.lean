/-!
# JSON values

A JSON text as it is written: numbers keep their digits, objects keep the order and the repetitions
of their keys. Escapes can spell half of a surrogate pair, which is no character; a string with such
an escape has no text and may stand only where nobody reads it.
-/

namespace QueryChain

/-- A number as it is written. -/
structure Numeral where
  negative : Bool
  whole : List Char
  fraction : Option (List Char)
  /-- Whether the exponent has a minus sign, and its digits. -/
  exponent : Option (Bool × List Char)
deriving DecidableEq, Repr, Inhabited

/-- A JSON value. -/
inductive JsonValue where
  | null
  | bool (value : Bool)
  | number (value : Numeral)
  | string (text : Option String)
  | array (items : List JsonValue)
  | object (fields : List (Option String × JsonValue))
deriving Repr, Inhabited

namespace JsonValue

/-- A string with a text. -/
def ofText (s : String) : JsonValue :=
  .string (some s)

/-- An object with the fields `fields`. -/
def ofFields (fields : List (String × JsonValue)) : JsonValue :=
  .object (fields.map fun (name, value) => (some name, value))

end JsonValue

end QueryChain
