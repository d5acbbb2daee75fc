import QueryChain.Json.Basic

/-!
# Records and alternatives in JSON

A record is an object with a value for each field, or an array of the values in order. One of
several alternatives is an object with one field, called like the alternative; an alternative that
holds nothing may be just its name.
-/

namespace QueryChain.JsonValue

/-- At most this many arrays and objects that are read stand inside each other. -/
def maxDepth : Nat := 127

/-- The text of a string. -/
def text? : JsonValue → Option String
  | .string text => text
  | _ => none

/-- The value of a truth value. -/
def flag? : JsonValue → Option Bool
  | .bool value => some value
  | _ => none

/-- The entries of an object, all of which must have a name. -/
def entries? : JsonValue → Option (List (String × JsonValue))
  | .object fields => fields.mapM fun (name, value) => name.map (·, value)
  | _ => none

/-- The fields of a record whose fields are called `names`. -/
def fields? (names : List String) : JsonValue → Option (List (String × JsonValue))
  | .object fields => entries? (.object fields)
  | .array items => if items.length ≤ names.length then some (names.zip items) else none
  | _ => none

/-- The name of an alternative and what it holds. -/
def alternative? : JsonValue → Option (String × Option JsonValue)
  | .string (some name) => some (name, none)
  | .object [(some name, value)] => some (name, some value)
  | _ => none

/-- The only value under a name, or none if there is no such field. -/
def lookup? (fields : List (String × JsonValue)) (name : String) : Option (Option JsonValue) :=
  match fields.filter (·.1 == name) with
  | [] => some none
  | [field] => some (some field.2)
  | _ => none

/-- The only value under a name. -/
def get? (fields : List (String × JsonValue)) (name : String) : Option JsonValue :=
  (lookup? fields name).bind id

/-- The text under a name. -/
def getText? (fields : List (String × JsonValue)) (name : String) : Option String :=
  (get? fields name).bind text?

/-- Reads a record that stands where `room` more arrays and objects may be opened. -/
def readRecord? {α : Type} (names : List String) (room : Nat) (v : JsonValue)
    (read : Nat → List (String × JsonValue) → Option α) : Option α :=
  match room with
  | 0 => none
  | room + 1 => (fields? names v).bind (read room)

/-- Reads the items of an array that stands where `room` more arrays and objects may be opened. -/
def readArray? {α : Type} (room : Nat) (v : JsonValue) (read : Nat → JsonValue → Option α) :
    Option (List α) :=
  match room, v with
  | room + 1, .array items => items.mapM (read room)
  | _, _ => none

/-- The name of an alternative that holds nothing. -/
def readName? (room : Nat) (v : JsonValue) : Option String :=
  match alternative? v with
  | some (name, none) => some name
  | some (name, some .null) => if room = 0 then none else some name
  | _ => none

end QueryChain.JsonValue
