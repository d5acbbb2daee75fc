import QueryChain.Schema.Basic

/-!
# Reading schemas

A schema can be written down in any format whose documents are made of texts, flags, lists of named
fields and maps.
-/

namespace QueryChain

/-- How the parts of a document of some format are read. -/
class Document (α : Type) where
  text? : α → Option String
  flag? : α → Option Bool
  /-- A text that may be left open. -/
  optionalText? : α → Option (Option String)
  /-- The entries of a map, in the order they are written. -/
  entries? : α → Option (List (String × α))
  /-- The fields of a record whose fields are called `names`, in the order they are written. -/
  fields? : (names : List String) → α → Option (List (String × α))

namespace Document

variable {α β : Type} [Document α]

/-- A field that may be missing. A field that is written twice cannot be read. -/
def field? (fields : List (String × α)) (name : String) (read : α → Option β) :
    Option (Option β) :=
  match fields.filter (·.1 == name) with
  | [] => some none
  | [field] => (read field.2).map some
  | _ => none

/-- A field that must be there. -/
def required? (fields : List (String × α)) (name : String) (read : α → Option β) : Option β :=
  (field? fields name read).bind id

/-- A field with a value for when it is missing. -/
def withDefault? (fields : List (String × α)) (name : String) (read : α → Option β)
    (default : β) : Option β :=
  (field? fields name read).map (·.getD default)

/-- Reads a map. The last entry of a name counts, but every entry must be readable. -/
def map? (read : α → Option β) (document : α) : Option (NameMap β) := do
  let entries ← entries? document
  let values ← entries.mapM fun entry => (read entry.2).map (entry.1, ·)
  return NameMap.ofList values

end Document

open Document

variable {α : Type} [Document α]

/-- Reads a relation. -/
def Relation.read? (document : α) : Option Relation := do
  let fields ← fields? ["target", "foreign_key", "virtual"] document
  return {
    target := ← required? fields "target" text?
    foreignKey := ← required? fields "foreign_key" text?
    isVirtual := ← withDefault? fields "virtual" flag? false }

/-- Reads an entity. -/
def Entity.read? (document : α) : Option Entity := do
  let fields ← fields? ["table", "primary_key", "primary_key_type", "columns", "relations"] document
  return {
    table := ← required? fields "table" text?
    primaryKey := ← required? fields "primary_key" text?
    primaryKeyType := ← withDefault? fields "primary_key_type" text? "Int32"
    columns := ← withDefault? fields "columns" (map? text?) []
    relations := ← withDefault? fields "relations" (map? Relation.read?) [] }

/-- Reads a schema, without checking it. -/
def Schema.read? (document : α) : Option Schema := do
  let fields ← fields? ["entities"] document
  return { entities := ← withDefault? fields "entities" (map? Entity.read?) [] }

end QueryChain
