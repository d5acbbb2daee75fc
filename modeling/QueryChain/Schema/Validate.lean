import QueryChain.Schema.Basic
import QueryChain.Text.Blank

/-!
# Valid schemas

A schema is valid when it has an entity, every entity has a table and a column for its primary key,
and every relation leads to a known entity and is not mapped as a column too.
-/

namespace QueryChain

/-- A reason why there is no schema to work with. -/
inductive SchemaError where
  /-- The file could not be read. -/
  | unreadable
  /-- The text describes no schema. -/
  | malformed
  | noPath
  | noEntities
  | blankTable (entity : String)
  | columnAndRelation (entity name : String)
  | unknownTarget (entity relation target : String)
  | unmappedPrimaryKey (entity primaryKey : String)
deriving DecidableEq, Repr, Inhabited

/-- The text of an error. -/
def SchemaError.message : SchemaError → String
  | .unreadable => "Failed to read mapping schema"
  | .malformed => "Failed to parse mapping schema"
  | .noPath => "Invalid mapping schema: no schema path configured"
  | .noEntities => "Invalid mapping schema: Schema must contain at least one entity"
  | .blankTable entity =>
    "Invalid mapping schema: '" ++ entity ++ "': table name must not be empty"
  | .columnAndRelation entity name =>
    "Invalid mapping schema: '" ++ entity ++ "': '" ++ name
      ++ "' is mapped both as column and relation"
  | .unknownTarget entity relation target =>
    "Entity '" ++ entity ++ "' declares relation '" ++ relation ++ "' to unknown entity '" ++ target
      ++ "'"
  | .unmappedPrimaryKey entity primaryKey =>
    "Entity '" ++ entity ++ "' has no column mapping for its primary key '" ++ primaryKey ++ "'"

namespace Schema

/-- Checks one relation of an entity. -/
def validateRelation (s : Schema) (name : String) (entity : Entity)
    (relation : String × Relation) : Except SchemaError Unit :=
  if !s.entities.contains relation.2.target then
    .error (.unknownTarget name relation.1 relation.2.target)
  else if entity.columns.contains relation.1 then
    .error (.columnAndRelation name relation.1)
  else
    .ok ()

/-- Checks one entity. -/
def validateEntity (s : Schema) (entity : String × Entity) : Except SchemaError Unit := do
  if isBlankText entity.2.table then
    throw (.blankTable entity.1)
  if entity.2.keyColumn?.isNone then
    throw (.unmappedPrimaryKey entity.1 entity.2.primaryKey)
  entity.2.relations.forM (s.validateRelation entity.1 entity.2)

/-- Checks a schema, entity by entity, and answers the first error. -/
def validate (s : Schema) : Except SchemaError Unit := do
  if s.entities.isEmpty then
    throw .noEntities
  s.entities.forM s.validateEntity

/-- A schema that passed the checks. -/
def validated (s : Schema) : Except SchemaError Schema := do
  s.validate
  return s

end Schema

end QueryChain
