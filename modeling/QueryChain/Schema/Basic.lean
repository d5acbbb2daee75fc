import QueryChain.Expr.Basic
import QueryChain.NameMap

/-!
# Mapping schemas

A schema says which table stores the entities of a type, which column stores a member and how a
relation joins two tables. A relation is stored with the entity that declares it, unless it is
virtual: then its foreign key lies on the other side, and the declaring table has no column for it.
-/

namespace QueryChain

/-- A member that leads to other entities. -/
structure Relation where
  /-- The type of the entities it leads to. -/
  target : String
  foreignKey : String
  /-- Whether the foreign key lies on the target's table. -/
  isVirtual : Bool
deriving DecidableEq, Repr, Inhabited

/-- How the entities of one type are stored. -/
structure Entity where
  table : String
  /-- The name of the member that identifies an entity. -/
  primaryKey : String
  primaryKeyType : String
  /-- The columns of members. -/
  columns : NameMap String
  relations : NameMap Relation
deriving DecidableEq, Repr, Inhabited

/-- The entities of a data source by the names of their types. -/
structure Schema where
  entities : NameMap Entity
deriving DecidableEq, Repr, Inhabited

/-- How a relation joins the table that declares it to its target's table: `leftColumn` of the one
equals `rightColumn` of the other. -/
structure Link where
  targetType : String
  targetTable : String
  leftColumn : String
  rightColumn : String
  isVirtual : Bool
deriving DecidableEq, Repr, Inhabited

/-- The column of the primary key. -/
def Entity.keyColumn? (e : Entity) : Option String :=
  e.columns.get? e.primaryKey

namespace Schema

/-- The entity of a type. -/
def entity? (s : Schema) (type : String) : Option Entity :=
  s.entities.get? type

/-- The table that stores the entities of a type. -/
def table? (s : Schema) (type : String) : Option String :=
  (s.entity? type).map (·.table)

/-- The column that stores a member. A stored relation has its foreign key for a column. -/
def column? (s : Schema) (m : Member) : Option String := do
  let entity ← s.entity? m.declaringType
  match entity.columns.get? m.name with
  | some column => some column
  | none =>
    let relation ← entity.relations.get? m.name
    if relation.isVirtual then none else some relation.foreignKey

/-- The join that a relation makes. -/
def link? (s : Schema) (m : Member) : Option Link := do
  let entity ← s.entity? m.declaringType
  let relation ← entity.relations.get? m.name
  let target ← s.entity? relation.target
  let (leftColumn, rightColumn) ←
    if relation.isVirtual then
      entity.keyColumn?.map fun key => (key, relation.foreignKey)
    else
      target.keyColumn?.map fun key => (relation.foreignKey, key)
  return {
    targetType := relation.target
    targetTable := target.table
    leftColumn, rightColumn
    isVirtual := relation.isVirtual }

/-- Whether a member is a relation. -/
def isRelation (s : Schema) (m : Member) : Bool :=
  (s.link? m).isSome

/-- The member that identifies the entities of a type. -/
def primaryKey? (s : Schema) (type : String) : Option Member :=
  (s.entity? type).map fun entity =>
    { declaringType := type, name := entity.primaryKey, type := entity.primaryKeyType }

end Schema

end QueryChain
