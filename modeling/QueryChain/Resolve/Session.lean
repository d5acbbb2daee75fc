import QueryChain.Resolve.Alias
import QueryChain.Resolve.Policy
import QueryChain.Resolve.Reference

/-!
# Resolving references

A reference is resolved in a session, which holds the joined tables and the joins that clauses need.
What a failed resolution has added to the session stays there.
-/

namespace QueryChain

/-- The joined tables, and the joins attached to range clauses. -/
structure Session where
  tables : JoinedTables
  joins : ClauseKey → List Join := fun _ => []
deriving Inhabited

/-- A step of a session. Its effects are kept when it fails. -/
abbrev SessionM := ExceptT ResolveError (StateM Session)

namespace Session

/-- A session without any joined table. -/
def new (aliasPrefix : String) : Session :=
  { tables := { aliasPrefix } }

/-- Whether a join equal to `join` is attached to a clause. -/
def hasJoin (s : Session) (clause : ClauseKey) (join : Join) : Bool :=
  (s.joins clause).any (s.tables.sameJoin · join)

/-- Attaches a join to a clause unless an equal one is attached. -/
def attach (s : Session) (clause : ClauseKey) (join : Join) : Session :=
  if s.hasJoin clause join then s
  else { s with joins := fun k => if k = clause then s.joins k ++ [join] else s.joins k }

/-- Attaches joins to a clause. -/
def attachAll (s : Session) (clause : ClauseKey) (joins : List Join) : Session :=
  joins.foldl (·.attach clause ·) s

end Session

/-- The table that a relation leads to. -/
def joinTable (path : JoinPath) (relation : Member) (name : String) : SessionM Table :=
  modifyGet fun s =>
    let (table, tables) := s.tables.join path relation name
    (table, { s with tables })

/-- Follows relations from the end of `path`, one join for each. `all` are the relations of the
whole way, named in errors. -/
def extendPath (schema : Schema) (all : List Member) (path : JoinPath) :
    List Member → SessionM JoinPath
  | [] => return path
  | relation :: relations => do
    match schema.link? relation with
    | none => throw (.notARelation relation (pathText all))
    | some link =>
      let table ← joinTable path relation link.targetTable
      let join :=
        { left := { source := path.last, name := some link.leftColumn }
          right := { source := .table table, name := some link.rightColumn } }
      extendPath schema all { path with joins := path.joins ++ [join] } relations

/-- The path from `first` along relations. -/
def buildPath (schema : Schema) (first : Source) (relations : List Member) :
    SessionM JoinPath :=
  extendPath schema relations { first, joins := [] } relations

namespace RangeClause

/-- Where the columns of a clause's range variable are read from. -/
def source (schema : Schema) (key : ClauseKey) (clause : RangeClause) :
    Except ResolveError Source :=
  let x := clause.identifier
  let ofTable : Except ResolveError Source :=
    match schema.table? x.type with
    | some table => .ok (.table (.ofClause key table x.name))
    | none => .error (.unmappedType x.type)
  match clause.kind with
  | .main _ => ofTable
  | .additional _ _ => ofTable
  | .nested query _ => .ok (.nested key query x.name)
  | .binding value _ => .ok (.binding key x.name value.parameter?.isSome)

end RangeClause

/-- Whether a range variable of type `type` with the source `source` stands for an entity. -/
def Source.isEntity (source : Source) (schema : Schema) (type : String) : Bool :=
  match source with
  | .binding _ _ isTable => isTable
  | _ => (schema.table? type).isSome

/-- What members read from a range variable mean, before any shortcut. -/
def memberAccess (schema : Schema) (usage : Usage) (source : Source) (type : String)
    (members : List Member) : Except ResolveError Access :=
  match members.getLast? with
  | none =>
    if source.isEntity schema type then usage.directAccess schema type
    else .ok { joins := [], member := none }
  | some last =>
    if schema.isRelation last then usage.relationAccess schema members.dropLast last
    else .ok { joins := members.dropLast, member := some last }

/-- The column of a source that holds `member`. The columns of nested queries and of let bindings
are named after members. -/
def Source.column? (source : Source) (schema : Schema) (member : Option Member) :
    Option Column :=
  match member with
  | none => some { source, name := none }
  | some m =>
    match source with
    | .nested _ _ _ | .binding _ _ false => some { source, name := some m.name }
    | _ => (schema.column? m).map fun name => { source, name := some name }

/-- Resolves a reference to the range variable of a clause, and attaches the joins on its path to
the clause. -/
def resolveReference (schema : Schema) (key : ClauseKey) (clause : RangeClause) (r : Reference)
    (usage : Usage) : SessionM Field := do
  unless r.root = clause.identifier do
    throw (.otherVariable clause.identifier r.root.name)
  let source ← clause.source schema key
  let access ← memberAccess schema usage source clause.identifier.type r.members
  let access := usage.shortcut schema access
  let path ← buildPath schema source access.joins
  modify (·.attachAll key path.joins)
  return {
    member := access.member
    path
    column := path.last.column? schema access.member }

/-- Resolves an expression against one range clause of a query. -/
def resolveAt (schema : Schema) (key : ClauseKey) (clause : RangeClause) (e : Expr)
    (usage : Usage) : SessionM Field := do
  let r ← e.reference
  resolveReference schema key clause r usage

/-- The first of some queries with a clause that owns the reference `e`, with that clause and what
is read from its variable. -/
def findOwnerAmong (e : Expr) :
    List Query → Except ResolveError (Option (ClauseKey × RangeClause × Expr))
  | [] => return none
  | q :: qs => do
    match ← q.findOwner e with
    | some (index, owned) =>
      return (q.rangeClauses[index]?).map fun clause => ({ query := q.key, index }, clause, owned)
    | none => findOwnerAmong e qs

/-- Resolves an expression in a clause of `q`, a query of the tree under `root`: against the clause
that owns it in `q` or in the nearest query around it. -/
def resolve (schema : Schema) (root q : Query) (e : Expr) (usage : Usage) :
    SessionM Field := do
  match ← findOwnerAmong e (q :: root.enclosing q) with
  | none => throw (.noOwner e)
  | some (key, clause, owned) =>
    tryCatch (resolveAt schema key clause owned usage) fun
      | .otherVariable own actual => throw (.inconsistent (.otherVariable own actual))
      | error => throw error

end QueryChain
