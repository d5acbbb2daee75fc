import QueryChain.Chain.Operator
import QueryChain.Expr.Build

/-!
# Queries

A query is a chain taken apart: a main range, further clauses in order and a select clause.
Clauses and expressions refer by key to the queries nested in it, which stand beside the clauses. A
key is used for one query only, and the key of an enclosing query is the smaller one.
-/

namespace QueryChain

/-- What a range variable ranges over or stands for. -/
inductive RangeKind where
  /-- The source at the bottom of the chain, with its constant parts folded. -/
  | main (source : Expr)
  /-- A collection found for each element, by a lambda. -/
  | additional (selector : Expr) (projection : Option Expr)
  /-- A nested query. -/
  | nested (query : QueryRef) (projection : Option Expr)
  /-- One value for each element; `projection` is the selector that introduced it. -/
  | binding (value projection : Expr)
deriving Repr, Inhabited

/-- A clause that introduces a range variable. -/
structure RangeClause where
  identifier : Parameter
  kind : RangeKind
deriving Repr, Inhabited

/-- A key to sort by and its direction. -/
structure SortKey where
  key : Expr
  direction : Direction
deriving Repr, Inhabited

/-- A clause after the main range. -/
inductive Clause where
  | range (clause : RangeClause)
  | filter (predicate : Expr)
  | ordering (keys : List SortKey)
deriving Repr, Inhabited

/-- A result operator and its arguments after the source. -/
structure Modifier where
  method : String
  arguments : List Expr
deriving Repr, Inhabited

/-- What a query makes of its range variables. -/
structure Selection where
  /-- The selector; without one, the current range variable is selected. -/
  projection : Option Expr
  distinct : Bool
  /-- The result operators, innermost first. -/
  modifiers : List Modifier
deriving Repr, Inhabited

/-- A query taken apart into clauses. -/
structure Query where
  key : Nat
  /-- The key of the query that this one is nested in. -/
  parent : Option Nat
  main : RangeClause
  body : List Clause
  select : Selection
  /-- The chain that the query was made of. -/
  expression : Expr
  /-- The nested queries found in expressions, in the order they were found. -/
  embedded : List Query
  /-- The nested queries that clauses range over, in the order of the clauses. -/
  sources : List Query
deriving Repr, Inhabited

/-- Whether a clause is a let binding. -/
def RangeClause.isBinding (clause : RangeClause) : Bool :=
  match clause.kind with
  | .binding _ _ => true
  | _ => false

/-- The range clause that a body clause is. -/
def Clause.range? : Clause → Option RangeClause
  | .range clause => some clause
  | _ => none

namespace Query

/-- The clauses that introduce range variables, in order. -/
def rangeClauses (q : Query) : List RangeClause :=
  q.main :: q.body.filterMap Clause.range?

/-- The queries nested directly in a query. -/
def children (q : Query) : List Query :=
  q.embedded ++ q.sources

/-- The index of the first range clause whose variable is `reference`, by name and type. -/
def clauseIndex? (q : Query) (reference : Parameter) : Option Nat :=
  q.rangeClauses.findIdx? (·.identifier == reference)

/-- The type of a query's elements, before any result operator. -/
def elementType (q : Query) : String :=
  match q.select.projection with
  | some projection => projection.unquoted.resultType
  | none =>
    match (q.rangeClauses.filter (!·.isBinding)).getLast? with
    | some clause => clause.identifier.type
    | none => q.main.identifier.type

mutual

/-- The queries nested in a query at any depth; later siblings stand before earlier ones, each
followed by what is nested in it. -/
def nested : Query → List Query
  | { embedded, sources, .. } => nestedAll sources ++ nestedAll embedded
termination_by structural q => q

/-- Queries and what is nested in them, the last query first. -/
def nestedAll : List Query → List Query
  | [] => []
  | q :: qs => nestedAll qs ++ (q :: nested q)
termination_by structural qs => qs

end

/-- The names of the range variables of a query. -/
def ownNames (q : Query) : List String :=
  q.rangeClauses.map (·.identifier.name)

/-- The names of the range variables of a query and of all queries nested in it. -/
def variableNames (q : Query) : List String :=
  q.ownNames ++ q.nested.flatMap ownNames

/-- The queries that enclose a query with the parent key `parent`, innermost first, as far as they
stand in `queries`. Keys fall from each query to the one around it, so `steps` may be the key of the
query itself. -/
def enclosingFrom (queries : List Query) : Nat → Option Nat → List Query
  | 0, _ => []
  | _ + 1, none => []
  | steps + 1, some key =>
    match queries.find? (·.key == key) with
    | none => []
    | some q => q :: enclosingFrom queries steps q.parent

/-- The queries of the tree under `root` that enclose `q`, innermost first. -/
def enclosing (root q : Query) : List Query :=
  enclosingFrom (root :: root.nested) q.key q.parent

end Query

end QueryChain
