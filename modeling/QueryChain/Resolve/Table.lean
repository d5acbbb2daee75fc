import QueryChain.Query.Text

/-!
# Tables, columns and joins

Where a value comes from: a table, a nested query or a let binding, and a path of joins from one
source to another. Tables that joins lead to are named late, so they are known by their number among
the joined tables; everything that depends on their aliases is asked of `JoinedTables`.
-/

namespace QueryChain

/-- A range clause of a query, by the query's key and the number of the clause. -/
structure ClauseKey where
  query : Nat
  index : Nat
deriving DecidableEq, Repr, Inhabited

/-- A table. -/
inductive Table where
  /-- The table that a clause ranges over, named after the range variable. -/
  | ofClause (clause : ClauseKey) (name aliasName : String)
  /-- A joined table. -/
  | joined (index : Nat)
  /-- A table that stands for itself; no two of one number are made. -/
  | free (id : Nat) (name : String) (aliasName : Option String)
deriving DecidableEq, Repr, Inhabited

/-- Where columns are read from. -/
inductive Source where
  | table (table : Table)
  | nested (clause : ClauseKey) (query : QueryRef) (aliasName : String)
  /-- A let binding; `isTable` tells that it stands for another range variable. -/
  | binding (clause : ClauseKey) (aliasName : String) (isTable : Bool)
deriving DecidableEq, Repr, Inhabited

/-- A column of a source; without a name, all of its columns. -/
structure Column where
  source : Source
  name : Option String
deriving DecidableEq, Repr, Inhabited

/-- A join of two sources whose columns `left` and `right` are equal. -/
structure Join where
  left : Column
  right : Column
deriving DecidableEq, Repr, Inhabited

/-- A source and the joins that lead away from it, one after the other. -/
structure JoinPath where
  first : Source
  joins : List Join
deriving DecidableEq, Repr, Inhabited

/-- The source at the end of a path. -/
def JoinPath.last (p : JoinPath) : Source :=
  match p.joins.getLast? with
  | some join => join.right.source
  | none => p.first

/-- What a reference resolves to. -/
structure Field where
  /-- The member that is read; without one, the whole entity is. -/
  member : Option Member
  path : JoinPath
  /-- The column that holds the value, if the member has one. -/
  column : Option Column
deriving DecidableEq, Repr, Inhabited

/-- A table that a relation leads to, for each path and relation once. -/
structure TableEntry where
  /-- The path to where the relation starts. -/
  path : JoinPath
  relation : Member
  name : String
  aliasName : Option String
deriving DecidableEq, Repr, Inhabited

/-- The joined tables of a session in the order they were made. -/
structure JoinedTables where
  aliasPrefix : String
  tables : List TableEntry := []
deriving DecidableEq, Repr, Inhabited

namespace JoinedTables

/-- The name of a table. -/
def name (ts : JoinedTables) : Table → String
  | .ofClause _ name _ => name
  | .joined index => ((ts.tables[index]?).map (·.name)).getD ""
  | .free _ name _ => name

/-- The alias of a table, if it has one yet. -/
def alias? (ts : JoinedTables) : Table → Option String
  | .ofClause _ _ aliasName => some aliasName
  | .joined index => (ts.tables[index]?).bind (·.aliasName)
  | .free _ _ aliasName => aliasName

/-- The alias of a source, if it has one yet. -/
def sourceAlias? (ts : JoinedTables) : Source → Option String
  | .table table => ts.alias? table
  | .nested _ _ aliasName => some aliasName
  | .binding _ aliasName _ => some aliasName

/-! Tables are compared by name and alias, whichever tables they are; so two joined tables of one
name are equal until they are named. -/

/-- Whether two tables have one name and one alias. -/
def sameTable (ts : JoinedTables) (a b : Table) : Bool :=
  ts.name a == ts.name b && ts.alias? a == ts.alias? b

/-- Whether two sources are equal. -/
def sameSource (ts : JoinedTables) : Source → Source → Bool
  | .table a, .table b => ts.sameTable a b
  | .nested _ q a, .nested _ r b => a == b && q.key == r.key
  | .binding _ a s, .binding _ b t => a == b && s == t
  | _, _ => false

/-- Whether two columns are equal. -/
def sameColumn (ts : JoinedTables) (a b : Column) : Bool :=
  ts.sameSource a.source b.source && a.name == b.name

/-- Whether two joins are equal. -/
def sameJoin (ts : JoinedTables) (a b : Join) : Bool :=
  ts.sameColumn a.left b.left && ts.sameColumn a.right b.right

/-- Whether two lists of joins are equal join by join. -/
def sameJoins (ts : JoinedTables) : List Join → List Join → Bool
  | [], [] => true
  | a :: as, b :: bs => ts.sameJoin a b && sameJoins ts as bs
  | _, _ => false

/-- Whether two paths are equal. -/
def samePath (ts : JoinedTables) (a b : JoinPath) : Bool :=
  ts.sameSource a.first b.first && ts.sameJoins a.joins b.joins

/-- Whether two fields are equal. -/
def sameField (ts : JoinedTables) (a b : Field) : Bool :=
  (match a.member, b.member with
    | none, none => true
    | some m, some n => m.same n
    | _, _ => false)
  && ts.samePath a.path b.path
  && (match a.column, b.column with
    | none, none => true
    | some c, some d => ts.sameColumn c d
    | _, _ => false)

/-! ## Text -/

/-- The text of a table. -/
def tableText (ts : JoinedTables) (t : Table) : String :=
  match ts.alias? t with
  | some aliasName => ts.name t ++ " " ++ aliasName
  | none => ts.name t

/-- The text of a source. -/
def sourceText (ts : JoinedTables) : Source → String
  | .table table => ts.tableText table
  | .nested _ _ aliasName => "(subquery) " ++ aliasName
  | .binding _ aliasName _ => "(let) " ++ aliasName

/-- The name that stands before the columns of a source. -/
def qualifier (ts : JoinedTables) : Source → String
  | .table table => (ts.alias? table).getD (ts.name table)
  | .nested _ _ aliasName => aliasName
  | .binding _ aliasName _ => aliasName

/-- The text of a column. -/
def columnText (ts : JoinedTables) (c : Column) : String :=
  ts.qualifier c.source ++ "." ++ c.name.getD "*"

/-- The text of a join. -/
def joinText (ts : JoinedTables) (j : Join) : String :=
  ts.columnText j.left ++ " = " ++ ts.columnText j.right

/-- The text of a field. -/
def fieldText (ts : JoinedTables) (f : Field) : String :=
  let column := match f.column with
    | some column => ts.columnText column
    | none => "<unmapped>"
  match f.path.joins with
  | [] => column
  | joins => column ++ " via " ++ commaSeparated (joins.map fun j => "[" ++ ts.joinText j ++ "]")

/-! ## Sharing -/

/-- The number of the table that `relation` leads to from the end of `path`, if one was made. -/
def indexOf? (ts : JoinedTables) (path : JoinPath) (relation : Member) : Option Nat :=
  ts.tables.findIdx? fun t => t.relation.same relation && ts.samePath t.path path

/-- The table that `relation` leads to from the end of `path`: the one made before for the same path
and relation, or a new one called `name`. -/
def join (ts : JoinedTables) (path : JoinPath) (relation : Member) (name : String) :
    Table × JoinedTables :=
  match ts.indexOf? path relation with
  | some index => (.joined index, ts)
  | none =>
    (.joined ts.tables.length,
      { ts with tables := ts.tables ++ [{ path, relation, name, aliasName := none }] })

end JoinedTables

end QueryChain
