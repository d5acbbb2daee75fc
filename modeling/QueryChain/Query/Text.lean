import QueryChain.Query.Basic

/-!
# The text of queries

A query is written as a comprehension on one line, with what is done to its result after it.
-/

namespace QueryChain

/-- The text of a clause that introduces a range variable. -/
def RangeClause.text (clause : RangeClause) : String :=
  let name := clause.identifier.name
  match clause.kind with
  | .main source => "from " ++ name ++ " in " ++ source.text
  | .additional selector _ => "from " ++ name ++ " in " ++ selector.lambdaBody.text
  | .nested query _ => "from " ++ name ++ " in (" ++ query.text ++ ")"
  | .binding value _ => "let " ++ name ++ " = " ++ value.text

/-- The text of a key to sort by. -/
def SortKey.text (k : SortKey) : String :=
  k.key.lambdaBody.text ++ " " ++ k.direction.text

/-- The text of a clause after the main range. -/
def Clause.text : Clause → String
  | .range clause => clause.text
  | .filter predicate => "where " ++ predicate.lambdaBody.text
  | .ordering keys => "orderby " ++ commaSeparated (keys.map SortKey.text)

/-- The text of a result operator. -/
def Modifier.text (m : Modifier) : String :=
  m.method ++ "(" ++ commaSeparated (Expr.texts m.arguments) ++ ")"

/-- The text of a select clause and of what follows it. -/
def Selection.text (s : Selection) : String :=
  let selected := match s.projection with
    | some projection => projection.lambdaBody.text
    | none => "<current>"
  "select " ++ selected
    ++ (if s.distinct then " => Distinct()" else "")
    ++ String.join (s.modifiers.map (" => " ++ ·.text))

namespace Query

/-- The text of a query. -/
def text (q : Query) : String :=
  " ".intercalate (q.main.text :: q.body.map Clause.text ++ [q.select.text])

/-- The reference that clauses and expressions hold in place of a query. -/
def ref (q : Query) : QueryRef :=
  { key := q.key, text := q.text, elementType := q.elementType }

end Query

end QueryChain
