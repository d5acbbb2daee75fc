import QueryChain.Expr.Build

/-!
# Building operator chains

Calls of query operators as comprehensions compile to them: static calls with the source first and
quoted lambdas after it.
-/

namespace QueryChain.Chain

/-- `Select`: each element becomes what `selector` makes of it. -/
def select (source selector : Expr) : Expr :=
  .staticCall "Select" [source, selector.quoted] (TypeName.queryable selector.resultType)

/-- `SelectMany`: each element is paired with the elements of the collection that `collection` finds
for it, and `result` is made of each pair. -/
def selectMany (source collection result : Expr) : Expr :=
  .staticCall "SelectMany" [source, collection.quoted, result.quoted]
    (TypeName.queryable result.resultType)

/-- `Where`: the elements for which `predicate` holds. -/
def filter (source predicate : Expr) : Expr :=
  .staticCall "Where" [source, predicate.quoted] source.type

/-- A call of the operator `method`, which sorts the elements of `source` by `key`. -/
def ordering (method : String) (source key : Expr) : Expr :=
  .staticCall method [source, key.quoted]
    (TypeName.orderedQueryable (TypeName.elementOrSelf source.type))

/-- `OrderBy`: the elements in ascending order of `key`. -/
def orderBy (source key : Expr) : Expr :=
  ordering "OrderBy" source key

/-- `OrderByDescending`: the elements in descending order of `key`. -/
def orderByDescending (source key : Expr) : Expr :=
  ordering "OrderByDescending" source key

/-- `ThenBy`: where earlier keys leave elements equal, they stand in ascending order of `key`. -/
def thenBy (source key : Expr) : Expr :=
  ordering "ThenBy" source key

/-- `ThenByDescending`: where earlier keys leave elements equal, they stand in descending order of
`key`. -/
def thenByDescending (source key : Expr) : Expr :=
  ordering "ThenByDescending" source key

/-- `Distinct`: each element once. -/
def distinct (source : Expr) : Expr :=
  .staticCall "Distinct" [source] source.type

/-- The type of what the result operator `method` makes of a source of type `sourceType`. -/
def resultType (method sourceType : String) : String :=
  if method = "Count" ∨ method = "LongCount" then "Int32"
  else if method = "Any" ∨ method = "All" then "Boolean"
  else if method = "Take" ∨ method = "Skip" then sourceType
  else TypeName.elementOrSelf sourceType

/-- A call of the result operator `method` with further arguments. -/
def result (method : String) (source : Expr) (arguments : List Expr) : Expr :=
  .staticCall method (source :: arguments) (resultType method source.type)

end QueryChain.Chain
