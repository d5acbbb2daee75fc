import QueryChain.Expr.Text

/-!
# Query operators

The methods that make up an operator chain. Each lambda operator adds a clause to the query;
`Distinct` and the result operators say what is done with the query's result and stand above all
others.
-/

namespace QueryChain

/-- The direction of an ordering. -/
inductive Direction where
  | ascending
  | descending
deriving DecidableEq, Repr, Inhabited

/-- The word for a direction in the text of a query. -/
def Direction.text : Direction → String
  | .ascending => "asc"
  | .descending => "desc"

/-- The operators that are not result operators. -/
inductive Operator where
  | select
  | selectMany
  | filter
  /-- Sorts by a key: a first key starts a new ordering, and others refine the one before. -/
  | ordering (direction : Direction) (first : Bool)
  | distinct
deriving DecidableEq, Repr, Inhabited

namespace Operator

/-- The operator with the method name `method`. -/
def ofName? (method : String) : Option Operator :=
  if method = "Select" then some .select
  else if method = "SelectMany" then some .selectMany
  else if method = "Where" then some .filter
  else if method = "OrderBy" then some (.ordering .ascending true)
  else if method = "OrderByDescending" then some (.ordering .descending true)
  else if method = "ThenBy" then some (.ordering .ascending false)
  else if method = "ThenByDescending" then some (.ordering .descending false)
  else if method = "Distinct" then some .distinct
  else none

/-- The number of arguments an operator takes, its source included. -/
def argumentCount : Operator → Nat
  | .select => 2
  | .selectMany => 3
  | .filter => 2
  | .ordering _ _ => 2
  | .distinct => 1

end Operator

/-- The methods that make one value, or fewer elements, of the elements of a query. -/
def resultMethods : List String :=
  ["Count", "LongCount", "Any", "All", "First", "FirstOrDefault", "Single", "SingleOrDefault",
    "Last", "LastOrDefault", "Take", "Skip", "Max", "Min", "Sum", "Average"]

/-- Whether `method` is a result operator. -/
def isResultMethod (method : String) : Bool :=
  resultMethods.contains method

/-- Whether an expression is a query of its own: a call of an operator, or of a result operator
whose source is such a query. -/
def Expr.isChain : Expr → Bool
  | .staticCall method [] _ => (Operator.ofName? method).isSome
  | .staticCall method (source :: _) _ =>
    (Operator.ofName? method).isSome || (isResultMethod method && source.isChain)
  | _ => false
termination_by structural e => e

end QueryChain
