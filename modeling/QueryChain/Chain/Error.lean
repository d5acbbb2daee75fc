import QueryChain.Expr.Text

/-!
# What can be wrong with a chain

Each fault names the part of the query it was found in. An error is a fault together with the whole
query, which may be larger when the fault lies in an embedded chain.
-/

namespace QueryChain

/-- A reason why a chain makes no query. -/
inductive ChainFault where
  | argumentCount (method : String) (expected found : Nat) (expression : Expr)
  /-- Argument `index` is no lambda with so many parameters. -/
  | argumentShape (method : String) (index parameters : Nat) (argument expression : Expr)
  /-- The bottom of the chain folds to a node of kind `kind`, which is no source. -/
  | notASource (kind : String) (expression : Expr)
  | nestedResultOperator (method : String) (expression : Expr)
  | nestedDistinct (expression : Expr)
  | noMainRange (expression : Expr)
  | noProjection (clause : String) (expression : Expr)
  | noSelectProjection (expression : Expr)
  | nothingToRefine (key : Expr)
  | bindingShape (projection : Expr)
deriving Repr, Inhabited

/-- A fault and the query in which it was found. -/
structure ChainError where
  fault : ChainFault
  query : Expr
deriving Repr, Inhabited

/-- The part of the query that a fault is about. -/
def ChainFault.expression : ChainFault → Expr
  | .argumentCount _ _ _ expression => expression
  | .argumentShape _ _ _ _ expression => expression
  | .notASource _ expression => expression
  | .nestedResultOperator _ expression => expression
  | .nestedDistinct expression => expression
  | .noMainRange expression => expression
  | .noProjection _ expression => expression
  | .noSelectProjection expression => expression
  | .nothingToRefine key => key
  | .bindingShape projection => projection

/-- The text of an expression that is no source, with what was found there. -/
def unsupportedText (expression : Expr) (kind : String) : String :=
  "Expression '" ++ expression.text ++ "' (" ++ kind
    ++ ") is neither a query operator nor a query source"

/-- The text of a fault, without the query. -/
def ChainFault.text : ChainFault → String
  | .argumentCount method expected found expression =>
    "'" ++ method ++ "' expects " ++ toString expected ++ " arguments, but got " ++ toString found
      ++ " in '" ++ expression.text ++ "'"
  | .argumentShape method index parameters argument expression =>
    "Argument " ++ toString index ++ " of '" ++ method ++ "' must be a lambda with "
      ++ toString parameters ++ " parameter(s), but got '" ++ argument.text ++ "' in '"
      ++ expression.text ++ "'"
  | .notASource kind expression => unsupportedText expression kind
  | .nestedResultOperator method expression =>
    unsupportedText expression ("result operator " ++ method ++ " below the end of the query")
  | .nestedDistinct expression =>
    "Distinct is only supported at the end of the whole query, but appears in '"
      ++ expression.text ++ "'"
  | .noMainRange expression =>
    "Query '" ++ expression.text ++ "' does not start with a from clause"
  | .noProjection clause expression =>
    "No projection left for the " ++ clause ++ " clause built from '" ++ expression.text ++ "'"
  | .noSelectProjection expression =>
    "Query '" ++ expression.text ++ "' has no select projection"
  | .nothingToRefine key =>
    "ThenBy ordering '" ++ key.text ++ "' is not preceded by an OrderBy"
  | .bindingShape projection =>
    "Let projection '" ++ projection.text
      ++ "' must build an anonymous object whose last member is the let variable"

/-- The text of an error. -/
def ChainError.message (e : ChainError) : String :=
  e.fault.text ++ " (query: '" ++ e.query.text ++ "')"

end QueryChain
