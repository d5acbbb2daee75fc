import QueryChain.Chain.Error
import QueryChain.Expr.Fold
import QueryChain.Query.Basic

/-!
# Collecting the steps of a chain

A chain is walked down to its source and read upward from there. Each lambda operator leaves a step,
and some leave a projection; `Distinct` and the result operators above them are noted too. The
steps and projections are paired again when the query is assembled.
-/

namespace QueryChain

/-- What an operator adds to a query. -/
inductive Step where
  /-- A range variable, over the source of the chain or over what a lambda finds. -/
  | range (identifier : Parameter) (source : Expr)
  | filter (predicate : Expr)
  | ordering (key : Expr) (direction : Direction) (first : Bool)
  /-- A `Select` below another lambda operator. -/
  | binding (projection : Expr)
deriving Repr, Inhabited

/-- What was found along a chain. -/
structure Collected where
  steps : List Step := []
  /-- The selectors in order; an operator without one leaves a gap at the top of the chain. -/
  projections : List (Option Expr) := []
  distinct : Bool := false
  modifiers : List Modifier := []
deriving Repr, Inhabited

namespace Collected

/-- Adds a step at the end. -/
def addStep (c : Collected) (step : Step) : Collected :=
  { c with steps := c.steps ++ [step] }

/-- Adds a projection at the end. -/
def pushProjection (c : Collected) (projection : Option Expr) : Collected :=
  { c with projections := c.projections ++ [projection] }

/-- Leaves a gap among the projections if the operator is the top one. -/
def pushGapIf (c : Collected) (top : Bool) : Collected :=
  if top then c.pushProjection none else c

/-- Adds a result operator at the end. -/
def pushModifier (c : Collected) (modifier : Modifier) : Collected :=
  { c with modifiers := c.modifiers ++ [modifier] }

end Collected

/-- What is counted while a query is parsed: the keys and the range variable names given out. -/
structure ParseState where
  nextKey : Nat := 0
  generated : Nat := 0
deriving DecidableEq, Repr, Inhabited

/-- Parsing: counts, and may find a fault. -/
abbrev ParseM := StateT ParseState (Except ChainFault)

/-- A range variable for elements of the source `source`, with a name not given out before. -/
def freshVariable (source : Expr) : ParseM Parameter :=
  modifyGet fun s =>
    ({ name := "<generated>_" ++ toString s.generated
       type := TypeName.elementOrSelf source.type },
      { s with generated := s.generated + 1 })

/-- Whether an expression is a chain of members that starts at a parameter. -/
def Expr.isParameterMember : Expr → Bool
  | .member (.parameter _) _ => true
  | .member object _ => object.isParameterMember
  | _ => false
termination_by structural e => e

/-- Whether a folded expression can be the source of a chain: a value, or a member of a range
variable. -/
def Expr.isSource : Expr → Bool
  | .constant value _ => !value.isNull
  | e => e.isParameterMember

/-- Reads the source at the bottom of a chain. Without a lambda above it to name its elements, a
name is made up. -/
def collectSource (e : Expr) (identifier : Option Parameter) (top : Bool) : ParseM Collected := do
  let source := e.evaluate
  unless source.isSource do
    throw (.notASource source.kind e)
  let identifier ← match identifier with
    | some p => pure p
    | none => freshVariable source
  return (Collected.addStep {} (.range identifier source)).pushGapIf top

/-- The arguments of an operator after its source. -/
inductive OperatorArguments where
  | select (parameter : Parameter) (selector : Expr)
  | selectMany (parameter element : Parameter) (collection result : Expr)
  | filter (parameter : Parameter) (predicate : Expr)
  | ordering (parameter : Parameter) (key : Expr) (direction : Direction) (first : Bool)
  | distinct
deriving Repr, Inhabited

/-- An argument as a lambda with one parameter, quotes stripped. -/
def unaryLambda (method : String) (index : Nat) (e argument : Expr) :
    Except ChainFault (Parameter × Expr) :=
  match argument.unquoted with
  | .lambda [p] body => .ok (p, .lambda [p] body)
  | other => .error (.argumentShape method index 1 other e)

/-- An argument as a lambda with two parameters, quotes stripped, and its second parameter. -/
def binaryLambda (method : String) (index : Nat) (e argument : Expr) :
    Except ChainFault (Parameter × Expr) :=
  match argument.unquoted with
  | .lambda [p, q] body => .ok (q, .lambda [p, q] body)
  | other => .error (.argumentShape method index 2 other e)

/-- Checks the arguments of the operator call `e` that follow its source. -/
def operatorArguments (op : Operator) (method : String) (e : Expr) (arguments : List Expr) :
    Except ChainFault OperatorArguments :=
  match op, arguments with
  | .select, [selector] => do
    let (p, selector) ← unaryLambda method 1 e selector
    return .select p selector
  | .selectMany, [collection, result] => do
    let (p, collection) ← unaryLambda method 1 e collection
    let (q, result) ← binaryLambda method 2 e result
    return .selectMany p q collection result
  | .filter, [predicate] => do
    let (p, predicate) ← unaryLambda method 1 e predicate
    return .filter p predicate
  | .ordering direction first, [key] => do
    let (p, key) ← unaryLambda method 1 e key
    return .ordering p key direction first
  | .distinct, [] => .ok .distinct
  | op, arguments => .error (.argumentCount method op.argumentCount (arguments.length + 1) e)

/-- Collects the steps of a chain. `identifier` is the parameter of the lambda that takes the
elements of `e`, and `top` says that no lambda operator stands above `e`. -/
def collect : Expr → Option Parameter → Bool → ParseM Collected
  | .staticCall method [] type, identifier, top =>
    let e := .staticCall method [] type
    match Operator.ofName? method with
    | some op => throw (.argumentCount method op.argumentCount 0 e)
    | none =>
      if isResultMethod method then
        throw (if top then .argumentCount method 1 0 e else .nestedResultOperator method e)
      else
        collectSource e identifier top
  | .staticCall method (source :: arguments) type, identifier, top => do
    let e := .staticCall method (source :: arguments) type
    match Operator.ofName? method with
    | some op =>
      match ← operatorArguments op method e arguments with
      | .select p selector =>
        let c ← collect source (some p) false
        return (if top then c else c.addStep (.binding selector)).pushProjection (some selector)
      | .selectMany p q collection result =>
        let c ← collect source (some p) false
        return (c.addStep (.range q collection)).pushProjection (some result)
      | .filter p predicate =>
        let c ← collect source (some p) false
        return (c.addStep (.filter predicate)).pushGapIf top
      | .ordering p key direction first =>
        let c ← collect source (some p) false
        return (c.addStep (.ordering key direction first)).pushGapIf top
      | .distinct =>
        unless top do
          throw (.nestedDistinct e)
        let c ← collect source identifier true
        return { c with distinct := true }
    | none =>
      if isResultMethod method then
        unless top do
          throw (.nestedResultOperator method e)
        let c ← collect source identifier true
        return c.pushModifier { method, arguments }
      else
        collectSource e identifier top
  | e, identifier, top => collectSource e identifier top
termination_by structural e => e

end QueryChain
