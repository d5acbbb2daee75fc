import QueryChain.Chain.Assemble

/-!
# Parsing operator chains

A chain is parsed into a query, and the chains embedded in it into queries nested in that one.
-/

namespace QueryChain

namespace Expr

mutual

/-- The number of nodes of an expression. Chains are nested less deep than that. -/
def size : Expr → Nat
  | .constant .. | .parameter .. | .staticMember .. | .subQuery .. => 1
  | .member object _ => size object + 1
  | .staticCall _ arguments _ => sizeAll arguments + 1
  | .call object _ arguments _ => size object + sizeAll arguments + 1
  | .unary _ operand _ => size operand + 1
  | .binary _ left right _ => size left + size right + 1
  | .lambda _ body => size body + 1
  | .new _ arguments _ => sizeAll arguments + 1
  | .newArray _ elements => sizeAll elements + 1
  | .memberInit _ arguments _ bindings => sizeAll arguments + sizeBindings bindings + 1
  | .listInit _ arguments _ elements => sizeAll arguments + sizeAll elements + 1
  | .conditional test ifTrue ifFalse => size test + size ifTrue + size ifFalse + 1
  | .typeIs operand _ => size operand + 1
  | .invoke function arguments => size function + sizeAll arguments + 1
termination_by structural e => e

/-- The number of nodes of expressions. -/
def sizeAll : List Expr → Nat
  | [] => 0
  | e :: es => size e + sizeAll es
termination_by structural es => es

/-- The number of nodes of the values given to members. -/
def sizeBindings : List (Member × Expr) → Nat
  | [] => 0
  | (_, e) :: rest => size e + sizeBindings rest
termination_by structural bs => bs

end

end Expr

/-- Gives out the next key. -/
def nextKey : ParseM Nat :=
  modifyGet fun s => (s.nextKey, { s with nextKey := s.nextKey + 1 })

/-- Parses a chain nested in the query `parent`. Embedded chains are parts of `e`, so they nest less
deep than `e` has nodes, and `depth` never runs out if it starts there. -/
def parseChain : Nat → Option Nat → Expr → ParseM Query
  | 0, _, e => throw (.notASource e.kind e)
  | depth + 1, parent, e => do
    let key ← nextKey
    let c ← collect e none true
    assemble (parseChain depth (some key)) key parent e c

/-- Runs a parse of the whole chain `e`, whose first query gets the key `firstKey`. -/
def runParse {α : Type} (e : Expr) (firstKey : Nat) (action : ParseM α) :
    Except ChainError (α × ParseState) :=
  match action.run { nextKey := firstKey } with
  | .ok result => .ok result
  | .error fault => .error { fault, query := e }

/-- Parses a chain, giving out keys from `firstKey` on, and says which key comes next. -/
def parseFrom (firstKey : Nat) (e : Expr) : Except ChainError (Query × Nat) := do
  let (query, state) ← runParse e firstKey (parseChain e.size none e)
  return (query, state.nextKey)

/-- Parses a chain. -/
def parse (e : Expr) : Except ChainError Query := do
  let (query, _) ← parseFrom 0 e
  return query

/-- The expression that a step holds. -/
def Step.expression : Step → Expr
  | .range _ source => source
  | .filter predicate => predicate
  | .ordering key _ _ => key
  | .binding projection => projection

/-- The number of nodes of the expressions collected along a chain. -/
def Collected.size (c : Collected) : Nat :=
  Expr.sizeAll (c.steps.map Step.expression) + Expr.sizeAll (c.projections.filterMap id)

/-- Assembles the query of `e` from steps that were collected in some other way. -/
def assembleQuery (e : Expr) (c : Collected) : Except ChainError Query := do
  let build : ParseM Query := do
    let key ← nextKey
    assemble (parseChain c.size (some key)) key none e c
  let (query, _) ← runParse e 0 build
  return query

end QueryChain
