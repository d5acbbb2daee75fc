import QueryChain.Chain.Collect
import QueryChain.Query.Text

/-!
# Assembling queries

The collected steps of a chain become the clauses of a query. Each further range and each let
binding takes the next projection; the select clause takes the last one. Chains embedded in the
expressions of clauses are parsed on the way and replaced by references to their queries.
-/

namespace QueryChain

/-- How a chain embedded in an expression is parsed. -/
abbrev SubParser := Expr → ParseM Query

/-- Parses each embedded chain that no other one surrounds, and notes its query. -/
def chainNester (parseSub : SubParser) : Walker (StateT (List Query) ParseM) where
  before e := do
    if e.isChain then
      let query ← parseSub e
      modify (· ++ [query])
      return some (.subQuery query.ref)
    else
      return none
  after e := pure (.unchanged e)

/-- An expression with references in place of the chains embedded in it, and the queries of these. -/
def nestChains (parseSub : SubParser) (e : Expr) : ParseM (Expr × List Query) := do
  let (outcome, queries) ← (e.walk (chainNester parseSub)).run []
  return (outcome.value, queries)

/-- A query in the making. -/
structure Draft where
  body : List Clause := []
  /-- The projections that no clause has taken. -/
  projections : List (Option Expr)
  /-- Where in the body the ordering stands that further keys refine. -/
  openOrdering : Option Nat := none
  embedded : List Query := []
  sources : List Query := []
deriving Repr, Inhabited

namespace Draft

/-- Adds a clause at the end. -/
def addClause (d : Draft) (clause : Clause) : Draft :=
  { d with body := d.body ++ [clause] }

/-- Adds queries found in expressions. -/
def addEmbedded (d : Draft) (queries : List Query) : Draft :=
  { d with embedded := d.embedded ++ queries }

/-- Takes the next projection for a clause made of `e`. -/
def takeProjection (d : Draft) (clause : String) (e : Expr) : ParseM (Option Expr × Draft) :=
  match d.projections with
  | [] => throw (.noProjection clause e)
  | projection :: rest => return (projection, { d with projections := rest })

/-- Replaces the chains embedded in an expression. -/
def replace (d : Draft) (parseSub : SubParser) (e : Expr) : ParseM (Expr × Draft) := do
  let (e, queries) ← nestChains parseSub e
  return (e, d.addEmbedded queries)

/-- Replaces the chains embedded in a projection, if there is one. -/
def replaceProjection (d : Draft) (parseSub : SubParser) :
    Option Expr → ParseM (Option Expr × Draft)
  | none => return (none, d)
  | some projection => do
    let (projection, d) ← d.replace parseSub projection
    return (some projection, d)

/-- The lambda body that is a query of its own. -/
def nestedChain? (source : Expr) : Option Expr :=
  match source.unquoted with
  | .lambda _ body => if body.isChain then some body else none
  | _ => none

/-- The variable that a nested `Select` binds and its value: the last member of the object that it
makes. -/
def boundVariable? (projection : Expr) : Option (Parameter × Expr) :=
  match projection.unquoted with
  | .lambda _ (.new _ arguments members) =>
    if members.length = arguments.length then
      match members.getLast?, arguments.getLast? with
      | some m, some value => some ({ name := m.name, type := m.type }, value)
      | _, _ => none
    else none
  | _ => none

/-- Adds a key to the ordering at `index` of a body. -/
def refine (body : List Clause) (index : Nat) (added : SortKey) : List Clause :=
  body.modify index fun
    | .ordering keys => .ordering (keys ++ [added])
    | clause => clause

/-- Adds the clause of a step. -/
def addStep (parseSub : SubParser) (d : Draft) : Step → ParseM Draft
  | .range identifier source => do
    let (projection, d) ← d.takeProjection "from" source
    let (projection, d) ← d.replaceProjection parseSub projection
    match nestedChain? source with
    | some chain =>
      let query ← parseSub chain
      let clause := { identifier, kind := .nested query.ref projection }
      return { d.addClause (.range clause) with sources := d.sources ++ [query] }
    | none =>
      let (selector, d) ← d.replace parseSub source
      return d.addClause (.range { identifier, kind := .additional selector projection })
  | .filter predicate => do
    let (predicate, d) ← d.replace parseSub predicate
    return d.addClause (.filter predicate)
  | .ordering key direction first => do
    let (replaced, d) ← d.replace parseSub key
    let added := { key := replaced, direction }
    if first then
      return { d.addClause (.ordering [added]) with openOrdering := some d.body.length }
    else
      match d.openOrdering with
      | some index => return { d with body := refine d.body index added }
      | none => throw (.nothingToRefine key)
  | .binding selector => do
    let (projection, d) ← d.takeProjection "let" selector
    match boundVariable? selector with
    | none => throw (.bindingShape selector)
    | some (identifier, value) =>
      let (value, d) ← d.replace parseSub value
      let kind := .binding value (projection.getD selector)
      return d.addClause (.range { identifier, kind })

end Draft

/-- Assembles the query of the chain `e` from its collected steps. -/
def assemble (parseSub : SubParser) (key : Nat) (parent : Option Nat) (e : Expr) (c : Collected) :
    ParseM Query := do
  let (main, steps) ← match c.steps with
    | .range identifier source :: steps =>
      pure ({ identifier, kind := .main source : RangeClause }, steps)
    | _ => throw (.noMainRange e)
  let d ← steps.foldlM (Draft.addStep parseSub) { projections := c.projections }
  let (projection, d) ← match c.projections.getLast? with
    | some projection => d.replaceProjection parseSub projection
    | none => throw (.noSelectProjection e)
  return {
    key, parent, main
    body := d.body
    select := { projection, distinct := c.distinct, modifiers := c.modifiers }
    expression := e
    embedded := d.embedded
    sources := d.sources }

end QueryChain
