import QueryChain.Expr.Basic

/-!
# Walking expressions

A walk visits the nodes of an expression and may change them. A walker has two hooks. The first sees
a node before its children and may put another node in its place, whose children are then left
alone. The second sees the node after its children. An outcome says whether anything was changed;
where nothing was, the node is kept as it is.
-/

namespace QueryChain

/-- A value and whether a walk changed it. -/
inductive Outcome (α : Type) where
  | changed (value : α)
  | unchanged (value : α)
deriving Repr, Inhabited

namespace Outcome

variable {α β : Type}

/-- The value of an outcome. -/
def value : Outcome α → α
  | .changed a => a
  | .unchanged a => a

/-- Whether an outcome is a change. -/
def isChanged : Outcome α → Bool
  | .changed _ => true
  | .unchanged _ => false

/-- An outcome for a value made of another one. -/
def map (f : α → β) : Outcome α → Outcome β
  | .changed a => .changed (f a)
  | .unchanged a => .unchanged (f a)

/-- The outcome for a whole with two parts: it is changed when a part is. -/
def pair : Outcome α → Outcome β → Outcome (α × β)
  | .unchanged a, .unchanged b => .unchanged (a, b)
  | a, b => .changed (a.value, b.value)

/-- An outcome whose value is `kept` if there was no change. -/
def orKeep (kept : α) : Outcome α → Outcome α
  | .changed a => .changed a
  | .unchanged _ => .unchanged kept

end Outcome

/-- The two hooks of a walk with effects in `m`. -/
structure Walker (m : Type → Type) where
  /-- Sees a node first; an answer takes the place of the node and its children. -/
  before : Expr → m (Option Expr)
  /-- Sees a node whose children the walk has left. -/
  after : Expr → m (Outcome Expr)

/-- The walker that leaves everything as it is. -/
def Walker.idle {m : Type → Type} [Monad m] : Walker m where
  before _ := pure none
  after e := pure (.unchanged e)

namespace Expr

variable {m : Type → Type} [Monad m]

/-- Visits the node `e`, whose children are walked by `children`. -/
def visit (r : Walker m) (e : Expr) (children : m (Outcome Expr)) : m (Outcome Expr) := do
  match ← r.before e with
  | some replacement => return .changed replacement
  | none =>
    match ← children with
    | .changed rebuilt => return .changed (← r.after rebuilt).value
    | .unchanged _ => r.after e

mutual

/-- Walks an expression, children in the order they are written. The construction in front of the
members or elements of an object is no node of its own, but its arguments are. -/
def walk (r : Walker m) : Expr → m (Outcome Expr)
  | .constant value type =>
    visit r (.constant value type) (pure (.unchanged (.constant value type)))
  | .parameter p => visit r (.parameter p) (pure (.unchanged (.parameter p)))
  | .staticMember k => visit r (.staticMember k) (pure (.unchanged (.staticMember k)))
  | .member object k => visit r (.member object k) do
    return (← walk r object).map (.member · k)
  | .staticCall method arguments type => visit r (.staticCall method arguments type) do
    return (← walkAll r arguments).map (.staticCall method · type)
  | .call object method arguments type => visit r (.call object method arguments type) do
    let object ← walk r object
    let arguments ← walkAll r arguments
    return (object.pair arguments).map fun (o, as) => .call o method as type
  | .unary op operand type => visit r (.unary op operand type) do
    return (← walk r operand).map (.unary op · type)
  | .binary op left right type => visit r (.binary op left right type) do
    let left ← walk r left
    let right ← walk r right
    return (left.pair right).map fun (l, r) => .binary op l r type
  | .lambda parameters body => visit r (.lambda parameters body) do
    return (← walk r body).map (.lambda parameters ·)
  | .new type arguments members => visit r (.new type arguments members) do
    return (← walkAll r arguments).map (.new type · members)
  | .newArray elementType elements => visit r (.newArray elementType elements) do
    return (← walkAll r elements).map (.newArray elementType ·)
  | .memberInit type arguments members bindings =>
    visit r (.memberInit type arguments members bindings) do
      let arguments := (← walkAll r arguments).orKeep arguments
      let bindings ← walkBindings r bindings
      return (arguments.pair bindings).map fun (as, bs) => .memberInit type as members bs
  | .listInit type arguments members elements =>
    visit r (.listInit type arguments members elements) do
      let arguments := (← walkAll r arguments).orKeep arguments
      let elements ← walkAll r elements
      return (arguments.pair elements).map fun (as, es) => .listInit type as members es
  | .conditional test ifTrue ifFalse => visit r (.conditional test ifTrue ifFalse) do
    let test ← walk r test
    let ifTrue ← walk r ifTrue
    let ifFalse ← walk r ifFalse
    return (test.pair (ifTrue.pair ifFalse)).map fun (c, t, f) => .conditional c t f
  | .typeIs operand type => visit r (.typeIs operand type) do
    return (← walk r operand).map (.typeIs · type)
  | .invoke function arguments => visit r (.invoke function arguments) do
    let function ← walk r function
    let arguments ← walkAll r arguments
    return (function.pair arguments).map fun (f, as) => .invoke f as
  | .subQuery query => visit r (.subQuery query) (pure (.unchanged (.subQuery query)))
termination_by structural e => e

/-- Walks expressions one after the other. -/
def walkAll (r : Walker m) : List Expr → m (Outcome (List Expr))
  | [] => pure (.unchanged [])
  | e :: es => do
    let e ← walk r e
    let es ← walkAll r es
    return (e.pair es).map fun (e, es) => e :: es
termination_by structural es => es

/-- Walks the values given to members, one after the other. -/
def walkBindings (r : Walker m) : List (Member × Expr) → m (Outcome (List (Member × Expr)))
  | [] => pure (.unchanged [])
  | (k, e) :: rest => do
    let e ← walk r e
    let rest ← walkBindings r rest
    return (e.pair rest).map fun (e, rest) => (k, e) :: rest
termination_by structural bs => bs

end

end Expr

end QueryChain
