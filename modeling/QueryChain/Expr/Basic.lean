import QueryChain.Constant

/-!
# Expressions

The expression trees that operator chains are made of. Every node knows the type of its value by
name. A chain that was embedded in an expression and has become a query of its own is held by a
reference.
-/

namespace QueryChain

/-- A field or property: the type that declares it, its name and the type of its values. -/
structure Member where
  declaringType : String
  name : String
  type : String
deriving DecidableEq, Repr, Inhabited

/-- Two members are the same when one type declares both under one name. -/
def Member.same (a b : Member) : Bool :=
  a.declaringType == b.declaringType && a.name == b.name

/-- The text of a member, with the type that declares it. -/
def Member.text (m : Member) : String :=
  m.declaringType ++ "." ++ m.name

/-- Whether two lists have the same members in the same order. -/
def Member.sameAll : List Member → List Member → Bool
  | [], [] => true
  | a :: as, b :: bs => a.same b && sameAll as bs
  | _, _ => false

/-- A lambda parameter or range variable. -/
structure Parameter where
  name : String
  type : String
deriving DecidableEq, Repr, Inhabited

/-- Operators with one operand. -/
inductive UnaryOp where
  | convert
  | quote
  | negate
  | not
  | arrayLength
  | typeAs
deriving DecidableEq, Repr, Inhabited

/-- Operators with two operands. -/
inductive BinaryOp where
  | add
  | subtract
  | multiply
  | divide
  | modulo
  | equal
  | notEqual
  | lessThan
  | lessThanOrEqual
  | greaterThan
  | greaterThanOrEqual
  | andAlso
  | orElse
  | coalesce
  | arrayIndex
deriving DecidableEq, Repr, Inhabited

/-- Whether an operator answers a question about its operands. -/
def BinaryOp.isPredicate : BinaryOp → Bool
  | .equal | .notEqual | .lessThan | .lessThanOrEqual | .greaterThan | .greaterThanOrEqual => true
  | .andAlso | .orElse => true
  | _ => false

/-- A reference to a query: its key, its text and the type of its elements. -/
structure QueryRef where
  key : Nat
  text : String
  elementType : String
deriving DecidableEq, Repr, Inhabited

/-- An expression. Members and calls without an object are static; query operators are static
calls with their source first. -/
inductive Expr where
  | constant (value : Constant) (type : String)
  | parameter (p : Parameter)
  | staticMember (member : Member)
  | member (object : Expr) (member : Member)
  | staticCall (method : String) (arguments : List Expr) (type : String)
  | call (object : Expr) (method : String) (arguments : List Expr) (type : String)
  | unary (op : UnaryOp) (operand : Expr) (type : String)
  | binary (op : BinaryOp) (left right : Expr) (type : String)
  | lambda (parameters : List Parameter) (body : Expr)
  /-- An object. The members of an anonymous object name the arguments that set them. -/
  | new (type : String) (arguments : List Expr) (members : List Member)
  | newArray (elementType : String) (elements : List Expr)
  /-- An object made as by `new` and then given values for some of its members. -/
  | memberInit (type : String) (arguments : List Expr) (members : List Member)
      (bindings : List (Member × Expr))
  /-- A collection made as by `new` and then given its first elements. -/
  | listInit (type : String) (arguments : List Expr) (members : List Member)
      (elements : List Expr)
  | conditional (test ifTrue ifFalse : Expr)
  | typeIs (operand : Expr) (type : String)
  | invoke (function : Expr) (arguments : List Expr)
  | subQuery (query : QueryRef)
deriving Inhabited, Repr

namespace Expr

/-- The type of an expression's value. -/
def type : Expr → String
  | .constant _ type => type
  | .parameter p => p.type
  | .staticMember m => m.type
  | .member _ m => m.type
  | .staticCall _ _ type => type
  | .call _ _ _ type => type
  | .unary _ _ type => type
  | .binary _ _ _ type => type
  | .lambda _ body => TypeName.function body.type
  | .new type _ _ => type
  | .newArray elementType _ => TypeName.array elementType
  | .memberInit type _ _ _ => type
  | .listInit type _ _ _ => type
  | .conditional _ ifTrue _ => ifTrue.type
  | .typeIs _ _ => "Boolean"
  | .invoke (.lambda _ body) _ => body.type
  | .invoke _ _ => "Object"
  | .subQuery query => TypeName.queryable query.elementType
termination_by structural e => e

/-- The name of the kind of an expression's outermost node. -/
def kind : Expr → String
  | .constant .. => "Constant"
  | .parameter .. => "Parameter"
  | .staticMember .. => "MemberAccess"
  | .member .. => "MemberAccess"
  | .staticCall .. => "Call"
  | .call .. => "Call"
  | .unary .. => "Unary"
  | .binary .. => "Binary"
  | .lambda .. => "Lambda"
  | .new .. => "New"
  | .newArray .. => "NewArray"
  | .memberInit .. => "MemberInit"
  | .listInit .. => "ListInit"
  | .conditional .. => "Conditional"
  | .typeIs .. => "TypeIs"
  | .invoke .. => "Invoke"
  | .subQuery .. => "SubQuery"

/-- The value of a constant expression. -/
def constant? : Expr → Option Constant
  | .constant value _ => some value
  | _ => none

/-- The parameter that an expression is. -/
def parameter? : Expr → Option Parameter
  | .parameter p => some p
  | _ => none

/-- The parameters and the body of a lambda. -/
def lambda? : Expr → Option (List Parameter × Expr)
  | .lambda parameters body => some (parameters, body)
  | _ => none

/-- An expression without the quotes around it. -/
def unquoted : Expr → Expr
  | .unary .quote operand _ => operand.unquoted
  | e => e
termination_by structural e => e

/-- The body of a lambda under any quotes, and any other expression itself. -/
def lambdaBody (e : Expr) : Expr :=
  match e.unquoted with
  | .lambda _ body => body
  | _ => e

end Expr

end QueryChain
