import QueryChain.Expr.Basic

/-!
# Building expressions

Expressions whose types follow from their parts.
-/

namespace QueryChain.Expr

/-- A constant with the type of its value. -/
def ofConstant (value : Constant) : Expr :=
  .constant value value.type

/-- A handle on the table `name`, whose elements have type `elementType`. -/
def table (name elementType : String) : Expr :=
  ofConstant (.queryable { name, elementType })

/-- An expression passed on unevaluated. -/
def quoted (e : Expr) : Expr :=
  .unary .quote e e.type

/-- An operation on two operands. A question has a Boolean answer; any other operation has a value
of its left operand's type. -/
def operation (op : BinaryOp) (left right : Expr) : Expr :=
  .binary op left right (if op.isPredicate then "Boolean" else left.type)

/-- An anonymous object of type `type`, each of its members set by an expression. -/
def anonymous (type : String) (members : List (String × Expr)) : Expr :=
  .new type (members.map (·.2))
    (members.map fun (name, e) => { declaringType := type, name, type := e.type })

/-- The type of what a lambda computes, and the type of any other expression. -/
def resultType : Expr → String
  | .lambda _ body => body.type
  | e => e.type

end QueryChain.Expr
