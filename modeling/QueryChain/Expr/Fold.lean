import QueryChain.Expr.Build
import QueryChain.Expr.Walk
import QueryChain.Integer

/-!
# Folding constants

Subtrees that depend on no parameter are folded into constants, bottom-up. What has no certain
value, such as a division by zero or a sum that leaves the range of integers, stays as it is.
-/

namespace QueryChain

/-- The integer `i` as a constant, if it is in range. -/
def Constant.ofInt? (i : Int) : Option Constant :=
  (int64? i).map .int

namespace BinaryOp

/-- Folds an operation on two integers. Division goes toward zero, and the remainder has the sign of
the left operand; both need a quotient that is in range. -/
def onInts? (op : BinaryOp) (l r : Int64) : Option Constant :=
  match op with
  | .add => Constant.ofInt? (l.toInt + r.toInt)
  | .subtract => Constant.ofInt? (l.toInt - r.toInt)
  | .multiply => Constant.ofInt? (l.toInt * r.toInt)
  | .divide => if r.toInt = 0 then none else Constant.ofInt? (l.toInt.tdiv r.toInt)
  | .modulo =>
    if r.toInt = 0 ∨ ¬InRange (l.toInt.tdiv r.toInt) then none
    else Constant.ofInt? (l.toInt.tmod r.toInt)
  | .lessThan => some (.bool (l < r))
  | .lessThanOrEqual => some (.bool (l ≤ r))
  | .greaterThan => some (.bool (r < l))
  | .greaterThanOrEqual => some (.bool (r ≤ l))
  | _ => none

/-- Folds an operation on two doubles. -/
def onFloats? (op : BinaryOp) (l r : Float) : Option Constant :=
  match op with
  | .add => some (.float (l + r))
  | .subtract => some (.float (l - r))
  | .multiply => some (.float (l * r))
  | .divide => some (.float (l / r))
  | .lessThan => some (.bool (l < r))
  | .lessThanOrEqual => some (.bool (l ≤ r))
  | .greaterThan => some (.bool (r < l))
  | .greaterThanOrEqual => some (.bool (r ≤ l))
  | _ => none

/-- Folds an operation on two numbers. An integer beside a double becomes a double. -/
def onNumbers? (op : BinaryOp) : Constant → Constant → Option Constant
  | .int l, .int r => op.onInts? l r
  | .float l, .float r => op.onFloats? l r
  | .int l, .float r => op.onFloats? (nearestDouble l) r
  | .float l, .int r => op.onFloats? l (nearestDouble r)
  | _, _ => none

/-- Folds an operation on two constants. -/
def onConstants? (op : BinaryOp) (l r : Constant) : Option Constant :=
  match op, l, r with
  | .coalesce, l, r => some (if l.isNull then r else l)
  | .equal, l, r => some (.bool (l.same r))
  | .notEqual, l, r => some (.bool (!l.same r))
  | .andAlso, .bool l, .bool r => some (.bool (l && r))
  | .orElse, .bool l, .bool r => some (.bool (l || r))
  | .add, .string l, .string r => some (.string (l ++ r))
  | .arrayIndex, .list items, .int i => if i < 0 then none else items[i.toInt.toNat]?
  | op, l, r => op.onNumbers? l r

end BinaryOp

/-- Folds an operation on one constant. -/
def UnaryOp.onConstant? (op : UnaryOp) (value : Constant) : Option Constant :=
  match op, value with
  | .convert, value => some value
  | .quote, value => some value
  | .typeAs, value => some value
  | .negate, .int i => Constant.ofInt? (-i.toInt)
  | .negate, .float x => some (.float (-x))
  | .not, .bool b => some (.bool (!b))
  | .arrayLength, .list items => Constant.ofInt? items.length
  | _, _ => none

/-- The variable `name` of a closure. -/
def Constant.captured? (name : String) : Constant → Option Constant
  | .record fields => NameMap.get? fields name
  | _ => none

namespace Expr

/-- The values of expressions that are all constants. -/
def constants? : List Expr → Option (List Constant)
  | [] => some []
  | .constant value _ :: es => (constants? es).map (value :: ·)
  | _ :: _ => none

/-- What a node folds to when its children are folded: a constant, or the one child that decides its
value. -/
def fold? : Expr → Option Expr
  | .unary op (.constant value _) _ => (op.onConstant? value).map ofConstant
  | .binary op (.constant l _) (.constant r _) _ => (op.onConstants? l r).map ofConstant
  | .binary .coalesce (.constant .null _) right _ => some right
  | .conditional (.constant (.bool true) _) ifTrue _ => some ifTrue
  | .conditional (.constant (.bool false) _) _ ifFalse => some ifFalse
  | .member (.constant value _) m => (value.captured? m.name).map ofConstant
  | .newArray _ elements => (constants? elements).map fun values => ofConstant (.list values)
  | _ => none

/-- Folds each node after its children. -/
def folder : Walker Id where
  before _ := none
  after e :=
    match fold? e with
    | some folded => .changed folded
    | none => .unchanged e

/-- Folds every constant part of an expression, and says whether there was one. -/
def folded (e : Expr) : Outcome Expr :=
  e.walk folder

/-- An expression with every constant part folded. -/
def evaluate (e : Expr) : Expr :=
  e.folded.value

end Expr

end QueryChain
