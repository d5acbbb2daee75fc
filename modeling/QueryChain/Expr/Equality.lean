import QueryChain.Expr.Basic

/-!
# Equality of expressions

Expressions are equal when they are built alike from equal parts. Members are compared by the type
that declares them and by name, embedded queries by their keys.
-/

namespace QueryChain.Expr

mutual

/-- Whether two expressions are equal. -/
def same : Expr → Expr → Bool
  | .constant a s, .constant b t => a.same b && s == t
  | .parameter p, .parameter q => p == q
  | .staticMember m, .staticMember n => m.same n
  | .member a m, .member b n => same a b && m.same n
  | .staticCall m as s, .staticCall n bs t => m == n && sameAll as bs && s == t
  | .call a m as s, .call b n bs t => same a b && m == n && sameAll as bs && s == t
  | .unary o a s, .unary p b t => o == p && same a b && s == t
  | .binary o a a' s, .binary p b b' t => o == p && same a b && same a' b' && s == t
  | .lambda ps a, .lambda qs b => ps == qs && same a b
  | .new s as ms, .new t bs ns => s == t && sameAll as bs && Member.sameAll ms ns
  | .newArray s as, .newArray t bs => s == t && sameAll as bs
  | .memberInit s as ms xs, .memberInit t bs ns ys =>
    s == t && sameAll as bs && Member.sameAll ms ns && sameBindings xs ys
  | .listInit s as ms xs, .listInit t bs ns ys =>
    s == t && sameAll as bs && Member.sameAll ms ns && sameAll xs ys
  | .conditional a a' a'', .conditional b b' b'' => same a b && same a' b' && same a'' b''
  | .typeIs a s, .typeIs b t => same a b && s == t
  | .invoke a as, .invoke b bs => same a b && sameAll as bs
  | .subQuery a, .subQuery b => a.key == b.key
  | _, _ => false
termination_by structural a => a

/-- Whether two lists of expressions are equal item by item. -/
def sameAll : List Expr → List Expr → Bool
  | [], [] => true
  | a :: as, b :: bs => same a b && sameAll as bs
  | _, _ => false
termination_by structural as => as

/-- Whether the same members are given equal values in the same order. -/
def sameBindings : List (Member × Expr) → List (Member × Expr) → Bool
  | [], [] => true
  | (m, a) :: as, (n, b) :: bs => m.same n && same a b && sameBindings as bs
  | _, _ => false
termination_by structural as => as

end

end QueryChain.Expr
