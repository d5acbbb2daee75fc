import QueryChain.Expr.Basic

/-!
# The text of expressions

Expressions are written much like source text: operators between their operands, lambdas with an
arrow, quotes left out.
-/

namespace QueryChain

/-- The sign of an operator. -/
def BinaryOp.symbol : BinaryOp → String
  | .add => "+"
  | .subtract => "-"
  | .multiply => "*"
  | .divide => "/"
  | .modulo => "%"
  | .equal => "=="
  | .notEqual => "!="
  | .lessThan => "<"
  | .lessThanOrEqual => "<="
  | .greaterThan => ">"
  | .greaterThanOrEqual => ">="
  | .andAlso => "&&"
  | .orElse => "||"
  | .coalesce => "??"
  | .arrayIndex => "[]"

/-- Texts with commas between them. -/
def commaSeparated (texts : List String) : String :=
  ", ".intercalate texts

/-- The text before the arrow of a lambda. -/
def parameterListText : List Parameter → String
  | [p] => p.name
  | ps => "(" ++ commaSeparated (ps.map (·.name)) ++ ")"

/-- Names the texts of arguments after the members that they set. -/
def labelled : List Member → List String → List String
  | _, [] => []
  | [], text :: texts => text :: texts
  | m :: ms, text :: texts => (m.name ++ " = " ++ text) :: labelled ms texts

/-- The text of an object's construction. -/
def newText (type : String) (members : List Member) (arguments : List String) : String :=
  "new " ++ type ++ "(" ++ commaSeparated (labelled members arguments) ++ ")"

/-- Texts between braces, which begin and end a block. -/
def braced (text : String) : String :=
  "\x7b" ++ text ++ "\x7d"

namespace Expr

mutual

/-- The text of an expression. -/
def text : Expr → String
  | .constant value _ => value.text
  | .parameter p => p.name
  | .staticMember m => m.text
  | .member object m => text object ++ "." ++ m.name
  | .staticCall method arguments _ => method ++ "(" ++ commaSeparated (texts arguments) ++ ")"
  | .call object method arguments _ =>
    text object ++ "." ++ method ++ "(" ++ commaSeparated (texts arguments) ++ ")"
  | .unary op operand type =>
    match op with
    | .quote => text operand
    | .convert => "Convert(" ++ text operand ++ ")"
    | .negate => "-" ++ text operand
    | .not => "Not(" ++ text operand ++ ")"
    | .arrayLength => "ArrayLength(" ++ text operand ++ ")"
    | .typeAs => "(" ++ text operand ++ " As " ++ type ++ ")"
  | .binary op left right _ =>
    match op with
    | .arrayIndex => text left ++ "[" ++ text right ++ "]"
    | _ => "(" ++ text left ++ " " ++ op.symbol ++ " " ++ text right ++ ")"
  | .lambda parameters body => parameterListText parameters ++ " => " ++ text body
  | .new type arguments members => newText type members (texts arguments)
  | .newArray elementType elements =>
    "new " ++ TypeName.array elementType ++ " " ++ braced (commaSeparated (texts elements))
  | .memberInit type arguments members bindings =>
    newText type members (texts arguments) ++ " " ++ braced (commaSeparated (bindingTexts bindings))
  | .listInit type arguments members elements =>
    newText type members (texts arguments) ++ " " ++ braced (commaSeparated (texts elements))
  | .conditional test ifTrue ifFalse =>
    "IIF(" ++ text test ++ ", " ++ text ifTrue ++ ", " ++ text ifFalse ++ ")"
  | .typeIs operand type => "(" ++ text operand ++ " Is " ++ type ++ ")"
  | .invoke function arguments =>
    "Invoke(" ++ commaSeparated (text function :: texts arguments) ++ ")"
  | .subQuery query => braced query.text
termination_by structural e => e

/-- The texts of expressions. -/
def texts : List Expr → List String
  | [] => []
  | e :: es => text e :: texts es
termination_by structural es => es

/-- The texts of the values given to members. -/
def bindingTexts : List (Member × Expr) → List String
  | [] => []
  | (m, e) :: rest => (m.name ++ " = " ++ text e) :: bindingTexts rest
termination_by structural bs => bs

end

end Expr

end QueryChain
