import QueryChain.Expr.Basic
import QueryChain.Json.Number
import QueryChain.Json.Read
import QueryChain.Json.Record
import QueryChain.Json.Text

/-!
# Expressions as JSON

Each node is written as an alternative, named after its kind, that holds a record of its parts. An
embedded query has no written form.
-/

namespace QueryChain

open JsonValue (ofText ofFields readRecord? readArray? readName? getText? get? lookup? fields?
  entries? alternative? maxDepth)

/-! ## Writing -/

/-- The written names of the operators with one operand. -/
def UnaryOp.names : List (String × UnaryOp) :=
  [("Convert", .convert), ("Quote", .quote), ("Negate", .negate), ("Not", .not),
    ("ArrayLength", .arrayLength), ("TypeAs", .typeAs)]

/-- The written name of an operator. -/
def UnaryOp.name : UnaryOp → String
  | .convert => "Convert"
  | .quote => "Quote"
  | .negate => "Negate"
  | .not => "Not"
  | .arrayLength => "ArrayLength"
  | .typeAs => "TypeAs"

/-- The written names of the operators with two operands. -/
def BinaryOp.names : List (String × BinaryOp) :=
  [("Add", .add), ("Subtract", .subtract), ("Multiply", .multiply), ("Divide", .divide),
    ("Modulo", .modulo), ("Equal", .equal), ("NotEqual", .notEqual), ("LessThan", .lessThan),
    ("LessThanOrEqual", .lessThanOrEqual), ("GreaterThan", .greaterThan),
    ("GreaterThanOrEqual", .greaterThanOrEqual), ("AndAlso", .andAlso), ("OrElse", .orElse),
    ("Coalesce", .coalesce), ("ArrayIndex", .arrayIndex)]

/-- The written name of an operator. -/
def BinaryOp.name : BinaryOp → String
  | .add => "Add"
  | .subtract => "Subtract"
  | .multiply => "Multiply"
  | .divide => "Divide"
  | .modulo => "Modulo"
  | .equal => "Equal"
  | .notEqual => "NotEqual"
  | .lessThan => "LessThan"
  | .lessThanOrEqual => "LessThanOrEqual"
  | .greaterThan => "GreaterThan"
  | .greaterThanOrEqual => "GreaterThanOrEqual"
  | .andAlso => "AndAlso"
  | .orElse => "OrElse"
  | .coalesce => "Coalesce"
  | .arrayIndex => "ArrayIndex"

namespace Constant

mutual

/-- The written form of a constant. A double that is no number, or infinite, is written as null. -/
def toJson : Constant → JsonValue
  | .null => ofText "Null"
  | .bool value => ofFields [("Bool", .bool value)]
  | .int value => ofFields [("Int", .number (.ofInt value.toInt))]
  | .float value =>
    ofFields [("Float", match Numeral.ofFloat? value with
      | some n => .number n
      | none => .null)]
  | .string value => ofFields [("String", ofText value)]
  | .list items => ofFields [("List", .array (toJsonAll items))]
  | .record fields => ofFields [("Record", .object (toJsonFields fields))]
  | .queryable source =>
    ofFields [("Queryable", ofFields [("name", ofText source.name),
      ("element_type", ofText source.elementType)])]
termination_by structural c => c

/-- The written forms of constants. -/
def toJsonAll : List Constant → List JsonValue
  | [] => []
  | c :: cs => toJson c :: toJsonAll cs
termination_by structural cs => cs

/-- The written forms of the variables of a closure. -/
def toJsonFields : List (String × Constant) → List (Option String × JsonValue)
  | [] => []
  | (name, c) :: fields => (some name, toJson c) :: toJsonFields fields
termination_by structural fields => fields

end

end Constant

/-- The written form of a member. -/
def Member.toJson (m : Member) : JsonValue :=
  ofFields [("declaring_type", ofText m.declaringType), ("name", ofText m.name),
    ("member_type", ofText m.type)]

/-- The written form of a parameter. -/
def Parameter.toJson (p : Parameter) : JsonValue :=
  ofFields [("name", ofText p.name), ("type_name", ofText p.type)]

namespace Expr

/-- The parts of a construction. -/
def newJson (type : String) (arguments : List JsonValue) (members : List Member) : JsonValue :=
  ofFields [("type_name", ofText type), ("arguments", .array arguments),
    ("members", .array (members.map Member.toJson))]

mutual

/-- The written form of an expression, if no query is embedded in it. -/
def toJson? : Expr → Option JsonValue
  | .constant value type =>
    some (ofFields [("Constant", ofFields [("value", value.toJson), ("type_name", ofText type)])])
  | .parameter p => some (ofFields [("Parameter", p.toJson)])
  | .staticMember m =>
    some (ofFields [("MemberAccess", ofFields [("expression", .null), ("member", m.toJson)])])
  | .member object m => do
    let object ← toJson? object
    return ofFields [("MemberAccess", ofFields [("expression", object), ("member", m.toJson)])]
  | .staticCall method arguments type => do
    let arguments ← toJsonAll? arguments
    return ofFields [("Call", ofFields [("object", .null), ("method", ofText method),
      ("arguments", .array arguments), ("type_name", ofText type)])]
  | .call object method arguments type => do
    let object ← toJson? object
    let arguments ← toJsonAll? arguments
    return ofFields [("Call", ofFields [("object", object), ("method", ofText method),
      ("arguments", .array arguments), ("type_name", ofText type)])]
  | .unary op operand type => do
    let operand ← toJson? operand
    return ofFields [("Unary", ofFields [("operator", ofText op.name), ("operand", operand),
      ("type_name", ofText type)])]
  | .binary op left right type => do
    let left ← toJson? left
    let right ← toJson? right
    return ofFields [("Binary", ofFields [("operator", ofText op.name), ("left", left),
      ("right", right), ("type_name", ofText type)])]
  | .lambda parameters body => do
    let body ← toJson? body
    return ofFields [("Lambda", ofFields [("parameters", .array (parameters.map Parameter.toJson)),
      ("body", body)])]
  | .new type arguments members => do
    let arguments ← toJsonAll? arguments
    return ofFields [("New", newJson type arguments members)]
  | .newArray elementType elements => do
    let elements ← toJsonAll? elements
    return ofFields [("NewArray", ofFields [("element_type", ofText elementType),
      ("expressions", .array elements)])]
  | .memberInit type arguments members bindings => do
    let arguments ← toJsonAll? arguments
    let bindings ← toJsonBindings? bindings
    return ofFields [("MemberInit", ofFields [("new_expression", newJson type arguments members),
      ("bindings", .array bindings)])]
  | .listInit type arguments members elements => do
    let arguments ← toJsonAll? arguments
    let elements ← toJsonAll? elements
    return ofFields [("ListInit", ofFields [("new_expression", newJson type arguments members),
      ("initializers", .array elements)])]
  | .conditional test ifTrue ifFalse => do
    let test ← toJson? test
    let ifTrue ← toJson? ifTrue
    let ifFalse ← toJson? ifFalse
    return ofFields [("Conditional", ofFields [("test", test), ("if_true", ifTrue),
      ("if_false", ifFalse)])]
  | .typeIs operand type => do
    let operand ← toJson? operand
    return ofFields [("TypeIs", ofFields [("expression", operand), ("type_operand", ofText type)])]
  | .invoke function arguments => do
    let function ← toJson? function
    let arguments ← toJsonAll? arguments
    return ofFields [("Invoke", ofFields [
      ("expression", function), ("arguments", .array arguments)])]
  | .subQuery _ => none
termination_by structural e => e

/-- The written forms of expressions. -/
def toJsonAll? : List Expr → Option (List JsonValue)
  | [] => some []
  | e :: es => do
    let e ← toJson? e
    let es ← toJsonAll? es
    return e :: es
termination_by structural es => es

/-- The written forms of the values given to members. -/
def toJsonBindings? : List (Member × Expr) → Option (List JsonValue)
  | [] => some []
  | (m, e) :: rest => do
    let e ← toJson? e
    let rest ← toJsonBindings? rest
    return ofFields [("member", m.toJson), ("expression", e)] :: rest
termination_by structural bs => bs

end

/-- The JSON text of an expression, if no query is embedded in it. -/
def jsonText? (e : Expr) : Option String :=
  e.toJson?.map JsonValue.text

end Expr

/-! ## Reading -/

/-- Reads a handle on a table. -/
def Queryable.ofJson? (room : Nat) (v : JsonValue) : Option Queryable :=
  readRecord? ["name", "element_type"] room v fun _ fields =>
    return { name := ← getText? fields "name", elementType := ← getText? fields "element_type" }

/-- Reads a constant that stands where `room` more arrays and objects may be opened. -/
def Constant.ofJson? : Nat → JsonValue → Option Constant
  | 0, v => if readName? 0 v = some "Null" then some .null else none
  | room + 1, v =>
    match alternative? v with
    | some ("Null", none) => some .null
    | some ("Null", some .null) => some .null
    | some ("Bool", some (.bool value)) => some (.bool value)
    | some ("Int", some (.number n)) => n.int?.map .int
    | some ("Float", some (.number n)) => n.float?.map .float
    | some ("String", some (.string (some text))) => some (.string text)
    | some ("Queryable", some v) => (Queryable.ofJson? room v).map .queryable
    | some ("List", some (.array items)) =>
      match room with
      | 0 => none
      | room + 1 => (items.mapM (Constant.ofJson? room)).map .list
    | some ("Record", some (.object fields)) =>
      match room with
      | 0 => none
      | room + 1 => do
        let entries ← entries? (.object fields)
        let values ← entries.mapM fun entry =>
          (Constant.ofJson? room entry.2).map (entry.1, ·)
        return .record (NameMap.ofList values)
    | _ => none

/-- Reads a member. -/
def Member.ofJson? (room : Nat) (v : JsonValue) : Option Member :=
  readRecord? ["declaring_type", "name", "member_type"] room v fun _ fields =>
    return {
      declaringType := ← getText? fields "declaring_type"
      name := ← getText? fields "name"
      type := ← getText? fields "member_type" }

/-- Reads a parameter. -/
def Parameter.ofJson? (room : Nat) (v : JsonValue) : Option Parameter :=
  readRecord? ["name", "type_name"] room v fun _ fields =>
    return { name := ← getText? fields "name", type := ← getText? fields "type_name" }

namespace Expr

/-- The type, arguments and members of a construction. -/
abbrev Construction := String × List Expr × List Member

/-- Reads a construction from its fields, where its arguments are read by `readAll`. -/
def construction? (room : Nat) (readAll : JsonValue → Option (List Expr))
    (fields : List (String × JsonValue)) : Option Construction := do
  let type ← getText? fields "type_name"
  let arguments ← (get? fields "arguments").bind readAll
  let members ← match ← lookup? fields "members" with
    | none => some []
    | some v => readArray? room v Member.ofJson?
  return (type, arguments, members)

/-- The names of the fields of a construction. -/
def constructionFields : List String :=
  ["type_name", "arguments", "members"]

/-- The names of the fields of a node of each kind. -/
def nodeFields (kind : String) : List String :=
  match kind with
  | "Constant" => ["value", "type_name"]
  | "Parameter" => ["name", "type_name"]
  | "MemberAccess" => ["expression", "member"]
  | "Call" => ["object", "method", "arguments", "type_name"]
  | "Unary" => ["operator", "operand", "type_name"]
  | "Binary" => ["operator", "left", "right", "type_name"]
  | "Lambda" => ["parameters", "body"]
  | "New" => constructionFields
  | "NewArray" => ["element_type", "expressions"]
  | "MemberInit" => ["new_expression", "bindings"]
  | "ListInit" => ["new_expression", "initializers"]
  | "Conditional" => ["test", "if_true", "if_false"]
  | "TypeIs" => ["expression", "type_operand"]
  | "Invoke" => ["expression", "arguments"]
  | _ => []

/-- The readers for the parts of a node: an expression, a list of expressions, a construction and a
list of values given to members. -/
structure PartReaders where
  one : JsonValue → Option Expr
  all : JsonValue → Option (List Expr)
  construction : JsonValue → Option Construction
  bindings : JsonValue → Option (List (Member × Expr))

/-- Reads a node of kind `kind` from its fields; its parts stand where `room` more arrays and
objects may be opened. -/
def nodeOfFields? (room : Nat) (read : PartReaders) (kind : String)
    (fields : List (String × JsonValue)) : Option Expr := do
  let text := getText? fields
  let one name := (get? fields name).bind read.one
  let all name := (get? fields name).bind read.all
  /- A part that may be missing or null. -/
  let object (name : String) : Option (Option Expr) := do
    match ← lookup? fields name with
    | none => some none
    | some .null => some none
    | some v => (read.one v).map some
  match kind with
  | "Constant" =>
    return .constant (← (get? fields "value").bind (Constant.ofJson? room)) (← text "type_name")
  | "Parameter" => return .parameter { name := ← text "name", type := ← text "type_name" }
  | "MemberAccess" =>
    let m ← (get? fields "member").bind (Member.ofJson? room)
    match ← object "expression" with
    | none => return .staticMember m
    | some e => return .member e m
  | "Call" =>
    let method ← text "method"
    let arguments ← all "arguments"
    let type ← text "type_name"
    match ← object "object" with
    | none => return .staticCall method arguments type
    | some e => return .call e method arguments type
  | "Unary" =>
    let op ← UnaryOp.names.lookup (← (get? fields "operator").bind (readName? room))
    return .unary op (← one "operand") (← text "type_name")
  | "Binary" =>
    let op ← BinaryOp.names.lookup (← (get? fields "operator").bind (readName? room))
    return .binary op (← one "left") (← one "right") (← text "type_name")
  | "Lambda" =>
    let parameters ← (get? fields "parameters").bind (readArray? room · Parameter.ofJson?)
    return .lambda parameters (← one "body")
  | "New" =>
    let (type, arguments, members) ← construction? room read.all fields
    return .new type arguments members
  | "NewArray" => return .newArray (← text "element_type") (← all "expressions")
  | "MemberInit" =>
    let (type, arguments, members) ← (get? fields "new_expression").bind read.construction
    return .memberInit type arguments members (← (get? fields "bindings").bind read.bindings)
  | "ListInit" =>
    let (type, arguments, members) ← (get? fields "new_expression").bind read.construction
    return .listInit type arguments members (← all "initializers")
  | "Conditional" => return .conditional (← one "test") (← one "if_true") (← one "if_false")
  | "TypeIs" => return .typeIs (← one "expression") (← text "type_operand")
  | "Invoke" => return .invoke (← one "expression") (← all "arguments")
  | _ => none

/-- Reads a value given to a member. -/
def binding? (room : Nat) (one : JsonValue → Option Expr) (v : JsonValue) :
    Option (Member × Expr) := do
  let fields ← fields? ["member", "expression"] v
  let m ← (get? fields "member").bind (Member.ofJson? room)
  let e ← (get? fields "expression").bind one
  return (m, e)

/-- The readers for the parts of a node, which stand where `room` more arrays and objects may be
opened. `one` reads an expression there, `item` one that is an item of an array there, and `inner`
one that stands an array or object further in. -/
def partReaders (room : Nat) (one item inner : JsonValue → Option Expr) : PartReaders where
  one := one
  all v :=
    match room, v with
    | _ + 1, .array items => items.mapM item
    | _, _ => none
  construction v :=
    match room with
    | room + 2 => do
      let fields ← fields? constructionFields v
      let readAll : JsonValue → Option (List Expr)
        | .array items => items.mapM inner
        | _ => none
      construction? (room + 1) readAll fields
    | _ => none
  bindings v :=
    match room, v with
    | 1, .array [] => some []
    | room + 2, .array items => items.mapM (binding? room inner)
    | _, _ => none

/-- Reads a node; its parts stand where `room` more arrays and objects may be opened. -/
def node? (room : Nat) (read : PartReaders) (v : JsonValue) : Option Expr :=
  match alternative? v with
  | some (kind, some v) => (fields? (nodeFields kind) v).bind (nodeOfFields? room read kind)
  | _ => none

/-- Reads an expression that stands where `room` more arrays and objects may be opened. -/
def ofJson? : Nat → JsonValue → Option Expr
  | room + 2 =>
    let item := match room with
      | room + 1 => ofJson? room
      | _ => fun _ => none
    let inner := match room with
      | room + 2 => ofJson? room
      | _ => fun _ => none
    node? room (partReaders room (ofJson? room) item inner)
  | _ => fun _ => none

/-- Reads an expression from its JSON text. -/
def ofJsonText? (s : String) : Option Expr :=
  (JsonValue.read? s).bind (ofJson? maxDepth)

end Expr

end QueryChain
