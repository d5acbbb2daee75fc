/-!
# Type names

Types are known by name only. A sequence type spells its element type between angle brackets:
`IQueryable<Student>` has the element type `Student`.
-/

namespace QueryChain.TypeName

/-- The type of a query whose elements have type `element`. -/
def queryable (element : String) : String :=
  "IQueryable<" ++ element ++ ">"

/-- The type of a sorted query whose elements have type `element`. -/
def orderedQueryable (element : String) : String :=
  "IOrderedQueryable<" ++ element ++ ">"

/-- The type of an array whose elements have type `element`. -/
def array (element : String) : String :=
  element ++ "[]"

/-- The type of a function whose body has type `result`. -/
def function (result : String) : String :=
  "Func<" ++ result ++ ">"

/-- The characters after the first opening bracket. -/
def afterBracket : List Char → List Char
  | [] => []
  | c :: cs => if c = '<' then cs else afterBracket cs

/-- The element type of a sequence type: what stands between its first `<` and a final `>`, if that
is anything at all. -/
def element? (type : String) : Option String :=
  let inner := afterBracket type.toList
  if inner.getLast? = some '>' ∧ 2 ≤ inner.length then
    some (String.ofList inner.dropLast)
  else
    none

/-- The element type of a sequence type, and any other type itself. -/
def elementOrSelf (type : String) : String :=
  (element? type).getD type

end QueryChain.TypeName
