import QueryChain.Decimal.Shortest
import QueryChain.NameMap
import QueryChain.TypeName

/-!
# Constants

The values an expression can hold: scalars, lists, the captured variables of a closure and handles
on tables. Two constants are equal when their parts are; numbers are compared as numbers, so a value
that is not a number differs from itself.
-/

namespace QueryChain

/-- A table of the data source, as a value whose elements have type `elementType`. -/
structure Queryable where
  name : String
  elementType : String
deriving DecidableEq, Repr, Inhabited

/-- The value of a constant expression. -/
inductive Constant where
  | null
  | bool (value : Bool)
  | int (value : Int64)
  | float (value : Float)
  | string (value : String)
  | list (items : List Constant)
  /-- The captured variables of a closure, ascending in their names. -/
  | record (fields : List (String × Constant))
  | queryable (source : Queryable)
deriving Inhabited, Repr

namespace Constant

/-- Whether a constant is the null value. -/
def isNull : Constant → Bool
  | .null => true
  | _ => false

/-- The type of a constant's value. -/
def type : Constant → String
  | .null => "Object"
  | .bool _ => "Boolean"
  | .int _ => "Int32"
  | .float _ => "Double"
  | .string _ => "String"
  | .list _ => "Object[]"
  | .record _ => "Closure"
  | .queryable source => TypeName.queryable source.elementType

mutual

/-- The text of a constant. A string stands between quotes as it is, and a closure hides its
variables. -/
def text : Constant → String
  | .null => "null"
  | .bool value => if value then "true" else "false"
  | .int value => toString value.toInt
  | .float value => floatText value
  | .string value => "\"" ++ value ++ "\""
  | .list items => "[" ++ ", ".intercalate (texts items) ++ "]"
  | .record _ => "value(closure)"
  | .queryable source => source.name
termination_by structural c => c

/-- The texts of constants. -/
def texts : List Constant → List String
  | [] => []
  | c :: cs => text c :: texts cs
termination_by structural cs => cs

end

mutual

/-- Whether two constants are equal. -/
def same : Constant → Constant → Bool
  | .null, .null => true
  | .bool a, .bool b => a == b
  | .int a, .int b => a == b
  | .float a, .float b => a == b
  | .string a, .string b => a == b
  | .list as, .list bs => sameItems as bs
  | .record as, .record bs => sameFields as bs
  | .queryable a, .queryable b => a == b
  | _, _ => false
termination_by structural a => a

/-- Whether two lists of constants are equal item by item. -/
def sameItems : List Constant → List Constant → Bool
  | [], [] => true
  | a :: as, b :: bs => same a b && sameItems as bs
  | _, _ => false
termination_by structural as => as

/-- Whether two closures have equal variables under equal names. -/
def sameFields : List (String × Constant) → List (String × Constant) → Bool
  | [], [] => true
  | (n, a) :: as, (m, b) :: bs => n == m && same a b && sameFields as bs
  | _, _ => false
termination_by structural as => as

end

end Constant

end QueryChain
