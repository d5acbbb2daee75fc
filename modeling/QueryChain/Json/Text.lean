import QueryChain.Json.Number

/-!
# Writing JSON

The compact text of a JSON value, without any blank. Strings escape quotes, backslashes and control
characters only.
-/

namespace QueryChain.JsonValue

/-- A hexadecimal digit. -/
def hexDigit (n : Nat) : Char :=
  Nat.digitChar (n % 16)

/-- The characters of `c` in a string. -/
def escape (c : Char) : List Char :=
  if c = '"' then ['\\', '"']
  else if c = '\\' then ['\\', '\\']
  else if c.toNat = 8 then ['\\', 'b']
  else if c.toNat = 9 then ['\\', 't']
  else if c.toNat = 10 then ['\\', 'n']
  else if c.toNat = 12 then ['\\', 'f']
  else if c.toNat = 13 then ['\\', 'r']
  else if c.toNat < 32 then ['\\', 'u', '0', '0', hexDigit (c.toNat / 16), hexDigit c.toNat]
  else [c]

/-- The characters of a text between quotes. -/
def quote (s : String) : List Char :=
  '"' :: s.toList.flatMap escape ++ ['"']

/-- Character lists with commas between them. -/
def separate : List (List Char) → List Char
  | [] => []
  | [cs] => cs
  | cs :: rest => cs ++ ',' :: separate rest

mutual

/-- The characters of a value. -/
def chars : JsonValue → List Char
  | .null => ['n', 'u', 'l', 'l']
  | .bool true => ['t', 'r', 'u', 'e']
  | .bool false => ['f', 'a', 'l', 's', 'e']
  | .number n => n.chars
  | .string text => quote (text.getD "")
  | .array items => '[' :: separate (itemChars items) ++ [']']
  | .object fields => '\x7b' :: separate (fieldChars fields) ++ ['\x7d']
termination_by structural v => v

/-- The characters of the items of an array. -/
def itemChars : List JsonValue → List (List Char)
  | [] => []
  | v :: vs => chars v :: itemChars vs
termination_by structural vs => vs

/-- The characters of the fields of an object. -/
def fieldChars : List (Option String × JsonValue) → List (List Char)
  | [] => []
  | (name, v) :: fields => (quote (name.getD "") ++ ':' :: chars v) :: fieldChars fields
termination_by structural fields => fields

end

/-- The text of a value. -/
def text (v : JsonValue) : String :=
  String.ofList v.chars

end QueryChain.JsonValue
