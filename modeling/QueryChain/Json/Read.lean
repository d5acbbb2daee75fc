import QueryChain.Json.Basic

/-!
# Reading JSON

The grammar of JSON texts. Each part of the reader takes the characters that are left and answers
what it found and the characters behind it.
-/

namespace QueryChain.JsonValue

/-- The characters that may stand between the parts of a text. -/
def isSpace (c : Char) : Bool :=
  c = ' ' ∨ c = '\n' ∨ c = '\t' ∨ c = '\x0d'

/-- What is left behind leading blanks. -/
def skipSpace (cs : List Char) : List Char :=
  cs.dropWhile isSpace

/-- Whether a character is a decimal digit. -/
def isDigit (c : Char) : Bool :=
  '0' ≤ c ∧ c ≤ '9'

/-- The value of a hexadecimal digit. -/
def hexValue? (c : Char) : Option Nat :=
  if isDigit c then some (c.toNat - '0'.toNat)
  else if 'a' ≤ c ∧ c ≤ 'f' then some (c.toNat - 'a'.toNat + 10)
  else if 'A' ≤ c ∧ c ≤ 'F' then some (c.toNat - 'A'.toNat + 10)
  else none

/-! ## Strings -/

/-- The character that a short escape stands for. -/
def shortEscape? (c : Char) : Option Nat :=
  match c with
  | '"' => some 0x22
  | '\\' => some 0x5c
  | '/' => some 0x2f
  | 'b' => some 0x08
  | 'f' => some 0x0c
  | 'n' => some 0x0a
  | 'r' => some 0x0d
  | 't' => some 0x09
  | _ => none

/-- The code that four hexadecimal digits spell. -/
def hexCode? (a b c d : Char) : Option Nat := do
  return ((← hexValue? a) * 16 + (← hexValue? b)) * 256 + (← hexValue? c) * 16 + (← hexValue? d)

/-- Puts a code before those of the rest of a string. -/
def consCode (code : Nat) : Option (List Nat × List Char) → Option (List Nat × List Char)
  | some (codes, rest) => some (code :: codes, rest)
  | none => none

/-- Reads a string behind its opening quote, as the codes of its characters and escapes. -/
def readCodes : List Char → Option (List Nat × List Char)
  | [] => none
  | '"' :: rest => some ([], rest)
  | '\\' :: 'u' :: a :: b :: c :: d :: rest =>
    match hexCode? a b c d with
    | some code => consCode code (readCodes rest)
    | none => none
  | '\\' :: c :: rest =>
    match shortEscape? c with
    | some code => consCode code (readCodes rest)
    | none => none
  | c :: rest => if c.toNat < 32 then none else consCode c.toNat (readCodes rest)

/-- Whether a code is the first half of a surrogate pair. -/
def isLead (code : Nat) : Bool :=
  0xd800 ≤ code ∧ code ≤ 0xdbff

/-- Whether a code is the second half of a surrogate pair. -/
def isTrail (code : Nat) : Bool :=
  0xdc00 ≤ code ∧ code ≤ 0xdfff

/-- The characters that codes stand for. Halves of surrogate pairs must stand together. -/
def decodeCodes : List Nat → Option (List Char)
  | [] => some []
  | [code] => if isLead code ∨ isTrail code then none else some [Char.ofNat code]
  | code :: next :: rest =>
    if isTrail code then none
    else if isLead code then
      if isTrail next then
        (decodeCodes rest).map
          (Char.ofNat (0x10000 + (code - 0xd800) * 0x400 + (next - 0xdc00)) :: ·)
      else none
    else
      (decodeCodes (next :: rest)).map (Char.ofNat code :: ·)

/-- Reads a string behind its opening quote. -/
def readString (cs : List Char) : Option (Option String × List Char) :=
  match readCodes cs with
  | some (codes, rest) => some ((decodeCodes codes).map String.ofList, rest)
  | none => none

/-! ## Numbers -/

/-- Reads one or more digits. -/
def readDigits (cs : List Char) : Option (List Char × List Char) :=
  match cs.takeWhile isDigit with
  | [] => none
  | digits => some (digits, cs.dropWhile isDigit)

/-- Reads the whole part of a number, which has no needless zero. -/
def readWhole (cs : List Char) : Option (List Char × List Char) :=
  match readDigits cs with
  | some ('0' :: _ :: _, _) => none
  | other => other

/-- Reads a fraction if there is one. -/
def readFraction : List Char → Option (Option (List Char) × List Char)
  | '.' :: cs =>
    match readDigits cs with
    | some (digits, rest) => some (some digits, rest)
    | none => none
  | cs => some (none, cs)

/-- Reads the sign of an exponent. -/
def readSign : List Char → Bool × List Char
  | '-' :: cs => (true, cs)
  | '+' :: cs => (false, cs)
  | cs => (false, cs)

/-- Reads an exponent if there is one. -/
def readExponent : List Char → Option (Option (Bool × List Char) × List Char)
  | [] => some (none, [])
  | c :: cs =>
    if c = 'e' ∨ c = 'E' then
      match readDigits (readSign cs).2 with
      | some (digits, rest) => some (some ((readSign cs).1, digits), rest)
      | none => none
    else some (none, c :: cs)

/-- Reads a number behind its sign. -/
def readNumber (negative : Bool) (cs : List Char) : Option (Numeral × List Char) := do
  let (whole, cs) ← readWhole cs
  let (fraction, cs) ← readFraction cs
  let (exponent, cs) ← readExponent cs
  return ({ negative, whole, fraction, exponent }, cs)

/-! ## Values -/

mutual

/-- Reads a value. Each step in takes at least half of a character, so `steps` does not run out if
it is at first twice the number of characters. -/
def readValue : Nat → List Char → Option (JsonValue × List Char)
  | 0, _ => none
  | steps + 1, cs =>
    match skipSpace cs with
    | 'n' :: 'u' :: 'l' :: 'l' :: rest => some (.null, rest)
    | 't' :: 'r' :: 'u' :: 'e' :: rest => some (.bool true, rest)
    | 'f' :: 'a' :: 'l' :: 's' :: 'e' :: rest => some (.bool false, rest)
    | '"' :: rest => do
      let (text, rest) ← readString rest
      return (.string text, rest)
    | '[' :: rest =>
      match skipSpace rest with
      | ']' :: rest => some (.array [], rest)
      | rest => do
        let (items, rest) ← readItems steps rest
        return (.array items, rest)
    | '\x7b' :: rest =>
      match skipSpace rest with
      | '\x7d' :: rest => some (.object [], rest)
      | rest => do
        let (fields, rest) ← readFields steps rest
        return (.object fields, rest)
    | '-' :: rest => do
      let (n, rest) ← readNumber true rest
      return (.number n, rest)
    | rest => do
      let (n, rest) ← readNumber false rest
      return (.number n, rest)

/-- Reads the items of an array, up to its end. -/
def readItems : Nat → List Char → Option (List JsonValue × List Char)
  | 0, _ => none
  | steps + 1, cs => do
    let (item, rest) ← readValue steps cs
    match skipSpace rest with
    | ',' :: rest =>
      let (items, rest) ← readItems steps rest
      return (item :: items, rest)
    | ']' :: rest => return ([item], rest)
    | _ => none

/-- Reads the fields of an object, up to its end. -/
def readFields : Nat → List Char → Option (List (Option String × JsonValue) × List Char)
  | 0, _ => none
  | steps + 1, cs =>
    match skipSpace cs with
    | '"' :: rest => do
      let (name, rest) ← readString rest
      match skipSpace rest with
      | ':' :: rest =>
        let (value, rest) ← readValue steps rest
        match skipSpace rest with
        | ',' :: rest =>
          let (fields, rest) ← readFields steps rest
          return ((name, value) :: fields, rest)
        | '\x7d' :: rest => return ([(name, value)], rest)
        | _ => none
      | _ => none
    | _ => none

end

/-- Reads a text that holds one value and nothing else. -/
def read? (s : String) : Option JsonValue :=
  match readValue (2 * s.toList.length + 2) s.toList with
  | some (value, rest) => if (skipSpace rest).isEmpty then some value else none
  | none => none

end QueryChain.JsonValue
