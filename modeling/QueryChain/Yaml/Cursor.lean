/-!
# Places in a YAML text

A cursor is what is left of a text and where that is: layout carries meaning in YAML.
-/

namespace QueryChain.Yaml

/-- What is left of a text, and its place in the whole text. -/
structure Cursor where
  rest : List Char
  index : Nat := 0
  line : Nat := 0
  column : Nat := 0
deriving Repr, Inhabited

/-- Whether a character is a space or a tab. -/
def isGap (c : Char) : Bool :=
  c = ' ' ∨ c = '\t'

/-- Whether a character ends a line. -/
def isBreak (c : Char) : Bool :=
  c = '\n' ∨ c = '\x0d' ∨ c.toNat = 0x85 ∨ c.toNat = 0x2028 ∨ c.toNat = 0x2029

/-- Whether a text starts with a gap or a line end, or is empty. -/
def endsWord : List Char → Bool
  | [] => true
  | c :: _ => isGap c || isBreak c

/-- Whether a character may stand in a text. -/
def isPrintable (c : Char) : Bool :=
  let n := c.toNat
  n = 0x9 ∨ n = 0xa ∨ n = 0xd ∨ (0x20 ≤ n ∧ n ≤ 0x7e) ∨ n = 0x85 ∨ (0xa0 ≤ n ∧ n ≤ 0xfffd)
    ∨ 0x10000 ≤ n

/-- Whether a character opens or closes a flow collection. -/
def isBracket (c : Char) : Bool :=
  c = '[' ∨ c = ']' ∨ c = '\x7b' ∨ c = '\x7d'

namespace Cursor

/-- The place behind one character of a line. -/
def next (s : Cursor) : Cursor :=
  { s with rest := s.rest.drop 1, index := s.index + 1, column := s.column + 1 }

/-- The place behind `n` characters of a line. -/
def skip (s : Cursor) (n : Nat) : Cursor :=
  { s with rest := s.rest.drop n, index := s.index + n, column := s.column + n }

/-- The place behind a line end; a carriage return and a line feed make one. -/
def nextLine (s : Cursor) : Cursor :=
  let n := match s.rest with
    | '\x0d' :: '\n' :: _ => 2
    | _ => 1
  { rest := s.rest.drop n, index := s.index + n, line := s.line + 1, column := 0 }

/-- The character that a line end at the cursor leaves in a value. -/
def breakChar (s : Cursor) : Char :=
  match s.rest with
  | c :: _ => if c.toNat = 0x2028 ∨ c.toNat = 0x2029 then c else '\n'
  | [] => '\n'

/-- Whether a document starts here. -/
def atDocumentStart (s : Cursor) : Bool :=
  s.column == 0 && match s.rest with
    | '-' :: '-' :: '-' :: rest => endsWord rest
    | _ => false

/-- Whether a document ends here. -/
def atDocumentEnd (s : Cursor) : Bool :=
  s.column == 0 && match s.rest with
    | '.' :: '.' :: '.' :: rest => endsWord rest
    | _ => false

end Cursor

end QueryChain.Yaml
