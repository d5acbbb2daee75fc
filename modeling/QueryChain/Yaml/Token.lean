import QueryChain.Yaml.Scalar

/-!
# YAML tokens

A text is split into scalars and marks. Indentation becomes marks for the start and end of block
collections. A scalar or flow collection can turn out to be a key only when the colon behind it is
met; the mark for the key is then put in front of it. Anchors, tags, directives and block scalars
are not read.
-/

namespace QueryChain.Yaml

/-- A token. -/
inductive Token where
  | documentStart
  | documentEnd
  | blockSequenceStart
  | blockMappingStart
  | blockEnd
  | flowSequenceStart
  | flowSequenceEnd
  | flowMappingStart
  | flowMappingEnd
  | blockEntry
  | flowEntry
  | key
  | value
  | scalar (plain : Bool) (text : String)
deriving DecidableEq, Repr, Inhabited

/-- A token that may turn out to be a key: the number of tokens before it, and its place. -/
structure SimpleKey where
  position : Nat
  index : Nat
  line : Nat
  column : Nat
  /-- Whether nothing but a key can stand there. -/
  required : Bool
deriving DecidableEq, Repr, Inhabited

/-- A text that is split into tokens as far as its cursor. -/
structure Scanner where
  cursor : Cursor
  /-- The tokens so far, the last one first. -/
  tokens : List Token := []
  /-- The number of flow collections that are open. -/
  flow : Nat := 0
  /-- The column of the innermost block collection, and of those around it. -/
  indent : Int := -1
  indents : List Int := []
  /-- Whether a key may start here. -/
  keyAllowed : Bool := true
  /-- The possible keys, for each open flow collection and the blocks around them. -/
  keys : List (Option SimpleKey) := [none]
deriving Repr, Inhabited

namespace Scanner

/-- Adds a token. -/
def push (s : Scanner) (token : Token) : Scanner :=
  { s with tokens := token :: s.tokens }

/-- Puts a token in front of all but the first `position` tokens. -/
def insertAt (s : Scanner) (position : Nat) (token : Token) : Scanner :=
  let later := s.tokens.length - position
  { s with tokens := s.tokens.take later ++ token :: s.tokens.drop later }

/-- Moves the cursor. -/
def moveTo (s : Scanner) (cursor : Cursor) : Scanner :=
  { s with cursor }

/-- Replaces the innermost possible key. -/
def setKey (s : Scanner) (key : Option SimpleKey) : Scanner :=
  { s with keys := key :: s.keys.drop 1 }

/-- Whether a possible key is too far back: on an earlier line, or by more than 1024 characters. -/
def isStale (s : Scanner) (key : SimpleKey) : Bool :=
  key.line < s.cursor.line || key.index + 1024 < s.cursor.index

/-- Gives up the possible keys that are too far back. A required key cannot be given up. -/
def dropStale (s : Scanner) : Option Scanner := do
  let keys ← s.keys.mapM fun
    | none => some none
    | some key =>
      if !s.isStale key then some (some key)
      else if key.required then none
      else some none
  return { s with keys }

/-- Gives up the innermost possible key. -/
def dropKey (s : Scanner) : Option Scanner :=
  match s.keys with
  | some key :: _ => if key.required then none else some (s.setKey none)
  | _ => some s

/-- Notes that the next token may be a key. -/
def noteKey (s : Scanner) : Option Scanner :=
  if s.keyAllowed then do
    let s ← s.dropKey
    let c := s.cursor
    return s.setKey (some {
      position := s.tokens.length, index := c.index, line := c.line, column := c.column
      required := s.flow = 0 ∧ s.indent = c.column })
  else some s

/-- Opens a block collection in column `column`, unless one is open there. The mark is put behind
the first `position` tokens. -/
def openBlock (s : Scanner) (column position : Nat) (token : Token) : Scanner :=
  if s.flow = 0 ∧ s.indent < column then
    { s.insertAt position token with indents := s.indent :: s.indents, indent := column }
  else s

/-- Closes the block collections `indents` that stand to the right of `column`. -/
def closeInto (column : Int) (s : Scanner) : List Int → Scanner
  | [] => s
  | outer :: indents =>
    if column < s.indent then
      closeInto column { s.push .blockEnd with indent := outer, indents } indents
    else s

/-- Closes the block collections to the right of `column`. -/
def closeBlocks (s : Scanner) (column : Int) : Scanner :=
  if s.flow = 0 then closeInto column s s.indents else s

/-- Skips a comment. -/
def skipComment : Nat → Cursor → Cursor
  | 0, c => c
  | steps + 1, c =>
    match c.rest with
    | [] => c
    | d :: _ => if isBreak d then c else skipComment steps c.next

/-- Whether a character between tokens is skipped: a space, a tab that does not indent, or a byte
order mark at the start of a line. Each takes up a column. -/
def skips (s : Scanner) (c : Char) : Bool :=
  c = ' ' || (c = '\t' && (s.flow ≠ 0 || !s.keyAllowed)) || (c = '\ufeff' && s.cursor.column == 0)

/-- Skips blanks, comments and line ends. -/
def skipToToken : Nat → Scanner → Scanner
  | 0, s => s
  | steps + 1, s =>
    match s.cursor.rest with
    | [] => s
    | c :: _ =>
      if s.skips c then
        skipToToken steps (s.moveTo s.cursor.next)
      else if c = '#' then
        skipToToken steps (s.moveTo (skipComment s.cursor.rest.length s.cursor))
      else if isBreak c then
        let s := s.moveTo s.cursor.nextLine
        skipToToken steps (if s.flow = 0 then { s with keyAllowed := true } else s)
      else s

/-- Reads the mark of a document's start or end. -/
def documentMark (s : Scanner) (token : Token) : Option Scanner := do
  let s ← (s.closeBlocks (-1)).dropKey
  return { (s.push token).moveTo (s.cursor.skip 3) with keyAllowed := false }

/-- Reads an opening bracket. -/
def openFlow (s : Scanner) (token : Token) : Option Scanner := do
  let s ← s.noteKey
  let s := (s.push token).moveTo s.cursor.next
  return { s with flow := s.flow + 1, keys := none :: s.keys, keyAllowed := true }

/-- Reads a closing bracket. -/
def closeFlow (s : Scanner) (token : Token) : Option Scanner := do
  let s ← s.dropKey
  let s := (s.push token).moveTo s.cursor.next
  let keys := if s.flow = 0 then s.keys else s.keys.drop 1
  return { s with flow := s.flow - 1, keys, keyAllowed := false }

/-- Reads a comma. -/
def comma (s : Scanner) : Option Scanner := do
  let s ← s.dropKey
  return { (s.push .flowEntry).moveTo s.cursor.next with keyAllowed := true }

/-- Reads the dash of a block sequence's entry. -/
def dash (s : Scanner) : Option Scanner := do
  if s.flow = 0 && !s.keyAllowed then none
  let s ← (s.openBlock s.cursor.column s.tokens.length .blockSequenceStart).dropKey
  return { (s.push .blockEntry).moveTo s.cursor.next with keyAllowed := true }

/-- Reads the question mark before a key. -/
def question (s : Scanner) : Option Scanner := do
  if s.flow = 0 && !s.keyAllowed then none
  let s ← (s.openBlock s.cursor.column s.tokens.length .blockMappingStart).dropKey
  return { (s.push .key).moveTo s.cursor.next with keyAllowed := s.flow = 0 }

/-- Reads the colon before a value. -/
def colon (s : Scanner) : Option Scanner :=
  match s.keys with
  | some key :: _ =>
    let s := (s.insertAt key.position .key).openBlock key.column key.position .blockMappingStart
    let s := s.setKey none
    some { (s.push .value).moveTo s.cursor.next with keyAllowed := false }
  | _ =>
    if s.flow = 0 && !s.keyAllowed then none
    else
      let s := s.openBlock s.cursor.column s.tokens.length .blockMappingStart
      some { (s.push .value).moveTo s.cursor.next with keyAllowed := s.flow = 0 }

/-- Reads a quoted scalar. -/
def quoted (s : Scanner) (double : Bool) : Option Scanner := do
  let s ← s.noteKey
  let start := s.cursor.next
  let (text, behind) ← readQuoted double (start.rest.length + 1) start []
  let token := .scalar false (String.ofList text.reverse)
  return { (s.push token).moveTo behind with keyAllowed := false }

/-- Reads a plain scalar. -/
def plain (s : Scanner) : Option Scanner := do
  let s ← s.noteKey
  let (text, broken, behind) ←
    readPlain (s.flow ≠ 0) (s.indent + 1) (s.cursor.rest.length + 1) s.cursor [] {}
  let token := .scalar true (String.ofList text.reverse)
  return { (s.push token).moveTo behind with keyAllowed := broken }

/-- The characters that start something other than a plain scalar, unless what follows says so. -/
def isIndicator (c : Char) : Bool :=
  "-?:,#&*!|>'\"%@`".toList.contains c || isBracket c

/-- Whether a plain scalar starts with `c` before `rest`. A gap starts none: a tab that indents is
no token. -/
def startsPlain (s : Scanner) (c : Char) (rest : List Char) : Bool :=
  (!isGap c && !isIndicator c)
    || (c = '-' && !endsWord rest)
    || (s.flow = 0 && (c = '?' || c = ':') && !endsWord rest)

/-- Reads the token at the cursor, where the text goes on with `c` and `rest`. -/
def token (s : Scanner) (c : Char) (rest : List Char) : Option Scanner :=
  if s.cursor.atDocumentStart then s.documentMark .documentStart
  else if s.cursor.atDocumentEnd then s.documentMark .documentEnd
  else if c = '[' then s.openFlow .flowSequenceStart
  else if c = '\x7b' then s.openFlow .flowMappingStart
  else if c = ']' then s.closeFlow .flowSequenceEnd
  else if c = '\x7d' then s.closeFlow .flowMappingEnd
  else if c = ',' then s.comma
  else if c = '-' && endsWord rest then s.dash
  else if c = '?' && (s.flow ≠ 0 || endsWord rest) then s.question
  else if c = ':' && (s.flow ≠ 0 || endsWord rest) then s.colon
  else if c = '\'' then s.quoted false
  else if c = '"' then s.quoted true
  else if s.startsPlain c rest then s.plain
  else none

/-- Ends the text. -/
def finish (s : Scanner) : Option Scanner :=
  (s.closeBlocks (-1)).dropKey

/-- Reads the tokens that are left. -/
def run : Nat → Scanner → Option Scanner
  | 0, _ => none
  | steps + 1, s => do
    let s ← (skipToToken s.cursor.rest.length s).dropStale
    match s.cursor.rest with
    | [] => s.finish
    | c :: rest =>
      let s := s.closeBlocks s.cursor.column
      run steps (← s.token c rest)

end Scanner

/-- The tokens of a text. -/
def tokens? (text : String) : Option (List Token) :=
  let start : Cursor := { rest := text.toList }
  if start.rest.all isPrintable then
    (Scanner.run (start.rest.length + 1) { cursor := start }).map (·.tokens.reverse)
  else none

end QueryChain.Yaml
