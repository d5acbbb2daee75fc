import QueryChain.Json.Read
import QueryChain.Yaml.Cursor

/-!
# YAML scalars

Plain and quoted scalars. Blanks inside a line are kept; a single line end between words is a space,
and further ones are kept. Each reader takes a number of steps that is at least the number of
characters left, so it does not run out.
-/

namespace QueryChain.Yaml

/-- The blanks met since the last word of a scalar. -/
structure Gap where
  /-- Spaces and tabs before any line end, the last one first. -/
  spaces : List Char := []
  /-- Whether there is a line end, or an escaped one. -/
  broken : Bool := false
  /-- What the first line end leaves in the value. -/
  first : Option Char := none
  /-- What the further line ends leave in the value, the last one first. -/
  further : List Char := []
deriving Repr, Inhabited

namespace Gap

/-- Adds a space or tab. Those at the start of a line do not count. -/
def addSpace (g : Gap) (c : Char) : Gap :=
  if g.broken then g else { g with spaces := c :: g.spaces }

/-- Adds a line end. -/
def addBreak (g : Gap) (c : Char) : Gap :=
  if g.broken then { g with further := c :: g.further }
  else { g with spaces := [], broken := true, first := some c }

/-- What a gap leaves in the value, the last character first. -/
def joined (g : Gap) : List Char :=
  if !g.broken then g.spaces
  else match g.first with
    | some '\n' => if g.further.isEmpty then [' '] else g.further
    | some c => g.further ++ [c]
    | none => g.further

end Gap

/-- Takes in the blanks between two words of a scalar. Where `indent` is given, a tab may not stand
in a line before that column. -/
def readGap (indent : Option Int) : Nat → Cursor → Gap → Option (Gap × Cursor)
  | 0, s, g => some (g, s)
  | steps + 1, s, g =>
    match s.rest with
    | [] => some (g, s)
    | c :: _ =>
      if isGap c then
        let abuse := match indent with
          | some column => g.broken && (s.column : Int) < column && c = '\t'
          | none => false
        if abuse then none else readGap indent steps s.next (g.addSpace c)
      else if isBreak c then readGap indent steps s.nextLine (g.addBreak s.breakChar)
      else some (g, s)

/-! ## Plain scalars -/

/-- Takes in one word of a plain scalar, whose characters so far are `value`, the last one first. In
a flow collection a colon may not stand before a bracket or a comma. -/
def readPlainWord (flow : Bool) : Nat → Cursor → List Char → Option (List Char × Cursor)
  | 0, s, value => some (value, s)
  | steps + 1, s, value =>
    match s.rest with
    | [] => some (value, s)
    | c :: rest =>
      if isGap c || isBreak c then some (value, s)
      else if c = ':' && endsWord rest then some (value, s)
      else if flow && c = ':' && (rest.take 1).any (fun d => d = ',' || d = '?' || isBracket d) then
        none
      else if flow && (c = ',' || isBracket c) then some (value, s)
      else readPlainWord flow steps s.next (c :: value)

/-- Reads a plain scalar, and says whether a line ends behind it. Its lines after the first stand
in column `indent` or to the right of it, unless it is in a flow collection. -/
def readPlain (flow : Bool) (indent : Int) :
    Nat → Cursor → List Char → Gap → Option (List Char × Bool × Cursor)
  | 0, s, value, g => some (value, g.broken, s)
  | steps + 1, s, value, g =>
    if s.atDocumentStart || s.atDocumentEnd || s.rest.head? = some '#' then
      some (value, g.broken, s)
    else
      match readPlainWord flow (s.rest.length + 1) s [] with
      | none => none
      | some ([], _) => some (value, g.broken, s)
      | some (word, behind) =>
        let value := word ++ g.joined ++ value
        if behind.rest.isEmpty || !endsWord behind.rest then some (value, false, behind)
        else
          match readGap (some indent) (behind.rest.length + 1) behind {} with
          | none => none
          | some (g, s) =>
            if !flow && (s.column : Int) < indent then some (value, g.broken, s)
            else readPlain flow indent steps s value g

/-! ## Quoted scalars -/

/-- The code of an escape of one letter in a double-quoted scalar. -/
def letterEscape? (c : Char) : Option Nat :=
  match c with
  | '0' => some 0x0
  | 'a' => some 0x7
  | 'b' => some 0x8
  | 't' => some 0x9
  | '\t' => some 0x9
  | 'n' => some 0xa
  | 'v' => some 0xb
  | 'f' => some 0xc
  | 'r' => some 0xd
  | 'e' => some 0x1b
  | ' ' => some 0x20
  | '"' => some 0x22
  | '/' => some 0x2f
  | '\\' => some 0x5c
  | 'N' => some 0x85
  | '_' => some 0xa0
  | 'L' => some 0x2028
  | 'P' => some 0x2029
  | _ => none

/-- The number of hexadecimal digits that follow an escape letter. -/
def escapeDigits? (c : Char) : Option Nat :=
  match c with
  | 'x' => some 2
  | 'u' => some 4
  | 'U' => some 8
  | _ => none

/-- The number that hexadecimal digits spell. -/
def hexNumber? (digits : List Char) : Option Nat :=
  digits.foldlM (fun n c => (JsonValue.hexValue? c).map (16 * n + ·)) 0

/-- The character that `count` hexadecimal digits at the start of a text stand for. -/
def hexChar? (count : Nat) (cs : List Char) : Option Char :=
  if cs.length < count then none
  else
    match hexNumber? (cs.take count) with
    | some n => if n.isValidChar then some (Char.ofNat n) else none
    | none => none

/-- Takes in one word of a quoted scalar, whose characters so far are `value`, the last one first.
An escaped line end starts a gap. -/
def readQuotedWord (double : Bool) :
    Nat → Cursor → List Char → Option (List Char × Gap × Cursor)
  | 0, _, _ => none
  | steps + 1, s, value =>
    match s.rest with
    | [] => some (value, {}, s)
    | c :: rest =>
      if isGap c || isBreak c then some (value, {}, s)
      else if !double && c = '\'' && rest.head? = some '\'' then
        readQuotedWord double steps (s.skip 2) ('\'' :: value)
      else if c = (if double then '"' else '\'') then some (value, {}, s)
      else if double && c = '\\' then
        match rest with
        | [] => none
        | e :: digits =>
          if isBreak e then some (value, { broken := true }, s.next.nextLine)
          else
            match escapeDigits? e, letterEscape? e with
            | some count, _ =>
              match hexChar? count digits with
              | some d => readQuotedWord double steps (s.skip (2 + count)) (d :: value)
              | none => none
            | none, some code =>
              readQuotedWord double steps (s.skip 2) (Char.ofNat code :: value)
            | none, none => none
      else readQuotedWord double steps s.next (c :: value)

/-- Reads a quoted scalar behind its opening quote. -/
def readQuoted (double : Bool) : Nat → Cursor → List Char → Option (List Char × Cursor)
  | 0, _, _ => none
  | steps + 1, s, value =>
    if s.atDocumentStart || s.atDocumentEnd || s.rest.isEmpty then none
    else
      match readQuotedWord double (s.rest.length + 1) s value with
      | none => none
      | some (value, g, s) =>
        if s.rest.head? = some (if double then '"' else '\'') then some (value, s.next)
        else
          match readGap none (s.rest.length + 1) s g with
          | none => none
          | some (g, s) => readQuoted double steps s (g.joined ++ value)

end QueryChain.Yaml
