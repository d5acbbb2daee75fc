import QueryChain.Schema.Document
import QueryChain.Yaml.Token

/-!
# YAML documents

The tokens of a text are put together into one document. A value that is left out is an empty plain
scalar, and so is a text without any token.
-/

namespace QueryChain.Yaml

/-- A value in a document. -/
inductive Node where
  | scalar (plain : Bool) (text : String)
  | sequence (items : List Node)
  | mapping (entries : List (Node × Node))
deriving Repr, Inhabited

/-- A value that is left out. -/
def Node.missing : Node := .scalar true ""

/-- Whether one of `marks` comes next, or nothing at all. -/
def stopsAt (marks : List Token) : List Token → Bool
  | [] => true
  | t :: _ => marks.contains t

mutual

/-- Reads a value. In a block, a sequence that is the value of a key needs no indentation. Each step
takes in a token, or is one of two on a token, so twice the number of tokens is enough steps. -/
def readNode (block indentless : Bool) : Nat → List Token → Option (Node × List Token)
  | 0, _ => none
  | steps + 1, ts =>
    match ts with
    | .scalar plain text :: rest => some (.scalar plain text, rest)
    | .flowSequenceStart :: rest => do
      let (items, rest) ← readFlowSequence steps true rest
      return (.sequence items, rest)
    | .flowMappingStart :: rest => do
      let (entries, rest) ← readFlowMapping steps true rest
      return (.mapping entries, rest)
    | .blockSequenceStart :: rest =>
      if block then do
        let (items, rest) ← readBlockSequence steps rest
        return (.sequence items, rest)
      else none
    | .blockMappingStart :: rest =>
      if block then do
        let (entries, rest) ← readBlockMapping steps rest
        return (.mapping entries, rest)
      else none
    | .blockEntry :: _ =>
      if indentless then do
        let (items, rest) ← readIndentless steps ts
        return (.sequence items, rest)
      else none
    | _ => none

/-- Reads a value that is left out if one of `marks` comes next. -/
def readOptional (block indentless : Bool) (marks : List Token) :
    Nat → List Token → Option (Node × List Token)
  | 0, _ => none
  | steps + 1, ts =>
    if stopsAt marks ts then some (.missing, ts) else readNode block indentless steps ts

/-- Reads the entries of a block sequence up to its end. -/
def readBlockSequence : Nat → List Token → Option (List Node × List Token)
  | 0, _ => none
  | steps + 1, ts =>
    match ts with
    | .blockEntry :: rest => do
      let (item, rest) ← readOptional true false [.blockEntry, .blockEnd] steps rest
      let (items, rest) ← readBlockSequence steps rest
      return (item :: items, rest)
    | .blockEnd :: rest => some ([], rest)
    | _ => none

/-- Reads the entries of a sequence that has no marks for its start and end. -/
def readIndentless : Nat → List Token → Option (List Node × List Token)
  | 0, _ => none
  | steps + 1, ts =>
    match ts with
    | .blockEntry :: rest => do
      let (item, rest) ←
        readOptional true false [.blockEntry, .key, .value, .blockEnd] steps rest
      let (items, rest) ← readIndentless steps rest
      return (item :: items, rest)
    | _ => some ([], ts)

/-- Reads the value behind a key in a block. -/
def readBlockValue : Nat → List Token → Option (Node × List Token)
  | 0, _ => none
  | steps + 1, ts =>
    match ts with
    | .value :: rest => readOptional true true [.key, .value, .blockEnd] steps rest
    | _ => some (.missing, ts)

/-- Reads the entries of a block mapping up to its end. -/
def readBlockMapping : Nat → List Token → Option (List (Node × Node) × List Token)
  | 0, _ => none
  | steps + 1, ts =>
    match ts with
    | .key :: rest => do
      let (key, rest) ← readOptional true true [.key, .value, .blockEnd] steps rest
      let (value, rest) ← readBlockValue steps rest
      let (entries, rest) ← readBlockMapping steps rest
      return ((key, value) :: entries, rest)
    | .blockEnd :: rest => some ([], rest)
    | _ => none

/-- Reads the value behind a key in a flow collection that ends with `closing`. -/
def readFlowValue (closing : Token) : Nat → List Token → Option (Node × List Token)
  | 0, _ => none
  | steps + 1, ts =>
    match ts with
    | .value :: rest => readOptional false false [.flowEntry, closing] steps rest
    | _ => some (.missing, ts)

/-- Reads the items of a flow sequence up to its end. A key makes a mapping with one entry; where
the key itself is left out, the mark in its place is passed over. -/
def readFlowSequence : Nat → Bool → List Token → Option (List Node × List Token)
  | 0, _, _ => none
  | steps + 1, first, ts =>
    match ts with
    | .flowSequenceEnd :: rest => some ([], rest)
    | _ => do
      let ts ← if first then some ts else
        match ts with
        | .flowEntry :: rest => some rest
        | _ => none
      match ts with
      | .flowSequenceEnd :: rest => return ([], rest)
      | .key :: rest =>
        let (key, rest) ←
          if stopsAt [.value, .flowEntry, .flowSequenceEnd] rest then
            some (.missing, rest.drop 1)
          else readNode false false steps rest
        let (value, rest) ← readFlowValue .flowSequenceEnd steps rest
        let (items, rest) ← readFlowSequence steps false rest
        return (.mapping [(key, value)] :: items, rest)
      | ts =>
        let (item, rest) ← readNode false false steps ts
        let (items, rest) ← readFlowSequence steps false rest
        return (item :: items, rest)

/-- Reads the entries of a flow mapping up to its end. -/
def readFlowMapping : Nat → Bool → List Token → Option (List (Node × Node) × List Token)
  | 0, _, _ => none
  | steps + 1, first, ts =>
    match ts with
    | .flowMappingEnd :: rest => some ([], rest)
    | _ => do
      let ts ← if first then some ts else
        match ts with
        | .flowEntry :: rest => some rest
        | _ => none
      match ts with
      | .flowMappingEnd :: rest => return ([], rest)
      | .key :: rest =>
        let (key, rest) ← readOptional false false [.value, .flowEntry, .flowMappingEnd] steps rest
        let (value, rest) ← readFlowValue .flowMappingEnd steps rest
        let (entries, rest) ← readFlowMapping steps false rest
        return ((key, value) :: entries, rest)
      | ts =>
        let (key, rest) ← readNode false false steps ts
        let (entries, rest) ← readFlowMapping steps false rest
        return ((key, .missing) :: entries, rest)

end

/-- Reads the document that the tokens of a text make, and the tokens behind it. -/
def readDocument (ts : List Token) : Option (Node × List Token) :=
  let steps := 3 * ts.length + 3
  match ts with
  | [] => some (.missing, [])
  | .documentStart :: rest =>
    readOptional true false [.documentStart, .documentEnd] steps rest
  | ts => readNode true false steps ts

/-- The one document of a text. -/
def read? (text : String) : Option Node := do
  let (node, rest) ← readDocument (← tokens? text)
  if rest.all (· = .documentEnd) then some node else none

namespace Node

/-- The text of a scalar, quoted or not. -/
def text? : Node → Option String
  | .scalar _ text => some text
  | _ => none

/-- The truth value that a plain scalar spells. -/
def flag? : Node → Option Bool
  | .scalar true text =>
    if text = "true" ∨ text = "True" ∨ text = "TRUE" then some true
    else if text = "false" ∨ text = "False" ∨ text = "FALSE" then some false
    else none
  | _ => none

/-- Whether a plain scalar spells that there is no value. -/
def spellsNothing (text : String) : Bool :=
  text = "" ∨ text = "~" ∨ text = "null" ∨ text = "Null" ∨ text = "NULL"

/-- The text of a scalar, if it does not spell that there is none. -/
def optionalText? : Node → Option (Option String)
  | .scalar plain text => some (if plain && spellsNothing text then none else some text)
  | _ => none

/-- The entries of a mapping; a value that is left out is an empty mapping. -/
def entries? : Node → Option (List (String × Node))
  | .scalar true "" => some []
  | .mapping entries => entries.mapM fun (key, value) => key.text?.map (·, value)
  | _ => none

instance : Document Node where
  text? := text?
  flag? := flag?
  optionalText? := optionalText?
  entries? := entries?
  fields? _ := entries?

end Node

end QueryChain.Yaml
