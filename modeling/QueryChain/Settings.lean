import QueryChain.Yaml.Node

/-!
# Settings

Settings are the prefix of the aliases that joined tables get and the path of the mapping schema.
Aliases end up in the text of queries, so the prefix must be a short identifier.
-/

namespace QueryChain

/-- What can be set. -/
structure Settings where
  /-- Joined tables are named after it, with a number behind. -/
  aliasPrefix : String := "j"
  schemaPath : Option String := none
deriving DecidableEq, Repr, Inhabited

/-- A rule for alias prefixes. -/
inductive PrefixRule where
  | length
  | identifier
deriving DecidableEq, Repr, Inhabited

namespace PrefixRule

/-- Whether an identifier may start with a character. -/
def startsIdentifier (c : Char) : Bool :=
  c.isAlpha || c == '_'

/-- Whether an identifier may go on with a character. -/
def continuesIdentifier (c : Char) : Bool :=
  c.isAlphanum || c == '_'

/-- Whether a text is an identifier. -/
def isIdentifier (text : String) : Bool :=
  match text.toList with
  | [] => false
  | c :: cs => startsIdentifier c && cs.all continuesIdentifier

/-- Whether a text obeys a rule. -/
def holds (rule : PrefixRule) (text : String) : Bool :=
  match rule with
  | .length => 1 ≤ text.length ∧ text.length ≤ 16
  | .identifier => isIdentifier text

/-- What a rule demands. -/
def message : PrefixRule → String
  | .length => "Alias prefix must be 1 to 16 characters"
  | .identifier => "Alias prefix must be an identifier (letters, digits, '_')"

/-- The rules that a text breaks. -/
def broken (text : String) : List PrefixRule :=
  [.length, .identifier].filter (!·.holds text)

end PrefixRule

/-- A reason why there are no settings to work with. -/
inductive SettingsError where
  /-- The value of an environment variable is not text. -/
  | notText
  /-- The value of a field describes no settings. -/
  | unparsable (field value : String)
  /-- The alias prefix breaks rules. -/
  | invalid (rules : List PrefixRule)
deriving DecidableEq, Repr, Inhabited

/-- The text of an error. -/
def SettingsError.message : SettingsError → String
  | .notText => "Environment variable error: environment variable was not valid unicode"
  | .unparsable field value => "Parse error for " ++ field ++ ": " ++ value
  | .invalid rules =>
    "Validation error: alias_prefix: " ++ ", ".intercalate (rules.map (·.message))

namespace Settings

/-- Settings whose alias prefix obeys the rules. -/
def validated (s : Settings) : Except SettingsError Settings :=
  match PrefixRule.broken s.aliasPrefix with
  | [] => .ok s
  | rules => .error (.invalid rules)

open Document in
/-- Reads settings, without checking them. -/
def read? {α : Type} [Document α] (document : α) : Option Settings := do
  let fields ← fields? ["alias_prefix", "schema_path"] document
  return {
    aliasPrefix := ← withDefault? fields "alias_prefix" text? ({} : Settings).aliasPrefix
    schemaPath := ← withDefault? fields "schema_path" optionalText? none }

/-- The settings that a YAML text describes. Block scalars, anchors, tags and directives are no part
of the YAML that is read here, so a text that has any of them describes no settings. -/
def ofYaml (text : String) : Except SettingsError Settings :=
  match (Yaml.read? text).bind read? with
  | some settings => settings.validated
  | none => .error (.unparsable "yaml_content" text)

/-- The settings in a YAML file, from its bytes if there is such a file. -/
def ofYamlFile (content : Option ByteArray) : Except SettingsError Settings :=
  match content.bind String.fromUTF8? with
  | some text => ofYaml text
  | none => .error (.unparsable "yaml_file" "file read failed")

/-- The text of an environment variable, from its bytes if it is set. -/
def variableText (content : Option ByteArray) : Except SettingsError (Option String) :=
  match content with
  | none => .ok none
  | some bytes =>
    match String.fromUTF8? bytes with
    | some text => .ok (some text)
    | none => .error .notText

/-- The settings in the environment, from the two variables if they are set. -/
def ofEnvironment (aliasPrefix schemaPath : Option ByteArray) : Except SettingsError Settings := do
  let aliasPrefix := (← variableText aliasPrefix).getD ({} : Settings).aliasPrefix
  let settings : Settings := { aliasPrefix, schemaPath := ← variableText schemaPath }
  settings.validated

end Settings

end QueryChain
