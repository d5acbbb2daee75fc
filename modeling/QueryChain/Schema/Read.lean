import QueryChain.Json.Read
import QueryChain.Json.Record
import QueryChain.Schema.Validate
import QueryChain.Settings

/-!
# Schemas in texts and files

A schema is written in JSON or in YAML. The name of its file tells which.
-/

namespace QueryChain

instance : Document JsonValue where
  text? := JsonValue.text?
  flag? := JsonValue.flag?
  optionalText?
    | .null => some none
    | v => v.text?.map some
  entries? := JsonValue.entries?
  fields? := JsonValue.fields?

/-- A format that schemas are written in. -/
inductive DocumentFormat where
  | json
  | yaml
deriving DecidableEq, Repr, Inhabited

/-- The format of a file. -/
def DocumentFormat.ofPath (path : String) : DocumentFormat :=
  if ".json".toList.isSuffixOf path.toList then .json else .yaml

namespace Schema

/-- The schema that a text describes, unchecked. -/
def ofText? (format : DocumentFormat) (text : String) : Option Schema :=
  match format with
  | .json => (JsonValue.read? text).bind read?
  | .yaml => (Yaml.read? text).bind read?

/-- The schema that a text describes. A YAML text with a block scalar, an anchor, a tag or a directive
is not read, so it is malformed. -/
def ofText (format : DocumentFormat) (text : String) : Except SchemaError Schema :=
  match ofText? format text with
  | some schema => schema.validated
  | none => .error .malformed

/-- The schema that settings name. `file?` finds the bytes of a file. -/
def load (file? : String → Option ByteArray) (settings : Settings) : Except SchemaError Schema :=
  match settings.schemaPath with
  | none => .error .noPath
  | some path =>
    match (file? path).bind String.fromUTF8? with
    | some text => ofText (.ofPath path) text
    | none => .error .unreadable

end Schema

end QueryChain
