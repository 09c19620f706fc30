import AvroResolution.Schema
import AvroResolution.Literal.Text

/-!
# The JSON form of a schema

`Schema.form` is the literal that declares a schema, defaults included, and
`Schema.text` its compact text.  A primitive type and a reference are strings, a
union is an array, and everything else is an object.  A logical type adds its
keys to the object of its base, or to `{"type": base}` when the base is written
as a string or an array.
-/

namespace AvroResolution

/-! ## The keys of an object -/

/-- An array of strings. -/
def Literal.ofStrings (strings : List String) : Literal :=
  .array (strings.map .string)

/-- The key that lists aliases.  Without aliases there is none. -/
def Literal.aliasEntries (aliases : List String) : List (String × Literal) :=
  if aliases.isEmpty then [] else [("aliases", .ofStrings aliases)]

/-- The keys that every named type has. -/
def Heading.entries (heading : Heading) (kind : Kind) : List (String × Literal) :=
  Literal.aliasEntries heading.aliases ++
    [("name", .string heading.name)] ++
    (heading.space?.map fun space => ("namespace", Literal.string space)).toList ++
    [("type", .string kind.name)]

/-- The keys that a logical type adds. -/
def LogicalType.entries (logicalType : LogicalType) : List (String × Literal) :=
  ("logicalType", .string logicalType.name) ::
    match logicalType with
    | .decimal precision scale => [("precision", .integer precision), ("scale", .integer scale)]
    | _ => []

/-- A literal with the keys of a logical type. -/
def LogicalType.annotate (logicalType : LogicalType) (base : Literal) : Literal :=
  let entries :=
    match base with
    | .object entries => entries
    | other => [("type", other)]
  .ofEntries (entries ++ logicalType.entries)

namespace Schema

/-! ## The form -/

mutual

/-- The literal that declares a schema. -/
def form : Schema → Literal
  | .primitive type => .string type.name
  | .record heading fields =>
    .ofEntries (heading.entries .record ++ [("fields", .array (fieldForms fields))])
  | .enum heading symbols default? =>
    .ofEntries (heading.entries .enum ++ [("symbols", .ofStrings symbols)] ++
      (default?.map fun symbol => ("default", Literal.string symbol)).toList)
  | .fixed heading size =>
    .ofEntries (heading.entries .fixed ++ [("size", .integer size)])
  | .array items => .ofEntries [("items", form items), ("type", .string Kind.array.name)]
  | .map values => .ofEntries [("type", .string Kind.map.name), ("values", form values)]
  | .union branches => .array (branchForms branches)
  | .reference name => .string name
  | .logical base logicalType => logicalType.annotate (form base)

/-- The literals that declare the fields of a record. -/
def fieldForms : List (Field Schema) → List Literal
  | [] => []
  | ⟨name, type, default?, aliases⟩ :: rest =>
    .ofEntries (Literal.aliasEntries aliases ++
      (default?.map fun literal => ("default", literal)).toList ++
      [("name", .string name), ("type", form type)]) :: fieldForms rest

/-- The literals that declare the branches of a union. -/
def branchForms : List Schema → List Literal
  | [] => []
  | branch :: rest => form branch :: branchForms rest

end

/-- The compact JSON text of a schema. -/
def text (schema : Schema) : String :=
  schema.form.text

end Schema

end AvroResolution
