import AvroResolution.Compilation.Config
import AvroResolution.Schema.Node

/-!
# Matching the fields of two records

Every field of the reader's record is read from a field of the writer's record
or filled from its default.

A reader field reads the first writer field of its own name.  When two reader
fields have that name, the later one reads it and the earlier one gets nothing.
A reader field whose name the writer lacks reads the writer field named by the
first of its aliases that is still free, if aliases are allowed.

* `Links.ofFields` gives for each writer field the reader field that reads it.
* `Matching.ofFields` adds the reader fields that are left.
-/

namespace AvroResolution

/-- A field of the reader's record and its position there. -/
structure ReaderField where
  index : Nat
  field : Field Node

/-- The fields of a record with their positions. -/
def ReaderField.ofFields (fields : List (Field Node)) : List ReaderField :=
  fields.zipIdx.map fun (field, index) => ⟨index, field⟩

/-- The position of the first field with a given name. -/
def fieldIndex? (fields : List (Field Node)) (name : String) : Option Nat :=
  fields.findIdx? (·.name = name)

/-! ## Links -/

/-- For each field of the writer's record the reader field that reads it. -/
abbrev Links := List (Option ReaderField)

namespace Links

/-- Links a reader field to the writer field of its name. -/
def linkByName (writer : List (Field Node)) (links : Links) (reader : ReaderField) : Links :=
  match fieldIndex? writer reader.field.name with
  | some index => links.set index (some reader)
  | none => links

/-- The first free writer field that an alias of a reader field names. -/
def claim? (writer : List (Field Node)) (links : Links) (reader : ReaderField) : Option Nat :=
  reader.field.aliases.findSome? fun name =>
    match fieldIndex? writer name with
    | some index => if (links[index]?.join).isNone then some index else none
    | none => none

/-- Links a reader field to a writer field named by one of its aliases, unless the
writer has a field of its own name. -/
def linkByAlias (writer : List (Field Node)) (links : Links) (reader : ReaderField) : Links :=
  match fieldIndex? writer reader.field.name with
  | some _ => links
  | none =>
    match links.claim? writer reader with
    | some index => links.set index (some reader)
    | none => links

/-- The links between the fields of two records. -/
def ofFields (config : Config) (writer reader : List (Field Node)) : Links :=
  let readers := ReaderField.ofFields reader
  let byName := readers.foldl (linkByName writer) (List.replicate writer.length none)
  if config.fieldAliases then readers.foldl (linkByAlias writer) byName else byName

/-- Whether some writer field is read by the reader field at `index`. -/
def reads (links : Links) (index : Nat) : Bool :=
  links.any fun link =>
    match link with
    | some reader => reader.index = index
    | none => false

end Links

/-! ## Matchings -/

/-- A reader field that is filled from its default. -/
structure DefaultedField where
  reader : ReaderField
  default : Literal

/-- How the fields of a reader's record come about. -/
structure Matching where
  links : Links
  defaulted : List DefaultedField

namespace Matching

/-- The reader fields for which the writer has no field. -/
def unmatched (links : Links) (writer reader : List (Field Node)) : List ReaderField :=
  (ReaderField.ofFields reader).filter fun field =>
    (fieldIndex? writer field.field.name).isNone && !links.reads field.index

/-- Fields with their defaults, or the name of the first field without one. -/
def defaults : List ReaderField → Except String (List DefaultedField)
  | [] => .ok []
  | reader :: rest =>
    match reader.field.default? with
    | none => .error reader.field.name
    | some literal => (defaults rest).map (⟨reader, literal⟩ :: ·)

/-- The matching of two records, or the name of the first reader field that has
neither a writer field nor a default. -/
def ofFields (config : Config) (writer reader : List (Field Node)) : Except String Matching :=
  let links := Links.ofFields config writer reader
  (defaults (unmatched links writer reader)).map (⟨links, ·⟩)

end Matching

end AvroResolution
