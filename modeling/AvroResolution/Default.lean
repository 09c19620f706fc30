import AvroResolution.Default.Fault
import AvroResolution.Schema.Registry
import AvroResolution.Wire.Write

/-!
# Encoding defaults

`encodeDefault` writes a literal as a value of a type, as a writer of that type
would have written the value.

A union is written through its first branch.  Strings stand for bytes when every
character is below U+0100, and a fixed value is padded with zeros or cut to its
size.  A record field that the literal omits is filled from the field's own
default, which is *expanded* there.  A default that is expanded while it is
being expanded would never end and is refused.

* `Registry.defaultTarget` finds the type that a literal is written as, below
  logical types, references and unions.
* `Literal.encodeAs` follows the literal, `fillOmitted` the expansions.
-/

namespace AvroResolution

/-- The bytes of a value, or why there are none. -/
abbrev Encoding := Except EncodeFault (List UInt8)

/-! ## The type that is written -/

/-- A type that is neither a union nor a name for another type. -/
inductive PlainType where
  | primitive (type : Primitive)
  | named (definition : Definition)
  | array (items : Node)
  | map (values : Node)

/-- The type that a default is written as, and how many unions lie above it. -/
structure DefaultTarget where
  unions : Nat
  type : PlainType

/-- The number of fields of a record, and zero for other definitions. -/
def Definition.fieldCount : Definition → Nat
  | .record node => node.fields.length
  | _ => 0

namespace Registry

/-- The target of a schema that `ordinal` record definitions come before. -/
def defaultTargetFrom (registry : Registry) (side : Side) (ordinal : Nat) :
    Schema → Except EncodeFault DefaultTarget
  | .primitive type => .ok ⟨0, .primitive type⟩
  | .record heading fields =>
    .ok ⟨0, .named (.record
      ⟨⟨side, ordinal⟩, heading, Node.ofFields side (ordinal + 1) fields⟩)⟩
  | .enum heading symbols default? => .ok ⟨0, .named (.enum heading symbols default?)⟩
  | .fixed heading size => .ok ⟨0, .named (.fixed heading size)⟩
  | .array items => .ok ⟨0, .array ⟨side, ordinal, items⟩⟩
  | .map values => .ok ⟨0, .map ⟨side, ordinal, values⟩⟩
  | .union [] => .error .emptyUnion
  | .union (first :: _) => do
    let target ← registry.defaultTargetFrom side ordinal first
    return { target with unions := target.unions + 1 }
  | .reference name =>
    match registry.find? name with
    | some entry => .ok ⟨0, .named entry.definition⟩
    | none => .error (.unresolvedName name)
  | .logical base _ => registry.defaultTargetFrom side ordinal base

/-- The type that a default of the given node is written as. -/
def defaultTarget (registry : Registry) (node : Node) : Except EncodeFault DefaultTarget :=
  registry.defaultTargetFrom node.side node.ordinal node.schema

/-- The number of record fields that the registry knows. -/
def fieldCount (registry : Registry) : Nat :=
  registry.entries.foldr (fun entry total => entry.definition.fieldCount + total) 0

end Registry

/-! ## Scalars -/

/-- The bytes that the characters of a string stand for. -/
def latin1Bytes (kind : Kind) (literal : Literal) : Encoding :=
  match literal with
  | .string s =>
    s.toList.mapM fun c =>
      if c.toNat < 256 then .ok (UInt8.ofNat c.toNat) else .error (.notLatin1 kind c)
  | other => .error (.wrongKind kind other)

/-- The value of an integer literal between two bounds. -/
def integerLiteral (type : Primitive) (least greatest : Int) : Literal → Except EncodeFault Int
  | .integer n => if least ≤ n ∧ n ≤ greatest then .ok n else .error (.outOfRange n type)
  | other => .error (.notNumeric type other)

/-- The value of a numeric literal. -/
def numberLiteral (type : Primitive) : Literal → Except EncodeFault Binary64
  | .integer n => .ok (Binary64.ofInt n)
  | .float x _ => .ok x
  | other => .error (.notNumeric type other)

/-- A literal as a value of a primitive type. -/
def encodePrimitive (type : Primitive) (literal : Literal) : Encoding :=
  match type with
  | .null =>
    match literal with
    | .null => .ok Step.null.encode
    | other => .error (.wrongKind (.primitive .null) other)
  | .boolean =>
    match literal with
    | .boolean b => .ok (Step.boolean b).encode
    | other => .error (.wrongKind (.primitive .boolean) other)
  | .int => do
    let n ← integerLiteral .int (-2147483648) 2147483647 literal
    return (Step.int (Int32.ofInt n)).encode
  | .long => do
    let n ← integerLiteral .long (-9223372036854775808) 9223372036854775807 literal
    return (Step.long (Int64.ofInt n)).encode
  | .float => do
    let x ← numberLiteral .float literal
    return (Step.float x.toBinary32).encode
  | .double => do
    let x ← numberLiteral .double literal
    return (Step.double x).encode
  | .bytes => do
    let content ← latin1Bytes (.primitive .bytes) literal
    return (Step.bytes content).encode
  | .string =>
    match literal with
    | .string s => .ok (Step.string s).encode
    | other => .error (.wrongKind (.primitive .string) other)

/-- A literal as the ordinal of an enum symbol. -/
def encodeEnum (heading : Heading) (symbols : List String) (literal : Literal) : Encoding :=
  match literal with
  | .string symbol =>
    match symbols.idxOf? symbol with
    | some ordinal => .ok (Step.ordinal ordinal).encode
    | none => .error (.unknownSymbol heading.fullname symbol)
  | other => .error (.wrongKind .enum other)

/-- Bytes padded with zeros or cut to a size. -/
def resize (size : Nat) (content : List UInt8) : List UInt8 :=
  content.take size ++ List.replicate (size - content.length) 0

/-- A literal as a value of a fixed type. -/
def encodeFixed (size : Nat) (literal : Literal) : Encoding := do
  let content ← latin1Bytes .fixed literal
  return (Step.fixed (resize size content)).encode

/-- The items of a collection as its only block, which is left out when there
are none. -/
def encodeBlock (count : Nat) (items : List UInt8) : List UInt8 :=
  (if count = 0 then [] else (Step.count count).encode ++ items) ++ (Step.count 0).encode

/-! ## Parts -/

/-- The entries of a map, each given by its key and the encoder of its value. -/
def encodeMapEntries (values : Node) : List (String × (Node → Encoding)) → Encoding
  | [] => .ok []
  | (key, encode) :: rest => do
    let value ← encode values
    let others ← encodeMapEntries values rest
    return (Step.string key).encode ++ value ++ others

/-- The fields of the record `name`.  A field is written by the encoder under its
name; a field without one is left to `omitted`, with the name of the field's
default. -/
def encodeFields (omitted : String → Node → Literal → Encoding) (name : String)
    (given : List (String × (Node → Encoding))) : List (Field Node) → Encoding
  | [] => .ok []
  | field :: rest => do
    let value ←
      match Literal.entry? field.name given with
      | some encode => encode field.type
      | none =>
        match field.default? with
        | none => .error (.missingDefault field.name)
        | some literal => omitted (name ++ "." ++ field.name) field.type literal
    let others ← encodeFields omitted name given rest
    return value ++ others

namespace Literal

mutual

/-- A literal as a value of the type at `node`.  The default of an omitted field
is written by `omitted`. -/
def encodeAs (registry : Registry) (omitted : String → Node → Literal → Encoding)
    (literal : Literal) (node : Node) : Encoding := do
  let target ← registry.defaultTarget node
  let content ←
    match target.type with
    | .primitive type => encodePrimitive type literal
    | .named (.enum heading symbols _) => encodeEnum heading symbols literal
    | .named (.fixed _ size) => encodeFixed size literal
    | .named (.record record) =>
      match literal with
      | .object entries =>
        encodeFields omitted record.heading.fullname
          (entryEncoders registry omitted entries) record.fields
      | other => .error (.wrongKind .record other)
    | .array items =>
      match literal with
      | .array elements => do
        let body ← encodeElements registry omitted elements items
        .ok (encodeBlock elements.length body)
      | other => .error (.wrongKind .array other)
    | .map values =>
      match literal with
      | .object entries => do
        let body ← encodeMapEntries values (entryEncoders registry omitted entries)
        .ok (encodeBlock entries.length body)
      | other => .error (.wrongKind .map other)
  return (List.replicate target.unions (Step.index 0).encode).flatten ++ content

/-- The elements of an array, one after the other. -/
def encodeElements (registry : Registry) (omitted : String → Node → Literal → Encoding)
    (elements : List Literal) (items : Node) : Encoding :=
  match elements with
  | [] => .ok []
  | element :: rest => do
    let first ← encodeAs registry omitted element items
    let others ← encodeElements registry omitted rest items
    return first ++ others

/-- The entries of an object with their values as encoders. -/
def entryEncoders (registry : Registry) (omitted : String → Node → Literal → Encoding)
    (entries : List (String × Literal)) : List (String × (Node → Encoding)) :=
  match entries with
  | [] => []
  | (key, literal) :: rest =>
    (key, fun node => encodeAs registry omitted literal node) ::
      entryEncoders registry omitted rest

end

end Literal

/-! ## Expansions -/

/-- Writes the default named `key` of an omitted field, while the defaults in
`expanding` are being expanded.  Among more than `budget` further expansions one
would repeat. -/
def fillOmitted (registry : Registry) (budget : Nat) (expanding : List String)
    (key : String) (node : Node) (literal : Literal) : Encoding :=
  match budget with
  | 0 => .error (.recursiveDefault key)
  | budget + 1 =>
    if key ∈ expanding then
      .error (.recursiveDefault key)
    else
      literal.encodeAs registry (fillOmitted registry budget (key :: expanding)) node

/-- A literal as a value of the type at `node`, whose names the registry knows. -/
def encodeDefault (registry : Registry) (node : Node) (literal : Literal) : Encoding :=
  let budget := registry.fieldCount + (Registry.ofRoot node).fieldCount
  literal.encodeAs registry (fillOmitted registry budget []) node

/-- A literal as a value of `schema`, where names are those of the tree `root`. -/
def Schema.encodeDefault (schema root : Schema) (literal : Literal) : Encoding :=
  AvroResolution.encodeDefault (.ofRoot (.root .reader root)) (.root .reader schema) literal

end AvroResolution
