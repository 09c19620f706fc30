import AvroResolution.Schema

/-!
# Nodes of a schema tree

A `Node` is a place in the writer's or in the reader's schema tree.  It knows
how many record definitions come before it in preorder, so that the record
definitions of a tree are told apart by number, also when two of them are equal
as schemas.

* `Node.preorder` lists the nodes of a tree: a node, then its parts from left to
  right.
* `Definition` is a node that defines a name: a record, an enum or a fixed type.
* `Shape` is what a node is once references and logical types are looked
  through.
-/

namespace AvroResolution

/-! ## Nodes -/

/-- The tree that a node belongs to. -/
inductive Side where
  | writer
  | reader
deriving DecidableEq, Repr

/-- A place in a schema tree, with the schema found there. -/
structure Node where
  side : Side
  /-- The number of record definitions before this node in preorder. -/
  ordinal : Nat
  schema : Schema

/-- The root of a tree. -/
def Node.root (side : Side) (schema : Schema) : Node := ⟨side, 0, schema⟩

namespace Schema

mutual

/-- The number of record definitions in a schema. -/
def recordCount : Schema → Nat
  | .record _ fields => 1 + fieldRecordCount fields
  | .array items => recordCount items
  | .map values => recordCount values
  | .union branches => branchRecordCount branches
  | .logical base _ => recordCount base
  | _ => 0

/-- The number of record definitions in the fields of a record. -/
def fieldRecordCount : List (Field Schema) → Nat
  | [] => 0
  | ⟨_, type, _, _⟩ :: rest => recordCount type + fieldRecordCount rest

/-- The number of record definitions in the branches of a union. -/
def branchRecordCount : List Schema → Nat
  | [] => 0
  | branch :: rest => recordCount branch + branchRecordCount rest

end

end Schema

namespace Node

/-- The fields of a record as nodes, the first of which is preceded by
`ordinal` record definitions. -/
def ofFields (side : Side) (ordinal : Nat) : List (Field Schema) → List (Field Node)
  | [] => []
  | ⟨name, type, default?, aliases⟩ :: rest =>
    ⟨name, ⟨side, ordinal, type⟩, default?, aliases⟩ ::
      ofFields side (ordinal + type.recordCount) rest

/-- The branches of a union as nodes, the first of which is preceded by
`ordinal` record definitions. -/
def ofBranches (side : Side) (ordinal : Nat) : List Schema → List Node
  | [] => []
  | branch :: rest =>
    ⟨side, ordinal, branch⟩ :: ofBranches side (ordinal + branch.recordCount) rest

mutual

/-- The nodes of the subtree with the given schema, when `ordinal` record
definitions come before it. -/
def preorderFrom (side : Side) (ordinal : Nat) : Schema → List Node
  | .record heading fields =>
    ⟨side, ordinal, .record heading fields⟩ :: fieldPreorder side (ordinal + 1) fields
  | .array items => ⟨side, ordinal, .array items⟩ :: preorderFrom side ordinal items
  | .map values => ⟨side, ordinal, .map values⟩ :: preorderFrom side ordinal values
  | .union branches =>
    ⟨side, ordinal, .union branches⟩ :: branchPreorder side ordinal branches
  | .logical base logicalType =>
    ⟨side, ordinal, .logical base logicalType⟩ :: preorderFrom side ordinal base
  | leaf => [⟨side, ordinal, leaf⟩]

/-- The nodes below the fields of a record. -/
def fieldPreorder (side : Side) (ordinal : Nat) : List (Field Schema) → List Node
  | [] => []
  | ⟨_, type, _, _⟩ :: rest =>
    preorderFrom side ordinal type ++ fieldPreorder side (ordinal + type.recordCount) rest

/-- The nodes below the branches of a union. -/
def branchPreorder (side : Side) (ordinal : Nat) : List Schema → List Node
  | [] => []
  | branch :: rest =>
    preorderFrom side ordinal branch ++ branchPreorder side (ordinal + branch.recordCount) rest

end

/-- A node, then the nodes below it from left to right. -/
def preorder (node : Node) : List Node :=
  preorderFrom node.side node.ordinal node.schema

end Node

/-! ## Definitions -/

/-- A record definition of a tree, by its number in preorder. -/
structure RecordId where
  side : Side
  ordinal : Nat
deriving DecidableEq, Repr

/-- A record definition with its fields as nodes. -/
structure RecordNode where
  id : RecordId
  heading : Heading
  fields : List (Field Node)

/-- A type that carries a name of its own. -/
inductive Definition where
  | record (node : RecordNode)
  | enum (heading : Heading) (symbols : List String) (default? : Option String)
  | fixed (heading : Heading) (size : Nat)

namespace Definition

def heading : Definition → Heading
  | .record node => node.heading
  | .enum heading _ _ => heading
  | .fixed heading _ => heading

def fullname (definition : Definition) : String :=
  definition.heading.fullname

def kind : Definition → Kind
  | .record _ => .record
  | .enum _ _ _ => .enum
  | .fixed _ _ => .fixed

end Definition

/-- The definition at a node, if there is one. -/
def Node.definition? (node : Node) : Option Definition :=
  match node.schema with
  | .record heading fields =>
    some (.record ⟨⟨node.side, node.ordinal⟩, heading,
      ofFields node.side (node.ordinal + 1) fields⟩)
  | .enum heading symbols default? => some (.enum heading symbols default?)
  | .fixed heading size => some (.fixed heading size)
  | _ => none

/-! ## Shapes -/

/-- What a node is, once references and logical types are looked through. -/
inductive Shape where
  | primitive (type : Primitive)
  | named (definition : Definition)
  | array (items : Node)
  | map (values : Node)
  | union (branches : List Node)

namespace Shape

def kind : Shape → Kind
  | .primitive type => .primitive type
  | .named definition => definition.kind
  | .array _ => .array
  | .map _ => .map
  | .union _ => .union

/-- The name a message calls the type by. -/
def typeName : Shape → String
  | .named definition => definition.fullname
  | other => other.kind.name

end Shape

end AvroResolution
