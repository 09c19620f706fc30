import AvroResolution.Schema.Node

/-!
# Looking up names

The `Registry` of a tree lists its definitions in preorder.

* `Registry.find?` looks a name up.  The first definition with that full name
  wins.  Otherwise the name may be the last segment of a full name, provided
  that only one full name of the tree ends in it.
* `Registry.look` looks through references and logical types.
-/

namespace AvroResolution

/-- A definition and its position in the preorder of its tree. -/
structure Registry.Entry where
  position : Nat
  definition : Definition

/-- The definitions of a tree in preorder. -/
structure Registry where
  entries : List Registry.Entry

/-- A reference to a name that the registry does not resolve. -/
structure DanglingReference where
  name : String
deriving DecidableEq, Repr

namespace Registry

/-- The definitions of the tree under `root`. -/
def ofRoot (root : Node) : Registry :=
  ⟨root.preorder.zipIdx.filterMap fun (node, position) =>
    node.definition?.map fun definition => ⟨position, definition⟩⟩

/-- The first definition whose full name ends in the segment `name`, if all of
those share one full name. -/
def findByLastSegment? (registry : Registry) (name : String) : Option Entry :=
  match registry.entries.filter fun entry => lastSegment entry.definition.fullname = name with
  | [] => none
  | first :: rest =>
    if rest.all fun entry => entry.definition.fullname = first.definition.fullname then
      some first
    else
      none

/-- The definition that a reference spelled `name` stands for. -/
def find? (registry : Registry) (name : String) : Option Entry :=
  match registry.entries.find? fun entry => entry.definition.fullname = name with
  | some entry => some entry
  | none => registry.findByLastSegment? name

/-- The shape of a schema that `ordinal` record definitions come before. -/
def lookFrom (registry : Registry) (side : Side) (ordinal : Nat) :
    Schema → Except DanglingReference Shape
  | .primitive type => .ok (.primitive type)
  | .record heading fields =>
    .ok (.named (.record ⟨⟨side, ordinal⟩, heading, Node.ofFields side (ordinal + 1) fields⟩))
  | .enum heading symbols default? => .ok (.named (.enum heading symbols default?))
  | .fixed heading size => .ok (.named (.fixed heading size))
  | .array items => .ok (.array ⟨side, ordinal, items⟩)
  | .map values => .ok (.map ⟨side, ordinal, values⟩)
  | .union branches => .ok (.union (Node.ofBranches side ordinal branches))
  | .reference name =>
    match registry.find? name with
    | some entry => .ok (.named entry.definition)
    | none => .error ⟨name⟩
  | .logical base _ => registry.lookFrom side ordinal base

/-- The shape of a node of the registry's tree. -/
def look (registry : Registry) (node : Node) : Except DanglingReference Shape :=
  registry.lookFrom node.side node.ordinal node.schema

end Registry

end AvroResolution
