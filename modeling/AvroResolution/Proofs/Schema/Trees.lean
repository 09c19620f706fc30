import AvroResolution.Proofs.Compilation.Progress
import AvroResolution.Proofs.Schema.Merged

/-!
# Trees without references

A type that contains no references is what is written at its place, wherever that is.

* `Shape.size` counts the nodes at and below a shape.  Without references a node has no larger
  shape (`Context.size_le`), and what is below it is smaller (`Shape.length_part_lt`).
* `Node.Twins` says that two nodes hold one schema, which contains no references.  They need not
  be in one tree, nor on one side.  `Shape.Twins` and `RecordNode.Twins` say so of what is found at
  such nodes (`Node.Twins.shape?`).
-/

namespace AvroResolution

/-! ## Sizes -/

namespace Node

theorem references_of_mem_ofFields {side : Side} {fields : List (Field Schema)} {ordinal : Nat}
    (h : Schema.fieldReferences fields = []) {field : Field Node}
    (hfield : field ∈ ofFields side ordinal fields) : field.type.schema.references = [] := by
  induction fields generalizing ordinal with
  | nil => cases hfield
  | cons first rest ih =>
    obtain ⟨hfirst, hrest⟩ := List.append_eq_nil_iff.1 h
    rcases List.mem_cons.1 hfield with rfl | hfield
    · exact hfirst
    · exact ih hrest hfield

theorem references_of_mem_ofBranches {side : Side} {branches : List Schema} {ordinal : Nat}
    (h : Schema.branchReferences branches = []) {branch : Node}
    (hbranch : branch ∈ ofBranches side ordinal branches) : branch.schema.references = [] := by
  induction branches generalizing ordinal with
  | nil => cases hbranch
  | cons first rest ih =>
    obtain ⟨hfirst, hrest⟩ := List.append_eq_nil_iff.1 h
    rcases List.mem_cons.1 hbranch with rfl | hbranch
    · exact hfirst
    · exact ih hrest hbranch

/-- What is below a node without references has none. -/
theorem references_of_part {node part : Node} (h : node.schema.references = [])
    (hpart : part ∈ node.parts) : part.schema.references = [] := by
  rcases node with ⟨side, ordinal, schema⟩
  cases schema with
  | record heading fields =>
    obtain ⟨field, hfield, rfl⟩ := List.mem_map.1 hpart
    exact references_of_mem_ofFields h hfield
  | union branches => exact references_of_mem_ofBranches h hpart
  | array items =>
    obtain rfl := List.mem_singleton.1 hpart
    exact h
  | map values =>
    obtain rfl := List.mem_singleton.1 hpart
    exact h
  | logical base logicalType =>
    obtain rfl := List.mem_singleton.1 hpart
    exact h
  | _ => cases hpart

theorem references_of_mem_preorder (root : Node) (h : root.schema.references = []) :
    ∀ node ∈ root.preorder, node.schema.references = [] := by
  induction root using Node.induction with
  | step root ih =>
    intro node hnode
    rw [preorder_eq] at hnode
    rcases List.mem_cons.1 hnode with rfl | hnode
    · exact h
    · obtain ⟨part, hpart, hnode⟩ := List.mem_flatMap.1 hnode
      exact ih part hpart (references_of_part h hpart) node hnode

end Node

namespace Shape

/-- The number of nodes at and below a shape. -/
def size (shape : Shape) : Nat :=
  (shape.parts.flatMap Node.preorder).length + 1

theorem length_part_lt {shape : Shape} {part : Node} (h : part ∈ shape.parts) :
    part.preorder.length < shape.size :=
  Nat.lt_succ_of_le (List.sublist_flatten_of_mem (List.mem_map_of_mem h)).length_le

end Shape

/-- The number of nodes at and below a record. -/
def RecordNode.size (record : RecordNode) : Nat :=
  Shape.size (.named (.record record))

theorem RecordNode.length_field_lt {record : RecordNode} {field : Field Node}
    (h : field ∈ record.fields) : field.type.preorder.length < record.size :=
  @Shape.length_part_lt (.named (.record record)) field.type (List.mem_map_of_mem h)

/-- What is found at a node without references is there or below it. -/
theorem Context.size_le {context : Context} {node : Node} {shape : Shape}
    (h : node.schema.references = []) (hshape : context.shape? node = some shape) :
    shape.size ≤ node.preorder.length := by
  induction node using Node.induction with
  | step node ih =>
    rcases node with ⟨side, ordinal, schema⟩
    cases schema with
    | logical base logicalType =>
      have hbase : (⟨side, ordinal, base⟩ : Node) ∈
          Node.parts ⟨side, ordinal, .logical base logicalType⟩ := .head _
      exact Nat.le_trans (ih ⟨side, ordinal, base⟩ hbase h hshape)
        (Nat.le_of_lt (Node.length_preorder_lt_of_part hbase))
    | reference name => cases h
    | _ =>
      cases hshape
      rw [Node.preorder_eq, List.length_cons]
      exact Nat.le_refl _

/-! ## Twins -/

/-- The nodes hold one schema, which contains no references. -/
structure Node.Twins (node other : Node) : Prop where
  schema : node.schema = other.schema
  references : node.schema.references = []

/-- The fields are the same but for the places of their types, which contain no references. -/
structure Field.Twins (field other : Field Node) : Prop where
  name : field.name = other.name
  type : field.type.Twins other.type
  default? : field.default? = other.default?
  aliases : field.aliases = other.aliases

/-- The records are the same but for their places. -/
structure RecordNode.Twins (record other : RecordNode) : Prop where
  heading : record.heading = other.heading
  fields : List.Forall₂ Field.Twins record.fields other.fields

/-- The shapes are the same but for the places of what is below them. -/
inductive Shape.Twins : Shape → Shape → Prop
  | primitive (type : Primitive) : Twins (.primitive type) (.primitive type)
  | record {record other : RecordNode} (h : record.Twins other) :
      Twins (.named (.record record)) (.named (.record other))
  | enum (heading : Heading) (symbols : List String) (default? : Option String) :
      Twins (.named (.enum heading symbols default?)) (.named (.enum heading symbols default?))
  | fixed (heading : Heading) (size : Nat) :
      Twins (.named (.fixed heading size)) (.named (.fixed heading size))
  | array {items other : Node} (h : items.Twins other) : Twins (.array items) (.array other)
  | map {values other : Node} (h : values.Twins other) : Twins (.map values) (.map other)
  | union {branches others : List Node} (h : List.Forall₂ Node.Twins branches others) :
      Twins (.union branches) (.union others)

theorem Node.Twins.symm {node other : Node} (h : node.Twins other) : other.Twins node :=
  ⟨h.schema.symm, h.schema ▸ h.references⟩

theorem Field.Twins.symm {field other : Field Node} (h : field.Twins other) : other.Twins field :=
  ⟨h.name.symm, h.type.symm, h.default?.symm, h.aliases.symm⟩

theorem RecordNode.Twins.symm {record other : RecordNode} (h : record.Twins other) :
    other.Twins record :=
  ⟨h.heading.symm, (h.fields.imp fun _ _ h => h.symm).flip⟩

theorem Node.twins_ofFields {side side' : Side} {ordinal ordinal' : Nat}
    {fields : List (Field Schema)} (h : Schema.fieldReferences fields = []) :
    List.Forall₂ Field.Twins (ofFields side ordinal fields) (ofFields side' ordinal' fields) := by
  induction fields generalizing ordinal ordinal' with
  | nil => exact .nil
  | cons field rest ih =>
    obtain ⟨hfield, hrest⟩ := List.append_eq_nil_iff.1 h
    exact .cons ⟨rfl, ⟨rfl, hfield⟩, rfl, rfl⟩ (ih hrest)

theorem Node.twins_ofBranches {side side' : Side} {ordinal ordinal' : Nat}
    {branches : List Schema} (h : Schema.branchReferences branches = []) :
    List.Forall₂ Node.Twins (ofBranches side ordinal branches)
      (ofBranches side' ordinal' branches) := by
  induction branches generalizing ordinal ordinal' with
  | nil => exact .nil
  | cons branch rest ih =>
    obtain ⟨hbranch, hrest⟩ := List.append_eq_nil_iff.1 h
    exact .cons ⟨rfl, hbranch⟩ (ih hrest)

/-- What is found at twins are twins, in any two contexts.  The induction is on the logical types
above the base. -/
theorem Node.Twins.shape? {node other : Node} (h : node.Twins other) (context image : Context) :
    Option.Rel Shape.Twins (context.shape? node) (image.shape? other) := by
  induction node using Node.induction generalizing other with
  | step node ih =>
    rcases node with ⟨side, ordinal, schema⟩
    rcases other with ⟨side', ordinal', schema'⟩
    obtain ⟨hsame, hreferences⟩ := h
    obtain rfl : schema = schema' := hsame
    cases schema with
    | logical base logicalType =>
      have hbase : (⟨side, ordinal, base⟩ : Node).Twins ⟨side', ordinal', base⟩ :=
        ⟨rfl, hreferences⟩
      have hfound := ih ⟨side, ordinal, base⟩ (.head _) hbase
      exact hfound
    | reference name => cases hreferences
    | primitive type => exact .some (.primitive type)
    | record heading fields => exact .some (.record ⟨rfl, Node.twins_ofFields hreferences⟩)
    | enum heading symbols default? => exact .some (.enum heading symbols default?)
    | fixed heading size => exact .some (.fixed heading size)
    | array items => exact .some (.array ⟨rfl, hreferences⟩)
    | map values => exact .some (.map ⟨rfl, hreferences⟩)
    | union branches => exact .some (.union (Node.twins_ofBranches hreferences))

namespace Shape.Twins

variable {w w' : Shape}

theorem kind (h : w.Twins w') : w.kind = w'.kind := by
  cases h <;> rfl

theorem symm (h : w.Twins w') : w'.Twins w := by
  cases h with
  | primitive type => exact .primitive type
  | record h => exact .record h.symm
  | enum heading symbols default? => exact .enum heading symbols default?
  | fixed heading size => exact .fixed heading size
  | array h => exact .array h.symm
  | map h => exact .map h.symm
  | union h => exact .union (h.imp fun _ _ h => h.symm).flip

theorem typeName (h : w.Twins w') : w.typeName = w'.typeName := by
  cases h with
  | record h => exact congrArg Heading.fullname h.heading
  | _ => rfl

end Shape.Twins

end AvroResolution
