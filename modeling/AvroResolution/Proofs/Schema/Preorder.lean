import AvroResolution.Schema.Registry
import Mathlib.Data.List.Nodup

/-!
# Laws of the preorder

The nodes of a tree, in the order of `Node.preorder`.

* `Node.parts` are the nodes right below a node; `Node.preorder_eq` and
  `Node.induction` speak of a tree in terms of them.
* `Node.side_of_mem_preorder`: the nodes of a tree are all on one side.
* `Node.preorder_subset`: the nodes below a node of a tree are in the tree.
* `Node.ordinals_preorder`: the record definitions of a tree are numbered one
  after the other, so the number tells them apart (`Node.eq_of_mem_preorder`).
-/

namespace AvroResolution

namespace Node

/-! ## Parts -/

/-- The nodes right below a node. -/
def parts (node : Node) : List Node :=
  match node.schema with
  | .record _ fields => (ofFields node.side (node.ordinal + 1) fields).map (·.type)
  | .array items => [⟨node.side, node.ordinal, items⟩]
  | .map values => [⟨node.side, node.ordinal, values⟩]
  | .union branches => ofBranches node.side node.ordinal branches
  | .logical base _ => [⟨node.side, node.ordinal, base⟩]
  | _ => []

theorem fieldPreorder_eq (side : Side) :
    ∀ (fields : List (Field Schema)) (ordinal : Nat), fieldPreorder side ordinal fields =
      ((ofFields side ordinal fields).map (·.type)).flatMap preorder
  | [], _ => rfl
  | ⟨_, type, _, _⟩ :: rest, ordinal => by
    rw [fieldPreorder, fieldPreorder_eq side rest]
    rfl

theorem branchPreorder_eq (side : Side) :
    ∀ (branches : List Schema) (ordinal : Nat), branchPreorder side ordinal branches =
      (ofBranches side ordinal branches).flatMap preorder
  | [], _ => rfl
  | branch :: rest, ordinal => by
    rw [branchPreorder, branchPreorder_eq side rest]
    rfl

/-- The preorder is a node followed by those of its parts. -/
theorem preorder_eq (node : Node) : node.preorder = node :: node.parts.flatMap preorder := by
  rcases node with ⟨side, ordinal, schema⟩
  cases schema with
  | record heading fields => rw [preorder, preorderFrom, fieldPreorder_eq]; rfl
  | union branches => rw [preorder, preorderFrom, branchPreorder_eq]; rfl
  | array items => simp [preorder, preorderFrom, parts]
  | map values => simp [preorder, preorderFrom, parts]
  | logical base logicalType => simp [preorder, preorderFrom, parts]
  | _ => rfl

theorem sizeOf_lt_of_mem_ofFields (side : Side) :
    ∀ (fields : List (Field Schema)) (ordinal : Nat) {field : Field Node},
      field ∈ ofFields side ordinal fields → sizeOf field.type.schema < sizeOf fields
  | [], _, _, h => by cases h
  | ⟨name, type, default?, aliases⟩ :: rest, ordinal, field, h => by
    rw [List.cons.sizeOf_spec, Field.mk.sizeOf_spec]
    rcases List.mem_cons.1 h with rfl | h
    · dsimp only
      omega
    · have := sizeOf_lt_of_mem_ofFields side rest _ h
      omega

theorem sizeOf_lt_of_mem_ofBranches (side : Side) :
    ∀ (branches : List Schema) (ordinal : Nat) {branch : Node},
      branch ∈ ofBranches side ordinal branches → sizeOf branch.schema < sizeOf branches
  | [], _, _, h => by cases h
  | first :: rest, ordinal, branch, h => by
    rw [List.cons.sizeOf_spec]
    rcases List.mem_cons.1 h with rfl | h
    · dsimp only
      omega
    · have := sizeOf_lt_of_mem_ofBranches side rest _ h
      omega

theorem sizeOf_lt_of_mem_parts {node part : Node} (h : part ∈ node.parts) :
    sizeOf part.schema < sizeOf node.schema := by
  rcases node with ⟨side, ordinal, schema⟩
  cases schema with
  | record heading fields =>
    obtain ⟨field, hfield, rfl⟩ := List.mem_map.1 h
    have := sizeOf_lt_of_mem_ofFields side fields _ hfield
    rw [Schema.record.sizeOf_spec]
    omega
  | union branches =>
    have := sizeOf_lt_of_mem_ofBranches side branches _ h
    rw [Schema.union.sizeOf_spec]
    omega
  | array items =>
    rw [List.mem_singleton.1 h, Schema.array.sizeOf_spec]
    dsimp only
    omega
  | map values =>
    rw [List.mem_singleton.1 h, Schema.map.sizeOf_spec]
    dsimp only
    omega
  | logical base logicalType =>
    rw [List.mem_singleton.1 h, Schema.logical.sizeOf_spec]
    dsimp only
    omega
  | _ => cases h

/-- What passes from the parts of a node to the node holds of every node. -/
theorem induction {motive : Node → Prop}
    (step : ∀ node, (∀ part ∈ node.parts, motive part) → motive node) (node : Node) :
    motive node :=
  step node fun part _ => induction step part
termination_by sizeOf node.schema
decreasing_by exact sizeOf_lt_of_mem_parts ‹part ∈ node.parts›

/-! ## Nodes of a tree -/

theorem self_mem_preorder (node : Node) : node ∈ node.preorder := by
  rw [preorder_eq]
  exact .head _

theorem mem_preorder_of_part {node part other : Node} (hpart : part ∈ node.parts)
    (h : other ∈ part.preorder) : other ∈ node.preorder := by
  rw [preorder_eq]
  exact .tail _ (List.mem_flatMap.2 ⟨part, hpart, h⟩)

theorem side_of_mem_ofFields (side : Side) :
    ∀ (fields : List (Field Schema)) (ordinal : Nat) {field : Field Node},
      field ∈ ofFields side ordinal fields → field.type.side = side
  | [], _, _, h => by cases h
  | _ :: rest, ordinal, field, h => by
    rcases List.mem_cons.1 h with rfl | h
    · rfl
    · exact side_of_mem_ofFields side rest _ h

theorem side_of_mem_ofBranches (side : Side) :
    ∀ (branches : List Schema) (ordinal : Nat) {branch : Node},
      branch ∈ ofBranches side ordinal branches → branch.side = side
  | [], _, _, h => by cases h
  | _ :: rest, ordinal, branch, h => by
    rcases List.mem_cons.1 h with rfl | h
    · rfl
    · exact side_of_mem_ofBranches side rest _ h

theorem side_of_mem_parts {node part : Node} (h : part ∈ node.parts) :
    part.side = node.side := by
  rcases node with ⟨side, ordinal, schema⟩
  cases schema with
  | record heading fields =>
    obtain ⟨field, hfield, rfl⟩ := List.mem_map.1 h
    exact side_of_mem_ofFields side fields _ hfield
  | union branches => exact side_of_mem_ofBranches side branches _ h
  | array items => rw [List.mem_singleton.1 h]
  | map values => rw [List.mem_singleton.1 h]
  | logical base logicalType => rw [List.mem_singleton.1 h]
  | _ => cases h

/-- The nodes of a tree are all on its side. -/
theorem side_of_mem_preorder (root : Node) :
    ∀ node ∈ root.preorder, node.side = root.side := by
  induction root using Node.induction with
  | step root ih =>
    intro node h
    rw [preorder_eq] at h
    rcases List.mem_cons.1 h with rfl | h
    · rfl
    · obtain ⟨part, hpart, h⟩ := List.mem_flatMap.1 h
      rw [ih part hpart node h, side_of_mem_parts hpart]

/-- The nodes below a node of a tree are nodes of the tree. -/
theorem preorder_subset (root : Node) :
    ∀ node ∈ root.preorder, node.preorder ⊆ root.preorder := by
  induction root using Node.induction with
  | step root ih =>
    intro node h other hother
    rw [preorder_eq] at h
    rcases List.mem_cons.1 h with rfl | h
    · exact hother
    · obtain ⟨part, hpart, h⟩ := List.mem_flatMap.1 h
      exact mem_preorder_of_part hpart (ih part hpart node h hother)

theorem part_mem_preorder {root node part : Node} (h : node ∈ root.preorder)
    (hpart : part ∈ node.parts) : part ∈ root.preorder :=
  preorder_subset root node h (mem_preorder_of_part hpart part.self_mem_preorder)

/-! ## Numbers of records -/

/-- Whether a node defines a record. -/
def isRecord (node : Node) : Bool :=
  match node.schema with
  | .record _ _ => true
  | _ => false

/-- The numbers of the record definitions in a list of nodes. -/
def recordOrdinals (nodes : List Node) : List Nat :=
  (nodes.filter isRecord).map ordinal

theorem recordOrdinals_append (nodes others : List Node) :
    recordOrdinals (nodes ++ others) = recordOrdinals nodes ++ recordOrdinals others := by
  simp [recordOrdinals]

theorem recordOrdinals_cons_of_not {node : Node} (h : node.isRecord = false)
    (nodes : List Node) : recordOrdinals (node :: nodes) = recordOrdinals nodes := by
  simp [recordOrdinals, h]

mutual

theorem recordOrdinals_preorderFrom (side : Side) (ordinal : Nat) :
    ∀ schema : Schema, recordOrdinals (preorderFrom side ordinal schema) =
      List.range' ordinal schema.recordCount
  | .primitive _ => rfl
  | .enum _ _ _ => rfl
  | .fixed _ _ => rfl
  | .reference _ => rfl
  | .record heading fields => by
    have hfields := recordOrdinals_fieldPreorder side (ordinal + 1) fields
    rw [Schema.recordCount, Nat.add_comm, List.range'_succ, ← hfields]
    rfl
  | .array items => by
    rw [preorderFrom, recordOrdinals_cons_of_not rfl]
    exact recordOrdinals_preorderFrom side ordinal items
  | .map values => by
    rw [preorderFrom, recordOrdinals_cons_of_not rfl]
    exact recordOrdinals_preorderFrom side ordinal values
  | .union branches => by
    rw [preorderFrom, recordOrdinals_cons_of_not rfl]
    exact recordOrdinals_branchPreorder side ordinal branches
  | .logical base _ => by
    rw [preorderFrom, recordOrdinals_cons_of_not rfl]
    exact recordOrdinals_preorderFrom side ordinal base

theorem recordOrdinals_fieldPreorder (side : Side) (ordinal : Nat) :
    ∀ fields : List (Field Schema), recordOrdinals (fieldPreorder side ordinal fields) =
      List.range' ordinal (Schema.fieldRecordCount fields)
  | [] => rfl
  | ⟨_, type, _, _⟩ :: rest => by
    rw [fieldPreorder, recordOrdinals_append, recordOrdinals_preorderFrom side ordinal type,
      recordOrdinals_fieldPreorder side _ rest, List.range'_append_1]
    rfl

theorem recordOrdinals_branchPreorder (side : Side) (ordinal : Nat) :
    ∀ branches : List Schema, recordOrdinals (branchPreorder side ordinal branches) =
      List.range' ordinal (Schema.branchRecordCount branches)
  | [] => rfl
  | branch :: rest => by
    rw [branchPreorder, recordOrdinals_append, recordOrdinals_preorderFrom side ordinal branch,
      recordOrdinals_branchPreorder side _ rest, List.range'_append_1]
    rfl

end

/-- The record definitions of a tree are numbered one after the other. -/
theorem ordinals_preorder (root : Node) :
    recordOrdinals root.preorder = List.range' root.ordinal root.schema.recordCount :=
  recordOrdinals_preorderFrom root.side root.ordinal root.schema

/-- Two record definitions of a tree with the same number are the same. -/
theorem eq_of_mem_preorder {root node other : Node} (hnode : node ∈ root.preorder)
    (hother : other ∈ root.preorder) (hrecord : node.isRecord = true)
    (hrecord' : other.isRecord = true) (h : node.ordinal = other.ordinal) : node = other := by
  have hnodup : (recordOrdinals root.preorder).Nodup := by
    rw [ordinals_preorder]
    exact List.nodup_range'
  exact List.inj_on_of_nodup_map hnodup (List.mem_filter.2 ⟨hnode, hrecord⟩)
    (List.mem_filter.2 ⟨hother, hrecord'⟩) h

end Node

end AvroResolution
