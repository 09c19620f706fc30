import AvroResolution.Proofs.Compilation.Trace
import Mathlib.Data.List.Perm.Basic

/-!
# How far a compilation has to go

A compilation stays in the trees it is given.  Between two records that are new to it,
it only descends, and there are only so many records.

* `Context.Spans` says that some trees are all that a context knows of.  Looking a node
  of theirs up leads to their nodes (`Context.Spans.part`) and to their records
  (`Context.Spans.declares`).
* `Context.length_part_lt`: what is not a record has fewer nodes below its parts.
* `Builder.unseen` counts the records that are still new.  Opening a record lowers it
  (`Builder.unseen_opened_lt`).
-/

namespace AvroResolution

namespace Node

/-! ## Sizes of trees -/

theorem length_preorder_lt_of_part {node part : Node} (h : part ∈ node.parts) :
    part.preorder.length < node.preorder.length := by
  have hsublist : part.preorder.Sublist (node.parts.flatMap preorder) :=
    List.sublist_flatten_of_mem (List.mem_map_of_mem h)
  rw [preorder_eq node, List.length_cons]
  exact Nat.lt_succ_of_le hsublist.length_le

theorem length_preorder_le_of_mem (root : Node) :
    ∀ node ∈ root.preorder, node.preorder.length ≤ root.preorder.length := by
  induction root using Node.induction with
  | step root ih =>
    intro node h
    rw [preorder_eq] at h
    rcases List.mem_cons.1 h with rfl | h
    · exact Nat.le_refl _
    · obtain ⟨part, hpart, h⟩ := List.mem_flatMap.1 h
      exact Nat.le_of_lt
        (Nat.lt_of_le_of_lt (ih part hpart node h) (length_preorder_lt_of_part hpart))

/-! ## Several trees -/

/-- The nodes of some trees. -/
def forest (roots : List Node) : List Node :=
  roots.flatMap preorder

/-- The record definitions of some trees. -/
def recordIds (roots : List Node) : List RecordId :=
  ((forest roots).filter isRecord).map fun node => ⟨node.side, node.ordinal⟩

theorem mem_forest {roots : List Node} {node : Node} :
    node ∈ forest roots ↔ ∃ root ∈ roots, node ∈ root.preorder :=
  List.mem_flatMap

theorem mem_forest_singleton {root node : Node} : node ∈ forest [root] ↔ node ∈ root.preorder := by
  rw [forest, List.flatMap_singleton]

theorem root_mem_forest {roots : List Node} {root : Node} (h : root ∈ roots) :
    root ∈ forest roots :=
  mem_forest.2 ⟨root, h, root.self_mem_preorder⟩

theorem length_preorder_le_forest {roots : List Node} {node : Node} (h : node ∈ forest roots) :
    node.preorder.length ≤ (forest roots).length := by
  obtain ⟨root, hroot, hnode⟩ := mem_forest.1 h
  have hsublist : root.preorder.Sublist (forest roots) :=
    List.sublist_flatten_of_mem (List.mem_map_of_mem hroot)
  exact Nat.le_trans (length_preorder_le_of_mem root node hnode) hsublist.length_le

/-- One of the trees defines the record. -/
def Declares (roots : List Node) (record : RecordNode) : Prop :=
  ∃ node ∈ forest roots, node.definition? = some (.record record)

theorem part_mem_forest {roots : List Node} {node part : Node} (h : node ∈ forest roots)
    (hpart : part ∈ node.parts) : part ∈ forest roots := by
  obtain ⟨root, hroot, hnode⟩ := mem_forest.1 h
  exact mem_forest.2 ⟨root, hroot, part_mem_preorder hnode hpart⟩

theorem Declares.id_mem {roots : List Node} {record : RecordNode} (h : Declares roots record) :
    record.id ∈ recordIds roots := by
  obtain ⟨⟨side, ordinal, schema⟩, hnode, hdefinition⟩ := h
  cases schema <;> cases hdefinition
  exact List.mem_map.2 ⟨_, List.mem_filter.2 ⟨hnode, rfl⟩, rfl⟩

theorem Declares.field_mem {roots : List Node} {record : RecordNode} (h : Declares roots record)
    {field : Field Node} (hfield : field ∈ record.fields) : field.type ∈ forest roots := by
  obtain ⟨node, hnode, hdefinition⟩ := h
  refine part_mem_forest hnode ?_
  rw [← parts_of_ownShape? (ownShape?_of_definition? hdefinition)]
  exact List.mem_map_of_mem hfield

theorem length_recordIds_cons (root : Node) (roots : List Node) :
    (recordIds (root :: roots)).length = root.schema.recordCount + (recordIds roots).length := by
  have hroot : (root.preorder.filter isRecord).length = root.schema.recordCount := by
    have h := congrArg List.length (ordinals_preorder root)
    rwa [recordOrdinals, List.length_map, List.length_range'] at h
  rw [recordIds, recordIds, List.length_map, List.length_map, forest, forest, List.flatMap_cons,
    List.filter_append, List.length_append, hroot]

end Node

namespace Context

variable {context : Context} {roots : List Node} {node : Node} {shape : Shape}

/-- The trees are those that the context knows of. -/
def Spans (context : Context) (roots : List Node) : Prop :=
  ∀ root ∈ roots, context.registry root.side = .ofRoot root

namespace Spans

variable (hspans : context.Spans roots)
include hspans

theorem registry_eq {root : Node} (hroot : root ∈ roots) (hnode : node ∈ root.preorder) :
    context.registry node.side = .ofRoot root := by
  rw [Node.side_of_mem_preorder root node hnode]
  exact hspans root hroot

theorem holds (h : node ∈ Node.forest roots) : context.Holds node := by
  obtain ⟨root, hroot, hnode⟩ := Node.mem_forest.1 h
  exact ⟨root, hspans.registry_eq hroot hnode, hnode⟩

theorem part {part : Node} (h : node ∈ Node.forest roots)
    (hshape : context.shape? node = some shape) (hpart : part ∈ shape.parts) :
    part ∈ Node.forest roots := by
  obtain ⟨root, hroot, hnode⟩ := Node.mem_forest.1 h
  rw [shape?, hspans.registry_eq hroot hnode] at hshape
  exact Node.mem_forest.2
    ⟨root, hroot, Registry.look_part hnode (Registry.look_of_shape? hshape) hpart⟩

theorem declares {record : RecordNode} (h : node ∈ Node.forest roots)
    (hshape : context.shape? node = some (.named (.record record))) :
    Node.Declares roots record := by
  obtain ⟨root, hroot, hnode⟩ := Node.mem_forest.1 h
  rw [shape?, hspans.registry_eq hroot hnode] at hshape
  obtain ⟨source, hsource, hown⟩ := Registry.look_source hnode (Registry.look_of_shape? hshape)
  exact ⟨source, Node.mem_forest.2 ⟨root, hroot, hsource⟩, Node.definition?_of_ownShape? hown⟩

theorem defines {record : RecordNode} (h : Node.Declares roots record) :
    context.Defines record := by
  obtain ⟨node, hnode, hdefinition⟩ := h
  refine ⟨node, ?_, hdefinition⟩
  rw [Node.side_of_definition? hdefinition]
  exact hspans.holds hnode

end Spans

/-- A node that is no record has more nodes below it than any of its parts.  The induction
is on the logical types above the base. -/
theorem length_part_lt {part : Node} (hshape : context.shape? node = some shape)
    (hrecord : ∀ record, shape ≠ .named (.record record)) (hpart : part ∈ shape.parts) :
    part.preorder.length < node.preorder.length := by
  induction node using Node.induction with
  | step node ih =>
    rcases node with ⟨side, ordinal, schema⟩
    cases schema with
    | logical base logicalType =>
      have hbase : (⟨side, ordinal, base⟩ : Node) ∈
          Node.parts ⟨side, ordinal, .logical base logicalType⟩ := .head _
      exact Nat.lt_trans (ih ⟨side, ordinal, base⟩ hbase hshape)
        (Node.length_preorder_lt_of_part hbase)
    | reference name =>
      rw [shape?, Registry.shape?, Registry.look, Registry.lookFrom] at hshape
      split at hshape
      · rename_i entry _
        cases hshape
        cases hentry : entry.definition with
        | record record => exact absurd (by rw [hentry]) (hrecord record)
        | _ =>
          rw [hentry] at hpart
          cases hpart
      · cases hshape
    | record heading fields =>
      cases hshape
      exact absurd rfl (hrecord _)
    | _ =>
      cases hshape
      exact Node.length_preorder_lt_of_part hpart

end Context

/-! ## Records to come -/

namespace Builder

variable {builder after : Builder} {keys : List MemoKey} {key : MemoKey}

/-- The number of keys that are not remembered yet. -/
def unseen (keys : List MemoKey) (builder : Builder) : Nat :=
  keys.countP fun key => (builder.memo.lookup key).isNone

theorem unseen_le (keys : List MemoKey) (h : builder.Grows after) :
    after.unseen keys ≤ builder.unseen keys := by
  refine List.countP_mono_left fun key _ hnone => ?_
  cases hlookup : builder.memo.lookup key with
  | none => rfl
  | some id =>
    rw [h.memo key id hlookup] at hnone
    cases hnone

theorem unseen_empty (keys : List MemoKey) : Builder.empty.unseen keys = keys.length :=
  List.countP_eq_length.2 fun _ _ => rfl

/-- A record that is opened is seen. -/
theorem unseen_opened_lt (hmem : key ∈ keys) (hfresh : builder.memo.lookup key = none) :
    (builder.opened key).unseen keys < builder.unseen keys := by
  have hperm := List.perm_cons_erase hmem
  have hseen : ((builder.opened key).memo.lookup key).isNone = false := by
    rw [opened, lookup_remember_self]
    rfl
  have hrest := unseen_le (keys.erase key) (builder.extends_opened hfresh).toGrows
  calc (builder.opened key).unseen keys
      = (builder.opened key).unseen (key :: keys.erase key) := hperm.countP_eq _
    _ = (builder.opened key).unseen (keys.erase key) :=
        List.countP_cons_of_neg (by rw [hseen]; exact Bool.false_ne_true)
    _ ≤ builder.unseen (keys.erase key) := hrest
    _ < builder.unseen (keys.erase key) + 1 := Nat.lt_succ_self _
    _ = builder.unseen (key :: keys.erase key) :=
        (List.countP_cons_of_pos (by rw [hfresh]; rfl)).symm
    _ = builder.unseen keys := (hperm.countP_eq _).symm

end Builder

end AvroResolution
