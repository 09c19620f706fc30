import AvroResolution.Proofs.Schema.Look

/-!
# The same tree on the other side

A schema that is read as itself is there twice, as the writer's tree and as the reader's.
The nodes of the two trees differ in their side only.  Here every function of a tree is
shown to commute with changing the side.

* `Node.onSide`, `Shape.onSide` and so on are what becomes of a node, of its shape and of
  the definitions of its tree.
* `Registry.shape?_onSide`: a node that has changed its side is looked up in the tree that
  has, and gives the shape that has.
-/

namespace AvroResolution

/-! ## Changing the side -/

def Node.onSide (target : Side) (node : Node) : Node :=
  { node with side := target }

def Field.onSide (target : Side) (field : Field Node) : Field Node :=
  { field with type := field.type.onSide target }

def RecordNode.onSide (target : Side) (record : RecordNode) : RecordNode :=
  ⟨⟨target, record.id.ordinal⟩, record.heading, record.fields.map (Field.onSide target)⟩

def Definition.onSide (target : Side) : Definition → Definition
  | .record node => .record (node.onSide target)
  | .enum heading symbols default? => .enum heading symbols default?
  | .fixed heading size => .fixed heading size

def Shape.onSide (target : Side) : Shape → Shape
  | .primitive type => .primitive type
  | .named definition => .named (definition.onSide target)
  | .array items => .array (items.onSide target)
  | .map values => .map (values.onSide target)
  | .union branches => .union (branches.map (Node.onSide target))

def Registry.Entry.onSide (target : Side) (entry : Registry.Entry) : Registry.Entry :=
  ⟨entry.position, entry.definition.onSide target⟩

def Registry.onSide (target : Side) (registry : Registry) : Registry :=
  ⟨registry.entries.map (Entry.onSide target)⟩

variable {target : Side}

theorem Node.onSide_self {node : Node} (h : node.side = target) : node.onSide target = node := by
  subst h
  rfl

@[simp]
theorem Definition.fullname_onSide (definition : Definition) :
    (definition.onSide target).fullname = definition.fullname := by
  cases definition <;> rfl

/-! ## Nodes -/

namespace Node

theorem ofFields_onSide (side : Side) (fields : List (Field Schema)) (ordinal : Nat) :
    ofFields target ordinal fields = (ofFields side ordinal fields).map (Field.onSide target) := by
  induction fields generalizing ordinal with
  | nil => rfl
  | cons field rest ih =>
    rw [ofFields, ofFields, List.map_cons, ih]
    rfl

theorem ofBranches_onSide (side : Side) (branches : List Schema) (ordinal : Nat) :
    ofBranches target ordinal branches =
      (ofBranches side ordinal branches).map (onSide target) := by
  induction branches generalizing ordinal with
  | nil => rfl
  | cons branch rest ih =>
    rw [ofBranches, ofBranches, List.map_cons, ih]
    rfl

theorem parts_onSide (node : Node) :
    (node.onSide target).parts = node.parts.map (onSide target) := by
  rcases node with ⟨side, ordinal, schema⟩
  cases schema with
  | record heading fields =>
    simp only [parts, onSide]
    rw [ofFields_onSide side, List.map_map, List.map_map]
    rfl
  | union branches => exact ofBranches_onSide side branches ordinal
  | _ => rfl

theorem preorder_onSide (node : Node) :
    (node.onSide target).preorder = node.preorder.map (onSide target) := by
  induction node using Node.induction with
  | step node ih =>
    rw [preorder_eq, preorder_eq node, parts_onSide, List.map_cons, List.map_flatMap,
      List.flatMap_map]
    congr 1
    exact List.flatMap_congr ih

theorem definition?_onSide (node : Node) :
    (node.onSide target).definition? = node.definition?.map (Definition.onSide target) := by
  rcases node with ⟨side, ordinal, schema⟩
  cases schema with
  | record heading fields =>
    simp only [definition?, onSide, Option.map_some]
    rw [ofFields_onSide side]
    rfl
  | _ => rfl

end Node

/-! ## Registries -/

namespace Registry

theorem ofRoot_onSide (root : Node) :
    ofRoot (root.onSide target) = (ofRoot root).onSide target := by
  simp only [ofRoot, onSide, Node.preorder_onSide, List.zipIdx_map, List.filterMap_map,
    List.map_filterMap]
  congr 1
  refine List.filterMap_congr fun entry _ => ?_
  simp only [Function.comp_apply, Prod.map, Node.definition?_onSide, Option.map_map, id_eq]
  rfl

theorem findByLastSegment?_onSide (registry : Registry) (name : String) :
    (registry.onSide target).findByLastSegment? name =
      (registry.findByLastSegment? name).map (Entry.onSide target) := by
  have hfilter : ((registry.onSide target).entries.filter fun entry =>
      lastSegment entry.definition.fullname = name) =
        (registry.entries.filter fun entry =>
          lastSegment entry.definition.fullname = name).map (Entry.onSide target) := by
    simp [onSide, List.filter_map, Function.comp_def, Entry.onSide]
  rw [findByLastSegment?, findByLastSegment?, hfilter]
  cases registry.entries.filter fun entry => lastSegment entry.definition.fullname = name with
  | nil => rfl
  | cons first rest =>
    have hall : ((rest.map (Entry.onSide target)).all fun entry =>
        entry.definition.fullname = (first.onSide target).definition.fullname) =
          rest.all fun entry => entry.definition.fullname = first.definition.fullname := by
      simp [Entry.onSide, List.all_map, Function.comp_def]
    simp only [List.map_cons, hall]
    split <;> rfl

theorem find?_onSide (registry : Registry) (name : String) :
    (registry.onSide target).find? name = (registry.find? name).map (Entry.onSide target) := by
  have hfind : ((registry.onSide target).entries.find? fun entry =>
      entry.definition.fullname = name) =
        (registry.entries.find? fun entry => entry.definition.fullname = name).map
          (Entry.onSide target) := by
    simp only [onSide, List.find?_map, Function.comp_def, Entry.onSide,
      Definition.fullname_onSide]
  rw [find?, find?, hfind, findByLastSegment?_onSide]
  cases registry.entries.find? fun entry => entry.definition.fullname = name <;> rfl

theorem look_onSide (registry : Registry) (node : Node) :
    (registry.onSide target).look (node.onSide target) =
      (registry.look node).map (Shape.onSide target) := by
  induction node using Node.induction with
  | step node ih =>
    rcases node with ⟨side, ordinal, schema⟩
    cases schema with
    | logical base logicalType => exact ih ⟨side, ordinal, base⟩ (.head _)
    | reference name =>
      simp only [look, lookFrom, Node.onSide, find?_onSide]
      cases registry.find? name <;> rfl
    | record heading fields =>
      exact congrArg (fun fields => Except.ok
        (Shape.named (.record ⟨⟨target, ordinal⟩, heading, fields⟩)))
        (Node.ofFields_onSide side fields (ordinal + 1))
    | union branches =>
      exact congrArg (fun branches => Except.ok (Shape.union branches))
        (Node.ofBranches_onSide side branches ordinal)
    | _ => rfl

theorem shape?_onSide (registry : Registry) (node : Node) :
    (registry.onSide target).shape? (node.onSide target) =
      (registry.shape? node).map (Shape.onSide target) := by
  rw [shape?, shape?, look_onSide]
  cases registry.look node <;> rfl

end Registry

end AvroResolution
