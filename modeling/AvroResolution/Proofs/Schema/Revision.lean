import AvroResolution.Default
import AvroResolution.Proofs.Schema.Look
import AvroResolution.Proofs.Schema.Merged

/-!
# Revised trees

When the logical types of a tree are changed, or the defaults of its fields, what is found
there are the same shapes with their nodes and fields changed.

* A `Revision` says what becomes of nodes and of defaults.  `Shape.revise`,
  `Definition.revise` and so on carry it through.
* `Schema.Revises` says that a function on schemas changes nothing but logical types and
  defaults.  Merging changes logical types (`Schema.revises_merged`), `Schema.bare` leaves
  none, and `Schema.undefaulted` leaves no defaults.
* `Registry.Revises` says that one registry has the revised definitions of another, as those
  of a tree and of the revised tree do (`Registry.revises_ofRoot`).
* `Registry.Revises.look` and `Registry.Revises.defaultTarget`: looking a node up, and
  finding the type of a default, commute with the revision.
-/

namespace AvroResolution

/-! ## Revisions -/

/-- What becomes of nodes, and of the defaults of fields. -/
structure Revision where
  node : Node → Node
  default? : Field Node → Option Literal

/-- A field with another type and another default. -/
def Field.alter {α : Type} (f : α → α) (keep : Option Literal → Option Literal)
    (field : Field α) : Field α :=
  { field with type := f field.type, default? := keep field.default? }

def Field.revise (revision : Revision) (field : Field Node) : Field Node :=
  { field with type := revision.node field.type, default? := revision.default? field }

def RecordNode.revise (revision : Revision) (record : RecordNode) : RecordNode :=
  { record with fields := record.fields.map (Field.revise revision) }

def Definition.revise (revision : Revision) : Definition → Definition
  | .record node => .record (node.revise revision)
  | .enum heading symbols default? => .enum heading symbols default?
  | .fixed heading size => .fixed heading size

def Shape.revise (revision : Revision) : Shape → Shape
  | .primitive type => .primitive type
  | .named definition => .named (definition.revise revision)
  | .array items => .array (revision.node items)
  | .map values => .map (revision.node values)
  | .union branches => .union (branches.map revision.node)

def PlainType.revise (revision : Revision) : PlainType → PlainType
  | .primitive type => .primitive type
  | .named definition => .named (definition.revise revision)
  | .array items => .array (revision.node items)
  | .map values => .map (revision.node values)

def DefaultTarget.revise (revision : Revision) (target : DefaultTarget) : DefaultTarget :=
  { target with type := target.type.revise revision }

section

variable (revision : Revision)

@[simp]
theorem Definition.heading_revise (definition : Definition) :
    (definition.revise revision).heading = definition.heading := by
  cases definition <;> rfl

@[simp]
theorem Definition.fullname_revise (definition : Definition) :
    (definition.revise revision).fullname = definition.fullname := by
  rw [fullname, heading_revise, fullname]

@[simp]
theorem Definition.kind_revise (definition : Definition) :
    (definition.revise revision).kind = definition.kind := by
  cases definition <;> rfl

@[simp]
theorem Definition.fieldCount_revise (definition : Definition) :
    (definition.revise revision).fieldCount = definition.fieldCount := by
  cases definition with
  | record node => exact List.length_map _
  | _ => rfl

@[simp]
theorem Shape.kind_revise (shape : Shape) : (shape.revise revision).kind = shape.kind := by
  cases shape with
  | named definition => exact definition.kind_revise revision
  | _ => rfl

@[simp]
theorem Shape.typeName_revise (shape : Shape) :
    (shape.revise revision).typeName = shape.typeName := by
  cases shape with
  | named definition => exact definition.fullname_revise revision
  | _ => rfl

end

/-- Two revisions do the same to a shape if they do the same to the nodes and fields below. -/
theorem Shape.revise_congr {revision other : Revision} {shape : Shape}
    (hnode : ∀ part ∈ shape.parts, revision.node part = other.node part)
    (hdefault : ∀ field : Field Node, field.type ∈ shape.parts →
      revision.default? field = other.default? field) :
    shape.revise revision = shape.revise other := by
  cases shape with
  | primitive type => rfl
  | array items => exact congrArg Shape.array (hnode items (.head _))
  | map values => exact congrArg Shape.map (hnode values (.head _))
  | union branches => exact congrArg Shape.union (List.map_congr_left hnode)
  | named definition =>
    cases definition with
    | record record =>
      have hfields : record.fields.map (Field.revise revision) =
          record.fields.map (Field.revise other) := by
        refine List.map_congr_left fun field hfield => ?_
        have hpart : field.type ∈ Shape.parts (.named (.record record)) :=
          List.mem_map_of_mem hfield
        rw [Field.revise, Field.revise, hnode _ hpart, hdefault field hpart]
      exact congrArg (fun fields => Shape.named (.record { record with fields })) hfields
    | _ => rfl

/-- Nothing changes. -/
def Revision.unchanged : Revision := ⟨id, (·.default?)⟩

theorem Shape.revise_unchanged (shape : Shape) : shape.revise .unchanged = shape := by
  cases shape with
  | named definition =>
    cases definition with
    | record record =>
      exact congrArg (fun fields => Shape.named (.record { record with fields }))
        (List.map_id record.fields)
    | _ => rfl
  | union branches => exact congrArg Shape.union (List.map_id branches)
  | _ => rfl

/-! ## Schemas -/

namespace Schema

/-- The function changes the logical types of a schema and the defaults of its fields, the
latter by `keep`, and nothing else. -/
structure Revises (f : Schema → Schema) (keep : Option Literal → Option Literal) : Prop where
  core : ∀ schema, (f schema).core = f schema.core
  primitive : ∀ type, f (.primitive type) = .primitive type
  record : ∀ heading fields,
    f (.record heading fields) = .record heading (fields.map (.alter f keep))
  enum : ∀ heading symbols default?,
    f (.enum heading symbols default?) = .enum heading symbols default?
  fixed : ∀ heading size, f (.fixed heading size) = .fixed heading size
  array : ∀ items, f (.array items) = .array (f items)
  map : ∀ values, f (.map values) = .map (f values)
  union : ∀ branches, f (.union branches) = .union (branches.map f)
  reference : ∀ name, f (.reference name) = .reference name

theorem revises_id : Revises id id where
  core _ := rfl
  primitive _ := rfl
  record heading fields := congrArg (Schema.record heading) fields.map_id.symm
  enum _ _ _ := rfl
  fixed _ _ := rfl
  array _ := rfl
  map _ := rfl
  union branches := congrArg Schema.union branches.map_id.symm
  reference _ := rfl

/-! ### Merging -/

theorem mergedFields_eq_map (fields : List (Field Schema)) :
    mergedFields fields = fields.map (.alter merged id) := by
  induction fields with
  | nil => rfl
  | cons field rest ih => rw [mergedFields, ih, List.map_cons, Field.alter, id_eq]

theorem mergedBranches_eq_map (branches : List Schema) :
    mergedBranches branches = branches.map merged := by
  induction branches with
  | nil => rfl
  | cons branch rest ih => rw [mergedBranches, ih, List.map_cons]

theorem revises_merged : Revises merged id where
  core := core_merged
  primitive _ := rfl
  record heading fields := congrArg (Schema.record heading) (mergedFields_eq_map fields)
  enum _ _ _ := rfl
  fixed _ _ := rfl
  array _ := rfl
  map _ := rfl
  union branches := congrArg Schema.union (mergedBranches_eq_map branches)
  reference _ := rfl

/-! ### Leaving none -/

mutual

/-- The schema without its logical types. -/
def bare : Schema → Schema
  | .primitive type => .primitive type
  | .record heading fields => .record heading (bareFields fields)
  | .enum heading symbols default? => .enum heading symbols default?
  | .fixed heading size => .fixed heading size
  | .array items => .array (bare items)
  | .map values => .map (bare values)
  | .union branches => .union (bareBranches branches)
  | .reference name => .reference name
  | .logical base _ => bare base

/-- The fields of a record without the logical types of their types. -/
def bareFields : List (Field Schema) → List (Field Schema)
  | [] => []
  | ⟨name, type, default?, aliases⟩ :: rest =>
    ⟨name, bare type, default?, aliases⟩ :: bareFields rest

/-- The branches of a union without their logical types. -/
def bareBranches : List Schema → List Schema
  | [] => []
  | branch :: rest => bare branch :: bareBranches rest

end

theorem bareFields_eq_map (fields : List (Field Schema)) :
    bareFields fields = fields.map (.alter bare id) := by
  induction fields with
  | nil => rfl
  | cons field rest ih => rw [bareFields, ih, List.map_cons, Field.alter, id_eq]

theorem bareBranches_eq_map (branches : List Schema) :
    bareBranches branches = branches.map bare := by
  induction branches with
  | nil => rfl
  | cons branch rest ih => rw [bareBranches, ih, List.map_cons]

theorem core_bare : ∀ schema : Schema, schema.bare.core = schema.core.bare := by
  refine core_comm (fun _ _ => rfl) fun schema h => ?_
  cases schema with
  | logical => cases h
  | _ => rfl

theorem revises_bare : Revises bare id where
  core := core_bare
  primitive _ := rfl
  record heading fields := congrArg (Schema.record heading) (bareFields_eq_map fields)
  enum _ _ _ := rfl
  fixed _ _ := rfl
  array _ := rfl
  map _ := rfl
  union branches := congrArg Schema.union (bareBranches_eq_map branches)
  reference _ := rfl

/-! ### Leaving no defaults -/

mutual

/-- The schema without the defaults of its fields. -/
def undefaulted : Schema → Schema
  | .primitive type => .primitive type
  | .record heading fields => .record heading (undefaultedFields fields)
  | .enum heading symbols default? => .enum heading symbols default?
  | .fixed heading size => .fixed heading size
  | .array items => .array (undefaulted items)
  | .map values => .map (undefaulted values)
  | .union branches => .union (undefaultedBranches branches)
  | .reference name => .reference name
  | .logical base logicalType => .logical (undefaulted base) logicalType

/-- The fields of a record without their defaults and those of their types. -/
def undefaultedFields : List (Field Schema) → List (Field Schema)
  | [] => []
  | ⟨name, type, _, aliases⟩ :: rest =>
    ⟨name, undefaulted type, none, aliases⟩ :: undefaultedFields rest

/-- The branches of a union without the defaults of their fields. -/
def undefaultedBranches : List Schema → List Schema
  | [] => []
  | branch :: rest => undefaulted branch :: undefaultedBranches rest

end

theorem undefaultedFields_eq_map (fields : List (Field Schema)) :
    undefaultedFields fields = fields.map (.alter undefaulted fun _ => none) := by
  induction fields with
  | nil => rfl
  | cons field rest ih => rw [undefaultedFields, ih, List.map_cons, Field.alter]

theorem undefaultedBranches_eq_map (branches : List Schema) :
    undefaultedBranches branches = branches.map undefaulted := by
  induction branches with
  | nil => rfl
  | cons branch rest ih => rw [undefaultedBranches, ih, List.map_cons]

theorem core_undefaulted : ∀ schema : Schema,
    schema.undefaulted.core = schema.core.undefaulted := by
  refine core_comm (fun _ _ => rfl) fun schema h => ?_
  cases schema with
  | logical => cases h
  | _ => rfl

theorem revises_undefaulted : Revises undefaulted fun _ => none where
  core := core_undefaulted
  primitive _ := rfl
  record heading fields := congrArg (Schema.record heading) (undefaultedFields_eq_map fields)
  enum _ _ _ := rfl
  fixed _ _ := rfl
  array _ := rfl
  map _ := rfl
  union branches := congrArg Schema.union (undefaultedBranches_eq_map branches)
  reference _ := rfl

/-! ### What stays -/

theorem recordCount_core (schema : Schema) : schema.core.recordCount = schema.recordCount :=
  apply_core recordCount (fun _ _ => rfl) schema

theorem typeName_core (schema : Schema) : schema.core.typeName = schema.typeName :=
  apply_core typeName (fun _ _ => rfl) schema

namespace Revises

variable {f : Schema → Schema} {keep : Option Literal → Option Literal}

theorem typeName (hf : Revises f keep) (schema : Schema) :
    (f schema).typeName = schema.typeName := by
  rw [← typeName_core (f schema), hf.core, ← typeName_core schema]
  have hcore := schema.outermost?_core
  cases hschema : schema.core with
  | logical base logicalType =>
    rw [hschema] at hcore
    cases hcore
  | primitive | enum | fixed | reference =>
    simp only [hf.primitive, hf.enum, hf.fixed, hf.reference]
  | record | array | map | union =>
    simp only [hf.record, hf.array, hf.map, hf.union, Schema.typeName]

mutual

theorem recordCount (hf : Revises f keep) :
    ∀ schema : Schema, (f schema).recordCount = schema.recordCount
  | .primitive _ | .enum _ _ _ | .fixed _ _ | .reference _ => by
    simp only [hf.primitive, hf.enum, hf.fixed, hf.reference]
  | .record heading fields => by
    rw [hf.record, Schema.recordCount, Schema.recordCount, hf.fieldRecordCount fields]
  | .array items => by
    rw [hf.array, Schema.recordCount, Schema.recordCount, hf.recordCount items]
  | .map values => by
    rw [hf.map, Schema.recordCount, Schema.recordCount, hf.recordCount values]
  | .union branches => by
    rw [hf.union, Schema.recordCount, Schema.recordCount, hf.branchRecordCount branches]
  | .logical base logicalType => by
    rw [← recordCount_core, hf.core, Schema.core, ← hf.core, recordCount_core,
      hf.recordCount base, Schema.recordCount]

theorem fieldRecordCount (hf : Revises f keep) : ∀ fields : List (Field Schema),
    Schema.fieldRecordCount (fields.map (.alter f keep)) = Schema.fieldRecordCount fields
  | [] => rfl
  | ⟨_, type, _, _⟩ :: rest => by
    rw [List.map_cons, Field.alter, Schema.fieldRecordCount, Schema.fieldRecordCount,
      hf.recordCount type, hf.fieldRecordCount rest]

theorem branchRecordCount (hf : Revises f keep) : ∀ branches : List Schema,
    Schema.branchRecordCount (branches.map f) = Schema.branchRecordCount branches
  | [] => rfl
  | branch :: rest => by
    rw [List.map_cons, Schema.branchRecordCount, Schema.branchRecordCount,
      hf.recordCount branch, hf.branchRecordCount rest]

end

end Revises

end Schema

/-! ## Nodes -/

/-- The place of a node in the tree that the function gives. -/
def Node.mapSchema (f : Schema → Schema) (node : Node) : Node :=
  { node with schema := f node.schema }

/-- What becomes of a tree when its schemas are replaced by `f` and its defaults by `keep`. -/
def Revision.ofSchemas (f : Schema → Schema) (keep : Option Literal → Option Literal) :
    Revision :=
  ⟨Node.mapSchema f, fun field => keep field.default?⟩

namespace Node

/-- The node below all logical types. -/
def core (node : Node) : Node :=
  { node with schema := node.schema.core }

section

variable {f : Schema → Schema} {keep : Option Literal → Option Literal}
  (hf : Schema.Revises f keep)
include hf

theorem core_mapSchema (node : Node) : (node.mapSchema f).core = node.core.mapSchema f :=
  congrArg (Node.mk node.side node.ordinal) (hf.core node.schema)

theorem ofFields_mapSchema (side : Side) (ordinal : Nat) (fields : List (Field Schema)) :
    ofFields side ordinal (fields.map (.alter f keep)) =
      (ofFields side ordinal fields).map (Field.revise (.ofSchemas f keep)) := by
  induction fields generalizing ordinal with
  | nil => rfl
  | cons field rest ih =>
    rcases field with ⟨name, type, default?, aliases⟩
    rw [List.map_cons, Field.alter, ofFields, ofFields, List.map_cons, ih, hf.recordCount type]
    rfl

theorem ofBranches_mapSchema (side : Side) (ordinal : Nat) (branches : List Schema) :
    ofBranches side ordinal (branches.map f) =
      (ofBranches side ordinal branches).map (mapSchema f) := by
  induction branches generalizing ordinal with
  | nil => rfl
  | cons branch rest ih =>
    rw [List.map_cons, ofBranches, ofBranches, List.map_cons, ih, hf.recordCount branch]
    rfl

theorem parts_mapSchema {node : Node} (h : node.schema.outermost? = none) :
    (node.mapSchema f).parts = node.parts.map (mapSchema f) := by
  rcases node with ⟨side, ordinal, schema⟩
  cases schema with
  | logical => cases h
  | record heading fields =>
    simp only [parts, mapSchema, hf.record, ofFields_mapSchema hf, List.map_map]
    rfl
  | union branches =>
    simp only [parts, mapSchema, hf.union]
    exact ofBranches_mapSchema hf side ordinal branches
  | _ =>
    simp only [parts, mapSchema, hf.primitive, hf.enum, hf.fixed, hf.array, hf.map,
      hf.reference, List.map_cons, List.map_nil]

end

/-- What passes from the parts of a node to the node, and from below its logical types to the
node above them, holds of every node. -/
theorem core_induction {motive : Node → Prop}
    (logical : ∀ node : Node, motive node.core → motive node)
    (step : ∀ node : Node, node.schema.outermost? = none → (∀ part ∈ node.parts, motive part) →
      motive node) (node : Node) : motive node := by
  refine logical node ?_
  induction node using Node.induction with
  | step node ih =>
    rcases node with ⟨side, ordinal, schema⟩
    cases schema with
    | logical base logicalType => exact ih ⟨side, ordinal, base⟩ (.head _)
    | _ => exact step _ rfl fun part hpart => logical part (ih part hpart)

/-! ## Definitions -/

/-- The definitions of a tree in preorder. -/
def definitions (node : Node) : List Definition :=
  node.preorder.filterMap definition?

theorem definitions_eq (node : Node) :
    node.definitions = node.definition?.toList ++ node.parts.flatMap definitions := by
  rw [definitions, preorder_eq, List.filterMap_cons, List.filterMap_flatMap]
  cases node.definition? <;> rfl

theorem definitions_core (node : Node) : node.core.definitions = node.definitions := by
  refine Schema.apply_core (fun schema => definitions ⟨node.side, node.ordinal, schema⟩)
    (fun base logicalType => ?_) node.schema
  rw [definitions_eq ⟨node.side, node.ordinal, .logical base logicalType⟩]
  simp [parts, definition?]

section

variable {f : Schema → Schema} {keep : Option Literal → Option Literal}
  (hf : Schema.Revises f keep)
include hf

theorem definition?_mapSchema {node : Node} (h : node.schema.outermost? = none) :
    (node.mapSchema f).definition? =
      node.definition?.map (Definition.revise (.ofSchemas f keep)) := by
  rcases node with ⟨side, ordinal, schema⟩
  cases schema with
  | logical => cases h
  | record heading fields =>
    simp only [definition?, mapSchema, hf.record, ofFields_mapSchema hf]
    rfl
  | enum | fixed =>
    simp only [definition?, mapSchema, hf.enum, hf.fixed]
    rfl
  | _ =>
    simp only [definition?, mapSchema, hf.primitive, hf.array, hf.map, hf.union, hf.reference,
      Option.map_none]

theorem definitions_mapSchema (node : Node) : (node.mapSchema f).definitions =
    node.definitions.map (Definition.revise (.ofSchemas f keep)) := by
  induction node using core_induction with
  | logical node ih => rw [← definitions_core, core_mapSchema hf, ih, definitions_core]
  | step node hcore ih =>
    rw [definitions_eq, definitions_eq node, definition?_mapSchema hf hcore,
      parts_mapSchema hf hcore, List.map_append, List.flatMap_map, List.map_flatMap,
      List.flatMap_congr ih]
    cases node.definition? <;> rfl

end

end Node

/-! ## Registries -/

namespace Definition

/-- The definition that a reference spelled `name` stands for, among some definitions. -/
def find? (definitions : List Definition) (name : String) : Option Definition :=
  match definitions.find? fun definition => definition.fullname = name with
  | some definition => some definition
  | none =>
    match definitions.filter fun definition => lastSegment definition.fullname = name with
    | [] => none
    | first :: rest =>
      if rest.all fun definition => definition.fullname = first.fullname then some first
      else none

theorem find?_revise (revision : Revision) (definitions : List Definition) (name : String) :
    find? (definitions.map (revise revision)) name =
      (find? definitions name).map (revise revision) := by
  have hfind : ((definitions.map (revise revision)).find? fun definition =>
      definition.fullname = name) =
        (definitions.find? fun definition => definition.fullname = name).map (revise revision) := by
    simp only [List.find?_map, Function.comp_def, fullname_revise]
  have hfilter : ((definitions.map (revise revision)).filter fun definition =>
      lastSegment definition.fullname = name) =
        (definitions.filter fun definition =>
          lastSegment definition.fullname = name).map (revise revision) := by
    simp only [List.filter_map, Function.comp_def, fullname_revise]
  rw [find?, find?, hfind, hfilter]
  cases definitions.find? fun definition => definition.fullname = name with
  | some definition => rfl
  | none =>
    cases definitions.filter fun definition => lastSegment definition.fullname = name with
    | nil => rfl
    | cons first rest =>
      simp only [Option.map_none, List.map_cons, List.all_map, Function.comp_def,
        fullname_revise]
      split <;> rfl

end Definition

namespace Registry

/-- The definitions of a registry, without their positions. -/
def definitions (registry : Registry) : List Definition :=
  registry.entries.map (·.definition)

theorem definitions_ofRoot (root : Node) : (ofRoot root).definitions = root.definitions := by
  rw [definitions, ofRoot, Node.definitions, List.map_filterMap]
  have hsplit : root.preorder.zipIdx.map Prod.fst = root.preorder := List.zipIdx_map_fst ..
  conv_rhs => rw [← hsplit, List.filterMap_map]
  refine List.filterMap_congr fun entry _ => ?_
  rw [Option.map_map]
  exact Option.map_id'

theorem find?_definition (registry : Registry) (name : String) :
    (registry.find? name).map (·.definition) = Definition.find? registry.definitions name := by
  rw [find?, findByLastSegment?, Definition.find?, definitions, List.find?_map, List.filter_map]
  simp only [Function.comp_def]
  cases registry.entries.find? fun entry => entry.definition.fullname = name with
  | some entry => rfl
  | none =>
    cases registry.entries.filter fun entry =>
        lastSegment entry.definition.fullname = name with
    | nil => rfl
    | cons first rest =>
      simp only [Option.map_none, List.map_cons, List.all_map, Function.comp_def]
      split <;> rfl

theorem fieldCount_eq (registry : Registry) : registry.fieldCount =
    registry.definitions.foldr (fun definition total => definition.fieldCount + total) 0 := by
  rw [fieldCount, definitions, List.foldr_map]

/-- The second registry has the revised definitions of the first. -/
def Revises (revision : Revision) (registry image : Registry) : Prop :=
  image.definitions = registry.definitions.map (Definition.revise revision)

theorem revises_ofRoot {f : Schema → Schema} {keep : Option Literal → Option Literal}
    (hf : Schema.Revises f keep) (root : Node) :
    (ofRoot root).Revises (.ofSchemas f keep) (ofRoot (root.mapSchema f)) := by
  rw [Revises, definitions_ofRoot, definitions_ofRoot, Node.definitions_mapSchema hf]

theorem lookFrom_core (registry : Registry) (side : Side) (ordinal : Nat) (schema : Schema) :
    registry.lookFrom side ordinal schema.core = registry.lookFrom side ordinal schema :=
  Schema.apply_core (registry.lookFrom side ordinal) (fun _ _ => rfl) schema

theorem look_core (registry : Registry) (node : Node) :
    registry.look node.core = registry.look node :=
  registry.lookFrom_core node.side node.ordinal node.schema

theorem defaultTarget_core (registry : Registry) (node : Node) :
    registry.defaultTarget node.core = registry.defaultTarget node :=
  Schema.apply_core (registry.defaultTargetFrom node.side node.ordinal) (fun _ _ => rfl)
    node.schema

namespace Revises

variable {revision : Revision} {registry image : Registry}

/-- A name is found in both or in neither. -/
theorem find?_cases (h : registry.Revises revision image) (name : String) :
    (image.find? name = none ∧ registry.find? name = none) ∨
      ∃ entry found, image.find? name = some entry ∧ registry.find? name = some found ∧
        entry.definition = found.definition.revise revision := by
  have hfind : (image.find? name).map (·.definition) =
      (registry.find? name).map fun entry =>
        entry.definition.revise revision := by
    rw [find?_definition, h, Definition.find?_revise, ← find?_definition, Option.map_map]
    rfl
  cases himage : image.find? name with
  | none =>
    rw [himage] at hfind
    exact .inl ⟨rfl, Option.map_eq_none_iff.1 hfind.symm⟩
  | some entry =>
    rw [himage] at hfind
    obtain ⟨found, hfound, hdefinition⟩ := Option.map_eq_some_iff.1 hfind.symm
    exact .inr ⟨entry, found, rfl, hfound, hdefinition.symm⟩

theorem fieldCount (h : registry.Revises revision image) :
    image.fieldCount = registry.fieldCount := by
  rw [fieldCount_eq, h, List.foldr_map, fieldCount_eq]
  simp only [Definition.fieldCount_revise]

variable {f : Schema → Schema} {keep : Option Literal → Option Literal}
  (hf : Schema.Revises f keep)
include hf

/-- Looking up commutes with the revision. -/
theorem look (h : registry.Revises (.ofSchemas f keep) image) (node : Node) :
    image.look (node.mapSchema f) =
      (registry.look node).map (Shape.revise (.ofSchemas f keep)) := by
  rw [← look_core, Node.core_mapSchema hf, ← look_core registry]
  have hcore : node.core.schema.outermost? = none := node.schema.outermost?_core
  generalize node.core = core at hcore
  rcases core with ⟨side, ordinal, schema⟩
  cases schema with
  | logical => cases hcore
  | reference name =>
    simp only [Registry.look, Node.mapSchema, hf.reference, lookFrom]
    rcases h.find?_cases name with ⟨himage, hregistry⟩ | ⟨entry, found, himage, hregistry, hsame⟩
    · rw [himage, hregistry]
      rfl
    · rw [himage, hregistry]
      exact congrArg (fun definition => Except.ok (Shape.named definition)) hsame
  | record heading fields =>
    simp only [Registry.look, Node.mapSchema, hf.record, lookFrom, Node.ofFields_mapSchema hf]
    rfl
  | union branches =>
    simp only [Registry.look, Node.mapSchema, hf.union, lookFrom, Node.ofBranches_mapSchema hf]
    rfl
  | _ =>
    simp only [Registry.look, Node.mapSchema, hf.primitive, hf.enum, hf.fixed, hf.array, hf.map,
      lookFrom]
    rfl

/-- Finding the type of a default commutes with the revision.  The induction goes along the first
branches of unions. -/
theorem defaultTarget (h : registry.Revises (.ofSchemas f keep) image) (node : Node) :
    image.defaultTarget (node.mapSchema f) =
      (registry.defaultTarget node).map (DefaultTarget.revise (.ofSchemas f keep)) := by
  induction node using Node.core_induction with
  | logical node ih =>
    rw [← defaultTarget_core, Node.core_mapSchema hf, ih, defaultTarget_core]
  | step node hcore ih =>
    rcases node with ⟨side, ordinal, schema⟩
    cases schema with
    | logical => cases hcore
    | reference name =>
      simp only [Registry.defaultTarget, Node.mapSchema, hf.reference, defaultTargetFrom]
      rcases h.find?_cases name with
        ⟨himage, hregistry⟩ | ⟨entry, found, himage, hregistry, hsame⟩
      · rw [himage, hregistry]
        rfl
      · rw [himage, hregistry]
        exact congrArg (fun definition => Except.ok (DefaultTarget.mk 0 (.named definition)))
          hsame
    | record heading fields =>
      simp only [Registry.defaultTarget, Node.mapSchema, hf.record, defaultTargetFrom,
        Node.ofFields_mapSchema hf]
      rfl
    | union branches =>
      cases branches with
      | nil =>
        simp only [Registry.defaultTarget, Node.mapSchema, hf.union, List.map_nil,
          defaultTargetFrom]
        rfl
      | cons first rest =>
        have hfirst := ih ⟨side, ordinal, first⟩ (.head _)
        simp only [Registry.defaultTarget, Node.mapSchema] at hfirst
        simp only [Registry.defaultTarget, Node.mapSchema, hf.union, List.map_cons,
          defaultTargetFrom, hfirst]
        cases registry.defaultTargetFrom side ordinal first <;> rfl
    | _ =>
      simp only [Registry.defaultTarget, Node.mapSchema, hf.primitive, hf.enum, hf.fixed,
        hf.array, hf.map, defaultTargetFrom]
      rfl

end Revises

end Registry

end AvroResolution
