import AvroResolution.Compilation.Context
import AvroResolution.Proofs.Schema.Preorder

/-!
# Laws of looking up

Looking a node up leads to another node of the same tree, whose own type is the
shape that is found (`Registry.look_source`).  So all that is ever looked at
belongs to one of the two trees.

* `Registry.Holds` says that a node belongs to the tree of a registry,
  `Registry.Defines` that a record is defined there.  `Context.Holds` and
  `Context.Defines` speak of the tree of the node's side.
* `Registry.Defines.eq`: a record is known by its number.
* `Context.shape?` is the shape that `Context.look` finds.
* `Node.everyShape` tests all types of a tree, and so every shape that is found there
  (`Registry.of_everyShape`).
-/

namespace AvroResolution

/-! ## Shapes of nodes -/

/-- The shape of a node that is neither a reference nor a logical type. -/
def Node.ownShape? (node : Node) : Option Shape :=
  match node.schema with
  | .primitive type => some (.primitive type)
  | .array items => some (.array ⟨node.side, node.ordinal, items⟩)
  | .map values => some (.map ⟨node.side, node.ordinal, values⟩)
  | .union branches => some (.union (Node.ofBranches node.side node.ordinal branches))
  | _ => node.definition?.map .named

/-- The nodes right below a shape. -/
def Shape.parts : Shape → List Node
  | .named (.record record) => record.fields.map (·.type)
  | .array items => [items]
  | .map values => [values]
  | .union branches => branches
  | _ => []

theorem Node.parts_of_ownShape? {node : Node} {shape : Shape} (h : node.ownShape? = some shape) :
    shape.parts = node.parts := by
  rcases node with ⟨side, ordinal, schema⟩
  cases schema <;> cases h <;> rfl

theorem Node.definition?_of_ownShape? {node : Node} {definition : Definition}
    (h : node.ownShape? = some (.named definition)) : node.definition? = some definition := by
  rcases node with ⟨side, ordinal, schema⟩
  cases schema <;> cases h <;> rfl

theorem Node.ownShape?_of_definition? {node : Node} {definition : Definition}
    (h : node.definition? = some definition) : node.ownShape? = some (.named definition) := by
  rcases node with ⟨side, ordinal, schema⟩
  cases schema <;> cases h <;> rfl

theorem Node.side_of_definition? {node : Node} {record : RecordNode}
    (h : node.definition? = some (.record record)) : record.id.side = node.side := by
  rcases node with ⟨side, ordinal, schema⟩
  cases schema <;> cases h
  rfl

namespace Registry

/-! ## Nodes of the tree -/

/-- The node belongs to the tree of the registry. -/
def Holds (registry : Registry) (node : Node) : Prop :=
  ∃ root, registry = .ofRoot root ∧ node ∈ root.preorder

/-- The tree of the registry defines the record. -/
def Defines (registry : Registry) (record : RecordNode) : Prop :=
  ∃ node, registry.Holds node ∧ node.definition? = some (.record record)

theorem holds_root (root : Node) : (ofRoot root).Holds root :=
  ⟨root, rfl, root.self_mem_preorder⟩

theorem mem_entries_ofRoot {root : Node} {definition : Definition} :
    (∃ entry ∈ (ofRoot root).entries, entry.definition = definition) ↔
      ∃ node ∈ root.preorder, node.definition? = some definition := by
  constructor
  · rintro ⟨entry, hentry, rfl⟩
    obtain ⟨⟨node, position⟩, hnode, hdefinition⟩ := List.mem_filterMap.1 hentry
    obtain ⟨definition, hsome, rfl⟩ := Option.map_eq_some_iff.1 hdefinition
    obtain ⟨_, _, hget⟩ := List.mem_zipIdx hnode
    exact ⟨node, by rw [hget]; exact List.getElem_mem _, hsome⟩
  · rintro ⟨node, hnode, hdefinition⟩
    obtain ⟨position, hlt, rfl⟩ := List.mem_iff_getElem.1 hnode
    refine ⟨⟨position, definition⟩, List.mem_filterMap.2 ⟨(root.preorder[position], position), ?_,
      by simp [hdefinition]⟩, rfl⟩
    exact List.mem_zipIdx_iff_getElem?.2 (List.getElem?_eq_getElem hlt)

theorem exists_of_find? {root : Node} {name : String} {entry : Entry}
    (hfind : (ofRoot root).find? name = some entry) :
    ∃ source ∈ root.preorder, source.definition? = some entry.definition := by
  have hentry : entry ∈ (ofRoot root).entries := by
    rw [find?] at hfind
    split at hfind
    · cases hfind
      exact List.mem_of_find?_eq_some ‹_›
    · rw [findByLastSegment?] at hfind
      split at hfind
      · cases hfind
      · rename_i first rest hfilter
        split at hfind
        · cases hfind
          have hmem : entry ∈ entry :: rest := .head _
          rw [← hfilter] at hmem
          exact (List.mem_filter.1 hmem).1
        · cases hfind
  exact mem_entries_ofRoot.1 ⟨entry, hentry, rfl⟩

/-- Looking a node up leads to a node of the same tree.  The induction is on the
logical types above the base. -/
theorem look_source {root node : Node} {shape : Shape} (h : node ∈ root.preorder)
    (hlook : (ofRoot root).look node = .ok shape) :
    ∃ source ∈ root.preorder, source.ownShape? = some shape := by
  induction node using Node.induction with
  | step node ih =>
    rcases node with ⟨side, ordinal, schema⟩
    cases schema with
    | logical base logicalType =>
      have hpart : (⟨side, ordinal, base⟩ : Node) ∈
          Node.parts ⟨side, ordinal, .logical base logicalType⟩ := .head _
      exact ih ⟨side, ordinal, base⟩ hpart (Node.part_mem_preorder h hpart) hlook
    | reference name =>
      rw [look, lookFrom] at hlook
      split at hlook
      · rename_i entry hfind
        cases hlook
        obtain ⟨source, hsource, hdefinition⟩ := exists_of_find? hfind
        exact ⟨source, hsource, Node.ownShape?_of_definition? hdefinition⟩
      · cases hlook
    | _ =>
      cases hlook
      exact ⟨_, h, rfl⟩

/-- What is looked up from the side of a tree is on that side. -/
theorem side_of_look {root node part : Node} {shape : Shape} (hside : node.side = root.side)
    (hlook : (ofRoot root).look node = .ok shape) (hpart : part ∈ shape.parts) :
    part.side = node.side := by
  induction node using Node.induction with
  | step node ih =>
    rcases node with ⟨side, ordinal, schema⟩
    cases schema with
    | logical base logicalType => exact ih ⟨side, ordinal, base⟩ (.head _) hside hlook
    | reference name =>
      rw [look, lookFrom] at hlook
      split at hlook
      · rename_i entry hfind
        cases hlook
        obtain ⟨source, hsource, hdefinition⟩ := exists_of_find? hfind
        rw [Node.parts_of_ownShape? (Node.ownShape?_of_definition? hdefinition)] at hpart
        rw [Node.side_of_mem_parts hpart, Node.side_of_mem_preorder root source hsource, ← hside]
      · cases hlook
    | _ =>
      cases hlook
      exact Node.side_of_mem_parts hpart

theorem look_part {root node part : Node} {shape : Shape} (h : node ∈ root.preorder)
    (hlook : (ofRoot root).look node = .ok shape) (hpart : part ∈ shape.parts) :
    part ∈ root.preorder := by
  obtain ⟨source, hsource, hshape⟩ := look_source h hlook
  rw [Node.parts_of_ownShape? hshape] at hpart
  exact Node.part_mem_preorder hsource hpart

theorem Holds.part {registry : Registry} {node part : Node} {shape : Shape}
    (h : registry.Holds node) (hlook : registry.look node = .ok shape)
    (hpart : part ∈ shape.parts) : registry.Holds part ∧ part.side = node.side := by
  obtain ⟨root, rfl, hnode⟩ := h
  have hmem := look_part hnode hlook hpart
  refine ⟨⟨root, rfl, hmem⟩, ?_⟩
  rw [Node.side_of_mem_preorder root part hmem, Node.side_of_mem_preorder root node hnode]

theorem Holds.record {registry : Registry} {node : Node} {record : RecordNode}
    (h : registry.Holds node) (hlook : registry.look node = .ok (.named (.record record))) :
    registry.Defines record ∧ record.id.side = node.side := by
  obtain ⟨root, rfl, hnode⟩ := h
  obtain ⟨source, hsource, hshape⟩ := look_source hnode hlook
  have hdefinition := Node.definition?_of_ownShape? hshape
  refine ⟨⟨source, ⟨root, rfl, hsource⟩, hdefinition⟩, ?_⟩
  rw [Node.side_of_definition? hdefinition, Node.side_of_mem_preorder root source hsource,
    Node.side_of_mem_preorder root node hnode]

/-- A record of a tree is known by its number. -/
theorem Defines.eq {registry : Registry} {record other : RecordNode}
    (h : registry.Defines record) (h' : registry.Defines other) (hid : record.id = other.id) :
    record = other := by
  obtain ⟨node, ⟨root, rfl, hnode⟩, hdefinition⟩ := h
  obtain ⟨node', ⟨root', hroot, hnode'⟩, hdefinition'⟩ := h'
  obtain ⟨entry, hentry, hsame⟩ := mem_entries_ofRoot.2 ⟨node', hnode', hdefinition'⟩
  rw [← hroot] at hentry
  obtain ⟨twin, htwin, htwinDefinition⟩ := mem_entries_ofRoot.1 ⟨entry, hentry, hsame⟩
  have hfrom : ∀ {node : Node} {record : RecordNode},
      node.definition? = some (.record record) →
        node.isRecord = true ∧ record.id.ordinal = node.ordinal := by
    rintro ⟨side, ordinal, schema⟩ record h
    cases schema <;> cases h
    exact ⟨rfl, rfl⟩
  obtain ⟨hrecord, hordinal⟩ := hfrom hdefinition
  obtain ⟨hrecord', hordinal'⟩ := hfrom htwinDefinition
  obtain rfl := Node.eq_of_mem_preorder hnode htwin hrecord hrecord'
    (by rw [← hordinal, ← hordinal', hid])
  rw [htwinDefinition] at hdefinition
  cases hdefinition
  rfl

theorem Defines.field {registry : Registry} {record : RecordNode} (h : registry.Defines record)
    {field : Field Node} (hfield : field ∈ record.fields) :
    registry.Holds field.type ∧ field.type.side = record.id.side := by
  obtain ⟨node, ⟨root, rfl, hnode⟩, hdefinition⟩ := h
  have hshape := Node.ownShape?_of_definition? hdefinition
  have hpart : field.type ∈ node.parts := by
    rw [← Node.parts_of_ownShape? hshape]
    exact List.mem_map_of_mem hfield
  exact ⟨⟨root, rfl, Node.part_mem_preorder hnode hpart⟩,
    (Node.side_of_mem_parts hpart).trans (Node.side_of_definition? hdefinition).symm⟩

/-- The shape of a node, unless it is a reference to nothing. -/
def shape? (registry : Registry) (node : Node) : Option Shape :=
  (registry.look node).toOption

theorem look_of_shape? {registry : Registry} {node : Node} {shape : Shape}
    (h : registry.shape? node = some shape) : registry.look node = .ok shape := by
  rw [shape?] at h
  cases hlook : registry.look node with
  | ok found =>
    rw [hlook] at h
    cases h
    rfl
  | error dangling =>
    rw [hlook] at h
    cases h

end Registry

/-- Whether all types that are written out in a tree pass a test. -/
def Node.everyShape (root : Node) (test : Shape → Bool) : Bool :=
  root.preorder.all fun node => node.ownShape?.all test

theorem Node.everyShape_mono {root : Node} {test other : Shape → Bool}
    (h : root.everyShape test = true) (himp : ∀ shape, test shape = true → other shape = true) :
    root.everyShape other = true := by
  refine List.all_eq_true.2 fun node hnode => ?_
  have hpass := List.all_eq_true.1 h node hnode
  cases hshape : node.ownShape? with
  | none => rfl
  | some shape =>
    rw [hshape] at hpass
    exact himp shape hpass

/-- What all types of a tree pass, the shape of every node passes. -/
theorem Registry.of_everyShape {root node : Node} {shape : Shape} {test : Shape → Bool}
    (h : root.everyShape test = true) (hnode : node ∈ root.preorder)
    (hshape : (ofRoot root).shape? node = some shape) : test shape = true := by
  obtain ⟨source, hsource, hown⟩ := look_source hnode (look_of_shape? hshape)
  have hpass := List.all_eq_true.1 h source hsource
  rwa [hown] at hpass

/-! ## Two trees -/

namespace Context

variable {context : Context} {node : Node} {shape : Shape}

/-- The node belongs to the tree of its side. -/
def Holds (context : Context) (node : Node) : Prop :=
  (context.registry node.side).Holds node

/-- The record is defined in the tree of its side. -/
def Defines (context : Context) (record : RecordNode) : Prop :=
  (context.registry record.id.side).Defines record

theorem Defines.eq {record other : RecordNode} (h : context.Defines record)
    (h' : context.Defines other) (hid : record.id = other.id) : record = other := by
  rw [Defines, ← hid] at h'
  exact Registry.Defines.eq h h' hid

theorem Defines.field {record : RecordNode} (h : context.Defines record) {field : Field Node}
    (hfield : field ∈ record.fields) :
    context.Holds field.type ∧ field.type.side = record.id.side := by
  obtain ⟨hholds, hside⟩ := Registry.Defines.field h hfield
  exact ⟨by rwa [Holds, hside], hside⟩

/-- The shape of a node in the tree of its side. -/
def shape? (context : Context) (node : Node) : Option Shape :=
  (context.registry node.side).shape? node

theorem Holds.part {part : Node} (h : context.Holds node)
    (hshape : context.shape? node = some shape) (hpart : part ∈ shape.parts) :
    context.Holds part ∧ part.side = node.side := by
  obtain ⟨hholds, hside⟩ := Registry.Holds.part h (Registry.look_of_shape? hshape) hpart
  exact ⟨by rwa [Holds, hside], hside⟩

theorem Holds.record {record : RecordNode} (h : context.Holds node)
    (hshape : context.shape? node = some (.named (.record record))) :
    context.Defines record ∧ record.id.side = node.side := by
  obtain ⟨hdefines, hside⟩ := Registry.Holds.record h (Registry.look_of_shape? hshape)
  exact ⟨by rwa [Defines, hside], hside⟩

end Context

end AvroResolution
