import AvroResolution.Proofs.Default.Denotation
import AvroResolution.Proofs.Schema.Names
import AvroResolution.Proofs.Schema.Revision
import Mathlib.Data.List.Perm.Subperm

/-!
# Every default that denotes a value is encoded

A default is refused while it is being expanded, so that no expansion goes on for ever.  The
names of the defaults that are being expanded tell the fields of a tree apart, if its records
have different names and no field has a point in its name (`Node.NamesApart`).  Then no default
is refused without need.

* `Registry.Denotes.acc`: what a literal takes to denote a value goes no deeper for ever, so it
  never takes itself.
* `Registry.LeavesOut` says that a literal, when it is written, leaves out the field of a name.
  `Registry.Denotes.not_leavesOut`: the default of a field does not leave out that field.
* `Registry.Expandable` is the invariant of the expansions: what is being expanded is not left
  out again, so every further expansion is a new one, of which the budget allows enough.
* `encodeDefault_of_denotes`: a literal that denotes a value has an encoding.
-/

namespace AvroResolution

open Relation (ReflTransGen TransGen)

/-! ## Types below unions -/

namespace Registry

variable {registry : Registry} {node : Node}

/-- The type of a default by the shape of its node. -/
def shapeTarget (registry : Registry) : Shape → Except EncodeFault DefaultTarget
  | .primitive type => .ok ⟨0, .primitive type⟩
  | .named definition => .ok ⟨0, .named definition⟩
  | .array items => .ok ⟨0, .array items⟩
  | .map values => .ok ⟨0, .map values⟩
  | .union [] => .error .emptyUnion
  | .union (first :: _) => do
    let target ← registry.defaultTarget first
    return { target with unions := target.unions + 1 }

theorem defaultTarget_eq {shape : Shape} (hshape : registry.shape? node = some shape) :
    registry.defaultTarget node = registry.shapeTarget shape := by
  induction node using Node.core_induction with
  | logical node ih =>
    rw [shape?, ← look_core] at hshape
    rw [← defaultTarget_core]
    exact ih hshape
  | step node hcore _ =>
    have hlook := look_of_shape? hshape
    rcases node with ⟨side, ordinal, schema⟩
    cases schema with
    | logical => cases hcore
    | reference name =>
      rw [look, lookFrom] at hlook
      rw [defaultTarget, defaultTargetFrom]
      cases hfind : registry.find? name with
      | none =>
        rw [hfind] at hlook
        cases hlook
      | some entry =>
        rw [hfind] at hlook
        cases hlook
        rfl
    | union branches =>
      cases hlook
      cases branches <;> rfl
    | _ =>
      cases hlook
      rfl

variable {omitted : String → Node → Literal → Encoding} {literal : Literal}

/-- At a node that is no union a literal is written as its content. -/
theorem encodeAs_plain (type : PlainType) (hshape : registry.shape? node = some type.shape) :
    literal.encodeAs registry omitted node = encodeContent registry omitted literal type := by
  have htarget : registry.defaultTarget node = .ok ⟨0, type⟩ := by
    rw [defaultTarget_eq hshape]
    cases type <;> rfl
  rw [encodeAs_eq, htarget]
  cases hcontent : encodeContent registry omitted literal type <;> simp [hcontent, bind,
    Except.bind, pure, Except.pure]

/-- At a union a literal is written as at its first branch, behind the index of that. -/
theorem encodeAs_union {first : Node} {others : List Node}
    (hshape : registry.shape? node = some (.union (first :: others))) :
    literal.encodeAs registry omitted node =
      (literal.encodeAs registry omitted first).map ((Step.index 0).encode ++ ·) := by
  rw [encodeAs_eq, encodeAs_eq, defaultTarget_eq hshape, shapeTarget]
  cases registry.defaultTarget first with
  | error fault => rfl
  | ok target =>
    simp only [Except.map, bind, Except.bind, pure, Except.pure]
    cases encodeContent registry omitted literal target.type with
    | error fault => rfl
    | ok content => simp [List.replicate_succ]

/-! ## Encodings that exist -/

theorem exists_encodeElements {items : Node} {elements : List Literal}
    (h : ∀ element ∈ elements, ∃ bytes, element.encodeAs registry omitted items = .ok bytes) :
    ∃ bytes, Literal.encodeElements registry omitted elements items = .ok bytes := by
  induction elements with
  | nil => exact ⟨[], Literal.encodeElements.eq_1 ..⟩
  | cons element rest ih =>
    obtain ⟨part, hpart⟩ := h element (.head _)
    obtain ⟨others, hothers⟩ := ih fun other hother => h other (.tail _ hother)
    rw [Literal.encodeElements, hpart, hothers]
    exact ⟨_, rfl⟩

theorem exists_encodeMapEntries {values : Node} {entries : List (String × Literal)}
    (h : ∀ entry ∈ entries, ∃ bytes, entry.2.encodeAs registry omitted values = .ok bytes) :
    ∃ bytes, encodeMapEntries values (Literal.entryEncoders registry omitted entries) =
      .ok bytes := by
  induction entries with
  | nil => exact ⟨[], by rw [Literal.entryEncoders, encodeMapEntries]⟩
  | cons entry rest ih =>
    rcases entry with ⟨key, literal⟩
    obtain ⟨part, hpart⟩ := h (key, literal) (.head _)
    obtain ⟨others, hothers⟩ := ih fun other hother => h other (.tail _ hother)
    rw [Literal.entryEncoders, encodeMapEntries, hpart, hothers]
    exact ⟨_, rfl⟩

/-- The name under which the default of a field is expanded. -/
def fieldKey (record : RecordNode) (field : Field Node) : String :=
  record.heading.fullname ++ "." ++ field.name

theorem exists_encodeFields {record : RecordNode} {entries : List (String × Literal)}
    {fields : List (Field Node)}
    (h : ∀ field ∈ fields, ∃ literal bytes, field.literal? entries = some literal ∧
      (Literal.entry? field.name entries ≠ none →
        literal.encodeAs registry omitted field.type = .ok bytes) ∧
      (Literal.entry? field.name entries = none →
        omitted (fieldKey record field) field.type literal = .ok bytes)) :
    ∃ bytes, encodeFields omitted record.heading.fullname
      (Literal.entryEncoders registry omitted entries) fields = .ok bytes := by
  induction fields with
  | nil => exact ⟨[], rfl⟩
  | cons field rest ih =>
    obtain ⟨literal, part, hliteral, hgiven, homitted⟩ := h field (.head _)
    obtain ⟨others, hothers⟩ := ih fun other hother => h other (.tail _ hother)
    rw [encodeFields, entry?_entryEncoders, hothers]
    rw [Field.literal?] at hliteral
    cases hentry : Literal.entry? field.name entries with
    | some given =>
      rw [hentry, Option.some_or] at hliteral
      obtain rfl := Option.some.inj hliteral
      have hpart := hgiven (by rw [hentry]; exact Option.some_ne_none _)
      simp only [Option.map_some, hpart]
      exact ⟨_, rfl⟩
    | none =>
      rw [hentry, Option.none_or] at hliteral
      have hpart := homitted hentry
      rw [fieldKey] at hpart
      simp only [Option.map_none, hliteral, hpart]
      exact ⟨_, rfl⟩

end Registry

theorem latin1Bytes_of_isLatin1 {kind : Kind} {text : String} {content : List UInt8}
    (h : IsLatin1 text content) : latin1Bytes kind (.string text) = .ok content := by
  rw [latin1Bytes]
  rw [IsLatin1] at h
  generalize text.toList = characters at h
  induction characters generalizing content with
  | nil =>
    obtain rfl := List.map_eq_nil_iff.1 h.symm
    rfl
  | cons character rest ih =>
    cases content with
    | nil => cases h
    | cons byte others =>
      obtain ⟨hbyte, hothers⟩ := List.cons.inj h
      have hlt : character.toNat < 256 := hbyte ▸ byte.toNat_lt
      rw [List.mapM_cons, if_pos hlt, ih hothers, hbyte, UInt8.ofNat_toNat]
      rfl

theorem numberLiteral_of_number? {type : Primitive} {literal : Literal} {x : Binary64}
    (h : literal.number? = some x) : numberLiteral type literal = .ok x := by
  cases literal <;> cases h <;> rfl

/-- What denotes a scalar has an encoding. -/
theorem Primitive.Denotes.exists_bytes {type : Primitive} {literal : Literal} {value : Value}
    (h : type.Denotes literal value) : ∃ bytes, encodePrimitive type literal = .ok bytes := by
  cases h with
  | int hlower hupper =>
    rw [encodePrimitive, integerLiteral, if_pos ⟨hlower, hupper⟩]
    exact ⟨_, rfl⟩
  | long hlower hupper =>
    rw [encodePrimitive, integerLiteral, if_pos ⟨hlower, hupper⟩]
    exact ⟨_, rfl⟩
  | float hnumber =>
    rw [encodePrimitive, numberLiteral_of_number? hnumber]
    exact ⟨_, rfl⟩
  | double hnumber =>
    rw [encodePrimitive, numberLiteral_of_number? hnumber]
    exact ⟨_, rfl⟩
  | bytes hcontent =>
    rw [encodePrimitive, latin1Bytes_of_isLatin1 hcontent]
    exact ⟨_, rfl⟩
  | _ => exact ⟨_, rfl⟩

/-! ## Names that tell fields apart -/

namespace Node

/-- The records that a tree defines. -/
def records (root : Node) : List RecordNode :=
  root.preorder.filterMap fun node =>
    match node.definition? with
    | some (.record record) => some record
    | _ => none

/-- The records of a tree have different full names, and no field has a point in its name. -/
def NamesApart (root : Node) : Prop :=
  (root.records.map (·.heading.fullname)).Nodup ∧
    ∀ record ∈ root.records, ∀ field ∈ record.fields, '.' ∉ field.name.toList

instance (root : Node) : Decidable root.NamesApart :=
  inferInstanceAs (Decidable (_ ∧ _))

theorem mem_records {root : Node} {record : RecordNode}
    (h : (Registry.ofRoot root).Defines record) : record ∈ root.records := by
  obtain ⟨node, ⟨other, hother, hnode⟩, hdefinition⟩ := h
  obtain ⟨entry, hentry, hsame⟩ := Registry.mem_entries_ofRoot.2 ⟨node, hnode, hdefinition⟩
  rw [← hother] at hentry
  obtain ⟨source, hsource, hdeclared⟩ := Registry.mem_entries_ofRoot.1 ⟨entry, hentry, hsame⟩
  exact List.mem_filterMap.2 ⟨source, hsource, by rw [hdeclared]⟩

/-- The names under which the defaults of a tree are expanded. -/
def fieldKeys (root : Node) : List String :=
  root.records.flatMap fun record => record.fields.map (Registry.fieldKey record)

theorem length_fieldKeys (root : Node) :
    root.fieldKeys.length = (Registry.ofRoot root).fieldCount := by
  rw [Registry.fieldCount_eq, Registry.definitions_ofRoot, definitions, fieldKeys, records]
  induction root.preorder with
  | nil => rfl
  | cons node rest ih =>
    rw [List.filterMap_cons, List.filterMap_cons]
    cases node.definition? with
    | none => exact ih
    | some definition =>
      cases definition with
      | record record =>
        simp only [List.flatMap_cons, List.length_append, List.length_map, ih, List.foldr_cons,
          Definition.fieldCount]
      | _ => simpa [Definition.fieldCount] using ih

end Node

/-- What stands after the last point of a text is known by it. -/
theorem append_point_inj {first second before after : String} (hbefore : '.' ∉ before.toList)
    (hafter : '.' ∉ after.toList) (h : first ++ "." ++ before = second ++ "." ++ after) :
    first = second ∧ before = after := by
  have hlast : before = after := by
    rw [← lastSegment_append_point hbefore first, h, lastSegment_append_point hafter]
  subst hlast
  refine ⟨String.toList_injective ?_, rfl⟩
  have hlists := congrArg String.toList h
  simpa using hlists

/-- A field and its record are known by the name under which the default is expanded. -/
theorem Node.NamesApart.eq_of_fieldKey {root : Node} (h : root.NamesApart)
    {record other : RecordNode} (hrecord : (Registry.ofRoot root).Defines record)
    (hother : (Registry.ofRoot root).Defines other) {field field' : Field Node}
    (hfield : field ∈ record.fields) (hfield' : field' ∈ other.fields)
    (hkey : Registry.fieldKey record field = Registry.fieldKey other field') :
    record = other ∧ field.name = field'.name := by
  have hmem := Node.mem_records hrecord
  have hmem' := Node.mem_records hother
  obtain ⟨hrecords, hnames⟩ := append_point_inj (h.2 _ hmem _ hfield) (h.2 _ hmem' _ hfield') hkey
  exact ⟨List.inj_on_of_nodup_map h.1 hmem hmem' hrecords, hnames⟩

/-! ## No default takes itself -/

/-- What is below itself is never reached from below. -/
theorem not_transGen_of_acc {α : Type} {below : α → α → Prop} {place : α}
    (h : Acc (flip below) place) : ¬TransGen below place place := by
  induction h with
  | intro place _ ih =>
    intro hcycle
    obtain ⟨next, hnext, hback⟩ := TransGen.head'_iff.1 hcycle
    exact ih next hnext (.tail' hback hnext)

namespace Registry

variable {registry : Registry} {node : Node} {literal : Literal} {value : Value}

/-- What a literal takes to denote a value goes no deeper for ever.  The induction is on the rules,
each of which denotes from all that is taken. -/
theorem Denotes.acc (h : registry.Denotes node literal value) :
    Acc (flip registry.Involves) (node, literal) := by
  induction h with
  | @primitive node type literal value hshape _ =>
    refine .intro _ fun place hplace => ?_
    cases hplace <;> cases hshape.symm.trans ‹_›
  | @enum node heading symbols default? symbol ordinal hshape _ =>
    refine .intro _ fun place hplace => ?_
    cases hplace
    cases hshape.symm.trans ‹_›
  | fixed hshape _ =>
    refine .intro _ fun place hplace => ?_
    cases hplace
    cases hshape.symm.trans ‹_›
  | record hshape hfields hliterals _ ih =>
    refine .intro _ fun place hplace => ?_
    cases hplace with
    | field hfound hfield hliteral =>
      cases hshape.symm.trans hfound
      rw [← hfields] at hfield
      obtain ⟨row, hrow, rfl⟩ := List.mem_map.1 hfield
      rw [hliterals row hrow] at hliteral
      obtain rfl := Option.some.inj hliteral
      exact ih row hrow
    | value hfound | first hfound => cases hshape.symm.trans hfound
  | array hshape _ ih =>
    refine .intro _ fun place hplace => ?_
    cases hplace with
    | element hfound helement =>
      cases hshape.symm.trans hfound
      obtain ⟨row, hrow, rfl⟩ := List.mem_map.1 helement
      exact ih row hrow
    | first hfound => cases hshape.symm.trans hfound
  | map hshape _ _ ih =>
    refine .intro _ fun place hplace => ?_
    cases hplace with
    | value hfound hentry =>
      cases hshape.symm.trans hfound
      obtain ⟨row, hrow, rfl⟩ := List.mem_map.1 hentry
      exact ih row hrow
    | field hfound | first hfound => cases hshape.symm.trans hfound
  | union hshape _ ih =>
    refine .intro _ fun place hplace => ?_
    cases hplace with
    | first hfound =>
      cases hshape.symm.trans hfound
      exact ih
    | element hfound | value hfound | field hfound => cases hshape.symm.trans hfound

/-- When the literal is written at its node, a record is written without the field whose default
has that name. -/
def LeavesOut (registry : Registry) (place : Node × Literal) (key : String) : Prop :=
  ∃ node record entries field,
    ReflTransGen registry.Involves place (node, .object entries) ∧
      registry.shape? node = some (.named (.record record)) ∧ field ∈ record.fields ∧
        Literal.entry? field.name entries = none ∧ fieldKey record field = key

theorem LeavesOut.of_involves {place part : Node × Literal} {key : String}
    (hinvolves : registry.Involves place part) (h : registry.LeavesOut part key) :
    registry.LeavesOut place key := by
  obtain ⟨node, record, entries, field, hreach, hfound⟩ := h
  exact ⟨node, record, entries, field, .head hinvolves hreach, hfound⟩

theorem Holds.involved {place part : Node × Literal} (h : registry.Involves place part)
    (hnode : registry.Holds place.1) : registry.Holds part.1 := by
  cases h with
  | first hshape | element hshape | value hshape =>
    exact (hnode.part (look_of_shape? hshape) (.head _)).1
  | field hshape hfield =>
    exact (hnode.part (look_of_shape? hshape) (List.mem_map_of_mem hfield)).1

theorem Holds.reached {place part : Node × Literal} (hnode : registry.Holds place.1)
    (h : ReflTransGen registry.Involves place part) : registry.Holds part.1 := by
  induction h with
  | refl => exact hnode
  | tail _ hinvolves ih => exact Holds.involved hinvolves ih

/-- A default that denotes a value does not leave out the field that it is the default of: it would
be filled by itself. -/
theorem Denotes.not_leavesOut {root : Node} (hapart : root.NamesApart) {record : RecordNode}
    (hrecord : (ofRoot root).Defines record) {field : Field Node} (hfield : field ∈ record.fields)
    (hdefault : field.default? = some literal)
    (h : (ofRoot root).Denotes field.type literal value) :
    ¬(ofRoot root).LeavesOut (field.type, literal) (fieldKey record field) := by
  rintro ⟨node, other, entries, field', hreach, hshape, hfield', hentry, hkey⟩
  have hholds := (hrecord.field hfield).1.reached hreach
  obtain ⟨rfl, hname⟩ := hapart.eq_of_fieldKey (hholds.record (look_of_shape? hshape)).1 hrecord
    hfield' hfield hkey
  have hliteral : field.literal? entries = some literal := by
    rw [Field.literal?, ← hname, hentry, Option.none_or, hdefault]
  exact not_transGen_of_acc h.acc (.tail' hreach (.field hshape hfield hliteral))

/-! ## Expansions -/

/-- What is being expanded can be expanded further where a literal is written: its fields are
different ones of the tree, none of them is left out again, and the budget is enough for all that
are left. -/
structure Expandable (root : Node) (budget : Nat) (expanding : List String)
    (place : Node × Literal) : Prop where
  holds : (ofRoot root).Holds place.1
  nodup : expanding.Nodup
  known : expanding ⊆ root.fieldKeys
  fresh : ∀ key ∈ expanding, ¬(ofRoot root).LeavesOut place key
  enough : root.fieldKeys.length ≤ expanding.length + budget

namespace Expandable

variable {root : Node} {budget : Nat} {expanding : List String}

/-- What a literal takes to be written can be expanded as it. -/
theorem part {place inner : Node × Literal} (h : Expandable root budget expanding place)
    (hinvolves : (ofRoot root).Involves place inner) : Expandable root budget expanding inner where
  holds := Holds.involved hinvolves h.holds
  nodup := h.nodup
  known := h.known
  fresh key hkey hleaves := h.fresh key hkey (.of_involves hinvolves hleaves)
  enough := h.enough

/-- The default of a field that is left out is not being expanded, and the budget allows it. -/
theorem expand (hapart : root.NamesApart) {node : Node} {entries : List (String × Literal)}
    (h : Expandable root budget expanding (node, .object entries)) {record : RecordNode}
    (hshape : (ofRoot root).shape? node = some (.named (.record record))) {field : Field Node}
    (hfield : field ∈ record.fields) (hentry : Literal.entry? field.name entries = none)
    (hdefault : field.default? = some literal)
    (hdenotes : (ofRoot root).Denotes field.type literal value) :
    fieldKey record field ∉ expanding ∧ ∃ less, budget = less + 1 ∧
      Expandable root less (fieldKey record field :: expanding) (field.type, literal) := by
  have hrecord := (h.holds.record (look_of_shape? hshape)).1
  have hnew : fieldKey record field ∉ expanding := fun hmem =>
    h.fresh _ hmem ⟨node, record, entries, field, .refl, hshape, hfield, hentry, rfl⟩
  have hknown : fieldKey record field :: expanding ⊆ root.fieldKeys :=
    List.cons_subset.2 ⟨List.mem_flatMap.2
      ⟨record, Node.mem_records hrecord, List.mem_map_of_mem hfield⟩, h.known⟩
  have hnodup : (fieldKey record field :: expanding).Nodup := List.nodup_cons.2 ⟨hnew, h.nodup⟩
  have hcount := (List.subperm_of_subset hnodup hknown).length_le
  have henough := h.enough
  rw [List.length_cons] at hcount
  obtain ⟨less, rfl⟩ := Nat.exists_eq_add_one.2 (show 0 < budget by omega)
  have hinvolves : (ofRoot root).Involves (node, .object entries) (field.type, literal) :=
    .field hshape hfield (by rw [Field.literal?, hentry, Option.none_or, hdefault])
  refine ⟨hnew, less, rfl, ⟨Holds.involved hinvolves h.holds, hnodup, hknown, ?_, ?_⟩⟩
  · intro key hkey
    rcases List.mem_cons.1 hkey with rfl | hkey
    · exact hdenotes.not_leavesOut hapart hrecord hfield hdefault
    · exact fun hleaves => h.fresh key hkey (.of_involves hinvolves hleaves)
  · rw [List.length_cons]
    omega

end Expandable

/-- A literal that denotes a value is written, whatever is being expanded.  The induction is on
the rules. -/
theorem Denotes.exists_encodeAs {root : Node} (hapart : root.NamesApart)
    (h : (ofRoot root).Denotes node literal value) {budget : Nat} {expanding : List String}
    (hexpandable : Expandable root budget expanding (node, literal)) :
    ∃ bytes, literal.encodeAs (ofRoot root) (fillOmitted (ofRoot root) budget expanding) node =
      .ok bytes := by
  induction h generalizing budget expanding with
  | primitive hshape hvalue =>
    rw [encodeAs_plain (.primitive _) hshape]
    exact hvalue.exists_bytes
  | enum hshape hordinal =>
    rw [encodeAs_plain (.named (.enum _ _ _)) hshape, encodeContent, encodeEnum, hordinal]
    exact ⟨_, rfl⟩
  | fixed hshape hcontent =>
    rw [encodeAs_plain (.named (.fixed _ _)) hshape, encodeContent, encodeFixed,
      latin1Bytes_of_isLatin1 hcontent]
    exact ⟨_, rfl⟩
  | @record node record entries rows hshape hfields hliterals hrows ih =>
    rw [encodeAs_plain (.named (.record _)) hshape]
    refine exists_encodeFields fun field hfield => ?_
    obtain ⟨row, hrow, rfl⟩ := List.mem_map.1 (hfields ▸ hfield)
    have hliteral := hliterals row hrow
    have hinvolves : (ofRoot root).Involves (node, .object entries) (row.1.type, row.2.1) :=
      .field hshape hfield hliteral
    cases hentry : Literal.entry? row.1.name entries with
    | some given =>
      obtain ⟨bytes, hbytes⟩ := ih row hrow (hexpandable.part hinvolves)
      exact ⟨row.2.1, bytes, hliteral, fun _ => hbytes, nofun⟩
    | none =>
      have hdefault := hliteral
      rw [Field.literal?, hentry, Option.none_or] at hdefault
      obtain ⟨hnew, less, rfl, hless⟩ := hexpandable.expand hapart hshape hfield hentry hdefault
        (hrows row hrow)
      obtain ⟨bytes, hbytes⟩ := ih row hrow hless
      refine ⟨row.2.1, bytes, hliteral, fun hsome => absurd rfl hsome, fun _ => ?_⟩
      rw [fillOmitted, if_neg hnew, hbytes]
  | @array node items rows hshape _ ih =>
    have helements : ∀ element ∈ rows.map (·.1), ∃ bytes, element.encodeAs (ofRoot root)
        (fillOmitted (ofRoot root) budget expanding) items = .ok bytes :=
      List.forall_mem_map.2 fun row hrow =>
        ih row hrow (hexpandable.part (.element hshape (List.mem_map_of_mem hrow)))
    obtain ⟨body, hbody⟩ := exists_encodeElements helements
    rw [encodeAs_plain (.array _) hshape, encodeContent, hbody]
    exact ⟨_, rfl⟩
  | @map node values rows hshape _ _ ih =>
    have hentries : ∀ entry ∈ rows.map fun row => (row.1, row.2.1), ∃ bytes,
        entry.2.encodeAs (ofRoot root) (fillOmitted (ofRoot root) budget expanding) values =
          .ok bytes :=
      List.forall_mem_map.2 fun row hrow => ih row hrow (hexpandable.part (.value hshape
        (List.mem_map_of_mem (f := fun row => (row.1, row.2.1)) hrow)))
    obtain ⟨body, hbody⟩ := exists_encodeMapEntries hentries
    rw [encodeAs_plain (.map _) hshape, encodeContent, hbody]
    exact ⟨_, rfl⟩
  | union hshape _ ih =>
    obtain ⟨bytes, hbytes⟩ := ih (hexpandable.part (.first hshape))
    rw [encodeAs_union hshape, hbytes]
    exact ⟨_, rfl⟩

end Registry

/-- A literal that denotes a value has an encoding, where names tell the fields apart. -/
theorem encodeDefault_of_denotes {root node : Node} (hapart : root.NamesApart)
    (hnode : node ∈ root.preorder) {literal : Literal} {value : Value}
    (h : (Registry.ofRoot root).Denotes node literal value) :
    ∃ bytes, encodeDefault (.ofRoot root) node literal = .ok bytes := by
  refine h.exists_encodeAs hapart ⟨⟨root, rfl, hnode⟩, .nil, List.nil_subset _, nofun, ?_⟩
  rw [Node.length_fieldKeys]
  exact Nat.le_trans (Nat.le_add_right ..) (Nat.le_add_left ..)

end AvroResolution
