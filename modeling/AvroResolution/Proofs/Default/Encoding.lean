import AvroResolution.Default
import AvroResolution.Proofs.Lists
import AvroResolution.Proofs.Schema.Look
import Mathlib.Algebra.Group.Nat.Defs

/-!
# Laws of encoded defaults

What `encodeDefault` writes, as a grammar.

* `Literal.addressable` says that the strings, arrays and objects of a literal
  have lengths that a memory of 64-bit addresses can hold, `Registry.addressable`
  says so of all field defaults of a tree.
* `Registry.Encodes` says which bytes are a datum of a node.  A datum of a record
  is one datum for each field, a datum of a collection one block of data.
* `Registry.Writes` are the rules of the encoder, and `Registry.writes_of_encodeDefault`
  says that it goes by them.  The proof follows the literal, and `fillOmitted` when a
  default is expanded inside another.
* `Registry.encodes_of_encodeDefault`: an encoded default is a datum of its node.
-/

namespace AvroResolution

/-! ## Encodings -/

theorem bind_eq_ok {ε α β : Type} {x : Except ε α} {f : α → Except ε β} {result : β} :
    (x >>= f) = .ok result ↔ ∃ value, x = .ok value ∧ f value = .ok result := by
  cases x with
  | ok value => exact ⟨fun h => ⟨value, rfl, h⟩, fun ⟨_, hvalue, h⟩ => by cases hvalue; exact h⟩
  | error fault => exact ⟨nofun, nofun⟩

theorem length_of_mapM {ε α β : Type} {f : α → Except ε β} :
    ∀ {items : List α} {results : List β}, items.mapM f = .ok results →
      results.length = items.length
  | [], _, h => by
    cases h
    rfl
  | item :: rest, _, h => by
    rw [List.mapM_cons] at h
    obtain ⟨first, _, h⟩ := bind_eq_ok.1 h
    obtain ⟨others, hothers, h⟩ := bind_eq_ok.1 h
    cases h
    rw [List.length_cons, List.length_cons, length_of_mapM hothers]

/-! ## Lengths -/

/-- The lengths that positions in a memory of 64-bit addresses allow. -/
def maxLength : Nat := 2 ^ 63

namespace Literal

mutual

/-- The strings, arrays and objects in a literal have lengths below
`maxLength`. -/
def addressable : Literal → Bool
  | .string s => (encodeUtf8 s).length < maxLength
  | .array elements => elements.length < maxLength && addressableElements elements
  | .object entries => entries.length < maxLength && addressableEntries entries
  | _ => true

/-- Every element of an array is addressable. -/
def addressableElements : List Literal → Bool
  | [] => true
  | element :: rest => addressable element && addressableElements rest

/-- Every key and value of an object is addressable. -/
def addressableEntries : List (String × Literal) → Bool
  | [] => true
  | (key, value) :: rest =>
    (encodeUtf8 key).length < maxLength && addressable value && addressableEntries rest

end

theorem addressableElements_iff {elements : List Literal} :
    addressableElements elements = true ↔ ∀ element ∈ elements, element.addressable = true := by
  induction elements with
  | nil => simp [addressableElements]
  | cons element rest ih => simp [addressableElements, ih]

theorem addressableEntries_iff {entries : List (String × Literal)} :
    addressableEntries entries = true ↔ ∀ entry ∈ entries,
      (encodeUtf8 entry.1).length < maxLength ∧ entry.2.addressable = true := by
  induction entries with
  | nil => simp [addressableEntries]
  | cons entry rest ih =>
    rcases entry with ⟨key, value⟩
    simp [addressableEntries, ih]

end Literal

/-- The literal that a field of a record is written from: the entry of its name, or else its
default. -/
def Field.literal? (field : Field Node) (entries : List (String × Literal)) : Option Literal :=
  (Literal.entry? field.name entries).or field.default?

theorem Literal.mem_of_entry {α : Type} {key : String} {value : α} {entries : List (String × α)}
    (h : Literal.entry? key entries = some value) : (key, value) ∈ entries := by
  induction entries with
  | nil => cases h
  | cons entry rest ih =>
    rcases entry with ⟨other, found⟩
    rw [Literal.entry?] at h
    split at h
    · rename_i hsame
      cases h
      rw [hsame]
      exact .head _
    · exact .tail _ (ih h)

theorem Field.entry_or_default {field : Field Node} {entries : List (String × Literal)}
    {literal : Literal} (h : field.literal? entries = some literal) :
    (field.name, literal) ∈ entries ∨ field.default? = some literal :=
  (Option.or_eq_some_iff.1 h).imp Literal.mem_of_entry And.right

/-- The shape of a type that is neither a union nor a name for another type. -/
def PlainType.shape : PlainType → Shape
  | .primitive type => .primitive type
  | .named definition => .named definition
  | .array items => .array items
  | .map values => .map values

namespace Registry

/-- The defaults of all fields that the tree declares have lengths below
`maxLength`. -/
def addressable (registry : Registry) : Bool :=
  registry.entries.all fun entry =>
    match entry.definition with
    | .record record => record.fields.all fun field => field.default?.all Literal.addressable
    | _ => true

theorem addressable_default {registry : Registry} (h : registry.addressable = true)
    {record : RecordNode} (hrecord : registry.Defines record) {field : Field Node}
    (hfield : field ∈ record.fields) {literal : Literal}
    (hdefault : field.default? = some literal) : literal.addressable = true := by
  obtain ⟨node, ⟨root, rfl, hnode⟩, hdefinition⟩ := hrecord
  obtain ⟨entry, hentry, hsame⟩ := mem_entries_ofRoot.2 ⟨node, hnode, hdefinition⟩
  have hfields := List.all_eq_true.1 h entry hentry
  rw [hsame] at hfields
  have hall := List.all_eq_true.1 hfields field hfield
  rwa [hdefault, Option.all_some] at hall

/-! ## Data -/

/-- The bytes are a datum of the node. -/
inductive Encodes (registry : Registry) : Node → List UInt8 → Prop
  | primitive {node : Node} {type : Primitive} {literal : Literal} {bytes : List UInt8}
      (hshape : registry.shape? node = some (.primitive type))
      (haddressable : literal.addressable = true)
      (hbytes : encodePrimitive type literal = .ok bytes) : Encodes registry node bytes
  | enum {node : Node} {heading : Heading} {symbols : List String} {default? : Option String}
      {literal : Literal} {bytes : List UInt8}
      (hshape : registry.shape? node = some (.named (.enum heading symbols default?)))
      (hbytes : encodeEnum heading symbols literal = .ok bytes) : Encodes registry node bytes
  | fixed {node : Node} {heading : Heading} {size : Nat} {literal : Literal}
      {bytes : List UInt8}
      (hshape : registry.shape? node = some (.named (.fixed heading size)))
      (hbytes : encodeFixed size literal = .ok bytes) : Encodes registry node bytes
  | record {node : Node} {record : RecordNode} {parts : List (List UInt8)}
      (hshape : registry.shape? node = some (.named (.record record)))
      (hlength : parts.length = record.fields.length)
      (hparts : ∀ (index : Nat) (field : Field Node) (part : List UInt8),
        record.fields[index]? = some field → parts[index]? = some part →
          Encodes registry field.type part) :
      Encodes registry node parts.flatten
  | array {node items : Node} {parts : List (List UInt8)}
      (hshape : registry.shape? node = some (.array items))
      (hlength : parts.length < maxLength) (hparts : ∀ part ∈ parts, Encodes registry items part) :
      Encodes registry node (encodeBlock parts.length parts.flatten)
  | map {node values : Node} {entries : List (String × List UInt8)}
      (hshape : registry.shape? node = some (.map values))
      (hlength : entries.length < maxLength)
      (hkeys : ∀ entry ∈ entries, (encodeUtf8 entry.1).length < maxLength)
      (hvalues : ∀ entry ∈ entries, Encodes registry values entry.2) :
      Encodes registry node (encodeBlock entries.length
        (entries.flatMap fun entry => (Step.string entry.1).encode ++ entry.2))
  | union {node first : Node} {others : List Node} {bytes : List UInt8}
      (hshape : registry.shape? node = some (.union (first :: others)))
      (hbytes : Encodes registry first bytes) :
      Encodes registry node ((Step.index 0).encode ++ bytes)

/-- The literal is written as the bytes at the node.  The rules are those of the encoder; a
field that an object leaves out is written from its default. -/
inductive Writes (registry : Registry) : Node → Literal → List UInt8 → Prop
  | primitive {node : Node} {literal : Literal} {type : Primitive} {bytes : List UInt8}
      (hshape : registry.shape? node = some (.primitive type))
      (hbytes : encodePrimitive type literal = .ok bytes) : Writes registry node literal bytes
  | enum {node : Node} {literal : Literal} {heading : Heading} {symbols : List String}
      {default? : Option String} {bytes : List UInt8}
      (hshape : registry.shape? node = some (.named (.enum heading symbols default?)))
      (hbytes : encodeEnum heading symbols literal = .ok bytes) :
      Writes registry node literal bytes
  | fixed {node : Node} {literal : Literal} {heading : Heading} {size : Nat}
      {bytes : List UInt8} (hshape : registry.shape? node = some (.named (.fixed heading size)))
      (hbytes : encodeFixed size literal = .ok bytes) : Writes registry node literal bytes
  | record {node : Node} {record : RecordNode} {entries : List (String × Literal)}
      {rows : List (Field Node × Literal × List UInt8)}
      (hshape : registry.shape? node = some (.named (.record record)))
      (hfields : rows.map (·.1) = record.fields)
      (hliterals : ∀ row ∈ rows, row.1.literal? entries = some row.2.1)
      (hrows : ∀ row ∈ rows, Writes registry row.1.type row.2.1 row.2.2) :
      Writes registry node (.object entries) (rows.flatMap (·.2.2))
  | array {node items : Node} {rows : List (Literal × List UInt8)}
      (hshape : registry.shape? node = some (.array items))
      (hrows : ∀ row ∈ rows, Writes registry items row.1 row.2) :
      Writes registry node (.array (rows.map (·.1)))
        (encodeBlock rows.length (rows.flatMap (·.2)))
  | map {node values : Node} {rows : List (String × Literal × List UInt8)}
      (hshape : registry.shape? node = some (.map values))
      (hrows : ∀ row ∈ rows, Writes registry values row.2.1 row.2.2) :
      Writes registry node (.object (rows.map fun row => (row.1, row.2.1)))
        (encodeBlock rows.length (rows.flatMap fun row => (Step.string row.1).encode ++ row.2.2))
  | union {node first : Node} {literal : Literal} {others : List Node} {bytes : List UInt8}
      (hshape : registry.shape? node = some (.union (first :: others)))
      (hbytes : Writes registry first literal bytes) :
      Writes registry node literal ((Step.index 0).encode ++ bytes)

variable {registry : Registry} {omitted : String → Node → Literal → Encoding}

/-! ## Targets -/

theorem Writes.of_shape? {node other : Node} {literal : Literal} {bytes : List UInt8}
    (hshape : registry.shape? node = registry.shape? other)
    (h : registry.Writes other literal bytes) : registry.Writes node literal bytes := by
  cases h with
  | primitive h hbytes => exact .primitive (hshape.trans h) hbytes
  | enum h hbytes => exact .enum (hshape.trans h) hbytes
  | fixed h hbytes => exact .fixed (hshape.trans h) hbytes
  | record h hfields hliterals hrows => exact .record (hshape.trans h) hfields hliterals hrows
  | array h hrows => exact .array (hshape.trans h) hrows
  | map h hrows => exact .map (hshape.trans h) hrows
  | union h hbytes => exact .union (hshape.trans h) hbytes

/-- A node is written as a node of its target's type, behind an index for each union in
between.  The induction is on the unions and logical types above the target. -/
theorem exists_of_defaultTarget {node : Node} {target : DefaultTarget}
    (htarget : registry.defaultTarget node = .ok target) :
    ∃ inner, registry.shape? inner = some target.type.shape ∧
      ∀ literal content, registry.Writes inner literal content → registry.Writes node literal
        ((List.replicate target.unions (Step.index 0).encode).flatten ++ content) := by
  induction node using Node.induction generalizing target with
  | step node ih =>
    rcases node with ⟨side, ordinal, schema⟩
    cases schema with
    | logical base logicalType =>
      have hpart : (⟨side, ordinal, base⟩ : Node) ∈
          Node.parts ⟨side, ordinal, .logical base logicalType⟩ := .head _
      obtain ⟨inner, hshape, hwrites⟩ := ih ⟨side, ordinal, base⟩ hpart htarget
      have hsame : registry.shape? ⟨side, ordinal, .logical base logicalType⟩ =
          registry.shape? ⟨side, ordinal, base⟩ := rfl
      exact ⟨inner, hshape, fun literal content h => .of_shape? hsame (hwrites literal content h)⟩
    | union branches =>
      cases branches with
      | nil => cases htarget
      | cons first rest =>
        have hpart : (⟨side, ordinal, first⟩ : Node) ∈
            Node.parts ⟨side, ordinal, .union (first :: rest)⟩ := .head _
        rw [defaultTarget, defaultTargetFrom] at htarget
        obtain ⟨below, hfirst, htarget⟩ := bind_eq_ok.1 htarget
        cases htarget
        obtain ⟨inner, hshape, hwrites⟩ := ih ⟨side, ordinal, first⟩ hpart hfirst
        refine ⟨inner, hshape, fun literal content h => ?_⟩
        rw [List.replicate_succ, List.flatten_cons, List.append_assoc]
        exact .union rfl (hwrites literal content h)
    | reference name =>
      rw [defaultTarget, defaultTargetFrom] at htarget
      split at htarget
      · rename_i entry hfind
        cases htarget
        refine ⟨_, ?_, fun literal content h => h⟩
        rw [shape?, look, lookFrom, hfind]
        rfl
      · cases htarget
    | _ =>
      cases htarget
      exact ⟨_, rfl, fun literal content h => h⟩

/-! ## Collections and records -/

theorem rows_of_encodeElements {items : Node} {elements : List Literal} {bytes : List UInt8}
    (h : Literal.encodeElements registry omitted elements items = .ok bytes) :
    ∃ rows : List (Literal × List UInt8), elements = rows.map (·.1) ∧
      bytes = rows.flatMap (·.2) ∧
        ∀ row ∈ rows, row.1.encodeAs registry omitted items = .ok row.2 := by
  induction elements generalizing bytes with
  | nil =>
    rw [Literal.encodeElements] at h
    cases h
    exact ⟨[], rfl, rfl, List.forall_mem_nil _⟩
  | cons element rest ih =>
    rw [Literal.encodeElements] at h
    obtain ⟨part, hpart, h⟩ := bind_eq_ok.1 h
    obtain ⟨others, hothers, h⟩ := bind_eq_ok.1 h
    cases h
    obtain ⟨rows, rfl, rfl, hrows⟩ := ih hothers
    exact ⟨(element, part) :: rows, rfl, rfl, List.forall_mem_cons.2 ⟨hpart, hrows⟩⟩

theorem rows_of_encodeMapEntries {values : Node} {entries : List (String × Literal)}
    {bytes : List UInt8}
    (h : encodeMapEntries values (Literal.entryEncoders registry omitted entries) = .ok bytes) :
    ∃ rows : List (String × Literal × List UInt8),
      entries = rows.map (fun row => (row.1, row.2.1)) ∧
        bytes = rows.flatMap (fun row => (Step.string row.1).encode ++ row.2.2) ∧
          ∀ row ∈ rows, row.2.1.encodeAs registry omitted values = .ok row.2.2 := by
  induction entries generalizing bytes with
  | nil =>
    rw [Literal.entryEncoders] at h
    cases h
    exact ⟨[], rfl, rfl, List.forall_mem_nil _⟩
  | cons entry rest ih =>
    rcases entry with ⟨key, literal⟩
    rw [Literal.entryEncoders, encodeMapEntries] at h
    obtain ⟨part, hpart, h⟩ := bind_eq_ok.1 h
    obtain ⟨others, hothers, h⟩ := bind_eq_ok.1 h
    cases h
    obtain ⟨rows, rfl, rfl, hrows⟩ := ih hothers
    exact ⟨(key, literal, part) :: rows, rfl, rfl, List.forall_mem_cons.2 ⟨hpart, hrows⟩⟩

theorem entry?_entryEncoders (key : String) (entries : List (String × Literal)) :
    Literal.entry? key (Literal.entryEncoders registry omitted entries) =
      (Literal.entry? key entries).map fun literal node =>
        literal.encodeAs registry omitted node := by
  induction entries with
  | nil => rfl
  | cons entry rest ih =>
    rcases entry with ⟨other, literal⟩
    rw [Literal.entryEncoders, Literal.entry?, Literal.entry?, ih]
    split <;> rfl

/-- A field of a record is written from its entry, or else from its default. -/
theorem rows_of_encodeFields {name : String} {entries : List (String × Literal)}
    {fields : List (Field Node)} {bytes : List UInt8}
    (h : encodeFields omitted name (Literal.entryEncoders registry omitted entries) fields =
      .ok bytes) :
    ∃ rows : List (Field Node × Literal × List UInt8), rows.map (·.1) = fields ∧
      bytes = rows.flatMap (·.2.2) ∧
        ∀ row ∈ rows, row.1.literal? entries = some row.2.1 ∧
          (row.2.1 ∈ entries.map (·.2) ∧
              row.2.1.encodeAs registry omitted row.1.type = .ok row.2.2 ∨
            ∃ key, omitted key row.1.type row.2.1 = .ok row.2.2) := by
  induction fields generalizing bytes with
  | nil =>
    cases h
    exact ⟨[], rfl, rfl, List.forall_mem_nil _⟩
  | cons field rest ih =>
    rw [encodeFields, entry?_entryEncoders] at h
    cases hentry : Literal.entry? field.name entries with
    | some literal =>
      rw [hentry, Option.map_some] at h
      obtain ⟨part, hpart, h⟩ := bind_eq_ok.1 h
      obtain ⟨others, hothers, h⟩ := bind_eq_ok.1 h
      cases h
      obtain ⟨rows, rfl, rfl, hrows⟩ := ih hothers
      have hliteral : field.literal? entries = some literal := by
        rw [Field.literal?, hentry, Option.some_or]
      have hmem : literal ∈ entries.map (·.2) := List.mem_map_of_mem (Literal.mem_of_entry hentry)
      exact ⟨(field, literal, part) :: rows, rfl, rfl,
        List.forall_mem_cons.2 ⟨⟨hliteral, .inl ⟨hmem, hpart⟩⟩, hrows⟩⟩
    | none =>
      rw [hentry, Option.map_none] at h
      cases hdefault : field.default? with
      | none =>
        rw [hdefault] at h
        cases h
      | some literal =>
        rw [hdefault] at h
        obtain ⟨part, hpart, h⟩ := bind_eq_ok.1 h
        obtain ⟨others, hothers, h⟩ := bind_eq_ok.1 h
        cases h
        obtain ⟨rows, rfl, rfl, hrows⟩ := ih hothers
        have hliteral : field.literal? entries = some literal := by
          rw [Field.literal?, hentry, Option.none_or, hdefault]
        exact ⟨(field, literal, part) :: rows, rfl, rfl,
          List.forall_mem_cons.2 ⟨⟨hliteral, .inr ⟨_, hpart⟩⟩, hrows⟩⟩

/-! ## Literals -/

/-- A literal as a value of a type that is neither a union nor a name. -/
def encodeContent (registry : Registry) (omitted : String → Node → Literal → Encoding)
    (literal : Literal) : PlainType → Encoding
  | .primitive type => encodePrimitive type literal
  | .named (.enum heading symbols _) => encodeEnum heading symbols literal
  | .named (.fixed _ size) => encodeFixed size literal
  | .named (.record record) =>
    match literal with
    | .object entries =>
      encodeFields omitted record.heading.fullname
        (Literal.entryEncoders registry omitted entries) record.fields
    | other => .error (.wrongKind .record other)
  | .array items =>
    match literal with
    | .array elements => do
      let body ← Literal.encodeElements registry omitted elements items
      .ok (encodeBlock elements.length body)
    | other => .error (.wrongKind .array other)
  | .map values =>
    match literal with
    | .object entries => do
      let body ← encodeMapEntries values (Literal.entryEncoders registry omitted entries)
      .ok (encodeBlock entries.length body)
    | other => .error (.wrongKind .map other)

theorem encodeAs_eq (literal : Literal) (node : Node) :
    literal.encodeAs registry omitted node = (do
      let target ← registry.defaultTarget node
      let content ← encodeContent registry omitted literal target.type
      return (List.replicate target.unions (Step.index 0).encode).flatten ++ content) := by
  rw [Literal.encodeAs]
  refine bind_congr fun target => ?_
  rcases target with ⟨unions, type⟩
  cases type with
  | primitive type => rfl
  | named definition => cases definition <;> first | rfl | (cases literal <;> rfl)
  | array items =>
    cases literal <;> first | rfl | exact (bind_assoc _ _ _).symm
  | map values =>
    cases literal <;> first | rfl | exact (bind_assoc _ _ _).symm

end Registry

/-- The literals right below a literal. -/
def Literal.parts : Literal → List Literal
  | .array elements => elements
  | .object entries => entries.map Prod.snd
  | _ => []

theorem Literal.sizeOf_lt_of_mem_parts {literal part : Literal} (h : part ∈ literal.parts) :
    sizeOf part < sizeOf literal := by
  cases literal with
  | array elements =>
    have := List.sizeOf_lt_of_mem (show part ∈ elements from h)
    simp only [Literal.array.sizeOf_spec]
    omega
  | object entries =>
    obtain ⟨⟨key, value⟩, hentry, rfl⟩ := List.mem_map.1 h
    have hsize := List.sizeOf_lt_of_mem hentry
    simp only [Prod.mk.sizeOf_spec] at hsize
    simp only [Literal.object.sizeOf_spec]
    omega
  | _ => cases h

theorem Literal.induction {motive : Literal → Prop}
    (step : ∀ literal, (∀ part ∈ literal.parts, motive part) → motive literal)
    (literal : Literal) : motive literal :=
  step literal fun part h =>
    have := Literal.sizeOf_lt_of_mem_parts h
    Literal.induction step part
termination_by sizeOf literal

namespace Registry

variable {registry : Registry} {omitted : String → Node → Literal → Encoding}

/-! ## The encoder -/

/-- The encoder goes by the rules, if what fills in the defaults does. -/
theorem writes_of_encodeAs
    (homitted : ∀ key node literal bytes, omitted key node literal = .ok bytes →
      registry.Writes node literal bytes)
    {literal : Literal} {node : Node} {bytes : List UInt8}
    (h : literal.encodeAs registry omitted node = .ok bytes) :
    registry.Writes node literal bytes := by
  induction literal using Literal.induction generalizing node bytes with
  | step literal ih =>
    rw [encodeAs_eq] at h
    obtain ⟨⟨unions, type⟩, htarget, h⟩ := bind_eq_ok.1 h
    obtain ⟨content, hcontent, h⟩ := bind_eq_ok.1 h
    cases h
    obtain ⟨inner, hshape, hwrites⟩ := exists_of_defaultTarget htarget
    refine hwrites literal content ?_
    cases type with
    | primitive type => exact .primitive hshape hcontent
    | named definition =>
      cases definition with
      | enum heading symbols default? => exact .enum hshape hcontent
      | fixed heading size => exact .fixed hshape hcontent
      | record record =>
        cases literal with
        | object entries =>
          obtain ⟨rows, hfields, rfl, hrows⟩ := rows_of_encodeFields hcontent
          refine .record hshape hfields (fun row hrow => (hrows row hrow).1) ?_
          intro row hrow
          rcases (hrows row hrow).2 with ⟨hmem, hencode⟩ | ⟨key, hencode⟩
          · exact ih _ hmem hencode
          · exact homitted _ _ _ _ hencode
        | _ => cases hcontent
    | array items =>
      cases literal with
      | array elements =>
        obtain ⟨body, hbody, hcontent⟩ := bind_eq_ok.1 hcontent
        cases hcontent
        obtain ⟨rows, rfl, rfl, hrows⟩ := rows_of_encodeElements hbody
        rw [List.length_map]
        exact .array hshape fun row hrow => ih _ (List.mem_map_of_mem hrow) (hrows row hrow)
      | _ => cases hcontent
    | map values =>
      cases literal with
      | object entries =>
        obtain ⟨body, hbody, hcontent⟩ := bind_eq_ok.1 hcontent
        cases hcontent
        obtain ⟨rows, rfl, rfl, hrows⟩ := rows_of_encodeMapEntries hbody
        rw [List.length_map]
        refine .map hshape fun row hrow => ih row.2.1 ?_ (hrows row hrow)
        exact List.mem_map_of_mem (List.mem_map_of_mem hrow)
      | _ => cases hcontent

theorem writes_of_fillOmitted {budget : Nat} {expanding : List String} {key : String}
    {literal : Literal} {node : Node} {bytes : List UInt8}
    (h : fillOmitted registry budget expanding key node literal = .ok bytes) :
    registry.Writes node literal bytes := by
  induction budget generalizing expanding key literal node bytes with
  | zero => cases h
  | succ budget ih =>
    rw [fillOmitted] at h
    split at h
    · cases h
    · exact writes_of_encodeAs (fun _ _ _ _ hbytes => ih hbytes) h

/-- The encoder of defaults goes by the rules. -/
theorem writes_of_encodeDefault {literal : Literal} {node : Node} {bytes : List UInt8}
    (h : encodeDefault registry node literal = .ok bytes) : registry.Writes node literal bytes :=
  writes_of_encodeAs (fun _ _ _ _ hbytes => writes_of_fillOmitted hbytes) h

theorem addressable_field (haddressable : registry.addressable = true) {record : RecordNode}
    (hrecord : registry.Defines record) {field : Field Node} (hfield : field ∈ record.fields)
    {entries : List (String × Literal)}
    (hentries : (Literal.object entries).addressable = true) {literal : Literal}
    (hliteral : field.literal? entries = some literal) : literal.addressable = true := by
  rw [Literal.addressable, Bool.and_eq_true, Literal.addressableEntries_iff] at hentries
  rcases Field.entry_or_default hliteral with hentry | hdefault
  · exact (hentries.2 _ hentry).2
  · exact addressable_default haddressable hrecord hfield hdefault

/-- What is written is a datum of the node. -/
theorem Writes.encodes (haddressable : registry.addressable = true) {node : Node}
    {literal : Literal} {bytes : List UInt8} (h : registry.Writes node literal bytes)
    (hnode : registry.Holds node) (hliteral : literal.addressable = true) :
    registry.Encodes node bytes := by
  induction h with
  | primitive hshape hbytes => exact .primitive hshape hliteral hbytes
  | enum hshape hbytes => exact .enum hshape hbytes
  | fixed hshape hbytes => exact .fixed hshape hbytes
  | @record node record entries rows hshape hfields hliterals _ ih =>
    have hdefines := (hnode.record (look_of_shape? hshape)).1
    rw [List.flatMap_def]
    refine .record hshape (by rw [← hfields, List.length_map, List.length_map]) ?_
    intro index field part hfield hpart
    rw [← hfields, List.getElem?_map] at hfield
    rw [List.getElem?_map] at hpart
    obtain ⟨row, hrow, rfl⟩ := Option.map_eq_some_iff.1 hfield
    rw [hrow] at hpart
    cases hpart
    have hmem := List.mem_of_getElem? hrow
    have hfield : row.1 ∈ record.fields := hfields ▸ List.mem_map_of_mem hmem
    exact ih row hmem (hdefines.field hfield).1
      (addressable_field haddressable hdefines hfield hliteral (hliterals row hmem))
  | @array node items rows hshape _ ih =>
    have hholds := (hnode.part (look_of_shape? hshape) (.head _)).1
    rw [Literal.addressable, Bool.and_eq_true, Literal.addressableElements_iff,
      decide_eq_true_eq] at hliteral
    have h := @Encodes.array registry node items (rows.map (·.2)) hshape
      (by simpa using hliteral.1) ?_
    · rwa [List.length_map, ← List.flatMap_def] at h
    · intro part hpart
      obtain ⟨row, hrow, rfl⟩ := List.mem_map.1 hpart
      exact ih row hrow hholds (hliteral.2 _ (List.mem_map_of_mem hrow))
  | @map node values rows hshape _ ih =>
    have hholds := (hnode.part (look_of_shape? hshape) (.head _)).1
    rw [Literal.addressable, Bool.and_eq_true, Literal.addressableEntries_iff,
      decide_eq_true_eq] at hliteral
    have hentry {row : String × Literal × List UInt8} (hrow : row ∈ rows) :=
      hliteral.2 _ (List.mem_map_of_mem (f := fun row => (row.1, row.2.1)) hrow)
    have h := @Encodes.map registry node values (rows.map fun row => (row.1, row.2.2)) hshape
      (by simpa using hliteral.1) ?_ ?_
    · rwa [List.length_map, List.flatMap_map] at h
    · intro entry hmem
      obtain ⟨row, hrow, rfl⟩ := List.mem_map.1 hmem
      exact (hentry hrow).1
    · intro entry hmem
      obtain ⟨row, hrow, rfl⟩ := List.mem_map.1 hmem
      exact ih row hrow hholds (hentry hrow).2
  | union hshape _ ih =>
    exact .union hshape (ih (hnode.part (look_of_shape? hshape) (.head _)).1 hliteral)

/-- An encoded default is a datum of its node. -/
theorem encodes_of_encodeDefault (haddressable : registry.addressable = true) {literal : Literal}
    {node : Node} {bytes : List UInt8} (hnode : registry.Holds node)
    (hliteral : literal.addressable = true)
    (h : encodeDefault registry node literal = .ok bytes) : registry.Encodes node bytes :=
  (writes_of_encodeDefault h).encodes haddressable hnode hliteral

end Registry

end AvroResolution
