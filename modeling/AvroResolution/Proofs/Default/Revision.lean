import AvroResolution.Proofs.Literal.Entries
import AvroResolution.Proofs.Schema.Mirror
import AvroResolution.Proofs.Schema.Revision

/-!
# Defaults of other nodes

A literal has the same encoding at two nodes, and the same reason to have none, when what
lies below them is the same but for logical types and for the side.

* `PlainType.Carries` says that one type is another with its nodes replaced, and
  `Registry.Carries` that this is so wherever the type of a default is looked for.
* `Literal.encodeAs_carried`: a literal is then written alike.
* `encodeDefault_mapSchema`: a default has one encoding in a tree and in the tree with other
  logical types.  How often a default may be expanded depends on the fields only.
* `encodeDefault_onSide`: and one on either side.
-/

namespace AvroResolution

/-! ## Types of defaults -/

/-- The second type is the first with its nodes replaced by `f`.  A record need not be the
same definition. -/
inductive PlainType.Carries (f : Node → Node) : PlainType → PlainType → Prop
  | primitive (type : Primitive) : Carries f (.primitive type) (.primitive type)
  | enum (heading : Heading) (symbols : List String) (default? : Option String) :
      Carries f (.named (.enum heading symbols default?)) (.named (.enum heading symbols default?))
  | fixed (heading : Heading) (size : Nat) :
      Carries f (.named (.fixed heading size)) (.named (.fixed heading size))
  | record (record : RecordNode) (other : RecordId) : Carries f (.named (.record record))
      (.named (.record ⟨other, record.heading, record.fields.map (.alter f id)⟩))
  | array (items : Node) : Carries f (.array items) (.array (f items))
  | map (values : Node) : Carries f (.map values) (.map (f values))

theorem PlainType.carries_revise (f : Schema → Schema) (type : PlainType) :
    type.Carries (Node.mapSchema f) (type.revise (.ofSchemas f id)) := by
  cases type with
  | named definition =>
    cases definition with
    | record record => exact .record record record.id
    | enum => exact .enum ..
    | fixed => exact .fixed ..
  | primitive => exact .primitive _
  | array => exact .array _
  | map => exact .map _

/-- At the image of a node a default has the type of the node with its nodes replaced. -/
def Registry.Carries (f : Node → Node) (registry image : Registry) : Prop :=
  ∀ node, (∃ fault, registry.defaultTarget node = .error fault ∧
      image.defaultTarget (f node) = .error fault) ∨
    ∃ unions type type', registry.defaultTarget node = .ok ⟨unions, type⟩ ∧
      image.defaultTarget (f node) = .ok ⟨unions, type'⟩ ∧ type.Carries f type'

theorem Registry.Revises.carries {f : Schema → Schema} {registry image : Registry}
    (h : registry.Revises (.ofSchemas f id) image) (hf : Schema.Revises f id) :
    registry.Carries (Node.mapSchema f) image := by
  intro node
  have htarget := h.defaultTarget hf node
  cases hregistry : registry.defaultTarget node with
  | error fault =>
    rw [hregistry] at htarget
    exact .inl ⟨fault, rfl, htarget⟩
  | ok target =>
    rw [hregistry] at htarget
    exact .inr ⟨target.unions, target.type, _, rfl, htarget, target.type.carries_revise f⟩

theorem Registry.carries_onSide (registry : Registry) (target : Side) :
    registry.Carries (Node.onSide target) (registry.onSide target) := by
  intro node
  induction node using Node.induction with
  | step node ih =>
    rcases node with ⟨side, ordinal, schema⟩
    cases schema with
    | logical base logicalType => exact ih ⟨side, ordinal, base⟩ (.head _)
    | reference name =>
      simp only [defaultTarget, defaultTargetFrom, Node.onSide, find?_onSide]
      cases registry.find? name with
      | none => exact .inl ⟨_, rfl, rfl⟩
      | some entry =>
        refine .inr ⟨_, _, _, rfl, rfl, ?_⟩
        rcases entry with ⟨position, definition⟩
        cases definition with
        | record record => exact .record record ⟨target, record.id.ordinal⟩
        | enum => exact .enum ..
        | fixed => exact .fixed ..
    | record heading fields =>
      refine .inr ⟨_, _, _, rfl, ?_, .record _ ⟨target, ordinal⟩⟩
      exact congrArg (fun fields => Except.ok
        (DefaultTarget.mk 0 (.named (.record ⟨⟨target, ordinal⟩, heading, fields⟩))))
        (Node.ofFields_onSide side fields (ordinal + 1))
    | union branches =>
      cases branches with
      | nil => exact .inl ⟨_, rfl, rfl⟩
      | cons first rest =>
        simp only [defaultTarget, defaultTargetFrom, Node.onSide]
        rcases ih ⟨side, ordinal, first⟩ (.head _) with
          ⟨fault, hregistry, himage⟩ | ⟨unions, type, type', hregistry, himage, htype⟩
        · simp only [defaultTarget, Node.onSide] at hregistry himage
          rw [hregistry, himage]
          exact .inl ⟨fault, rfl, rfl⟩
        · simp only [defaultTarget, Node.onSide] at hregistry himage
          rw [hregistry, himage]
          exact .inr ⟨_, _, _, rfl, rfl, htype⟩
    | primitive type => exact .inr ⟨_, _, _, rfl, rfl, .primitive type⟩
    | enum heading symbols default? => exact .inr ⟨_, _, _, rfl, rfl, .enum ..⟩
    | fixed heading size => exact .inr ⟨_, _, _, rfl, rfl, .fixed ..⟩
    | array items => exact .inr ⟨_, _, _, rfl, rfl, .array _⟩
    | map values => exact .inr ⟨_, _, _, rfl, rfl, .map _⟩

/-! ## Parts -/

theorem encodeMapEntries_map (f : Node → Node) (values : Node)
    (given : List (String × (Node → Encoding))) :
    encodeMapEntries (f values) given =
      encodeMapEntries values (given.map fun entry => (entry.1, fun node => entry.2 (f node))) := by
  induction given with
  | nil => rfl
  | cons entry rest ih =>
    rcases entry with ⟨key, encode⟩
    rw [List.map_cons, encodeMapEntries, encodeMapEntries, ih]

theorem encodeFields_map (f : Node → Node) (omitted : String → Node → Literal → Encoding)
    (name : String) (given : List (String × (Node → Encoding))) (fields : List (Field Node)) :
    encodeFields omitted name given (fields.map (.alter f id)) =
      encodeFields (fun key node => omitted key (f node)) name
        (given.map fun entry => (entry.1, fun node => entry.2 (f node))) fields := by
  induction fields with
  | nil => rfl
  | cons field rest ih =>
    rw [List.map_cons, encodeFields, encodeFields, ih,
      Literal.entry?_map fun (encode : Node → Encoding) node => encode (f node)]
    rcases field with ⟨field, type, default?, aliases⟩
    simp only [Field.alter]
    cases Literal.entry? field given with
    | some encode => rfl
    | none => cases default? <;> rfl

/-! ## Literals -/

section

variable {f : Node → Node} {registry image : Registry}
  {omitted omitted' : String → Node → Literal → Encoding}

namespace Literal

mutual

/-- A literal is written alike at a node and at its image.  The induction is on the literal. -/
theorem encodeAs_carried (h : registry.Carries f image)
    (homitted : ∀ key node literal, omitted' key (f node) literal = omitted key node literal) :
    ∀ (literal : Literal) (node : Node),
      literal.encodeAs image omitted' (f node) = literal.encodeAs registry omitted node
  | .array elements, node => by
    rw [encodeAs, encodeAs]
    rcases h node with ⟨fault, htarget, himage⟩ | ⟨unions, type, type', htarget, himage, htype⟩
    · rw [htarget, himage]
      rfl
    · rw [htarget, himage]
      cases htype with
      | array items =>
        simp only [encodeElements_carried h homitted elements items, bind, Except.bind]
      | _ => rfl
  | .object entries, node => by
    have hentries := entryEncoders_carried h homitted entries
    rw [encodeAs, encodeAs]
    rcases h node with ⟨fault, htarget, himage⟩ | ⟨unions, type, type', htarget, himage, htype⟩
    · rw [htarget, himage]
      rfl
    · rw [htarget, himage]
      cases htype with
      | record record other =>
        have hfields := encodeFields_map f omitted' record.heading.fullname
          (entryEncoders image omitted' entries) record.fields
        rw [hentries, funext fun key => funext fun node => funext (homitted key node)] at hfields
        simp only [hfields, bind, Except.bind]
      | map values =>
        have hmap := encodeMapEntries_map f values (entryEncoders image omitted' entries)
        rw [hentries] at hmap
        simp only [hmap, bind, Except.bind]
      | _ => rfl
  | .null, node | .boolean _, node | .integer _, node | .float _ _, node | .string _, node => by
    rw [encodeAs, encodeAs]
    rcases h node with ⟨fault, htarget, himage⟩ | ⟨unions, type, type', htarget, himage, htype⟩
    · rw [htarget, himage]
    · rw [htarget, himage]
      cases htype <;> rfl

theorem encodeElements_carried (h : registry.Carries f image)
    (homitted : ∀ key node literal, omitted' key (f node) literal = omitted key node literal) :
    ∀ (elements : List Literal) (items : Node),
      encodeElements image omitted' elements (f items) =
        encodeElements registry omitted elements items
  | [], _ => by rw [encodeElements, encodeElements]
  | element :: rest, items => by
    rw [encodeElements, encodeElements, encodeAs_carried h homitted element items,
      encodeElements_carried h homitted rest items]

theorem entryEncoders_carried (h : registry.Carries f image)
    (homitted : ∀ key node literal, omitted' key (f node) literal = omitted key node literal) :
    ∀ entries : List (String × Literal),
      ((entryEncoders image omitted' entries).map fun entry =>
        (entry.1, fun node : Node => entry.2 (f node))) = entryEncoders registry omitted entries
  | [] => by
    rw [entryEncoders, entryEncoders]
    rfl
  | (key, literal) :: rest => by
    rw [entryEncoders, entryEncoders, List.map_cons, entryEncoders_carried h homitted rest,
      funext (encodeAs_carried h homitted literal)]

end

end Literal

/-! ## Defaults -/

theorem fillOmitted_carried (h : registry.Carries f image) (budget : Nat)
    (expanding : List String) (key : String) (node : Node) (literal : Literal) :
    fillOmitted image budget expanding key (f node) literal =
      fillOmitted registry budget expanding key node literal := by
  induction budget generalizing expanding key node literal with
  | zero => rfl
  | succ budget ih =>
    rw [fillOmitted, fillOmitted]
    split
    · rfl
    · exact Literal.encodeAs_carried h (ih (key :: expanding)) literal node

theorem encodeDefault_carried (h : registry.Carries f image) {node : Node}
    (hbudget : image.fieldCount + (Registry.ofRoot (f node)).fieldCount =
      registry.fieldCount + (Registry.ofRoot node).fieldCount) (literal : Literal) :
    encodeDefault image (f node) literal = encodeDefault registry node literal := by
  rw [encodeDefault, encodeDefault, hbudget]
  exact Literal.encodeAs_carried h (fillOmitted_carried h _ []) literal node

end

/-- A default has one encoding in a tree and in the tree with other logical types. -/
theorem encodeDefault_mapSchema {f : Schema → Schema} (hf : Schema.Revises f id)
    {registry image : Registry} (h : registry.Revises (.ofSchemas f id) image) (node : Node)
    (literal : Literal) :
    encodeDefault image (node.mapSchema f) literal = encodeDefault registry node literal :=
  encodeDefault_carried (h.carries hf)
    (by rw [h.fieldCount, (Registry.revises_ofRoot hf node).fieldCount]) literal

theorem Registry.fieldCount_onSide (registry : Registry) (target : Side) :
    (registry.onSide target).fieldCount = registry.fieldCount := by
  rw [fieldCount, onSide, List.foldr_map, fieldCount]
  congr 1
  funext entry total
  rcases entry with ⟨position, definition⟩
  cases definition with
  | record record =>
    simp only [Entry.onSide, Definition.onSide, RecordNode.onSide, Definition.fieldCount,
      List.length_map]
  | _ => rfl

/-- A default has one encoding on either side. -/
theorem encodeDefault_onSide (registry : Registry) (node : Node) (target : Side)
    (literal : Literal) : encodeDefault (registry.onSide target) (node.onSide target) literal =
      encodeDefault registry node literal :=
  encodeDefault_carried (registry.carries_onSide target)
    (by rw [Registry.ofRoot_onSide, registry.fieldCount_onSide, Registry.fieldCount_onSide])
    literal

end AvroResolution
