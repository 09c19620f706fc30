import AvroResolution.Proofs.Decoding.Congruence
import AvroResolution.Proofs.Decoding.Typing
import AvroResolution.Proofs.Schema.Look

/-!
# Reading data of a schema

`Registry.plainWithin` reads a value of a node by walking the schema tree, without a
program.  It is what the programs of a schema's own grammar do, and what every
program that reads the schema's data as another schema does to its input.

* `Registry.plainStep` reads one node, given how to read the nodes below it.
* `Registry.plainWithin_mono`: with more depth the answer is the same, unless the
  reader gave up before.
* `Registry.ensures_plain`: all faults are faults of the data.
-/

namespace AvroResolution

/-- An enum whose ordinals stay as they are. -/
def EnumAdjustment.keep (symbols : List String) : EnumAdjustment :=
  ⟨symbols, (List.range symbols.length).map some⟩

namespace Registry

/-! ## The reader of a node -/

/-- Reads fields one after the other. -/
def plainFields (read : Node → Reader Value) : List (Field Node) → Reader (List (String × Value))
  | [] => return []
  | field :: rest => do
    let value ← read field.type
    let others ← plainFields read rest
    return (field.name, value) :: others

/-- Reads a value of a node, where `read` reads the nodes below it.  A reference to
nothing has no values, so reading one never ends. -/
def plainStep (registry : Registry) (read : Node → Reader Value) (node : Node) : Reader Value :=
  match registry.shape? node with
  | none => throw .endless
  | some (.primitive type) => Program.readTerminal (.primitive type)
  | some (.named (.fixed _ size)) => Program.readTerminal (.fixed size)
  | some (.named (.enum _ symbols _)) => Program.readEnum (.keep symbols)
  | some (.named (.record record)) => do
    let fields ← plainFields read record.fields
    return .record fields
  | some (.array items) => Program.readArray (read items)
  | some (.map values) => Program.readMap (read values)
  | some (.union branches) => do
    let index ← Reader.branchIndex branches.length
    let value ← read branches[index]
    return .union (Int32.ofNat index) value

/-- Reads a value of a node, at most `depth` nodes deep. -/
def plainWithin (registry : Registry) : (depth : Nat) → Node → Reader Value
  | 0, _ => throw .endless
  | depth + 1, node => registry.plainStep (registry.plainWithin depth) node

variable {registry : Registry} {read read' : Node → Reader Value} {node : Node} {shape : Shape}

/-! ## Depth -/

theorem plainFields_congr {rel : (α : Type) → Reader α → Reader α → Prop}
    (hrel : Reader.Congruence rel) (hread : ∀ node, rel Value (read node) (read' node))
    (fields : List (Field Node)) : rel _ (plainFields read fields) (plainFields read' fields) := by
  induction fields with
  | nil => exact hrel.refl _
  | cons field rest ih =>
    exact hrel.bind (hread field.type) fun value => hrel.bind ih fun others => hrel.refl _

/-- A node is read alike when the nodes below it are. -/
theorem plainStep_congr {rel : (α : Type) → Reader α → Reader α → Prop}
    (hrel : Reader.Congruence rel) (hread : ∀ node, rel Value (read node) (read' node))
    (node : Node) : rel _ (registry.plainStep read node) (registry.plainStep read' node) := by
  unfold plainStep
  split
  · exact hrel.refl _
  · exact hrel.refl _
  · exact hrel.refl _
  · exact hrel.refl _
  · exact hrel.bind (plainFields_congr hrel hread _) fun fields => hrel.refl _
  · exact hrel.array (hread _)
  · exact hrel.map (hread _)
  · exact hrel.bind (hrel.refl _) fun index => hrel.bind (hread _) fun value => hrel.refl _

/-- More depth changes no answer but that of a reader that gave up. -/
theorem plainWithin_mono (registry : Registry) {depth more : Nat} (hle : depth ≤ more)
    (node : Node) :
    Reader.Approximates (registry.plainWithin depth node) (registry.plainWithin more node) := by
  induction more generalizing depth node with
  | zero =>
    obtain rfl : depth = 0 := by omega
    exact .throw_left (by simp) _
  | succ more ih =>
    cases depth with
    | zero => exact .throw_left (by simp) _
    | succ depth => exact plainStep_congr (.simulates _) (fun node => ih (by omega) node) node

/-! ## Faults -/

theorem ensures_plainFields {bad : DecodeFault → Prop}
    (hread : ∀ node, Reader.Ensures (fun _ => True) bad (read node))
    (fields : List (Field Node)) :
    Reader.Ensures (fun _ => True) bad (plainFields read fields) := by
  induction fields with
  | nil => exact .pure trivial
  | cons field rest ih => exact .bind (hread _) fun _ _ => .bind ih fun _ _ => .pure trivial

/-- Reading data of a schema fails only for the data. -/
theorem ensures_plain (registry : Registry) (depth : Nat) (node : Node) :
    Reader.Ensures (fun _ => True) DecodeFault.ofData (registry.plainWithin depth node) := by
  induction depth generalizing node with
  | zero => exact .throw trivial
  | succ depth ih =>
    unfold plainWithin plainStep
    split
    · exact .throw trivial
    · exact (Reader.scalar_readTerminal _).faults
    · exact (Reader.scalar_readFixed _).faults
    · exact (Reader.scalar_readEnum _).faults
    · exact .bind (ensures_plainFields ih _) fun _ _ => .pure trivial
    · exact (Reader.Ensures.readArray (fun _ h => h) (ih _)).mono (fun _ _ => trivial) fun _ h => h
    · exact (Reader.Ensures.readMap (fun _ h => h) (ih _)).mono (fun _ _ => trivial) fun _ h => h
    · exact .bind (Reader.scalar_branchIndex _).faults fun _ _ =>
        .bind (ih _) fun _ _ => .pure trivial

/-! ## Nodes of a known shape -/

theorem plainStep_primitive {type : Primitive} (h : registry.shape? node = some (.primitive type)) :
    registry.plainStep read node = Program.readTerminal (.primitive type) := by
  rw [plainStep, h]

theorem plainStep_fixed {heading : Heading} {size : Nat}
    (h : registry.shape? node = some (.named (.fixed heading size))) :
    registry.plainStep read node = Program.readTerminal (.fixed size) := by
  rw [plainStep, h]

theorem plainStep_enum {heading : Heading} {symbols : List String} {default? : Option String}
    (h : registry.shape? node = some (.named (.enum heading symbols default?))) :
    registry.plainStep read node = Program.readEnum (.keep symbols) := by
  rw [plainStep, h]

theorem plainStep_record {record : RecordNode}
    (h : registry.shape? node = some (.named (.record record))) :
    registry.plainStep read node = (do
      let fields ← plainFields read record.fields
      return .record fields) := by
  rw [plainStep, h]

theorem plainStep_array {items : Node} (h : registry.shape? node = some (.array items)) :
    registry.plainStep read node = Program.readArray (read items) := by
  rw [plainStep, h]

theorem plainStep_map {values : Node} (h : registry.shape? node = some (.map values)) :
    registry.plainStep read node = Program.readMap (read values) := by
  rw [plainStep, h]

theorem plainStep_union {branches : List Node}
    (h : registry.shape? node = some (.union branches)) :
    registry.plainStep read node = (do
      let index ← Reader.branchIndex branches.length
      let value ← read branches[index]
      return .union (Int32.ofNat index) value) := by
  rw [plainStep, h]

end Registry

end AvroResolution
