import AvroResolution.Proofs.Compilation.Matching
import AvroResolution.Proofs.Compilation.Reading
import AvroResolution.Proofs.Decoding.Congruence

/-!
# Resolution without a program

`Context.directWithin` reads data of one tree as values of another by walking both
trees together.  It has no arena and remembers nothing: the rule for two nodes is
looked up when they are met.

* Two records are read in the writer's order, each field as the reader's field that
  it is linked to, or as itself and dropped.  The fields that are left are read from
  the bytes of their defaults.
* A type that is no union goes to the branch of the reader's union that
  `Context.choice` gives.
* Where no rule applies, reading fails with the mismatch.
-/

namespace AvroResolution

/-! ## Enums -/

/-- The reader's symbol for a symbol of the writer: the same one if the reader has it,
else the reader's default. -/
def Config.symbolFor? (config : Config) (symbols : List String) (default? : Option String)
    (symbol : String) : Option String :=
  if symbol ∈ symbols then some symbol
  else if config.enumDefaults then default?.filter (· ∈ symbols)
  else none

/-- Reads an enum by the names of its symbols. -/
def Config.readSymbol (config : Config) (writer reader : List String)
    (default? : Option String) : Reader Value := do
  let ordinal ← Reader.int
  if ordinal < 0 then
    throw (.data (.negativeOrdinal ordinal))
  else
    match writer[ordinal.toInt.toNat]?.bind (config.symbolFor? reader default?) with
    | some symbol => return .enum (Int32.ofNat (reader.idxOf symbol)) symbol
    | none => throw (.unmappedOrdinal ordinal.toInt.toNat)

theorem Config.symbolFor?_mem {config : Config} {symbols : List String}
    {default? : Option String} {symbol found : String}
    (h : config.symbolFor? symbols default? symbol = some found) : found ∈ symbols := by
  unfold symbolFor? at h
  split at h
  · cases h
    assumption
  · split at h
    · simpa using (Option.filter_eq_some_iff.1 h).2
    · cases h

theorem idxOf?_eq {symbols : List String} (symbol : String) :
    symbols.idxOf? symbol = if symbol ∈ symbols then some (symbols.idxOf symbol) else none := by
  cases hfound : symbols.idxOf? symbol with
  | none => rw [if_neg (List.idxOf?_eq_none_iff.1 hfound)]
  | some index =>
    have hmem : symbol ∈ symbols := by
      rw [← List.isSome_idxOf?, hfound]
      rfl
    rw [if_pos hmem, List.idxOf_eq_getD_idxOf?, hfound]
    rfl

/-- The ordinals of an adjustment are the places of the symbols that it stands for. -/
theorem Config.resolve_between (config : Config) (writer reader : List String)
    (default? : Option String) (ordinal : Nat) :
    (EnumAdjustment.between config writer reader default?).resolve ordinal =
      (writer[ordinal]?.bind (config.symbolFor? reader default?)).map reader.idxOf := by
  rw [EnumAdjustment.resolve, EnumAdjustment.between, List.getElem?_map]
  cases writer[ordinal]? with
  | none => rfl
  | some symbol =>
    rw [Option.map_some, Option.join_some, Option.bind_some, symbolFor?, idxOf?_eq]
    by_cases hsymbol : symbol ∈ reader
    · rw [if_pos hsymbol, if_pos hsymbol]
      rfl
    · rw [if_neg hsymbol, if_neg hsymbol, Option.none_or]
      cases config.enumDefaults with
      | false => rfl
      | true =>
        cases default? with
        | none => rfl
        | some other =>
          simp only [if_true, Option.bind_some, Option.filter_some, decide_eq_true_eq, idxOf?_eq]
          by_cases hother : other ∈ reader
          · rw [if_pos hother, if_pos hother]
            rfl
          · rw [if_neg hother, if_neg hother]
            rfl

/-- Reading by ordinals is reading by names. -/
theorem Program.readEnum_between (config : Config) (writer reader : List String)
    (default? : Option String) :
    readEnum (.between config writer reader default?) =
      config.readSymbol writer reader default? := by
  refine bind_congr fun ordinal => ?_
  split
  · rfl
  · dsimp only
    rw [config.resolve_between]
    cases hsymbol : writer[ordinal.toInt.toNat]?.bind (config.symbolFor? reader default?) with
    | none => rfl
    | some symbol =>
      obtain ⟨named, _, hnamed⟩ := Option.bind_eq_some_iff.1 hsymbol
      rw [Option.map_some]
      dsimp only
      rw [show (EnumAdjustment.between config writer reader default?).symbols = reader from rfl,
        List.getElem?_idxOf (Config.symbolFor?_mem hnamed)]

namespace Context

open Program

/-! ## Records -/

/-- Reads a field of the writer's record. -/
def directWritten (read : Node → Node → Reader Value) : Field Node × Option ReaderField → FieldRead
  | (field, some reader) => .kept (read field.type reader.field.type)
  | (field, none) => .dropped (read field.type field.type)

/-- Reads a field from the bytes of its default.  A default without bytes is an error
of the schemas, so nothing is read. -/
def directDefaulted (context : Context) (read : Node → Node → Reader Value)
    (field : DefaultedField) : Reader Value :=
  let type := field.reader.field.type
  match encodeDefault (context.registry type.side) type field.default with
  | .ok bytes => do
    let (value, _) ← replay (read type type) bytes
    return value
  | .error _ => throw .endless

/-- Reads a record as another one. -/
def directRecords (context : Context) (read : Node → Node → Reader Value) (w r : RecordNode) :
    Reader Value :=
  match Matching.ofFields context.config w.fields r.fields with
  | .ok matching =>
    readRecord matching.arrivals ((w.fields.zip matching.links).map (directWritten read) ++
      matching.defaulted.map fun field => .kept (context.directDefaulted read field))
  | .error field =>
    throw (.mismatch (.missingField w.heading.fullname r.heading.fullname field))

/-! ## Both trees -/

/-- Reads a type that is no union as the branch of the reader's union that the rules
choose. -/
noncomputable def directBranch (context : Context) (read : Node → Node → Reader Value)
    (writer : Node) (shape : Shape) (branches : List Node) : Reader Value :=
  match context.choice shape branches with
  | some (branch, index) => do
    let value ← read writer branch
    return .union (Int32.ofNat index) value
  | none => throw (.mismatch (.types shape.typeName Kind.union.name))

/-- Reads a node as another one by the rule for the two, where `read` reads the nodes
below them and `shape` is the shape of the writer's. -/
noncomputable def directAs (context : Context) (read : Node → Node → Reader Value)
    (writer reader : Node) (shape : Shape) : Reading → Reader Value
  | .atom type => readTerminal type.terminal
  | .promotion promotion => do
    let value ← readTerminal (.primitive promotion.source)
    Reader.ofExcept (fun fault => fault) (promotion.apply value)
  | .enum ws rs default? => context.config.readSymbol ws rs default?
  | .array wi ri => readArray (read wi ri)
  | .map wv rv => readMap (read wv rv)
  | .records w r => context.directRecords read w r
  | .writerUnion branches => do
    let index ← Reader.branchIndex branches.length
    read (branches.get index) reader
  | .readerUnion branches => context.directBranch read writer shape branches
  | .mismatch cause => throw (.mismatch cause)

/-- Reads a node as another one, where `read` reads the nodes below them.  A reference
to nothing has no values, so reading one never ends. -/
noncomputable def directStep (context : Context) (read : Node → Node → Reader Value)
    (writer reader : Node) : Reader Value :=
  match context.shape? writer, context.shape? reader with
  | some w, some r => context.directAs read writer reader w (w.reading r)
  | _, _ => throw .endless

/-- Reads a node as another one, at most `depth` nodes deep. -/
noncomputable def directWithin (context : Context) : (depth : Nat) → Node → Node → Reader Value
  | 0, _, _ => throw .endless
  | depth + 1, writer, reader => context.directStep (context.directWithin depth) writer reader

theorem directStep_eq {context : Context} (read : Node → Node → Reader Value)
    {writer reader : Node} {reading : Reading}
    (hreading : context.reading? writer reader = some reading) :
    ∃ shape, context.shape? writer = some shape ∧
      context.directStep read writer reader =
        context.directAs read writer reader shape reading := by
  obtain ⟨w, r, hw, hr, rfl⟩ := reading?_eq_some.1 hreading
  exact ⟨w, hw, by rw [directStep, hw, hr]⟩

/-! ## Depth -/

variable {rel : (α : Type) → Reader α → Reader α → Prop} {read read' : Node → Node → Reader Value}

open Reader in
theorem directRecords_congr (hrel : Congruence rel)
    (hread : ∀ writer reader, rel Value (read writer reader) (read' writer reader))
    (context : Context) (w r : RecordNode) :
    rel Value (context.directRecords read w r) (context.directRecords read' w r) := by
  unfold directRecords
  split
  · rename_i matching _
    refine hrel.readRecord (List.rel_append ?_ ?_) _
    · rw [List.forall₂_map_left_iff, List.forall₂_map_right_iff, List.forall₂_same]
      rintro ⟨field, _ | link⟩ _
      · exact .dropped (hrel.passed (hread _ _))
      · exact .kept (hread _ _)
    · rw [List.forall₂_map_left_iff, List.forall₂_map_right_iff, List.forall₂_same]
      intro field _
      refine .kept ?_
      unfold directDefaulted
      dsimp only
      split
      · exact hrel.bind (hrel.replay (hread _ _) _) fun _ => hrel.refl _
      · exact hrel.refl _
  · exact hrel.refl _

/-- Two nodes are read alike when the nodes below them are. -/
theorem directStep_congr (hrel : Reader.Congruence rel)
    (hread : ∀ writer reader, rel Value (read writer reader) (read' writer reader))
    (context : Context) (writer reader : Node) :
    rel Value (context.directStep read writer reader) (context.directStep read' writer reader) := by
  unfold directStep
  split
  · rename_i w r _ _
    cases w.reading r with
    | array => exact hrel.array (hread _ _)
    | map => exact hrel.map (hread _ _)
    | records => exact directRecords_congr hrel hread context _ _
    | writerUnion => exact hrel.bind (hrel.refl _) fun _ => hread _ _
    | readerUnion =>
      simp only [directAs]
      unfold directBranch
      split
      · exact hrel.bind (hread _ _) fun _ => hrel.refl _
      · exact hrel.refl _
    | _ => exact hrel.refl _
  · exact hrel.refl _

end Context

end AvroResolution
