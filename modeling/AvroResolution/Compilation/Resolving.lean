import AvroResolution.Compilation.Context
import AvroResolution.Compilation.Matching
import AvroResolution.Default

/-!
# Reading one schema as another

`Program.resolving` compiles the program that reads data of the writer's schema
as values of the reader's.  Types that do not fit become mismatches inside the
program.

* `Compile.resolveRecords` compiles two records field by field.  The symbol of a
  pair of records is compiled once.
* `Compile.chooseBranch` picks the branch of a reader union for a writer type.
  The first branch of the same type wins.  A record without a branch of its own
  name goes to a record branch that it fits: to the last one with its own
  unqualified name, else to the first.  Failing that, the first branch reached
  by promotion is taken.
* `Compile.resolvingStep` compiles one pair of nodes, given how to compile the
  pairs below it.
-/

namespace AvroResolution

/-- Whether a promotion may choose a union branch.  No branch is chosen for being
a `float`. -/
def Promotion.choosesBranch : Promotion → Bool
  | .intToFloat => false
  | .longToFloat => false
  | _ => true

/-- The adjustment from the symbols of a writer's enum to those of a reader's. -/
def EnumAdjustment.between (config : Config) (writer reader : List String)
    (default? : Option String) : EnumAdjustment :=
  let fallback :=
    if config.enumDefaults then default?.bind fun symbol => reader.idxOf? symbol else none
  ⟨reader, writer.map fun symbol => (reader.idxOf? symbol).or fallback⟩

namespace Compile

/-! ## Records -/

/-- A symbol of a record's sequence for a writer field, and the reader field that
arrives with it, if any. -/
structure WrittenField where
  symbol : SymbolId
  arrival? : Option Arrival

/-- Reads a writer field as the reader field it is linked to, or skips it. -/
def resolveWritten (resolve : Node → Node → Compile SymbolId)
    (linked : Field Node × Option ReaderField) : Compile WrittenField :=
  match linked with
  | (field, some reader) => do
    let symbol ← resolve field.type reader.field.type
    return ⟨symbol, some ⟨reader.field.name, reader.index⟩⟩
  | (field, none) => do
    let value ← resolve field.type field.type
    let symbol ← push (.skip value)
    return ⟨symbol, none⟩

/-- The bytes of a field's default. -/
def defaultBytes (context : Context) (field : DefaultedField) : Compile (List UInt8) :=
  fun builder =>
    let type := field.reader.field.type
    match encodeDefault (context.registry type.side) type field.default with
    | .ok bytes => .ok (bytes, builder)
    | .error fault => .error (.invalidDefault field.reader.field.name fault)

/-- The symbols of a record's sequence that fill a reader field from its
default. -/
def resolveDefaulted (context : Context) (resolve : Node → Node → Compile SymbolId)
    (field : DefaultedField) : Compile (List SymbolId) := do
  let type := field.reader.field.type
  let bytes ← defaultBytes context field
  let inject ← push (.inject type.schema bytes)
  let value ← resolve type type
  let injectEnd ← push .injectEnd
  return [inject, value, injectEnd]

/-- The sequence of a writer record read as a reader record. -/
def resolveFields (context : Context) (resolve : Node → Node → Compile SymbolId)
    (writer : RecordNode) (matching : Matching) : Compile Symbol := do
  let written ← (writer.fields.zip matching.links).mapM (resolveWritten resolve)
  let defaulted ← matching.defaulted.mapM (resolveDefaulted context resolve)
  let arrivals :=
    written.filterMap (·.arrival?) ++
      matching.defaulted.map fun field => ⟨field.reader.field.name, field.reader.index⟩
  let order ← push (.reorder arrivals)
  return .sequence (written.map (·.symbol) ++ defaulted.flatten ++ [order])

/-- The symbol of a writer record read as a reader record, compiled on first
sight.  A pair that lacks a field is remembered as a mismatch. -/
def resolveRecords (context : Context) (resolve : Node → Node → Compile SymbolId)
    (writer reader : RecordNode) : Compile SymbolId := do
  let key := context.key writer reader
  match ← symbolOf key with
  | some id => return id
  | none =>
    match Matching.ofFields context.config writer.fields reader.fields with
    | .error field => do
      let id ← push (.mismatch
        (.missingField writer.heading.fullname reader.heading.fullname field))
      memoise key id
      return id
    | .ok matching => do
      let id ← reserve
      memoise key id
      let sequence ← resolveFields context resolve writer matching
      fill id sequence
      return id

/-! ## Unions -/

/-- The branch of the writer's own type, or else the record branch it fits, where
`structural` is the record branch found so far. -/
def branchOfType (context : Context) (resolve : Node → Node → Compile SymbolId)
    (writer : Shape) : List (Node × Nat) → (structural : Option (Node × Nat)) →
    Compile (Option (Node × Nat))
  | [], structural => return structural
  | (branch, index) :: rest, structural => do
    match writer, ← context.look branch with
    | .named (.record w), .named (.record r) =>
      if w.heading.fullname = r.heading.fullname then
        return some (branch, index)
      else
        let id ← resolveRecords context resolve w r
        let failed ← hasMatchError id
        if !failed && (structural.isNone || w.heading.name = r.heading.name) then
          branchOfType context resolve writer rest (some (branch, index))
        else
          branchOfType context resolve writer rest structural
    | .named w, .named r =>
      if w.kind = r.kind ∧ w.fullname = r.fullname then
        return some (branch, index)
      else
        branchOfType context resolve writer rest structural
    | w, r =>
      if w.kind = r.kind then
        return some (branch, index)
      else
        branchOfType context resolve writer rest structural

/-- The first branch that the writer's type may be promoted to. -/
def branchByPromotion (context : Context) (writer : Shape) :
    List (Node × Nat) → Compile (Option (Node × Nat))
  | [] => return none
  | (branch, index) :: rest => do
    let shape ← context.look branch
    match Promotion.between? writer.kind shape.kind with
    | some promotion =>
      if promotion.choosesBranch then return some (branch, index)
      else branchByPromotion context writer rest
    | none => branchByPromotion context writer rest

/-- The branch of a reader union that a writer type is read as. -/
def chooseBranch (context : Context) (resolve : Node → Node → Compile SymbolId)
    (writer : Shape) (branches : List Node) : Compile (Option (Node × Nat)) := do
  match ← branchOfType context resolve writer branches.zipIdx none with
  | some chosen => return some chosen
  | none => branchByPromotion context writer branches.zipIdx

/-- A writer union: the data says which branch it holds, and each branch is read
as the reader's type. -/
def resolveWriterUnion (resolve : Node → Node → Compile SymbolId) (branches : List Node)
    (reader : Node) : Compile SymbolId := do
  let alternatives ← branches.mapM fun branch => do
    let symbol ← resolve branch reader
    return (⟨branch.schema.typeName, symbol⟩ : Branch)
  let alternative ← push (.alternative alternatives)
  push (.select alternative)

/-! ## Pairs of nodes -/

/-- The symbol of a pair of nodes, where `resolve` compiles the pairs below. -/
def resolvingStep (context : Context) (resolve : Node → Node → Compile SymbolId)
    (writer reader : Node) : Compile SymbolId := do
  let w ← context.look writer
  let r ← context.look reader
  match w, r with
  | .named (.fixed wh ws), .named (.fixed rh rs) =>
    if wh.fullname = rh.fullname ∧ ws = rs then terminal (.fixed ws) else mismatch w r
  | .named (.enum wh ws _), .named (.enum rh rs default?) =>
    if wh.fullname = rh.fullname then
      enumeration (.between context.config ws rs default?)
    else
      mismatch w r
  | .named (.record wr), .named (.record rr) => resolveRecords context resolve wr rr
  | .array wi, .array ri => do
    let item ← resolve wi ri
    blocks .array [item]
  | .map wv, .map rv => do
    let key ← terminal (.primitive .string)
    let value ← resolve wv rv
    blocks .map [key, value]
  | .union branches, _ => resolveWriterUnion resolve branches reader
  | _, .union branches => do
    match ← chooseBranch context resolve w branches with
    | some (branch, index) => do
      let symbol ← resolve writer branch
      push (.adjust index symbol)
    | none => mismatch w r
  | .primitive wt, .primitive rt =>
    if wt = rt then
      terminal (.primitive wt)
    else
      match Promotion.between? (.primitive wt) (.primitive rt) with
      | some promotion => do
        let symbol ← terminal (.primitive wt)
        push (.promote symbol promotion)
      | none => mismatch w r
  | _, _ => mismatch w r

/-- The symbol of a pair of nodes, compiled at most `depth` pairs deep. -/
def resolving (context : Context) : (depth : Nat) → Node → Node → Compile SymbolId
  | 0, _, _ => throw (.internal .tooDeep)
  | depth + 1, writer, reader => resolvingStep context (resolving context depth) writer reader

end Compile

/-! ## Programs -/

/-- How deep a compilation of two trees can go.  Between two pairs of records that
are new it only descends, and every pair is new once. -/
def resolvingDepth (writer reader : Node) : Nat :=
  let records := writer.schema.recordCount + reader.schema.recordCount
  let nodes := writer.preorder.length + reader.preorder.length
  (records * records + 1) * (2 * nodes + 1)

/-- The program that reads data of one tree as values of another, given their
roots. -/
def Program.ofRoots (config : Config) (writer reader : Node) : Except SchemaFault Program := do
  let context := Context.ofRoots config writer reader
  let depth := resolvingDepth writer reader
  let (id, builder) ← Compile.resolving context depth writer reader Builder.empty
  builder.finish id

/-- The program that reads data of the writer's schema as values of the
reader's. -/
def Program.resolving (config : Config) (writer reader : Schema) : Except SchemaFault Program :=
  Program.ofRoots config (.root .writer writer) (.root .reader reader)

/-- The program that reads data of a schema as values of the same tree, whose
records are therefore the same on both sides. -/
def Program.resolvingItself (config : Config) (schema : Schema) : Except SchemaFault Program :=
  Program.ofRoots config (.root .writer schema) (.root .writer schema)

/-- A writer's and a reader's schema that have no node in common, or one schema that is
both.  Where one is a part of the other they are places of a `SharedTree`. -/
inductive SchemaPair where
  | twoTrees (writer reader : Schema)
  | oneTree (schema : Schema)

namespace SchemaPair

def writer : SchemaPair → Schema
  | .twoTrees writer _ => writer
  | .oneTree schema => schema

def reader : SchemaPair → Schema
  | .twoTrees _ reader => reader
  | .oneTree schema => schema

/-- The program that reads data of the pair's writer as values of its reader. -/
def program (pair : SchemaPair) (config : Config) : Except SchemaFault Program :=
  match pair with
  | .twoTrees writer reader => Program.resolving config writer reader
  | .oneTree schema => Program.resolvingItself config schema

end SchemaPair

/-- A schema with two places of its tree, given by their numbers in preorder, of which the
one is the writer's schema and the other the reader's. -/
structure SharedTree where
  schema : Schema
  writer : Fin (Node.root .writer schema).preorder.length
  reader : Fin (Node.root .reader schema).preorder.length

namespace SharedTree

/-- The writer's place in the tree. -/
def writerRoot (tree : SharedTree) : Node :=
  (Node.root .writer tree.schema).preorder[tree.writer]

/-- The reader's place in the tree. -/
def readerRoot (tree : SharedTree) : Node :=
  (Node.root .reader tree.schema).preorder[tree.reader]

/-- The program that reads data of the writer's place as values of the reader's.  Either
side knows only the names that are defined in its own part of the tree. -/
def program (tree : SharedTree) (config : Config) : Except SchemaFault Program := do
  let writer := tree.writerRoot
  let reader := tree.readerRoot
  let context := Context.ofParts config writer reader
  let depth := resolvingDepth writer reader
  let (id, builder) ← Compile.resolving context depth writer reader Builder.empty
  builder.finish id

end SharedTree

end AvroResolution
