import AvroResolution.Compilation.Context

/-!
# A schema's own grammar

`Program.validating` compiles the program that reads data of a schema as values
of the same schema.  Every union value keeps the index that the data gives it.

`validatingStep` compiles one node, given how to compile the nodes below it.  A
record that contains itself refers back to its own symbol, so the compilation
never goes deeper than `validatingDepth`.
-/

namespace AvroResolution

namespace Compile

/-- The symbol of a record, compiled on first sight. -/
def validateRecord (validate : Node → Compile SymbolId) (record : RecordNode) :
    Compile SymbolId := do
  match ← symbolOf (.validating record.id) with
  | some id => return id
  | none =>
    let id ← reserve
    memoise (.validating record.id) id
    let fields ← record.fields.mapM fun field => validate field.type
    let order ← push (.reorder
      (record.fields.zipIdx.map fun (field, index) => ⟨field.name, index⟩))
    fill id (.sequence (fields ++ [order]))
    return id

/-- The symbol of a union: an index, then the branch it names. -/
def validateUnion (validate : Node → Compile SymbolId) (branches : List Node) :
    Compile SymbolId := do
  let alternatives ← branches.mapM fun branch => do
    let symbol ← validate branch
    return (⟨branch.schema.typeName, symbol⟩ : Branch)
  let index ← terminal .union
  let alternative ← push (.alternative alternatives)
  push (.sequence [index, alternative])

/-- The symbol of a node, where `validate` compiles the nodes below it. -/
def validatingStep (context : Context) (validate : Node → Compile SymbolId) (node : Node) :
    Compile SymbolId := do
  match ← context.look node with
  | .primitive type => terminal (.primitive type)
  | .named (.fixed _ size) => terminal (.fixed size)
  | .named (.enum _ symbols _) =>
    enumeration ⟨symbols, (List.range symbols.length).map some⟩
  | .named (.record record) => validateRecord validate record
  | .array items => do
    let item ← validate items
    blocks .array [item]
  | .map values => do
    let key ← terminal (.primitive .string)
    let value ← validate values
    blocks .map [key, value]
  | .union branches => validateUnion validate branches

/-- The symbol of a node, compiled at most `depth` nodes deep. -/
def validating (context : Context) : (depth : Nat) → Node → Compile SymbolId
  | 0, _ => throw (.internal .tooDeep)
  | depth + 1, node => validatingStep context (validating context depth) node

end Compile

/-- How deep a compilation of `root` can go.  Between two records that are new it
only descends, and every record is new once. -/
def validatingDepth (root : Node) : Nat :=
  (root.schema.recordCount + 1) * (root.preorder.length + 1)

/-- The program that reads data of a schema as values of that schema. -/
def Program.validating (schema : Schema) : Except SchemaFault Program := do
  let root := Node.root .writer schema
  let context := Context.ofRoots {} root root
  let (id, builder) ← Compile.validating context (validatingDepth root) root Builder.empty
  builder.finish id

end AvroResolution
