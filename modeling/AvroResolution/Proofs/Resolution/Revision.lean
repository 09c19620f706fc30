import AvroResolution.Proofs.Compilation.Revision
import AvroResolution.Proofs.Resolution.Totality

/-!
# Compiling revised trees

From two revised trees the same program is compiled, with other types of its defaults.

* `Context.RevisesSafely` says that the revision of a context is harmless for the pairs of nodes
  that a compilation meets: no default that fills a field is changed.
* `Compile.follows_resolving` and `Compile.follows_validating` say that the compilations go
  alike, at any greater depth.  There is one lemma for each function of the two compilers.
* `SchemaPair.build_mapSchema` and `Schema.build_mapSchema` are the results for trees with
  other logical types.  The depths that are allowed differ, but no compilation reaches its own.
* `SchemaPair.program_congr`: trees that become the same have one program, up to the types of
  its defaults.
-/

namespace AvroResolution

/-! ## Harmless revisions -/

/-- The revision leaves the default of a field as it is, and so the encodings at its type. -/
structure Context.FillsAlike (types : Schema → Schema) (revision : Revision)
    (context image : Context) (field : Field Node) : Prop where
  default? : revision.default? field = field.default?
  schema : (revision.node field.type).schema = types field.type.schema
  encode : ∀ literal,
    encodeDefault (image.registry (revision.node field.type).side) (revision.node field.type)
      literal = encodeDefault (context.registry field.type.side) field.type literal

/-- The second context is the revised first one.  Where a pair of records is met, the revision
leaves the defaults that fill its fields as they are. -/
structure Context.RevisesSafely (types : Schema → Schema) (revision : Revision)
    (meets : Node × Node → Prop) (context image : Context) : Prop
    extends Context.Revises revision context image where
  descends : ∀ {pair other}, meets pair → context.Descends pair other → meets other
  fills : ∀ {pair w r}, meets pair → context.reading? pair.1 pair.2 = some (.records w r) →
    ∀ field ∈ Matching.unmatched (Links.ofFields context.config w.fields r.fields) w.fields
      r.fields, context.FillsAlike types revision image field.field

section

variable {f : Schema → Schema} {keep : Option Literal → Option Literal}

theorem Context.revises_ofRoots (hf : Schema.Revises f keep) (config : Config)
    (writer reader : Node) : (Context.ofRoots config writer reader).Revises (.ofSchemas f keep)
      (.ofRoots config (writer.mapSchema f) (reader.mapSchema f)) where
  config := rfl
  shared := rfl
  typeName node := hf.typeName node.schema
  look node := by
    rcases node with ⟨side, ordinal, schema⟩
    cases side <;> exact (Registry.revises_ofRoot hf _).look hf _

/-- Trees with other logical types are revised safely wherever a compilation gets. -/
theorem Context.revisesSafely_ofRoots (hf : Schema.Revises f id) (config : Config)
    (writer reader : Node) :
    (Context.ofRoots config writer reader).RevisesSafely f (.ofSchemas f id) (fun _ => True)
      (.ofRoots config (writer.mapSchema f) (reader.mapSchema f)) where
  toRevises := revises_ofRoots hf config writer reader
  descends _ _ := trivial
  fills _ _ field _ := {
    default? := rfl
    schema := rfl
    encode := fun literal => by
      rcases field with ⟨index, name, ⟨side, ordinal, schema⟩, default?, aliases⟩
      cases side <;> exact encodeDefault_mapSchema hf (Registry.revises_ofRoot hf _) _ literal }

end

namespace Compile

section

variable {types : Schema → Schema} {revision : Revision} {meets : Node × Node → Prop}
  {context image : Context}

theorem follows_look (hcontext : context.Revises revision image) (node : Node) :
    Follows types (Shape.revise revision) (context.look node)
      (image.look (revision.node node)) := by
  intro builder
  right
  rw [Context.look, Context.look, hcontext.look]
  cases (context.registry node.side).look node <;> rfl

variable (hcontext : context.RevisesSafely types revision meets image)
include hcontext

omit hcontext in
theorem follows_defaultBytes {field : DefaultedField}
    (hfills : context.FillsAlike types revision image field.reader.field) :
    Follows types id (defaultBytes context field)
      (defaultBytes image (field.revise revision)) := by
  intro builder
  right
  have hencode := hfills.encode field.default
  simp only [defaultBytes, DefaultedField.revise, ReaderField.revise, Field.revise]
  rw [hencode]
  cases encodeDefault (context.registry field.reader.field.type.side) field.reader.field.type
    field.default <;> rfl

/-! ## Records -/

variable {resolve resolve' : Node → Node → Compile SymbolId}
  (hresolve : ∀ writer reader, meets (writer, reader) → Follows types id (resolve writer reader)
    (resolve' (revision.node writer) (revision.node reader)))
include hresolve

omit hcontext in
theorem follows_resolveWritten {field : Field Node} {reader? : Option ReaderField}
    (hmeets : meets (field.type, (reader?.elim field fun reader => reader.field).type)) :
    Follows types id (resolveWritten resolve (field, reader?))
      (resolveWritten resolve' (field.revise revision,
        reader?.map (ReaderField.revise revision))) := by
  cases reader? with
  | none =>
    refine (hresolve field.type field.type hmeets).bind fun value _ => ?_
    refine (follows_push (.skip value)).bind fun symbol _ => ?_
    exact .pure (⟨symbol, none⟩ : WrittenField)
  | some reader =>
    refine (hresolve field.type reader.field.type hmeets).bind fun symbol _ => ?_
    exact .pure (⟨symbol, some ⟨reader.field.name, reader.index⟩⟩ : WrittenField)

omit hcontext in
theorem follows_resolveDefaulted {field : DefaultedField}
    (hfills : context.FillsAlike types revision image field.reader.field)
    (hmeets : meets (field.reader.field.type, field.reader.field.type)) :
    Follows types id (resolveDefaulted context resolve field)
      (resolveDefaulted image resolve' (field.revise revision)) := by
  refine (follows_defaultBytes hfills).bind fun bytes _ => ?_
  have hinject : Follows types id (push (.inject field.reader.field.type.schema bytes))
      (push (.inject (field.revise revision).reader.field.type.schema bytes)) := by
    have hschema : (field.revise revision).reader.field.type.schema =
        types field.reader.field.type.schema := hfills.schema
    rw [hschema]
    exact follows_push _
  refine hinject.bind fun inject _ => ?_
  refine (hresolve _ _ hmeets).bind fun value _ => ?_
  refine (follows_push .injectEnd).bind fun last _ => ?_
  exact .pure [inject, value, last]

theorem follows_resolveFields {writer reader : Node} {w r : RecordNode} {matching : Matching}
    (hmeets : meets (writer, reader))
    (hreading : context.reading? writer reader = some (.records w r))
    (hmatching : Matching.ofFields context.config w.fields r.fields = .ok matching) :
    Follows types (Symbol.mapType types) (resolveFields context resolve w matching)
      (resolveFields image resolve' (w.revise revision) (matching.revise revision)) := by
  have hlinked : (w.revise revision).fields.zip (matching.revise revision).links =
      (w.fields.zip matching.links).map
        (Prod.map (Field.revise revision) (Option.map (ReaderField.revise revision))) :=
    List.zip_map
  have hwritten : ∀ linked ∈ w.fields.zip matching.links,
      meets (linked.1.type, (linked.2.elim linked.1 fun reader => reader.field).type) := by
    rintro ⟨field, _ | link⟩ hmem
    · exact hcontext.descends hmeets (.skipped hreading hmatching hmem)
    · exact hcontext.descends hmeets (.linked hreading hmatching hmem)
  have hfills : ∀ field ∈ matching.defaulted,
      context.FillsAlike types revision image field.reader.field := by
    intro field hfield
    refine hcontext.fills hmeets hreading field.reader ?_
    rw [← (Matching.of_ofFields hmatching).2.1]
    exact List.mem_map_of_mem hfield
  rw [resolveFields, resolveFields, hlinked]
  refine (Follows.mapM fun linked hmem =>
    follows_resolveWritten hresolve (hwritten linked hmem)).bind fun written _ => ?_
  refine (Follows.mapM fun field hmem =>
    follows_resolveDefaulted hresolve (hfills field hmem)
      (hcontext.descends hmeets (.filled hreading hmatching hmem))).bind fun defaulted _ => ?_
  have harrivals : ((matching.revise revision).defaulted.map fun field =>
      (⟨field.reader.field.name, field.reader.index⟩ : Arrival)) =
        matching.defaulted.map fun field => ⟨field.reader.field.name, field.reader.index⟩ := by
    rw [Matching.revise, List.map_map]
    rfl
  rw [List.map_id, List.map_id, harrivals]
  refine (follows_push (.reorder _)).bind fun order _ => ?_
  exact .pure (Symbol.sequence _)

theorem follows_resolveRecords {writer reader : Node} {w r : RecordNode}
    (hmeets : meets (writer, reader))
    (hreading : context.reading? writer reader = some (.records w r)) :
    Follows types id (resolveRecords context resolve w r)
      (resolveRecords image resolve' (w.revise revision) (r.revise revision)) := by
  have hmatches := Matching.ofFields_revise context.config fun field hfield =>
    (hcontext.fills hmeets hreading field hfield).default?
  rw [resolveRecords_eq, resolveRecords_eq, hcontext.key]
  refine follows_onFirstSight _ ?_
  simp only [RecordNode.revise, hcontext.config, hmatches]
  cases hmatching : Matching.ofFields context.config w.fields r.fields with
  | error field =>
    refine (follows_push (.mismatch (.missingField _ _ field))).bind fun id _ => ?_
    exact (follows_memoise _ id).bind fun _ _ => .pure id
  | ok matching =>
    exact follows_reserveFor _ (follows_resolveFields hcontext hresolve hmeets hreading hmatching)

/-! ## Unions -/

/-- The branches of the writer's type are the same, and records are compared alike. -/
theorem follows_branchOfType {node : Node} {writer : Shape}
    (hwriter : context.shape? node = some writer) {candidates : List (Node × Nat)}
    (hmeets : context.AllConsidered writer candidates fun candidate => meets (node, candidate.1))
    (structural : Option (Node × Nat)) :
    Follows types (Option.map revision.branch)
      (branchOfType context resolve writer candidates structural)
      (branchOfType image resolve' (writer.revise revision)
        (candidates.map revision.branch) (structural.map revision.branch)) := by
  induction candidates generalizing structural with
  | nil => exact .pure structural
  | cons candidate rest ih =>
    rw [List.map_cons, branchOfType_cons, branchOfType_cons]
    refine (follows_look hcontext.toRevises candidate.1).bind fun shape hshape => ?_
    have hshape := returns_look hshape
    rw [Shape.isOfType_revise]
    split
    · exact .pure (some candidate)
    · rename_i htype
      have hnot : context.isOfType writer candidate = false := by
        rw [Context.isOfType, hshape]
        exact Bool.eq_false_iff.2 htype
      have ih := ih (hmeets.tail hnot)
      cases writer with
      | named wd =>
        cases shape with
        | named rd =>
          cases wd with
          | record w =>
            cases rd with
            | record r =>
              have hconsiders : context.Considers (.named (.record w)) candidate :=
                .inr (.inl ⟨w, r, rfl, Context.recordAt?_eq_some.2 hshape⟩)
              have hreading : context.reading? node candidate.1 = some (.records w r) :=
                Context.reading?_eq_some.2 ⟨_, _, hwriter, hshape, rfl⟩
              refine (follows_resolveRecords hcontext hresolve (hmeets.head hconsiders)
                hreading).bind fun id _ => ?_
              refine (follows_hasMatchError id).bind fun failed _ => ?_
              have hrest := ih (if !failed && (structural.isNone || w.heading.name = r.heading.name)
                then some candidate else structural)
              have hkept : (if !failed && (structural.isNone || w.heading.name = r.heading.name)
                  then some candidate else structural).map revision.branch =
                  if !failed && ((structural.map revision.branch).isNone ||
                    w.heading.name = r.heading.name)
                  then some (revision.branch candidate)
                  else structural.map revision.branch := by
                rw [Option.isNone_map]
                split <;> rfl
              rw [hkept] at hrest
              exact hrest
            | _ => exact ih structural
          | _ => cases rd <;> exact ih structural
        | _ => cases wd <;> exact ih structural
      | _ => cases shape <;> exact ih structural

omit hresolve in
theorem follows_branchByPromotion (writer : Shape) (candidates : List (Node × Nat)) :
    Follows types (Option.map revision.branch)
      (branchByPromotion context writer candidates)
      (branchByPromotion image (writer.revise revision)
        (candidates.map revision.branch)) := by
  induction candidates with
  | nil => exact .pure none
  | cons candidate rest ih =>
    rcases candidate with ⟨branch, index⟩
    refine (follows_look hcontext.toRevises branch).bind fun shape _ => ?_
    simp only [Shape.kind_revise]
    split
    · split
      · exact .pure (some (branch, index))
      · exact ih
    · exact ih

theorem follows_chooseBranch {node : Node} {writer : Shape}
    (hwriter : context.shape? node = some writer) {branches : List Node}
    (hmeets : context.AllConsidered writer branches.zipIdx fun candidate =>
      meets (node, candidate.1)) :
    Follows types (Option.map revision.branch)
      (chooseBranch context resolve writer branches)
      (chooseBranch image resolve' (writer.revise revision) (branches.map revision.node)) := by
  rw [chooseBranch, chooseBranch, Revision.zipIdx_branches]
  refine (follows_branchOfType hcontext hresolve hwriter hmeets none).bind fun chosen? _ => ?_
  cases chosen? with
  | some chosen => exact .pure (some chosen)
  | none => exact follows_branchByPromotion hcontext writer branches.zipIdx

theorem follows_resolveWriterUnion {branches : List Node} {reader : Node}
    (hmeets : ∀ branch ∈ branches, meets (branch, reader)) :
    Follows types id (resolveWriterUnion resolve branches reader)
      (resolveWriterUnion resolve' (branches.map revision.node) (revision.node reader)) := by
  refine (Follows.mapM (f := id) fun branch hbranch => ?_).bind fun alternatives _ => ?_
  · refine (hresolve branch reader (hmeets branch hbranch)).bind fun symbol _ => ?_
    rw [hcontext.typeName]
    exact .pure (⟨branch.schema.typeName, symbol⟩ : Branch)
  · rw [List.map_id]
    refine (follows_push (.alternative alternatives)).bind fun alternative _ => ?_
    exact follows_push (.select alternative)

theorem follows_resolveReaderUnion {writer : Node} {w : Shape} (r : Shape)
    (hw : context.shape? writer = some w) {branches : List Node}
    (hmeets : context.AllConsidered w branches.zipIdx fun candidate =>
      meets (writer, candidate.1)) :
    Follows types id (resolveReaderUnion context resolve writer w r branches)
      (resolveReaderUnion image resolve' (revision.node writer) (w.revise revision)
        (r.revise revision) (branches.map revision.node)) := by
  refine (follows_chooseBranch hcontext hresolve hw hmeets).bind fun chosen? hchosen => ?_
  cases chosen? with
  | none => exact follows_mismatch _ w r
  | some chosen =>
    refine (hresolve writer chosen.1 (returns_chooseBranch hmeets hchosen)).bind
      fun symbol _ => ?_
    exact follows_push (.adjust chosen.2 symbol)

/-! ## Pairs of nodes -/

/-- Every rule compiles to the same. -/
theorem follows_ofReading {writer reader : Node} (hmeets : meets (writer, reader)) {w r : Shape}
    (hw : context.shape? writer = some w) (hr : context.shape? reader = some r) :
    Follows types id (ofReading context resolve writer reader w r (w.reading r))
      (ofReading image resolve' (revision.node writer) (revision.node reader)
        (w.revise revision) (r.revise revision) ((w.reading r).revise revision)) := by
  have hreading : context.reading? writer reader = some (w.reading r) :=
    Context.reading?_eq_some.2 ⟨w, r, hw, hr, rfl⟩
  cases hrule : w.reading r with
  | atom type => exact follows_terminal _
  | promotion promotion =>
    refine (follows_terminal _).bind fun symbol _ => ?_
    exact follows_push (.promote symbol promotion)
  | enum ws rs default? =>
    rw [Reading.revise, ofReading, ofReading, hcontext.config]
    exact follows_enumeration _
  | array wi ri =>
    rw [hrule] at hreading
    refine (hresolve wi ri (hcontext.descends hmeets (.items hreading))).bind fun item _ => ?_
    exact follows_blocks .array [item]
  | map wv rv =>
    rw [hrule] at hreading
    refine (follows_terminal _).bind fun key _ => ?_
    refine (hresolve wv rv (hcontext.descends hmeets (.values hreading))).bind fun value _ => ?_
    exact follows_blocks .map [key, value]
  | records wr rr =>
    rw [hrule] at hreading
    exact follows_resolveRecords hcontext hresolve hmeets hreading
  | writerUnion branches =>
    rw [hrule] at hreading
    exact follows_resolveWriterUnion hcontext hresolve fun branch hbranch =>
      hcontext.descends hmeets (.alternatives hreading hbranch)
  | readerUnion branches =>
    rw [hrule] at hreading
    refine follows_resolveReaderUnion hcontext hresolve r hw ?_
    intro before candidate after hsplit hbefore hconsiders
    exact hcontext.descends hmeets (.branches hreading hw hsplit hbefore hconsiders)
  | mismatch cause => exact follows_push (.mismatch cause)

omit hresolve

/-- Revised nodes compile to the same, at any greater depth.  The induction is on the lesser
depth. -/
theorem follows_resolving {depth greater : Nat} (h : depth ≤ greater) (writer reader : Node)
    (hmeets : meets (writer, reader)) :
    Follows types id (resolving context depth writer reader)
      (resolving image greater (revision.node writer) (revision.node reader)) := by
  induction depth generalizing greater writer reader with
  | zero => exact .tooDeep _
  | succ depth ih =>
    obtain ⟨greater, rfl⟩ := Nat.exists_eq_add_of_lt h
    rw [resolving, resolving, resolvingStep_eq, resolvingStep_eq]
    refine (follows_look hcontext.toRevises writer).bind fun w hw => ?_
    refine (follows_look hcontext.toRevises reader).bind fun r hr => ?_
    rw [Shape.reading_revise]
    exact follows_ofReading hcontext (fun _ _ => ih (by omega) _ _) hmeets
      (returns_look hw) (returns_look hr)

end

/-! ## A schema's own grammar -/

section

variable {types : Schema → Schema} {revision : Revision} {context image : Context}
  (hcontext : context.Revises revision image) {validate validate' : Node → Compile SymbolId}
  (hvalidate : ∀ node, Follows types id (validate node) (validate' (revision.node node)))
include hcontext hvalidate

omit hcontext in
theorem follows_validateRecord (record : RecordNode) :
    Follows types id (validateRecord validate record)
      (validateRecord validate' (record.revise revision)) := by
  have harrivals : Builder.ownArrivals (record.fields.map (Field.revise revision)) =
      Builder.ownArrivals record.fields := by
    rw [Builder.ownArrivals, List.zipIdx_map, List.map_map]
    rfl
  rw [validateRecord_eq, validateRecord_eq]
  refine follows_onFirstSight _ (follows_reserveFor _ ?_)
  refine (Follows.mapM (f := id) fun field _ => hvalidate field.type).bind fun fields _ => ?_
  simp only [RecordNode.revise, harrivals, List.map_id]
  refine (follows_push (.reorder _)).bind fun order _ => ?_
  exact .pure (Symbol.sequence (fields ++ [order]))

theorem follows_validateUnion (branches : List Node) :
    Follows types id (validateUnion validate branches)
      (validateUnion validate' (branches.map revision.node)) := by
  refine (Follows.mapM (f := id) fun branch _ => ?_).bind fun alternatives _ => ?_
  · refine (hvalidate branch).bind fun symbol _ => ?_
    rw [hcontext.typeName]
    exact .pure (⟨branch.schema.typeName, symbol⟩ : Branch)
  · rw [List.map_id]
    refine (follows_terminal _).bind fun index _ => ?_
    refine (follows_push (.alternative alternatives)).bind fun alternative _ => ?_
    exact follows_push (.sequence [index, alternative])

theorem follows_validatingStep (node : Node) :
    Follows types id (validatingStep context validate node)
      (validatingStep image validate' (revision.node node)) := by
  refine (follows_look hcontext node).bind fun shape _ => ?_
  cases shape with
  | primitive type => exact follows_terminal _
  | named definition =>
    cases definition with
    | fixed heading size => exact follows_terminal _
    | enum heading symbols default? => exact follows_enumeration _
    | record record => exact follows_validateRecord hvalidate record
  | array items =>
    refine (hvalidate items).bind fun item _ => ?_
    exact follows_blocks .array [item]
  | map values =>
    refine (follows_terminal _).bind fun key _ => ?_
    refine (hvalidate values).bind fun value _ => ?_
    exact follows_blocks .map [key, value]
  | union branches => exact follows_validateUnion hcontext hvalidate branches

omit hvalidate in
variable (types) in
theorem follows_validating {depth greater : Nat} (h : depth ≤ greater) (node : Node) :
    Follows types id (validating context depth node)
      (validating image greater (revision.node node)) := by
  induction depth generalizing greater node with
  | zero => exact .tooDeep _
  | succ depth ih =>
    obtain ⟨greater, rfl⟩ := Nat.exists_eq_add_of_lt h
    exact follows_validatingStep hcontext (ih (by omega)) node

end

end Compile

/-! ## Programs -/

namespace SchemaPair

/-- The pair with each of its schemas changed. -/
def mapSchema (f : Schema → Schema) : SchemaPair → SchemaPair
  | .twoTrees writer reader => .twoTrees (f writer) (f reader)
  | .oneTree schema => .oneTree (f schema)

theorem mapSchema_id (pair : SchemaPair) : pair.mapSchema id = pair := by
  cases pair <;> rfl

variable {f : Schema → Schema} (hf : Schema.Revises f id)
include hf

/-- What the changed trees compile to is what a pair of trees compiles to, changed, at any
greater depth. -/
theorem build_mapSchema (pair : SchemaPair) (config : Config) (depth : Nat)
    (h : resolvingDepth pair.writerRoot pair.readerRoot ≤ depth) :
    Compile.resolving ((pair.mapSchema f).context config) depth (pair.mapSchema f).writerRoot
        (pair.mapSchema f).readerRoot Builder.empty =
      (pair.build config).map fun result => (result.1, result.2.mapTypes f) := by
  have hcontext := Context.revisesSafely_ofRoots hf config pair.writerRoot pair.readerRoot
  have hfollows := Compile.follows_resolving hcontext h pair.writerRoot pair.readerRoot trivial
    Builder.empty
  rcases hfollows with hdeep | hsame
  · have hdeep : pair.build config = .error (.internal .tooDeep) := hdeep
    cases fault_of_build hdeep
  · rw [Builder.mapTypes_empty] at hsame
    cases pair <;> exact hsame

omit hf in
theorem program_map (pair : SchemaPair) (config : Config) :
    (pair.program config).map (Program.mapTypes f) =
      (((pair.build config).map fun result => (result.1, result.2.mapTypes f)) >>=
        fun result => result.2.finish result.1) := by
  rw [program_eq]
  cases pair.build config with
  | error fault => rfl
  | ok result => exact (result.2.finish_mapTypes f result.1).symm

/-- Two pairs that become one have one program, up to the types of its defaults. -/
theorem program_congr {pair other : SchemaPair} (h : pair.mapSchema f = other.mapSchema f)
    (config : Config) : (pair.program config).map (Program.mapTypes f) =
      (other.program config).map (Program.mapTypes f) := by
  let depth := resolvingDepth pair.writerRoot pair.readerRoot +
    resolvingDepth other.writerRoot other.readerRoot
  have hbuild := build_mapSchema hf pair config depth (Nat.le_add_right ..)
  have hbuild' := build_mapSchema hf other config depth (Nat.le_add_left ..)
  rw [h, hbuild'] at hbuild
  rw [program_map, program_map, hbuild]

/-- The changed pair has the program of the pair, with the types of its defaults changed. -/
theorem program_mapSchema (pair : SchemaPair) (config : Config) :
    (pair.mapSchema f).program config = (pair.program config).map (Program.mapTypes f) := by
  let depth := resolvingDepth pair.writerRoot pair.readerRoot +
    resolvingDepth (pair.mapSchema f).writerRoot (pair.mapSchema f).readerRoot
  have hbuild := build_mapSchema hf pair config depth (Nat.le_add_right ..)
  have hself := build_mapSchema Schema.revises_id (pair.mapSchema f) config depth
    (Nat.le_add_left ..)
  rw [mapSchema_id, hbuild] at hself
  have hprogram := program_map (f := id) (pair.mapSchema f) config
  rw [← hself, ← program_map] at hprogram
  rw [← hprogram]
  cases (pair.mapSchema f).program config with
  | error fault => rfl
  | ok program => exact congrArg Except.ok program.mapTypes_id.symm

end SchemaPair

namespace Schema

variable {f : Schema → Schema} (hf : Revises f id)
include hf

/-- What a changed tree compiles to by its own grammar is what the tree compiles to, at any
greater depth. -/
theorem build_mapSchema (schema : Schema) (depth : Nat)
    (h : validatingDepth (.root .writer schema) ≤ depth) :
    Compile.validating (f schema).ownContext depth (.root .writer (f schema)) Builder.empty =
      schema.build := by
  have hcontext := Context.revises_ofRoots hf {} (.root .writer schema) (.root .writer schema)
  have hfollows := Compile.follows_validating id hcontext h (.root .writer schema) Builder.empty
  rcases hfollows with hdeep | hsame
  · have hdeep : schema.build = .error (.internal .tooDeep) := hdeep
    have hprogram : Program.validating schema = .error (.internal .tooDeep) := by
      rw [validating_eq, hdeep]
      rfl
    obtain ⟨_, hname, _⟩ := dangling_of_validating hprogram
    cases hname
  · rw [Builder.mapTypes_id] at hsame
    refine Eq.trans hsame ?_
    show schema.build.map _ = _
    cases schema.build with
    | error fault => rfl
    | ok result =>
      exact congrArg (fun builder => Except.ok (result.1, builder)) result.2.mapTypes_id

/-- The changed schema has the same grammar of its own. -/
theorem validating_mapSchema (schema : Schema) :
    Program.validating (f schema) = Program.validating schema := by
  let depth := validatingDepth (.root .writer schema) + validatingDepth (.root .writer (f schema))
  have hbuild := build_mapSchema hf schema depth (Nat.le_add_right ..)
  have hself := build_mapSchema revises_id (f schema) depth (Nat.le_add_left ..)
  have hsame : (f schema).build = schema.build := hself.symm.trans hbuild
  rw [validating_eq, validating_eq, hsame]

end Schema

end AvroResolution
