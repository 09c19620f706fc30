import AvroResolution.Proofs.Compilation.Journaling
import AvroResolution.Proofs.Resolution.Totality

/-!
# A pair of records has one symbol

Compilation goes through a record before it fills the record's symbol.  It may meet the record
again meanwhile, and it goes through a pair of records when it only asks whether they fit.  The
journal of the compilation shows that nothing is compiled twice or written over by that.

* `Compile.Journal`: the builder that a compilation gives, with all that was done to it.
* `SchemaPair.OneSymbol`: the key of two records is bound to what is built for the two, and all
  places where the two meet have that symbol.  `SharedTree.OneSymbol` says so of two parts of one
  tree, `Schema.OneSymbol` of the records of a schema by itself.
* `Program.oneSymbol_of_compiled` is the result, for every program that compilation gives.
-/

namespace AvroResolution

open Builder (Event)

/-! ## Journals of programs -/

/-- The compilation gives the builder, which is finished to the program.  The builder has logged
all that was done to it, and nothing else was. -/
structure Compile.Journal (x : Compile SymbolId) (program : Program) (builder : Builder) :
    Prop where
  run : x Builder.empty = .ok (program.root, builder)
  finish : builder.finish program.root = .ok program
  lawful : Builder.empty.Lawful builder.journal
  replay : Builder.empty.replay builder.journal = builder
  symbol : ∀ id, program.symbol? id = builder.symbol? id
  recorded : program.Recorded builder.journal

namespace Compile

variable {x : Compile SymbolId} {program : Program} {builder : Builder}

/-- What is remembered in the end is what the journal binds. -/
theorem Journal.lookup_iff (h : x.Journal program builder) {key : MemoKey} {id : SymbolId} :
    builder.memo.lookup key = some id ↔ .bound key id ∈ builder.journal := by
  have hiff : (Builder.empty.replay builder.journal).memo.lookup key = some id ↔
      .bound key id ∈ builder.journal := h.lawful.lookup_iff
  rwa [h.replay] at hiff

/-- All that is met or remembered under a key is the symbol that the key is bound to. -/
theorem Journal.exists_bound (h : x.Journal program builder) (key : MemoKey) :
    ∃ id, (∀ other, .met key other ∈ builder.journal →
        other = id ∧ .bound key id ∈ builder.journal) ∧
      ∀ other, builder.memo.lookup key = some other →
        other = id ∧ .bound key id ∈ builder.journal := by
  have hone {id other : SymbolId} (hbound : .bound key id ∈ builder.journal)
      (hother : .bound key other ∈ builder.journal) : other = id := by
    have hlookup := h.lookup_iff.2 hbound
    rw [h.lookup_iff.2 hother] at hlookup
    exact Option.some.inj hlookup
  by_cases hkey : ∃ id, .bound key id ∈ builder.journal
  · obtain ⟨id, hbound⟩ := hkey
    exact ⟨id, fun other hmet => ⟨hone hbound (h.recorded.met key other hmet), hbound⟩,
      fun other hlookup => ⟨hone hbound (h.lookup_iff.1 hlookup), hbound⟩⟩
  · exact ⟨0, fun other hmet => absurd ⟨other, h.recorded.met key other hmet⟩ hkey,
      fun other hlookup => absurd ⟨other, h.lookup_iff.1 hlookup⟩ hkey⟩

/-- The program of a compilation that keeps a journal has one. -/
theorem Keeps.exists_journal {built : Builder → MemoKey → SymbolId → Prop}
    (hkeeps : Keeps built Builder.empty x)
    (hprogram : (do
      let (id, builder) ← x Builder.empty
      builder.finish id) = .ok program) :
    ∃ builder, x.Journal program builder ∧
      ∀ key id, .bound key id ∈ builder.journal → built builder key id := by
  cases hx : x Builder.empty with
  | error fault =>
    rw [hx] at hprogram
    cases hprogram
  | ok result =>
    rcases result with ⟨id, builder⟩
    rw [hx] at hprogram
    have hfinish : builder.finish id = .ok program := hprogram
    obtain ⟨rfl, hsymbol, _⟩ := Builder.of_finish hfinish
    obtain ⟨hextends, events, hlawful, hreplay, hbuilt⟩ := hkeeps program.root builder hx
    -- The log of the empty builder is empty, so it holds these events alone.
    have hevents : builder.journal = events := by
      rw [← hreplay]
      exact hlawful.journal
    subst hevents
    refine ⟨builder, ⟨hx, hfinish, hlawful, hreplay, hsymbol, hlawful.recorded hreplay hfinish⟩, ?_⟩
    intro key id hbound
    exact hbuilt key id hbound builder (Builder.Extends.refl builder).toGrows

end Compile

/-- A history remembers only records that the trees define.  The induction is on the history; a
record is remembered before its own steps. -/
theorem Builder.Trace.names {context : Context} {builder after : Builder}
    (h : Trace context builder after) {key : MemoKey} {id : SymbolId}
    (hid : after.memo.lookup key = some id) :
    builder.memo.lookup key = some id ∨ Names context key := by
  induction h with
  | refl => exact .inl hid
  | push _ _ _ ih => exact ih hid
  | met _ _ ih => exact ih hid
  | @missing builder middle remembered cause _ hkey hfresh ih =>
    rcases (lookup_remember_eq_some hfresh).1 hid with hid | ⟨rfl, _⟩
    · exact ih hid
    · exact .inr hkey
  | @record builder middle last remembered _ _ _ _ hkey hfresh _ _ _ _ ih ihinside =>
    rcases ihinside hid with hopened | hnames
    · rcases (lookup_remember_eq_some hfresh).1 hopened with hid | ⟨rfl, _⟩
      · exact ih hid
      · exact .inr hkey
    · exact .inr hnames

/-! ## Two schemas -/

namespace SchemaPair

/-- What is bound for two records is what is built for them, and it is the symbol wherever the two
meet: whenever they are compiled, and wherever the arena reads the one as the other. -/
structure OneSymbol (pair : SchemaPair) (config : Config) (builder : Builder) : Prop where
  built : ∀ key id, .bound key id ∈ builder.journal → ∃ w r,
    (pair.context config).Defines w ∧ (pair.context config).Defines r ∧
      key = .resolving w.id r.id ∧ builder.ReadsRecord (pair.context config) w r id
  same : ∀ w r, ∃ id,
    (∀ other, .met (.resolving w.id r.id) other ∈ builder.journal →
      other = id ∧ .bound (.resolving w.id r.id) id ∈ builder.journal) ∧
      ∀ writer reader other, builder.Reads (pair.context config) writer reader other →
        (pair.context config).reading? writer reader = some (.records w r) →
          other = id ∧ .bound (.resolving w.id r.id) id ∈ builder.journal

variable {pair : SchemaPair} {config : Config} {program : Program}

theorem exists_journal (h : pair.program config = .ok program) :
    ∃ builder,
      (Compile.resolving (pair.context config) (resolvingDepth pair.writerRoot pair.readerRoot)
        pair.writerRoot pair.readerRoot).Journal program builder ∧
      builder.Reads (pair.context config) pair.writerRoot pair.readerRoot program.root ∧
      pair.OneSymbol config builder := by
  obtain ⟨found, hfound, hbuilt, hreads⟩ := built h
  rw [program_eq] at h
  have hkeeps := Compile.keeps_resolving (pair.context config)
    (resolvingDepth pair.writerRoot pair.readerRoot) _ _ Builder.empty
    (pair.holds_writerRoot config) (pair.holds_readerRoot config)
  obtain ⟨builder, hjournal, _⟩ := hkeeps.exists_journal h
  obtain rfl : found = builder := by
    have hsame := hfound.symm.trans hjournal.run
    cases hsame
    rfl
  refine ⟨found, hjournal, hreads, ?_, ?_⟩
  · intro key id hbound
    exact hbuilt.sound.compiled_of_finish hjournal.finish (hjournal.lookup_iff.2 hbound)
  · intro w r
    obtain ⟨id, hmet, hlookup⟩ := hjournal.exists_bound (.resolving w.id r.id)
    refine ⟨id, hmet, ?_⟩
    intro writer reader other hplace hreading
    exact hlookup other (hplace.of_reading hreading).2.2

end SchemaPair

/-! ## Two parts of one tree -/

namespace SharedTree

/-- What the compilation of two parts of a tree knows. -/
def context (tree : SharedTree) (config : Config) : Context :=
  .ofParts config tree.writerRoot tree.readerRoot

theorem holds_writerRoot (tree : SharedTree) (config : Config) :
    (tree.context config).Holds tree.writerRoot := by
  have hside : tree.writerRoot.side = .writer :=
    Node.side_of_mem_preorder _ _ (List.getElem_mem _)
  rw [Context.Holds, hside]
  exact Registry.holds_root tree.writerRoot

theorem holds_readerRoot (tree : SharedTree) (config : Config) :
    (tree.context config).Holds tree.readerRoot := by
  have hside : tree.readerRoot.side = .reader :=
    Node.side_of_mem_preorder _ _ (List.getElem_mem _)
  rw [Context.Holds, hside]
  exact Registry.holds_root tree.readerRoot

/-- What is bound for two records is what is built for two records of that key, and it is the
symbol whenever two records of that key are met. -/
structure OneSymbol (tree : SharedTree) (config : Config) (builder : Builder) : Prop where
  built : ∀ key id, .bound key id ∈ builder.journal →
    builder.HoldsKey (tree.context config) key id
  same : ∀ w r, ∃ id, ∀ other, .met ((tree.context config).key w r) other ∈ builder.journal →
    other = id ∧ .bound ((tree.context config).key w r) id ∈ builder.journal

variable {tree : SharedTree} {config : Config} {program : Program}

theorem exists_journal (h : tree.program config = .ok program) :
    ∃ builder,
      (Compile.resolving (tree.context config) (resolvingDepth tree.writerRoot tree.readerRoot)
        tree.writerRoot tree.readerRoot).Journal program builder ∧
      tree.OneSymbol config builder := by
  have hkeeps := Compile.keeps_resolving (tree.context config)
    (resolvingDepth tree.writerRoot tree.readerRoot) _ _ Builder.empty
    (tree.holds_writerRoot config) (tree.holds_readerRoot config)
  obtain ⟨builder, hjournal, hbuilt⟩ := hkeeps.exists_journal h
  refine ⟨builder, hjournal, hbuilt, fun w r => ?_⟩
  obtain ⟨id, hmet, _⟩ := hjournal.exists_bound ((tree.context config).key w r)
  exact ⟨id, hmet⟩

end SharedTree

/-! ## A schema by itself -/

namespace Schema

/-- What is bound for a record is what is built for it, and it is the symbol wherever the record
stands: whenever it is compiled, and wherever the arena reads it. -/
structure OneSymbol (schema : Schema) (builder : Builder) : Prop where
  built : ∀ key id, .bound key id ∈ builder.journal → ∃ record,
    schema.ownContext.Defines record ∧ key = .validating record.id ∧
      builder.ValidatesRecord schema.ownContext record id
  same : ∀ record, ∃ id,
    (∀ other, .met (.validating record.id) other ∈ builder.journal →
      other = id ∧ .bound (.validating record.id) id ∈ builder.journal) ∧
      ∀ node other, builder.Validates schema.ownContext node other →
        schema.ownContext.shape? node = some (.named (.record record)) →
          other = id ∧ .bound (.validating record.id) id ∈ builder.journal

variable {schema : Schema} {program : Program}

theorem lookup_of_validates {context : Context} {builder : Builder} {node : Node} {id : SymbolId}
    {record : RecordNode} (h : builder.Validates context node id)
    (hshape : context.shape? node = some (.named (.record record))) :
    builder.memo.lookup (.validating record.id) = some id := by
  cases h with
  | record h hrecord hid =>
    cases hshape.symm.trans h
    exact hid
  | _ h => cases hshape.symm.trans h

theorem exists_journal (h : Program.validating schema = .ok program) :
    ∃ builder,
      (Compile.validating schema.ownContext (validatingDepth (.root .writer schema))
        (.root .writer schema)).Journal program builder ∧
      builder.Validates schema.ownContext (.root .writer schema) program.root ∧
      schema.OneSymbol builder := by
  rw [validating_eq] at h
  have hkeeps : Compile.Keeps (fun _ key _ => ∃ record, key = .validating record) Builder.empty
      (Compile.validating schema.ownContext (validatingDepth (.root .writer schema))
        (.root .writer schema)) :=
    Compile.keeps_validating (fun _ record _ => ⟨record, rfl⟩) _ _ _ _
  obtain ⟨builder, hjournal, hkeys⟩ := hkeeps.exists_journal h
  have hproceeds := proceeds_build schema.region_forest (Node.root_mem_forest (.head _))
  obtain ⟨htidy, htrace, hvalidates⟩ :=
    hproceeds.of_ok (Builder.tidy_empty _ _) hjournal.run
  refine ⟨builder, hjournal, hvalidates, ?_, ?_⟩
  · intro key id hbound
    have hlookup := hjournal.lookup_iff.2 hbound
    obtain ⟨_, rfl⟩ := hkeys key id hbound
    obtain ⟨record, hrecord, rfl⟩ := (htrace.names hlookup).resolve_left nofun
    exact ⟨record, hrecord, rfl,
      htidy.sound.compiled_of_finish hjournal.finish hlookup record hrecord rfl⟩
  · intro record
    obtain ⟨id, hmet, hlookup⟩ := hjournal.exists_bound (.validating record.id)
    refine ⟨id, hmet, ?_⟩
    intro node other hplace hshape
    exact hlookup other (lookup_of_validates hplace hshape)

end Schema

/-- Every program that compilation gives, for two schemas, for two parts of one tree or for a
schema by itself, has a journal, which is all that was done to its builder.  In it a key is bound
once at most, a slot that is reserved is filled once, and no slot is written twice.  The symbol of
a key is a mismatch for want of a field or the sequence that is built for the records of the key,
and the records have this symbol wherever they meet. -/
theorem Program.oneSymbol_of_compiled :
    (∀ (pair : SchemaPair) (config : Config) (program : Program),
      pair.program config = .ok program → ∃ builder,
        (Compile.resolving (pair.context config) (resolvingDepth pair.writerRoot pair.readerRoot)
          pair.writerRoot pair.readerRoot).Journal program builder ∧
        builder.Reads (pair.context config) pair.writerRoot pair.readerRoot program.root ∧
        pair.OneSymbol config builder) ∧
    (∀ (tree : SharedTree) (config : Config) (program : Program),
      tree.program config = .ok program → ∃ builder,
        (Compile.resolving (tree.context config) (resolvingDepth tree.writerRoot tree.readerRoot)
          tree.writerRoot tree.readerRoot).Journal program builder ∧
        tree.OneSymbol config builder) ∧
    ∀ (schema : Schema) (program : Program), Program.validating schema = .ok program →
      ∃ builder,
        (Compile.validating schema.ownContext (validatingDepth (.root .writer schema))
          (.root .writer schema)).Journal program builder ∧
        builder.Validates schema.ownContext (.root .writer schema) program.root ∧
        schema.OneSymbol builder := by
  refine ⟨?_, ?_, ?_⟩
  · intro pair config program hprogram
    exact SchemaPair.exists_journal hprogram
  · intro tree config program hprogram
    exact SharedTree.exists_journal hprogram
  · intro schema program hprogram
    exact Schema.exists_journal hprogram

/-- A list of links, whose link is both the writer's schema and the reader's. -/
def SharedTree.linked : SharedTree :=
  ⟨.array (SchemaPair.link []), ⟨1, by decide +kernel⟩, ⟨1, by decide +kernel⟩⟩

/-- A link and the next one have the symbol that the program starts from. -/
theorem Program.oneSymbol_of_compiled_links :
    (∃ program, ∃ builder : Builder, SchemaPair.links.program {} = .ok program ∧
      program.Recorded builder.journal ∧
      .bound (.resolving ⟨.writer, 0⟩ ⟨.reader, 0⟩) program.root ∈ builder.journal) ∧
    (∃ program, ∃ builder : Builder, SharedTree.linked.program {} = .ok program ∧
      program.Recorded builder.journal ∧
      .bound (.resolving ⟨.writer, 0⟩ ⟨.writer, 0⟩) program.root ∈ builder.journal) ∧
    ∃ program, ∃ builder : Builder, Program.validating (SchemaPair.link []) = .ok program ∧
      program.Recorded builder.journal ∧
      .bound (.validating ⟨.writer, 0⟩) program.root ∈ builder.journal := by
  refine ⟨?_, ?_, ?_⟩
  · obtain ⟨program, hprogram, _⟩ := Reader.exists_ok (SchemaPair.links.program {})
      (fun _ => true) (by decide +kernel)
    obtain ⟨builder, hjournal, hroot, honce⟩ := oneSymbol_of_compiled.1 _ {} program hprogram
    obtain ⟨w, r, hreading, hw, hr⟩ : ∃ w r, (SchemaPair.links.context {}).reading?
        SchemaPair.links.writerRoot SchemaPair.links.readerRoot = some (.records w r) ∧
        w.id = ⟨.writer, 0⟩ ∧ r.id = ⟨.reader, 0⟩ := ⟨_, _, rfl, rfl, rfl⟩
    obtain ⟨id, _, hsame⟩ := honce.same w r
    obtain ⟨rfl, hbound⟩ := hsame _ _ program.root hroot hreading
    rw [hw, hr] at hbound
    exact ⟨program, builder, hprogram, hjournal.recorded, hbound⟩
  · obtain ⟨program, hprogram, _⟩ := Reader.exists_ok (SharedTree.linked.program {})
      (fun _ => true) (by decide +kernel)
    obtain ⟨builder, hjournal, _⟩ := oneSymbol_of_compiled.2.1 _ {} program hprogram
    obtain ⟨result, hresult, hlookup⟩ := Reader.exists_ok
      (Compile.resolving (SharedTree.linked.context {})
        (resolvingDepth SharedTree.linked.writerRoot SharedTree.linked.readerRoot)
        SharedTree.linked.writerRoot SharedTree.linked.readerRoot Builder.empty)
      (fun result => result.2.memo.lookup (.resolving ⟨.writer, 0⟩ ⟨.writer, 0⟩) ==
        some result.1) (by decide +kernel)
    obtain rfl : (program.root, builder) = result :=
      Except.ok.inj (hjournal.run.symm.trans hresult)
    exact ⟨program, builder, hprogram, hjournal.recorded,
      hjournal.lookup_iff.1 (eq_of_beq hlookup)⟩
  · obtain ⟨program, hprogram, _⟩ := Reader.exists_ok (Program.validating (SchemaPair.link []))
      (fun _ => true) (by decide +kernel)
    obtain ⟨builder, hjournal, hroot, honce⟩ := oneSymbol_of_compiled.2.2 _ program hprogram
    obtain ⟨record, hshape, hrecord⟩ : ∃ record, (SchemaPair.link []).ownContext.shape?
        (.root .writer (SchemaPair.link [])) = some (.named (.record record)) ∧
        record.id = ⟨.writer, 0⟩ := ⟨_, rfl, rfl⟩
    obtain ⟨id, _, hsame⟩ := honce.same record
    obtain ⟨rfl, hbound⟩ := hsame _ program.root hroot hshape
    rw [hrecord] at hbound
    exact ⟨program, builder, hprogram, hjournal.recorded, hbound⟩

end AvroResolution
