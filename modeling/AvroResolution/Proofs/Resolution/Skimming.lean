import AvroResolution.Proofs.Compilation.RevisedChoice
import AvroResolution.Proofs.Resolution.Correctness

/-!
# Reading that skims over what is dropped

`Context.skimWithin` reads data of one tree as values of another as `Context.directWithin`
does, but takes data of the writer's tree that is dropped as it comes, without the rules.

* `Program.Built.simulates_skim`: a value that a compiled program gives is the value of
  skimming, because a program that reads data as its own type takes the bytes of that type.
* `Context.Revises.skimWithin`: skimming gives the same whatever becomes of the defaults of
  the writer's fields.
-/

namespace AvroResolution

/-! ## Skimming -/

namespace Context

/-- Reads a node as another one, at most `depth` nodes deep.  A node that is read as one of the
writer's tree is dropped, so its data is taken as it comes. -/
noncomputable def skimWithin (context : Context) : (depth : Nat) → Node → Node → Reader Value
  | 0, _, _ => throw .endless
  | depth + 1, writer, reader =>
    match reader.side with
    | .writer => (context.registry writer.side).plainWithin (depth + 1) writer
    | .reader => context.directStep (context.skimWithin depth) writer reader

theorem skimWithin_writer (context : Context) (depth : Nat) (writer : Node) {reader : Node}
    (hside : reader.side = .writer) :
    context.skimWithin depth writer reader =
      (context.registry writer.side).plainWithin depth writer := by
  cases depth with
  | zero => rfl
  | succ depth => rw [skimWithin, hside]

theorem skimWithin_reader (context : Context) (depth : Nat) (writer : Node) {reader : Node}
    (hside : reader.side = .reader) :
    context.skimWithin (depth + 1) writer reader =
      context.directStep (context.skimWithin depth) writer reader := by
  rw [skimWithin, hside]

/-- More depth changes no answer but that of a reader that gave up. -/
theorem skimWithin_mono (context : Context) {depth more : Nat} (hle : depth ≤ more)
    (writer reader : Node) :
    Reader.Approximates (context.skimWithin depth writer reader)
      (context.skimWithin more writer reader) := by
  induction more generalizing depth writer reader with
  | zero =>
    obtain rfl : depth = 0 := by omega
    exact .throw_left (by simp) _
  | succ more ih =>
    cases hside : reader.side with
    | writer =>
      rw [skimWithin_writer _ _ _ hside, skimWithin_writer _ _ _ hside]
      exact Registry.plainWithin_mono _ hle writer
    | reader =>
      cases depth with
      | zero => exact .throw_left (by simp) _
      | succ depth =>
        rw [skimWithin_reader _ _ _ hside, skimWithin_reader _ _ _ hside]
        exact directStep_congr (.simulates _) (fun writer reader => ih (by omega) writer reader)
          context writer reader

end Context

/-! ## Runs -/

theorem Reader.Follows.passed {x y : Reader Value} (h : Reader.Follows x y) :
    Reader.Simulates (fun _ => True) (fun _ => False) Eq x.passed y.passed :=
  (Reader.Simulates.bind h fun _ _ _ => .pure rfl).mono (fun _ h => h.elim) fun _ _ h => h

namespace Program

variable {context : Context} {program : Program} {builder : Builder} {id : SymbolId}

open Reader in
/-- A value that a run gives is the value of skimming.  The induction is on the depth of the
run. -/
theorem Built.simulates_skim (hbuilt : program.Built context builder)
    (haddressable : context.Addressable) {depth more : Nat} (hle : depth ≤ more)
    {writer reader : Node} (hreads : builder.Reads context writer reader id)
    (hwriter : context.Holds writer) (hreader : context.Holds reader)
    (hside : reader.side = .reader) :
    Simulates (fun _ => True) (fun _ => False) Eq (program.runWithin depth id)
      (context.skimWithin more writer reader) := by
  induction depth using Nat.strongRecOn generalizing more writer reader id with
  | ind depth ih =>
    rcases Nat.eq_zero_or_pos depth with rfl | hpos
    · exact .throw_left (fun h => h) _
    obtain ⟨more, rfl⟩ : ∃ less, more = less + 1 := ⟨more - 1, by omega⟩
    rw [Context.skimWithin_reader _ _ _ hside]
    refine hbuilt.resembles_direct haddressable (Congruence.simulates fun _ => False)
      (fun _ => .throw_left (fun h => h) _) ?_ ?_ ?_ hreads hwriter hreader
    · intro w r symbol hadjusts hmisfit
      exact (hbuilt.fails_of_adjusts hadjusts hmisfit depth).simulates (fun _ h => h.elim) _
    · intro less hless _ inner inner' symbol hreads hinner hinner' hinnerSide _
      exact ih less hless (by omega) hreads hinner hinner' (hinnerSide.trans hside)
    · intro less hless _ node symbol hreads hnode _ _
      cases hnodeSide : node.side with
      | writer =>
        rw [context.skimWithin_writer more node hnodeSide]
        exact (hbuilt.follows haddressable (by omega) hreads hnode hnode).passed
      | reader =>
        exact (Congruence.simulates _).passed
          (ih less hless (by omega) hreads hnode hnode hnodeSide)

end Program

/-! ## Revised trees -/

/-- The values arrive at the same places. -/
theorem Matching.arrivals_revise (revision : Revision) (matching : Matching) :
    (matching.revise revision).arrivals = matching.arrivals := by
  have hlinked : (matching.revise revision).links.readers =
      matching.links.readers.map (ReaderField.revise revision) := by
    rw [Links.readers, Links.readers, List.map_filterMap, revise, Links.revise,
      List.filterMap_map]
    exact List.filterMap_congr fun link _ => by cases link <;> rfl
  rw [arrivals, arrivals, readers, readers, hlinked, List.map_append, List.map_append,
    revise]
  simp only [List.map_map]
  rfl

namespace Context.Revises

variable {revision : Revision} {context image : Context} (h : context.Revises revision image)
  (hkeep : revision.KeepsReader)
include h hkeep

omit h hkeep in
theorem plainFields {read read' : Node → Reader Value} {fields : List (Field Node)}
    (hread : ∀ field ∈ fields, read' (revision.node field.type) = read field.type) :
    Registry.plainFields read' (fields.map (Field.revise revision)) =
      Registry.plainFields read fields := by
  induction fields with
  | nil => rfl
  | cons field rest ih =>
    have hfield : read' (field.revise revision).type = read field.type := hread field (.head _)
    rw [List.map_cons, Registry.plainFields, Registry.plainFields, hfield,
      ih fun other hother => hread other (.tail _ hother)]
    rfl

/-- A node is taken alike if the nodes below it are. -/
theorem plainStep {node : Node} {read read' : Node → Reader Value}
    (hread : ∀ shape, context.shape? node = some shape → ∀ part ∈ shape.parts,
      read' (revision.node part) = read part) :
    (image.registry node.side).plainStep read' (revision.node node) =
      (context.registry node.side).plainStep read node := by
  have hrevised := h.shape? node
  rw [Context.shape?, hkeep.side] at hrevised
  cases hshape : context.shape? node with
  | none =>
    rw [hshape] at hrevised
    rw [Registry.plainStep, Registry.plainStep, hrevised, ← Context.shape?, hshape]
    rfl
  | some shape =>
    have hread := hread shape hshape
    rw [hshape] at hrevised
    cases shape with
    | primitive type =>
      rw [Registry.plainStep_primitive hrevised, Registry.plainStep_primitive hshape]
    | array items =>
      rw [Registry.plainStep_array hrevised, Registry.plainStep_array hshape,
        hread items (.head _)]
    | map values =>
      rw [Registry.plainStep_map hrevised, Registry.plainStep_map hshape,
        hread values (.head _)]
    | union branches =>
      rw [Registry.plainStep_union hrevised, Registry.plainStep_union hshape]
      refine Reader.Congruence.eq.branchIndex (List.length_map _) fun index hindex hindex' => ?_
      have hbranch := hread _ (List.getElem_mem hindex')
      simp only [Fin.getElem_fin, List.getElem_map, hbranch]
    | named definition =>
      cases definition with
      | fixed =>
        rw [Registry.plainStep_fixed hrevised, Registry.plainStep_fixed hshape]
      | enum =>
        rw [Registry.plainStep_enum hrevised, Registry.plainStep_enum hshape]
      | record record =>
        have hfields := plainFields fun field hfield =>
          hread field.type (List.mem_map_of_mem hfield)
        rw [Registry.plainStep_record hrevised, Registry.plainStep_record hshape,
          RecordNode.revise, hfields]

/-- Data is taken alike. -/
theorem plainWithin {node : Node} (hnode : context.Holds node) (depth : Nat) :
    (image.registry node.side).plainWithin depth (revision.node node) =
      (context.registry node.side).plainWithin depth node := by
  induction depth generalizing node with
  | zero => rfl
  | succ depth ih =>
    refine h.plainStep hkeep fun shape hshape part hpart => ?_
    obtain ⟨hholds, hside⟩ := hnode.part hshape hpart
    rw [← hside]
    exact ih hholds

variable {read read' : Node → Node → Reader Value}
  (hread : ∀ writer reader, context.Holds writer → context.Holds reader →
    read' (revision.node writer) (revision.node reader) = read writer reader)
include hread

omit h hkeep in
theorem directWritten {field : Field Node} {link? : Option ReaderField}
    (hfield : context.Holds field.type)
    (hlink : ∀ link, link? = some link → context.Holds link.field.type) :
    Context.directWritten read' (field.revise revision, link?.map (ReaderField.revise revision)) =
      Context.directWritten read (field, link?) := by
  cases link? with
  | none => exact congrArg Program.FieldRead.dropped (hread _ _ hfield hfield)
  | some link => exact congrArg Program.FieldRead.kept (hread _ _ hfield (hlink link rfl))

omit h in
theorem directDefaulted (hregistry : image.registry .reader = context.registry .reader)
    {field : DefaultedField} (hfield : context.Holds field.reader.field.type)
    (hside : field.reader.field.type.side = .reader) :
    image.directDefaulted read' (field.revise revision) =
      context.directDefaulted read field := by
  have htype : (field.revise revision).reader.field.type = field.reader.field.type :=
    hkeep.node _ hside
  have hsame := hread _ _ hfield hfield
  rw [hkeep.node _ hside] at hsame
  rw [Context.directDefaulted, Context.directDefaulted, htype, hside, hregistry, hsame]
  rfl

theorem directRecords (hregistry : image.registry .reader = context.registry .reader)
    {w r : RecordNode} (hfaces : context.Faces w r) :
    image.directRecords read' (w.revise revision) (r.revise revision) =
      context.directRecords read w r := by
  rw [Context.directRecords, Context.directRecords, h.ofFields hkeep hfaces]
  cases hmatching : Matching.ofFields context.config w.fields r.fields with
  | error field => rfl
  | ok matching =>
    have hlinked : (w.revise revision).fields.zip (matching.revise revision).links =
        (w.fields.zip matching.links).map
          (Prod.map (Field.revise revision) (Option.map (ReaderField.revise revision))) :=
      List.zip_map
    have hwritten : ((w.revise revision).fields.zip (matching.revise revision).links).map
        (Context.directWritten read') =
          (w.fields.zip matching.links).map (Context.directWritten read) := by
      rw [hlinked, List.map_map]
      refine List.map_congr_left fun linked hmem => ?_
      obtain ⟨field, link?⟩ := linked
      have hfield := (hfaces.writer.field (List.of_mem_zip hmem).1).1
      refine directWritten hread hfield fun link hlink => ?_
      subst hlink
      exact hfaces.reader.of_linked hmatching hmem
    have hdefaulted : (matching.revise revision).defaulted.map (fun field =>
        Program.FieldRead.kept (image.directDefaulted read' field)) =
          matching.defaulted.map fun field => .kept (context.directDefaulted read field) := by
      rw [Matching.revise, List.map_map]
      refine List.map_congr_left fun field hmem => congrArg Program.FieldRead.kept ?_
      have hlink := List.mem_of_getElem?
        (ReaderField.mem_ofFields.1 (Matching.mem_of_defaulted hmatching hmem))
      obtain ⟨hholds, hside⟩ := hfaces.reader.field hlink
      exact directDefaulted hkeep hread hregistry hholds (hside.trans hfaces.side)
    simp only [Except.map, matching.arrivals_revise, hwritten, hdefaulted]

theorem directAs (hregistry : image.registry .reader = context.registry .reader)
    {writer reader : Node} {shape : Shape} {reading : Reading} (hwriter : context.Holds writer)
    (hreader : context.Holds reader) (hside : reader.side = .reader)
    (hshape : context.shape? writer = some shape)
    (hreading : context.reading? writer reader = some reading) :
    image.directAs read' (revision.node writer) (revision.node reader) (shape.revise revision)
        (reading.revise revision) =
      context.directAs read writer reader shape reading := by
  have hholds := holds_of_reading hwriter hreader hreading
  cases reading with
  | atom | promotion | mismatch => rfl
  | enum ws rs default? =>
    simp only [Reading.revise, Context.directAs, h.config]
  | array wi ri => exact congrArg Program.readArray (hread wi ri hholds.1 hholds.2)
  | map wv rv => exact congrArg Program.readMap (hread wv rv hholds.1 hholds.2)
  | records w r =>
    have hfaces : context.Faces w r :=
      ⟨hholds.1, hholds.2, (side_of_reading hreader hreading).trans hside⟩
    exact h.directRecords hkeep hread hregistry hfaces
  | writerUnion branches =>
    refine Reader.Congruence.eq.branchIndex (List.length_map _) fun index hindex hindex' => ?_
    have hbranch := hread _ reader (hholds _ (List.getElem_mem hindex')) hreader
    simp only [List.get_eq_getElem, List.getElem_map, hbranch]
  | readerUnion branches =>
    rw [Reading.revise, Context.directAs, Context.directAs, Context.directBranch,
      Context.directBranch, h.choice hkeep hwriter hreader hside hshape hreading]
    cases hchoice : context.choice shape branches with
    | none =>
      rw [Shape.typeName_revise]
      rfl
    | some chosen =>
      have hbranch := hread writer chosen.1 hwriter (hholds _ (fst_mem_of_choice hchoice))
      simp only [Option.map_some, Revision.branch, hbranch]

/-- Two nodes are read alike if the nodes below them are. -/
theorem directStep (hregistry : image.registry .reader = context.registry .reader)
    {writer reader : Node} (hwriter : context.Holds writer)
    (hreader : context.Holds reader) (hside : reader.side = .reader) :
    image.directStep read' (revision.node writer) (revision.node reader) =
      context.directStep read writer reader := by
  rw [Context.directStep, Context.directStep, h.shape?, h.shape?]
  cases hw : context.shape? writer with
  | none => rfl
  | some w =>
    cases hr : context.shape? reader with
    | none => rfl
    | some r =>
      have hreading : context.reading? writer reader = some (w.reading r) :=
        reading?_eq_some.2 ⟨w, r, hw, hr, rfl⟩
      simp only [Option.map_some, Shape.reading_revise]
      exact h.directAs hkeep hread hregistry hwriter hreader hside hw hreading

omit hread in
/-- Skimming gives the same. -/
theorem skimWithin (hregistry : image.registry .reader = context.registry .reader) (depth : Nat)
    {writer reader : Node} (hwriter : context.Holds writer) (hreader : context.Holds reader) :
    image.skimWithin depth (revision.node writer) (revision.node reader) =
      context.skimWithin depth writer reader := by
  induction depth generalizing writer reader with
  | zero => rfl
  | succ depth ih =>
    cases hside : reader.side with
    | writer =>
      have hplain := h.plainWithin hkeep hwriter (depth + 1)
      rw [skimWithin_writer _ _ _ ((hkeep.side reader).trans hside),
        skimWithin_writer _ _ _ hside, hkeep.side, hplain]
    | reader =>
      rw [skimWithin_reader _ _ _ ((hkeep.side reader).trans hside),
        skimWithin_reader _ _ _ hside]
      exact h.directStep hkeep (fun _ _ => ih) hregistry hwriter hreader hside

end Context.Revises

end AvroResolution
