import AvroResolution.Proofs.Resolution.Revision
import Mathlib.Logic.Relation

/-!
# Writers without defaults

What becomes of a compilation when the fields of the writer's tree lose their defaults.

* `Revision.undefaulting` is what becomes of the nodes of both trees, and
  `Context.revises_undefaulting` says that looking up commutes with it.
* `Context.Meets` are the pairs of nodes that compiling a pair gets to.
  `Context.FillsReaderOnly` says that no field of the writer's tree is filled from its default
  on the way.
* `Program.resolving_undefaulted`: if so, the writer without its defaults has the same
  program, or has none for the same reason.
-/

namespace AvroResolution

/-! ## The revision -/

/-- The fields of the writer's tree lose their defaults. -/
def Revision.undefaulting : Revision where
  node node := match node.side with
    | .writer => node.mapSchema Schema.undefaulted
    | .reader => node
  default? field := match field.type.side with
    | .writer => none
    | .reader => field.default?

namespace Revision

theorem side_undefaulting (node : Node) : (undefaulting.node node).side = node.side := by
  rcases node with ⟨_ | _, ordinal, schema⟩ <;> rfl

theorem undefaulting_writer {shape : Shape} (h : ∀ part ∈ shape.parts, part.side = .writer) :
    shape.revise undefaulting = shape.revise (.ofSchemas Schema.undefaulted fun _ => none) := by
  refine Shape.revise_congr (fun part hpart => ?_) fun field hfield => ?_
  · simp only [undefaulting, h part hpart]
    rfl
  · simp only [undefaulting, h _ hfield]
    rfl

theorem undefaulting_reader {shape : Shape} (h : ∀ part ∈ shape.parts, part.side = .reader) :
    shape.revise undefaulting = shape := by
  have hsame : shape.revise undefaulting = shape.revise .unchanged := by
    refine Shape.revise_congr (fun part hpart => ?_) fun field hfield => ?_
    · simp only [undefaulting, h part hpart]
      rfl
    · simp only [undefaulting, h _ hfield]
      rfl
  rw [hsame, Shape.revise_unchanged]

end Revision

namespace Context

/-- The context of a writer and a reader. -/
def ofTrees (config : Config) (writer reader : Schema) : Context :=
  (SchemaPair.twoTrees writer reader).context config

/-- The writer's tree is revised, the reader's stays. -/
theorem revises_undefaulting (config : Config) (writer reader : Schema) :
    (ofTrees config writer reader).Revises .undefaulting
      (ofTrees config writer.undefaulted reader) where
  config := rfl
  shared := rfl
  typeName node := by
    rcases node with ⟨_ | _, ordinal, schema⟩
    · exact Schema.revises_undefaulted.typeName schema
    · rfl
  look node := by
    rcases node with ⟨side, ordinal, schema⟩
    cases side with
    | writer =>
      have hrevised := (Registry.revises_ofRoot Schema.revises_undefaulted
        (.root .writer writer)).look Schema.revises_undefaulted ⟨.writer, ordinal, schema⟩
      show _ = ((Registry.ofRoot (.root .writer writer)).look ⟨.writer, ordinal, schema⟩).map _
      refine hrevised.trans ?_
      cases hlook : (Registry.ofRoot (.root .writer writer)).look ⟨.writer, ordinal, schema⟩ with
      | error dangling => rfl
      | ok shape =>
        have hsides : ∀ part ∈ shape.parts, part.side = Side.writer := fun part hpart =>
          Registry.side_of_look (by rfl) hlook hpart
        exact congrArg Except.ok (Revision.undefaulting_writer hsides).symm
    | reader =>
      show (Registry.ofRoot (.root .reader reader)).look ⟨.reader, ordinal, schema⟩ =
        ((Registry.ofRoot (.root .reader reader)).look ⟨.reader, ordinal, schema⟩).map _
      cases hlook : (Registry.ofRoot (.root .reader reader)).look ⟨.reader, ordinal, schema⟩ with
      | error dangling => rfl
      | ok shape =>
        have hsides : ∀ part ∈ shape.parts, part.side = Side.reader := fun part hpart =>
          Registry.side_of_look (by rfl) hlook hpart
        exact congrArg Except.ok (Revision.undefaulting_reader hsides).symm

/-! ## Pairs that are met -/

/-- The pairs of nodes that compiling the first one gets to. -/
def Meets (context : Context) : Node × Node → Node × Node → Prop :=
  Relation.ReflTransGen context.Descends

/-- Where compiling the pair gets to, only fields of the reader's tree are filled from their
defaults. -/
def FillsReaderOnly (context : Context) (start : Node × Node) : Prop :=
  ∀ pair w r, context.Meets start pair →
    context.reading? pair.1 pair.2 = some (.records w r) →
      ∀ field ∈ Matching.unmatched (Links.ofFields context.config w.fields r.fields) w.fields
        r.fields, field.field.type.side = .reader

variable {config : Config} {writer reader : Schema}

/-- If the writer without its defaults fills fields of the reader only, the defaults that are
lost fill no field. -/
theorem side_of_unmatched {start pair : Node × Node} {w r : RecordNode}
    (hfills : (ofTrees config writer.undefaulted reader).FillsReaderOnly start)
    (hmeets : (ofTrees config writer.undefaulted reader).Meets start
      (Revision.undefaulting.node pair.1, Revision.undefaulting.node pair.2))
    (hreading : (ofTrees config writer reader).reading? pair.1 pair.2 = some (.records w r))
    {field : ReaderField}
    (hfield : field ∈ Matching.unmatched (Links.ofFields config w.fields r.fields) w.fields
      r.fields) : field.field.type.side = .reader := by
  have hreading' : (ofTrees config writer.undefaulted reader).reading?
      (Revision.undefaulting.node pair.1) (Revision.undefaulting.node pair.2) =
        some (.records (w.revise .undefaulting) (r.revise .undefaulting)) := by
    rw [(revises_undefaulting config writer reader).reading?, hreading]
    rfl
  have hside := hfills _ _ _ hmeets hreading' (field.revise .undefaulting) (by
    rw [RecordNode.revise, RecordNode.revise, Links.ofFields_revise, Matching.unmatched_revise]
    exact List.mem_map_of_mem hfield)
  rwa [ReaderField.revise, Field.revise, Revision.side_undefaulting] at hside

theorem revisesSafely_undefaulting {start : Node × Node}
    (hfills : (ofTrees config writer.undefaulted reader).FillsReaderOnly start) :
    (ofTrees config writer reader).RevisesSafely id .undefaulting
      (fun pair => (ofTrees config writer.undefaulted reader).Meets start
        (Revision.undefaulting.node pair.1, Revision.undefaulting.node pair.2))
      (ofTrees config writer.undefaulted reader) where
  toRevises := revises_undefaulting config writer reader
  descends := by
    rintro ⟨first, second⟩ other hmeets hdescends
    refine hmeets.tail ((revises_undefaulting config writer reader).descends ?_ hdescends)
    intro w r hreading field hfield
    have hside := side_of_unmatched hfills hmeets hreading hfield
    simp only [Revision.undefaulting, hside]
  fills := by
    intro pair w r hmeets hreading field hfield
    have hside := side_of_unmatched hfills hmeets hreading hfield
    rcases field with ⟨index, name, ⟨side, ordinal, schema⟩, default?, aliases⟩
    cases hside
    exact ⟨rfl, rfl, fun _ => rfl⟩

end Context

/-! ## Programs -/

namespace SchemaPair

/-- The depth that is allowed is enough, so more of it changes nothing. -/
theorem resolving_eq_build (pair : SchemaPair) (config : Config) {depth : Nat}
    (h : resolvingDepth pair.writerRoot pair.readerRoot ≤ depth) :
    Compile.resolving (pair.context config) depth pair.writerRoot pair.readerRoot Builder.empty =
      pair.build config := by
  have hbuild := build_mapSchema Schema.revises_id pair config depth h
  rw [mapSchema_id] at hbuild
  rw [hbuild]
  cases pair.build config with
  | error fault => rfl
  | ok result => exact congrArg (fun builder => Except.ok (result.1, builder)) result.2.mapTypes_id

end SchemaPair

/-- A writer none of whose defaults fills a field has the program that it has without its
defaults, or has none for the same reason. -/
theorem Program.resolving_undefaulted {config : Config} {writer reader : Schema}
    (hfills : (Context.ofTrees config writer.undefaulted reader).FillsReaderOnly
      (.root .writer writer.undefaulted, .root .reader reader)) :
    Program.resolving config writer.undefaulted reader =
      Program.resolving config writer reader := by
  let pair := SchemaPair.twoTrees writer reader
  let other := SchemaPair.twoTrees writer.undefaulted reader
  have hfollows := Compile.follows_resolving (Context.revisesSafely_undefaulting hfills)
    (Nat.le_add_right (resolvingDepth pair.writerRoot pair.readerRoot)
      (resolvingDepth other.writerRoot other.readerRoot)) (.root .writer writer)
    (.root .reader reader) .refl Builder.empty
  have hother := other.resolving_eq_build config
    (Nat.le_add_left (resolvingDepth other.writerRoot other.readerRoot)
      (resolvingDepth pair.writerRoot pair.readerRoot))
  have hbuild : other.build config = pair.build config := by
    rcases hfollows with hdeep | hsame
    · cases SchemaPair.fault_of_build (show pair.build config = .error _ from hdeep)
    · rw [Builder.mapTypes_empty] at hsame
      refine hother.symm.trans (hsame.trans ?_)
      show (pair.build config).map _ = _
      cases pair.build config with
      | error fault => rfl
      | ok result =>
        exact congrArg (fun builder => Except.ok (result.1, builder)) result.2.mapTypes_id
  show other.program config = pair.program config
  rw [SchemaPair.program_eq, SchemaPair.program_eq, hbuild]

end AvroResolution
