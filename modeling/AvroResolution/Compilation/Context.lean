import AvroResolution.Compilation.Builder
import AvroResolution.Compilation.Config

/-!
# What a compilation knows

The registries of the two trees and the settings.  `Context.look` looks through
references and logical types of either tree.

The trees may be one tree, or parts of one tree.  Names are looked up from the root
of the side all the same, but a record is remembered by its place in the whole tree
(`Context.key`).
-/

namespace AvroResolution

/-- The registries of the two trees and the settings. -/
structure Context where
  config : Config
  writer : Registry
  reader : Registry
  /-- Whether the sides are parts of one tree. -/
  shared : Bool

namespace Context

/-- The context of two trees without a common node. -/
def ofRoots (config : Config) (writer reader : Node) : Context :=
  ⟨config, .ofRoot writer, .ofRoot reader, false⟩

/-- The context of two parts of one tree. -/
def ofParts (config : Config) (writer reader : Node) : Context :=
  ⟨config, .ofRoot writer, .ofRoot reader, true⟩

/-- What a record is known by.  A place of a shared tree is one record, whichever side
it is met on. -/
def identify (context : Context) (id : RecordId) : RecordId :=
  match context.shared with
  | true => ⟨.writer, id.ordinal⟩
  | false => id

/-- What the symbol of a writer's record read as a reader's is remembered under. -/
def key (context : Context) (writer reader : RecordNode) : MemoKey :=
  .resolving (context.identify writer.id) (context.identify reader.id)

/-- The registry of the tree that a node belongs to. -/
def registry (context : Context) : Side → Registry
  | .writer => context.writer
  | .reader => context.reader

/-- The shape of a node. -/
def look (context : Context) (node : Node) : Compile Shape := fun builder =>
  match (context.registry node.side).look node with
  | .ok shape => .ok (shape, builder)
  | .error dangling => .error (.danglingReference dangling.name)

end Context

end AvroResolution
