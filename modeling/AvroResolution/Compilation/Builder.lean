import AvroResolution.Compilation.Fault
import AvroResolution.Schema.Registry

/-!
# Building a program

A `Builder` is an arena under construction.  Symbols are only ever added at its
end.  A record *reserves* its symbol before its fields are compiled and fills it
afterwards, so a field may refer back to the record.

The builder remembers the symbol of every record it has met: of a record alone,
and of a writer's record read as a reader's.  It keeps a log of all that is done
to its arena and its memory.

* `Compile` is a computation that adds symbols and may fail.
* `Compile.push`, `Compile.terminal`, `Compile.reserve` and `Compile.fill` change
  the arena, `Compile.symbolOf` and `Compile.memoise` use the memory.  What they do
  is logged as a `Builder.Event`.
* `Builder.finish` turns the arena into a program.
-/

namespace AvroResolution

/-- What the symbol of a record was compiled for. -/
inductive MemoKey where
  /-- The record read as itself, by the writer's own grammar. -/
  | validating (record : RecordId)
  /-- The writer's record read as the reader's. -/
  | resolving (writer reader : RecordId)
deriving DecidableEq, Repr

/-- What is done to a builder. -/
inductive Builder.Event where
  /-- A symbol gets the slot at the end. -/
  | push (id : SymbolId) (symbol : Symbol)
  /-- An empty slot is added at the end. -/
  | reserve (id : SymbolId)
  /-- A symbol is put into a slot. -/
  | fill (id : SymbolId) (symbol : Symbol)
  /-- A symbol is remembered under a key. -/
  | bound (key : MemoKey) (id : SymbolId)
  /-- A record is met again, and its symbol is found under its key. -/
  | met (key : MemoKey) (id : SymbolId)

/-- An arena under construction and the records met so far.  A reserved slot is
empty. -/
structure Builder where
  slots : Array (Option Symbol)
  memo : List (MemoKey × SymbolId)
  /-- All that was done so far, the latest first. -/
  log : List Builder.Event

/-- The arena without symbols. -/
def Builder.empty : Builder := ⟨#[], [], []⟩

/-- A computation that builds an arena. -/
abbrev Compile := StateT Builder (Except SchemaFault)

namespace Builder

/-- The symbol at a position, unless the position is only reserved. -/
def symbol? (builder : Builder) (id : SymbolId) : Option Symbol :=
  builder.slots[id]?.join

/-- The position of a terminal that the arena already has. -/
def terminal? (builder : Builder) (terminal : Terminal) : Option SymbolId :=
  builder.slots.findIdx? fun slot =>
    match slot with
    | some (.terminal other) => other = terminal
    | _ => false

/-- Whether a symbol is a mismatch, or a sequence with a mismatch among its
children.  A reserved symbol has none. -/
def hasMatchError (builder : Builder) (id : SymbolId) : Bool :=
  match builder.symbol? id with
  | some (.mismatch _) => true
  | some (.sequence children) =>
    children.any fun child =>
      match builder.symbol? child with
      | some symbol => symbol.isMismatch
      | none => false
  | _ => false

/-- The finished program that starts at `root`. -/
def finish (builder : Builder) (root : SymbolId) : Except SchemaFault Program := do
  let symbols ← builder.slots.toList.zipIdx.mapM fun (slot, id) =>
    match slot with
    | some symbol => .ok symbol
    | none => .error (.internal (.unfilledSymbol id))
  return ⟨symbols.toArray, root⟩

end Builder

namespace Compile

/-! ## The arena -/

/-- Adds a symbol at the end of the arena. -/
def push (symbol : Symbol) : Compile SymbolId := fun builder =>
  let id := builder.slots.size
  .ok (id, { builder with
    slots := builder.slots.push (some symbol), log := .push id symbol :: builder.log })

/-- The symbol of a terminal, which the arena holds once. -/
def terminal (terminal : Terminal) : Compile SymbolId := fun builder =>
  match builder.terminal? terminal with
  | some id => .ok (id, builder)
  | none => push (.terminal terminal) builder

/-- Adds an empty slot at the end of the arena. -/
def reserve : Compile SymbolId := fun builder =>
  let id := builder.slots.size
  .ok (id, { builder with slots := builder.slots.push none, log := .reserve id :: builder.log })

/-- Puts a symbol into a slot. -/
def fill (id : SymbolId) (symbol : Symbol) : Compile Unit := fun builder =>
  .ok ((), { builder with
    slots := builder.slots.setIfInBounds id (some symbol), log := .fill id symbol :: builder.log })

/-- Whether a symbol shows a mismatch at first sight. -/
def hasMatchError (id : SymbolId) : Compile Bool := fun builder =>
  .ok (builder.hasMatchError id, builder)

/-! ## The memory -/

/-- The symbol that was compiled for `key`. -/
def symbolOf (key : MemoKey) : Compile (Option SymbolId) := fun builder =>
  match builder.memo.lookup key with
  | some id => .ok (some id, { builder with log := .met key id :: builder.log })
  | none => .ok (none, builder)

/-- Remembers the symbol of `key`. -/
def memoise (key : MemoKey) (id : SymbolId) : Compile Unit := fun builder =>
  .ok ((), { builder with memo := (key, id) :: builder.memo, log := .bound key id :: builder.log })

/-! ## Compound symbols -/

/-- The symbol of a pair of types that do not fit. -/
def mismatch (writer reader : Shape) : Compile SymbolId :=
  push (.mismatch (.types writer.typeName reader.typeName))

/-- The blocks of a collection whose items are read by `body`. -/
def blocks (collection : Collection) (body : List SymbolId) : Compile SymbolId := do
  let start ← terminal (.start collection)
  let items ← push (.repetition collection body)
  push (.sequence [start, items])

/-- An enum whose ordinals are adjusted. -/
def enumeration (adjustment : EnumAdjustment) : Compile SymbolId := do
  let ordinal ← terminal .enum
  let remap ← push (.remap adjustment)
  push (.sequence [ordinal, remap])

end Compile

end AvroResolution
