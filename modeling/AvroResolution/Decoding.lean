import AvroResolution.Decoding.Promotion
import AvroResolution.Decoding.Record
import AvroResolution.Wire.Read

/-!
# Running a program

`Program.decode` reads one value by running a program on an input.

* `Program.runStep` runs one symbol, given how to run the symbols it refers to.
* `Program.runWithin` bounds how deeply symbols run inside each other.  A run
  that goes deeper than `Program.runDepth` is in the same symbol twice with the
  same bytes left, and would go on for ever.
* `Program.decodeStream` reads values until the input is used up.

Some items of an array take no bytes.  An array may have `zeroWidthLimit` of
them over all its blocks together, so no count can make it larger than the
data warrant.
-/

namespace AvroResolution

/-- The number of items without bytes that an array may have. -/
def zeroWidthLimit : Nat := 1048576

namespace Program

/-! ## Symbols -/

/-- The symbol at a position of the arena. -/
def fetch (program : Program) (id : SymbolId) : Reader Symbol :=
  match program.symbol? id with
  | some symbol => return symbol
  | none => throw (.program (.danglingSymbol id))

/-- Reads a scalar or a fixed value.  Other terminals only open a sequence. -/
def readTerminal : Terminal → Reader Value
  | .primitive .null => return .null
  | .primitive .boolean => return .boolean (← Reader.boolean)
  | .primitive .int => return .int (← Reader.int)
  | .primitive .long => return .long (← Reader.long)
  | .primitive .float => return .float (← Reader.float)
  | .primitive .double => return .double (← Reader.double)
  | .primitive .bytes => return .bytes (← Reader.bytes)
  | .primitive .string => return .string (← Reader.string)
  | .fixed size => return .fixed (← Reader.fixed size)
  | other => throw (.program (.strayTerminal other))

/-! ## Collections -/

/-- The items of an array read so far, the last one first, and how many of them
took no bytes. -/
structure ArrayProgress where
  items : List Value
  zeroWidth : Nat

/-- Reads one item of an array. -/
def readItem (item : Reader Value) (progress : ArrayProgress) : Reader ArrayProgress := do
  let before ← Reader.remaining
  let value ← item
  let after ← Reader.remaining
  let zeroWidth := if after = before then progress.zeroWidth + 1 else progress.zeroWidth
  if zeroWidthLimit < zeroWidth then
    throw (.data (.zeroWidthItems zeroWidthLimit))
  else
    return ⟨value :: progress.items, zeroWidth⟩

/-- Reads the blocks of an array. -/
def readArray (item : Reader Value) : Reader Value := do
  let progress ← Reader.blocks (readItem item) ⟨[], 0⟩
  return .array progress.items.reverse

/-- Reads one entry of a map after the entries read so far, the last one
first. -/
def readEntry (value : Reader Value) (entries : List (String × Value)) :
    Reader (List (String × Value)) := do
  let key ← Reader.string
  let content ← value
  return (key, content) :: entries

/-- Reads the blocks of a map. -/
def readMap (value : Reader Value) : Reader Value := do
  let entries ← Reader.blocks (readEntry value) []
  return .map entries.reverse

/-! ## Enums -/

/-- Reads an enum ordinal and gives the reader's symbol for it. -/
def readEnum (adjustment : EnumAdjustment) : Reader Value := do
  let ordinal ← Reader.int
  if ordinal < 0 then
    throw (.data (.negativeOrdinal ordinal))
  else
    let writer := ordinal.toInt.toNat
    match adjustment.resolve writer with
    | none => throw (.unmappedOrdinal writer)
    | some reader =>
      match adjustment.symbols[reader]? with
      | none => throw (.unmappedOrdinal writer)
      | some symbol => return .enum (Int32.ofNat reader) symbol

/-! ## Records -/

/-- Reads a value from bytes of its own and gives the number of bytes left over.
The input stays as it is. -/
def replay (value : Reader Value) (bytes : List UInt8) : Reader (Value × Nat) := fun input =>
  match value (.ofList bytes) with
  | .ok content rest => .ok (content, rest.length) input
  | .error fault _ => .error fault input

/-- Reads the default that `inject` starts, which must be closed by the symbol
`last`. -/
def readDefault (program : Program) (run : SymbolId → Reader Value) (inject : SymbolId)
    (bytes : List UInt8) (value last : SymbolId) : Reader Value := do
  match ← program.fetch last with
  | .injectEnd => do
    let (content, leftover) ← replay (run value) bytes
    if leftover = 0 then
      return content
    else
      throw (.program (.leftoverDefault leftover inject))
  | _ => throw (.program (.strayDefault inject))

/-- Reads the fields of a record up to its reorder.  The values read so far are
given, the last one first. -/
def readFields (program : Program) (run : SymbolId → Reader Value) :
    List SymbolId → List Value → Reader Value
  | [], _ => throw (.program .missingOrder)
  | id :: rest, values => do
    match ← program.fetch id with
    | .skip symbol => do
      let _ ← run symbol
      program.readFields run rest values
    | .inject _ bytes =>
      match rest with
      | value :: last :: more => do
        let content ← program.readDefault run id bytes value last
        program.readFields run more (content :: values)
      | _ => throw (.program (.strayDefault id))
    | .reorder arrivals => Reader.ofExcept .program (placeFields arrivals values.reverse)
    | _ => do
      let value ← run id
      program.readFields run rest (value :: values)

/-! ## Sequences -/

/-- Runs a sequence.  Its first two symbols tell what it reads; anything but an
array, a map, an enum or a union is a record. -/
def runSequence (program : Program) (run : SymbolId → Reader Value) (children : List SymbolId) :
    Reader Value := do
  match children with
  | [] => throw (.program .emptySequence)
  | first :: rest => do
    let head ← program.fetch first
    let second ←
      match rest with
      | [] => pure none
      | id :: _ => some <$> program.fetch id
    match head, second with
    | .terminal (.start .array), some (.repetition _ body) =>
      match body with
      | [item] => readArray (run item)
      | _ => throw (.program .arrayBody)
    | .terminal (.start .map), some (.repetition _ body) =>
      match body with
      | [_, value] => readMap (run value)
      | _ => throw (.program .mapBody)
    | .terminal .enum, some (.remap adjustment) => readEnum adjustment
    | .terminal .union, some (.alternative branches) => do
      let index ← Reader.branchIndex branches.length
      let value ← run branches[index].symbol
      return .union (Int32.ofNat index) value
    | _, _ => program.readFields run children []

/-- Runs a symbol, where `run` runs the symbols it refers to. -/
def runStep (program : Program) (run : SymbolId → Reader Value) (id : SymbolId) :
    Reader Value := do
  match ← program.fetch id with
  | .terminal terminal => readTerminal terminal
  | .sequence children => program.runSequence run children
  | .alternative branches => do
    let index ← Reader.branchIndex branches.length
    run branches[index].symbol
  | .promote symbol promotion => do
    let value ← run symbol
    Reader.ofExcept (fun fault => fault) (promotion.apply value)
  | .select alternative => run alternative
  | .adjust index symbol => do
    let value ← run symbol
    return .union (Int32.ofNat index) value
  | .mismatch cause => throw (.mismatch cause)
  | .repetition _ _ => throw (.program (.strayRepetition id))
  | _ => throw (.program (.strayAction id))

/-- Runs a symbol, at most `depth` symbols deep. -/
def runWithin (program : Program) : (depth : Nat) → SymbolId → Reader Value
  | 0, _ => throw .endless
  | depth + 1, id => program.runStep (program.runWithin depth) id

/-! ## Programs -/

/-- The number of byte strings that a run can stand before in the default that a
symbol injects, if it does. -/
def injectedStandpoints : Symbol → Nat
  | .inject _ bytes => bytes.length + 1
  | _ => 0

/-- The number of byte strings that a run can stand before: what is left of the
input, or of an injected default. -/
def standpoints (program : Program) (length : Nat) : Nat :=
  program.symbols.toList.foldr (fun symbol total => injectedStandpoints symbol + total)
    (length + 1)

/-- How deep a run on `length` bytes can go without being in one symbol twice
before the same bytes. -/
def runDepth (program : Program) (length : Nat) : Nat :=
  program.length * program.standpoints length + 1

/-- Reads one value. -/
def decode (program : Program) : Reader Value := fun input =>
  program.runWithin (program.runDepth input.length) program.root input

/-- The answer of one read: a value or a fault, and the number of bytes left. -/
structure Outcome where
  answer : Except DecodeFault Value
  rest : Nat

/-- The answer of a read from the front of an input. -/
def attempt (program : Program) (input : Input) : Outcome :=
  match program.decode input with
  | .ok value rest => ⟨.ok value, rest.length⟩
  | .error fault rest => ⟨.error fault, rest.length⟩

/-- Reads values one after the other until the input is used up, a read fails or
`limit` values have been read. -/
def decodeStream (program : Program) : (limit : Nat) → Input → List Outcome
  | 0, _ => []
  | limit + 1, input =>
    match program.decode input with
    | .ok value rest =>
      ⟨.ok value, rest.length⟩ ::
        if rest.length = 0 then [] else program.decodeStream limit rest
    | .error fault rest => [⟨.error fault, rest.length⟩]

end Program

end AvroResolution
