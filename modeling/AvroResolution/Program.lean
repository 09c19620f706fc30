import AvroResolution.Promotion
import AvroResolution.Number.Integer

/-!
# Resolution programs

A `Program` says how to read data of one schema as values of another.  It is an
arena of symbols that refer to each other by position, so a record that contains
itself is a finite graph.

| pair                   | symbol                                                     |
|------------------------|------------------------------------------------------------|
| records                | a sequence of fields, injected defaults and a reorder      |
| enums                  | a sequence of the enum terminal and a remap                |
| arrays                 | a sequence of the array start and a repetition of the item |
| maps                   | the same of the map start, a key and a value               |
| a writer union         | a select of an alternative                                 |
| a reader union only    | an adjust of the chosen branch                             |
| a promotion            | a promote of the writer's terminal                         |
| anything else          | a mismatch                                                 |
-/

namespace AvroResolution

/-! ## Terminals -/

/-- The types whose items come in counted blocks. -/
inductive Collection where
  | array
  | map
deriving DecidableEq, Repr

/-- An instruction that reads. -/
inductive Terminal where
  | primitive (type : Primitive)
  | fixed (size : Nat)
  /-- The ordinal of an enum symbol. -/
  | enum
  /-- The start of the blocks of a collection. -/
  | start (collection : Collection)
  /-- The index of a union branch. -/
  | union
deriving DecidableEq, Repr

/-- How messages show a terminal. -/
def Terminal.text : Terminal → String
  | .primitive .null => "Null"
  | .primitive .boolean => "Boolean"
  | .primitive .int => "Int"
  | .primitive .long => "Long"
  | .primitive .float => "Float"
  | .primitive .double => "Double"
  | .primitive .bytes => "Bytes"
  | .primitive .string => "String"
  | .fixed size => "Fixed(" ++ integerText size ++ ")"
  | .enum => "Enum"
  | .start .array => "ArrayStart"
  | .start .map => "MapStart"
  | .union => "Union"

/-- The terminal that reads a kind, if the kind is primitive. -/
def Kind.terminal? : Kind → Option Terminal
  | .primitive type => some (.primitive type)
  | _ => none

/-! ## Mismatches -/

/-- Why a writer type cannot be read as a reader type. -/
inductive Mismatch where
  /-- The two types, by name, have nothing in common. -/
  | types (writer reader : String)
  /-- The writer record lacks a field that has no default. -/
  | missingField (writer reader field : String)
deriving DecidableEq, Repr

def Mismatch.message : Mismatch → String
  | .types writer reader => "Found " ++ writer ++ ", expecting " ++ reader
  | .missingField writer reader field =>
    "Found " ++ writer ++ ", expecting " ++ reader ++ ", missing required field " ++ field

/-! ## Symbols -/

/-- The position of a symbol in its arena. -/
abbrev SymbolId := Nat

/-- A branch of an alternative, labelled with the name of the writer's branch. -/
structure Branch where
  label : String
  symbol : SymbolId
deriving DecidableEq, Repr

/-- A reader field at the place where its value arrives. -/
structure Arrival where
  name : String
  /-- The position of the field in the reader's record. -/
  index : Nat
deriving DecidableEq, Repr

/-- How ordinals of the writer's enum become ordinals of the reader's. -/
structure EnumAdjustment where
  /-- The symbols of the reader. -/
  symbols : List String
  /-- For each ordinal of the writer the reader's, if there is one. -/
  ordinals : List (Option Nat)
deriving DecidableEq, Repr

/-- The reader's ordinal for a writer's ordinal. -/
def EnumAdjustment.resolve (adjustment : EnumAdjustment) (ordinal : Nat) : Option Nat :=
  adjustment.ordinals[ordinal]?.join

/-- The number of symbols that the reader declares. -/
def EnumAdjustment.symbolCount (adjustment : EnumAdjustment) : Nat :=
  adjustment.symbols.length

/-- An instruction of a resolution program. -/
inductive Symbol where
  | terminal (terminal : Terminal)
  | sequence (children : List SymbolId)
  | repetition (collection : Collection) (body : List SymbolId)
  | alternative (branches : List Branch)
  /-- Closes a record and puts its fields in the reader's order. -/
  | reorder (arrivals : List Arrival)
  /-- Reads a value and drops it. -/
  | skip (symbol : SymbolId)
  /-- Starts reading the encoded default of a field of the given type. -/
  | inject (type : Schema) (bytes : List UInt8)
  /-- Ends the reading of a default. -/
  | injectEnd
  | remap (adjustment : EnumAdjustment)
  /-- Reads the writer's scalar and promotes it. -/
  | promote (symbol : SymbolId) (promotion : Promotion)
  /-- Reads the branch of the writer's union that the data names. -/
  | select (alternative : SymbolId)
  /-- Reads a value as the given branch of the reader's union. -/
  | adjust (index : Nat) (symbol : SymbolId)
  | mismatch (cause : Mismatch)

namespace Symbol

/-- The symbols that a symbol refers to, in order. -/
def children : Symbol → List SymbolId
  | .sequence children => children
  | .repetition _ body => body
  | .alternative branches => branches.map (·.symbol)
  | .skip symbol => [symbol]
  | .promote symbol _ => [symbol]
  | .select branches => [branches]
  | .adjust _ symbol => [symbol]
  | _ => []

def mismatch? : Symbol → Option Mismatch
  | .mismatch cause => some cause
  | _ => none

def isMismatch (symbol : Symbol) : Bool :=
  symbol.mismatch?.isSome

end Symbol

/-! ## Programs -/

/-- An arena of symbols and the symbol to start from. -/
structure Program where
  symbols : Array Symbol
  root : SymbolId

namespace Program

/-- The symbol at a position of the arena. -/
def symbol? (program : Program) (id : SymbolId) : Option Symbol :=
  program.symbols[id]?

/-- The number of symbols in the arena. -/
def length (program : Program) : Nat :=
  program.symbols.size

end Program

end AvroResolution
