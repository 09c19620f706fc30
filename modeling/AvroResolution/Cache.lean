import AvroResolution.Compilation.Resolving
import AvroResolution.Schema.Form

/-!
# A cache of programs

A `Cache` keeps the program of every pair of schemas that was compiled, under the
JSON text of the pair.  Pairs with the same text share one program.  A pair that
does not compile leaves no trace.

Programs are numbered in the order in which they were compiled, and the numbers
go on after the cache is cleared, so two answers have the same number exactly
when they are the same program.
-/

namespace AvroResolution

/-- A compiled program and its number. -/
structure CachedProgram where
  number : Nat
  program : Program

/-- The programs compiled so far under one configuration. -/
structure Cache where
  config : Config
  /-- The programs by the texts of the writer's and the reader's schema. -/
  entries : List ((String × String) × CachedProgram)
  /-- The number of programs compiled, cleared ones included. -/
  compiled : Nat

namespace Cache

/-- The cache without programs. -/
def empty (config : Config) : Cache := ⟨config, [], 0⟩

def length (cache : Cache) : Nat := cache.entries.length

def isEmpty (cache : Cache) : Bool := cache.entries.isEmpty

/-- Forgets all programs. -/
def clear (cache : Cache) : Cache := { cache with entries := [] }

/-- What a pair of schemas is kept under. -/
def key (pair : SchemaPair) : String × String :=
  (pair.writer.text, pair.reader.text)

/-- The program of a pair of schemas, compiled if the cache has none under the
pair's key. -/
def get (cache : Cache) (pair : SchemaPair) : Except SchemaFault CachedProgram × Cache :=
  match cache.entries.lookup (key pair) with
  | some known => (.ok known, cache)
  | none =>
    match pair.program cache.config with
    | .error fault => (.error fault, cache)
    | .ok program =>
      let added := ⟨cache.compiled, program⟩
      (.ok added, ⟨cache.config, (key pair, added) :: cache.entries, cache.compiled + 1⟩)

end Cache

end AvroResolution
