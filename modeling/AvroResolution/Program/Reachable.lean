import AvroResolution.Program

/-!
# The symbols a program can reach

`Program.reachable` lists the symbols connected to the root, depth first and
each once.  A pair of schemas is compatible when no mismatch is among them.

The walk keeps a stack of symbols to visit and the list of symbols not visited
yet.  Every step shortens that list or the stack.
-/

namespace AvroResolution

namespace Program

/-- The symbols a symbol of the arena refers to. -/
def childrenOf (program : Program) (id : SymbolId) : List SymbolId :=
  match program.symbol? id with
  | some symbol => symbol.children
  | none => []

/-- The depth-first walk from the symbols on `stack`, through symbols that are
still `unvisited`. -/
def walk (program : Program) (unvisited stack : List SymbolId) : List SymbolId :=
  match stack with
  | [] => []
  | id :: rest =>
    if id ∈ unvisited then
      id :: program.walk (unvisited.erase id) (program.childrenOf id ++ rest)
    else
      program.walk unvisited rest
termination_by (unvisited.length, stack.length)
decreasing_by
  · have shorter := List.length_erase_of_mem ‹id ∈ unvisited›
    have positive := List.length_pos_of_mem ‹id ∈ unvisited›
    exact Prod.Lex.left _ _ (by omega)
  · exact Prod.Lex.right _ (by simp)

/-- The symbols connected to the root, each once, depth first. -/
def reachable (program : Program) : List SymbolId :=
  program.walk (List.range program.length) [program.root]

/-- The mismatches that the program can reach, in the order of the walk. -/
def mismatches (program : Program) : List Mismatch :=
  program.reachable.filterMap fun id => (program.symbol? id).bind Symbol.mismatch?

/-- The messages of the reachable mismatches. -/
def errors (program : Program) : List String :=
  program.mismatches.map Mismatch.message

def hasErrors (program : Program) : Bool :=
  !program.mismatches.isEmpty

end Program

end AvroResolution
