import AvroResolution.Proofs.Program.Reachable
import Mathlib.Data.List.Basic

/-!
# The order of the walk

`Program.reachable` walks with a stack, on which a symbol may lie many times, and visits a symbol
when it is taken off.  The recursive walk visits a symbol and then, one after the other, its
children.  Both visit the same symbols in the same order.

* `Program.visitWithin` is the recursive walk.
* `Program.Pending` ties what the one walk has left to what the other has visited.
* `Program.exists_walk_append`: what the recursive walk visits from some symbols, the walk with a
  stack visits before it goes on with the rest of its stack.
* `Program.Closed.reachable_eq` is the result, for arenas in which no reference is dangling.
-/

namespace AvroResolution

namespace Program

variable {program : Program}

/-! ## The recursive walk -/

/-- The symbols visited before, then those that are visited from a symbol: a symbol that was
visited is skipped, any other one is visited before its children, which are visited from left to
right.  The walk goes at most `depth` symbols deep. -/
def visitWithin (program : Program) : (depth : Nat) → (visited : List SymbolId) → SymbolId →
    List SymbolId
  | 0, visited, _ => visited
  | depth + 1, visited, id =>
    if id ∈ visited then visited
    else (program.childrenOf id).foldl (program.visitWithin depth) (visited ++ [id])

/-- No reference is dangling: the root and all children are in the arena. -/
structure Closed (program : Program) : Prop where
  root : program.root < program.length
  children : ∀ id, ∀ child ∈ program.childrenOf id, child < program.length

/-- Symbols out of the arena have no children, so it is enough to look at those in it. -/
theorem closed_iff : program.Closed ↔ program.root < program.length ∧
    ∀ id < program.length, ∀ child ∈ program.childrenOf id, child < program.length :=
  ⟨fun h => ⟨h.root, fun id _ => h.children id⟩,
    fun h => ⟨h.1, fun id child hchild => h.2 id (lt_of_mem_childrenOf hchild) child hchild⟩⟩

instance (program : Program) : Decidable program.Closed :=
  decidable_of_iff _ closed_iff.symm

/-! ## What is left to visit -/

/-- The symbols that are left to visit are those of the arena that were not visited. -/
structure Pending (program : Program) (unvisited visited : List SymbolId) : Prop where
  nodup : unvisited.Nodup
  mem_iff : ∀ id < program.length, id ∈ unvisited ↔ id ∉ visited

namespace Pending

variable {unvisited visited : List SymbolId}

theorem start (program : Program) : program.Pending (List.range program.length) [] := by
  refine ⟨List.nodup_range, fun id hid => ?_⟩
  simp [hid]

theorem erase (h : program.Pending unvisited visited) (id : SymbolId) :
    program.Pending (unvisited.erase id) (visited ++ [id]) := by
  refine ⟨h.nodup.erase id, fun other hother => ?_⟩
  rw [h.nodup.mem_erase_iff, h.mem_iff other hother, List.mem_append, List.mem_singleton, not_or,
    and_comm]

theorem diff (h : program.Pending unvisited visited) (added : List SymbolId) :
    program.Pending (unvisited.diff added) (visited ++ added) := by
  induction added generalizing unvisited visited with
  | nil => rwa [List.diff_nil, List.append_nil]
  | cons id rest ih =>
    rw [List.diff_cons, List.append_cons]
    exact ih (h.erase id)

end Pending

/-! ## Both walks -/

theorem walk_of_mem {unvisited rest : List SymbolId} {id : SymbolId} (h : id ∈ unvisited) :
    program.walk unvisited (id :: rest) =
      id :: program.walk (unvisited.erase id) (program.childrenOf id ++ rest) := by
  rw [walk, if_pos h]

theorem walk_of_not_mem {unvisited rest : List SymbolId} {id : SymbolId} (h : id ∉ unvisited) :
    program.walk unvisited (id :: rest) = program.walk unvisited rest := by
  rw [walk, if_neg h]

/-- What the recursive walk adds from some symbols, the walk with a stack visits first, and then it
goes on with the rest of its stack.

The outer induction is on the depth, which is enough as long as it exceeds the number of symbols
that are left; the inner one follows the symbols. -/
theorem exists_walk_append (hclosed : program.Closed) (depth : Nat) (ids rest : List SymbolId)
    {unvisited visited : List SymbolId} (hpending : program.Pending unvisited visited)
    (hids : ∀ id ∈ ids, id < program.length) (hdepth : unvisited.length < depth) :
    ∃ added, ids.foldl (program.visitWithin depth) visited = visited ++ added ∧
      program.walk unvisited (ids ++ rest) =
        added ++ program.walk (unvisited.diff added) rest := by
  induction depth generalizing ids rest unvisited visited with
  | zero => exact absurd hdepth (Nat.not_lt_zero _)
  | succ depth ih =>
    induction ids generalizing unvisited visited with
    | nil => exact ⟨[], (List.append_nil visited).symm, rfl⟩
    | cons id others ihothers =>
      have hothers : ∀ other ∈ others, other < program.length :=
        fun other hother => hids other (.tail _ hother)
      have hmem := hpending.mem_iff id (hids id (.head _))
      rw [List.foldl_cons, List.cons_append, visitWithin]
      by_cases hvisited : id ∈ visited
      · rw [if_pos hvisited, walk_of_not_mem fun h => hmem.1 h hvisited]
        exact ihothers hpending hothers hdepth
      · -- the children lie on the stack above the other symbols, which are walked from what the
        -- children leave
        have hid : id ∈ unvisited := hmem.2 hvisited
        have hshorter := List.length_erase_of_mem hid
        have hpositive := List.length_pos_of_mem hid
        obtain ⟨below, hbelow, hwalk⟩ := ih (program.childrenOf id) (others ++ rest)
          (hpending.erase id) (hclosed.children id) (by omega)
        have hleft : ((unvisited.erase id).diff below).length ≤ (unvisited.erase id).length :=
          (List.diff_sublist _ _).length_le
        obtain ⟨after, hafter, hwalk'⟩ := ihothers ((hpending.erase id).diff below) hothers
          (by omega)
        refine ⟨id :: (below ++ after), ?_, ?_⟩
        · rw [if_neg hvisited, hbelow, hafter]
          simp only [List.append_assoc, List.cons_append, List.nil_append]
        · rw [walk_of_mem hid, hwalk, hwalk', List.diff_cons, List.diff_append]
          simp only [List.append_assoc, List.cons_append]

/-- The walk from the root visits in the order of the recursive walk, for which any depth beyond
the number of symbols is enough. -/
theorem Closed.reachable_eq (h : program.Closed) {depth : Nat} (hdepth : program.length < depth) :
    program.reachable = program.visitWithin depth [] program.root := by
  have hroot : ∀ id ∈ [program.root], id < program.length :=
    List.forall_mem_singleton.2 h.root
  obtain ⟨added, hvisit, hwalk⟩ := exists_walk_append h depth [program.root] []
    (Pending.start program) hroot (by rwa [List.length_range])
  have hadded : program.visitWithin depth [] program.root = added := hvisit
  rw [List.append_nil, walk, List.append_nil] at hwalk
  exact hwalk.trans hadded.symm

/-! ## Each symbol once -/

/-- The walk visits no symbol twice.  The induction is that of the walk. -/
theorem nodup_walk {unvisited stack : List SymbolId} (hnodup : unvisited.Nodup) :
    (program.walk unvisited stack).Nodup := by
  fun_induction program.walk unvisited stack with
  | case1 => exact .nil
  | case2 unvisited id rest hid ih =>
    refine List.nodup_cons.2 ⟨fun hagain => ?_, ih (hnodup.erase id)⟩
    obtain ⟨_, _, hpath⟩ := (mem_walk (hnodup.erase id)).1 hagain
    exact hnodup.not_mem_erase hpath.last_mem
  | case3 unvisited id rest hid ih => exact ih hnodup

theorem nodup_reachable (program : Program) : program.reachable.Nodup :=
  nodup_walk List.nodup_range

/-- In an arena without dangling references all that the root leads to is reached. -/
theorem Closed.mem_reachable_iff (h : program.Closed) {id : SymbolId} :
    id ∈ program.reachable ↔ program.Leads program.root id := by
  rw [mem_reachable, and_iff_right_iff_imp]
  intro hleads
  cases hleads with
  | refl => exact h.root
  | tail _ hchild => exact h.children _ _ hchild

/-! ## The mismatches on the way -/

/-- The message of the mismatch at a position, if there is one. -/
def messageAt? (program : Program) (id : SymbolId) : Option String :=
  ((program.symbol? id).bind Symbol.mismatch?).map Mismatch.message

theorem errors_eq (program : Program) :
    program.errors = program.reachable.filterMap program.messageAt? := by
  rw [errors, mismatches, List.map_filterMap]
  rfl

end Program

end AvroResolution
