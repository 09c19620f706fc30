import AvroResolution.Program.Reachable
import Mathlib.Data.List.Nodup
import Mathlib.Logic.Relation

/-!
# Laws of reaching

`Program.reachable` lists the symbols of the arena to which a path of references
leads from the root (`Program.mem_reachable`).

`Program.PathIn` is a path through symbols of a given list.  The walk visits the
ends of the paths that lead from its stack through unvisited symbols: of a path
that comes back to the symbol just visited, what follows the last visit counts
(`Program.PathIn.erase`).
-/

namespace AvroResolution

namespace Program

variable {program : Program}

/-- A path of references leads from one symbol to the other. -/
abbrev Leads (program : Program) : SymbolId → SymbolId → Prop :=
  Relation.ReflTransGen fun id child => child ∈ program.childrenOf id

/-- A path of references through symbols of a list, its ends included. -/
inductive PathIn (program : Program) (visible : List SymbolId) : SymbolId → SymbolId → Prop
  | here {id : SymbolId} (hid : id ∈ visible) : PathIn program visible id id
  | step {id child last : SymbolId} (hid : id ∈ visible) (hchild : child ∈ program.childrenOf id)
      (hpath : PathIn program visible child last) : PathIn program visible id last

namespace PathIn

variable {visible others : List SymbolId} {id last : SymbolId}

theorem first_mem (h : program.PathIn visible id last) : id ∈ visible := by
  cases h with
  | here hid => exact hid
  | step hid _ _ => exact hid

theorem last_mem (h : program.PathIn visible id last) : last ∈ visible := by
  induction h with
  | here hid => exact hid
  | step _ _ _ ih => exact ih

theorem mono (hsubset : visible ⊆ others) (h : program.PathIn visible id last) :
    program.PathIn others id last := by
  induction h with
  | here hid => exact .here (hsubset hid)
  | step hid hchild _ ih => exact .step (hsubset hid) hchild ih

/-- A path either avoids a symbol, ends in it, or goes on from its last visit
there. -/
theorem erase (hnodup : visible.Nodup) (avoided : SymbolId)
    (h : program.PathIn visible id last) :
    program.PathIn (visible.erase avoided) id last ∨ last = avoided ∨
      ∃ child ∈ program.childrenOf avoided,
        program.PathIn (visible.erase avoided) child last := by
  induction h with
  | @here id hid =>
    by_cases hsame : id = avoided
    · exact .inr (.inl hsame)
    · exact .inl (.here ((hnodup.mem_erase_iff).2 ⟨hsame, hid⟩))
  | @step id child last hid hchild _ ih =>
    rcases ih with hpath | hlast | hpath
    · by_cases hsame : id = avoided
      · subst hsame
        exact .inr (.inr ⟨child, hchild, hpath⟩)
      · exact .inl (.step ((hnodup.mem_erase_iff).2 ⟨hsame, hid⟩) hchild hpath)
    · exact .inr (.inl hlast)
    · exact .inr (.inr hpath)

end PathIn

/-- The walk visits the ends of the paths that lead from its stack.  The induction
is that of the walk. -/
theorem mem_walk {unvisited stack : List SymbolId} (hnodup : unvisited.Nodup) {last : SymbolId} :
    last ∈ program.walk unvisited stack ↔
      ∃ first ∈ stack, program.PathIn unvisited first last := by
  fun_induction program.walk unvisited stack with
  | case1 => simp
  | case2 unvisited id rest hid ih =>
    rw [List.mem_cons, ih (hnodup.erase id)]
    constructor
    · rintro (rfl | ⟨first, hfirst, hpath⟩)
      · exact ⟨last, .head _, .here hid⟩
      · have hpath := hpath.mono List.erase_subset
        rcases List.mem_append.1 hfirst with hchild | hrest
        · exact ⟨id, .head _, .step hid hchild hpath⟩
        · exact ⟨first, .tail _ hrest, hpath⟩
    · rintro ⟨first, hfirst, hpath⟩
      rcases hpath.erase hnodup id with hpath | hlast | ⟨child, hchild, hpath⟩
      · refine .inr ⟨first, ?_, hpath⟩
        have hne := ((hnodup.mem_erase_iff).1 hpath.first_mem).1
        exact List.mem_append_right _ ((List.mem_cons.1 hfirst).resolve_left hne)
      · exact .inl hlast
      · exact .inr ⟨child, List.mem_append_left _ hchild, hpath⟩
  | case3 unvisited id rest hid ih =>
    rw [ih hnodup]
    constructor
    · rintro ⟨first, hfirst, hpath⟩
      exact ⟨first, .tail _ hfirst, hpath⟩
    · rintro ⟨first, hfirst, hpath⟩
      rcases List.mem_cons.1 hfirst with rfl | hfirst
      · exact absurd hpath.first_mem hid
      · exact ⟨first, hfirst, hpath⟩

theorem lt_of_symbol? {id : SymbolId} {symbol : Symbol} (h : program.symbol? id = some symbol) :
    id < program.length :=
  (Array.getElem?_eq_some_iff.1 h).1

theorem mem_childrenOf {id child : SymbolId} {symbol : Symbol}
    (h : program.symbol? id = some symbol) (hchild : child ∈ symbol.children) :
    child ∈ program.childrenOf id := by
  rw [childrenOf, h]
  exact hchild

theorem exists_of_mem_childrenOf {id child : SymbolId} (h : child ∈ program.childrenOf id) :
    ∃ symbol, program.symbol? id = some symbol ∧ child ∈ symbol.children := by
  rw [childrenOf] at h
  cases hid : program.symbol? id with
  | none =>
    rw [hid] at h
    cases h
  | some symbol =>
    rw [hid] at h
    exact ⟨symbol, rfl, h⟩

theorem lt_of_mem_childrenOf {id child : SymbolId} (h : child ∈ program.childrenOf id) :
    id < program.length := by
  obtain ⟨symbol, hid, _⟩ := exists_of_mem_childrenOf h
  exact lt_of_symbol? hid

theorem pathIn_range {id last : SymbolId} (hlast : last < program.length) :
    program.PathIn (List.range program.length) id last ↔ program.Leads id last := by
  constructor
  · intro h
    induction h with
    | here _ => exact .refl
    | step _ hchild _ ih => exact .head hchild (ih hlast)
  · intro h
    induction h using Relation.ReflTransGen.head_induction_on with
    | refl => exact .here (List.mem_range.2 hlast)
    | head hchild _ ih => exact .step (List.mem_range.2 (lt_of_mem_childrenOf hchild)) hchild ih

/-- The reachable symbols are those of the arena that the root leads to. -/
theorem mem_reachable {id : SymbolId} :
    id ∈ program.reachable ↔ id < program.length ∧ program.Leads program.root id := by
  rw [reachable, mem_walk List.nodup_range]
  constructor
  · rintro ⟨first, hfirst, hpath⟩
    obtain rfl := List.mem_singleton.1 hfirst
    have hlast := List.mem_range.1 hpath.last_mem
    exact ⟨hlast, (pathIn_range hlast).1 hpath⟩
  · rintro ⟨hlast, hleads⟩
    exact ⟨_, .head _, (pathIn_range hlast).2 hleads⟩

/-- A mismatch that the root leads to is among the mismatches of the program. -/
theorem mem_mismatches {id : SymbolId} {cause : Mismatch} (hleads : program.Leads program.root id)
    (hid : program.symbol? id = some (.mismatch cause)) : cause ∈ program.mismatches := by
  refine List.mem_filterMap.2 ⟨id, mem_reachable.2 ⟨lt_of_symbol? hid, hleads⟩, ?_⟩
  rw [hid]
  rfl

theorem hasErrors_iff : program.hasErrors = true ↔ program.mismatches ≠ [] := by
  rw [hasErrors, Bool.not_eq_true', List.isEmpty_eq_false_iff]

end Program

end AvroResolution
