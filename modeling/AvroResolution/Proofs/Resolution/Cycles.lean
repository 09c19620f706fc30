import AvroResolution.Proofs.Program.Traversal
import AvroResolution.Proofs.Resolution.Totality
import Mathlib.Data.List.Cycle

/-!
# Cycles go through records

A type contains itself only through a record, and so it is with the symbols of a program: a record
reserves its symbol before the symbols of its fields are there, and all other symbols refer to
symbols that are there already.

* `Program.Layered` says of an arena that references lead into it, that only those of records lead
  forwards, and that no terminal is there twice.
* `Program.Layered.exists_recordAt`: every cycle of such an arena goes through a record.
* `Builder.Interned` is what a history keeps because a terminal is looked up before it is pushed.
* `Program.layered_of_compiled` is the result, for the programs of two schemas and for a schema's
  own grammar.
-/

namespace AvroResolution

/-! ## Arenas in layers -/

namespace Program

variable {program : Program}

/-- The symbol is the sequence of a record, which a reorder closes. -/
def RecordAt (program : Program) (id : SymbolId) : Prop :=
  ∃ children order arrivals, program.symbol? id = some (.sequence (children ++ [order])) ∧
    program.symbol? order = some (.reorder arrivals)

/-- References lead from each symbol to the next one and from the last to the first. -/
def IsCycle (program : Program) (cycle : Cycle SymbolId) : Prop :=
  cycle ≠ .nil ∧ cycle.Chain fun id child => child ∈ program.childrenOf id

theorem isCycle_cons {first : SymbolId} {rest : List SymbolId} :
    program.IsCycle ((first :: rest : List SymbolId) : Cycle SymbolId) ↔
      List.IsChain (fun id child => child ∈ program.childrenOf id)
        (first :: (rest ++ [first])) := by
  rw [IsCycle, Cycle.chain_coe_cons, and_iff_right]
  exact fun hnil => List.cons_ne_nil first rest ((Cycle.coe_eq_nil _).1 hnil)

/-- References lead into the arena, and backwards if they are not those of a record; and no two
terminals are equal. -/
structure Layered (program : Program) : Prop where
  closed : program.Closed
  backwards : ∀ id, ∀ child ∈ program.childrenOf id, program.RecordAt id ∨ child < id
  interned : ∀ id other terminal, program.symbol? id = some (.terminal terminal) →
    program.symbol? other = some (.terminal terminal) → id = other

/-- Without a record the references of a cycle would lead backwards all the way round. -/
theorem Layered.exists_recordAt (h : program.Layered) {cycle : Cycle SymbolId}
    (hcycle : program.IsCycle cycle) : ∃ id ∈ cycle, program.RecordAt id := by
  obtain ⟨hne, hchain⟩ := hcycle
  by_contra! hnone
  have hbackwards : cycle.Chain (· > ·) := by
    induction cycle using Cycle.induction_on with
    | nil => exact absurd rfl hne
    | cons first rest _ =>
      rw [Cycle.chain_coe_cons] at hchain ⊢
      refine hchain.imp_of_mem_imp fun id child hid _ hchild => ?_
      have hmem : id ∈ ((first :: rest : List SymbolId) : Cycle SymbolId) := by
        simp only [Cycle.mem_coe_iff, List.mem_cons, List.mem_append, List.not_mem_nil] at hid ⊢
        tauto
      exact (h.backwards id child hchild).resolve_left (hnone id hmem)
  exact hne hbackwards.eq_nil_of_irrefl

end Program

/-! ## Terminals are there once -/

namespace Builder

variable {context : Context} {builder after : Builder}

/-- No two terminals of the arena are equal. -/
def Interned (builder : Builder) : Prop :=
  ∀ id other terminal, builder.symbol? id = some (.terminal terminal) →
    builder.symbol? other = some (.terminal terminal) → id = other

theorem ne_of_terminal?_eq_none {terminal : Terminal} (h : builder.terminal? terminal = none)
    (id : SymbolId) : builder.symbol? id ≠ some (.terminal terminal) := by
  intro hid
  rw [symbol?, Option.join_eq_some_iff] at hid
  have hmissed := Array.findIdx?_eq_none_iff.1 h _ (Array.mem_of_getElem? hid)
  exact absurd hmissed (by simp)

theorem interned_empty : Builder.empty.Interned := nofun

/-- An arena that changes in one slot keeps its terminals apart if a terminal there is new. -/
theorem Interned.change (h : builder.Interned) (changed : SymbolId)
    (hold : ∀ id, id ≠ changed → after.symbol? id = builder.symbol? id)
    (hnew : ∀ terminal, after.symbol? changed = some (.terminal terminal) →
      ∀ id, builder.symbol? id ≠ some (.terminal terminal)) : after.Interned := by
  intro id other terminal hid hother
  by_cases hidchanged : id = changed <;> by_cases hotherchanged : other = changed
  · rw [hidchanged, hotherchanged]
  · subst hidchanged
    rw [hold other hotherchanged] at hother
    exact absurd hother (hnew terminal hid other)
  · subst hotherchanged
    rw [hold id hidchanged] at hid
    exact absurd hid (hnew terminal hother id)
  · rw [hold id hidchanged] at hid
    rw [hold other hotherchanged] at hother
    exact h id other terminal hid hother

theorem Interned.pushSlot (h : builder.Interned) {slot : Option Symbol}
    (hslot : ∀ terminal, slot = some (.terminal terminal) → builder.terminal? terminal = none) :
    (builder.pushSlot slot).Interned := by
  refine h.change builder.slots.size (fun id hid => symbol?_pushSlot_of_ne slot hid) ?_
  intro terminal hterminal
  rw [symbol?_pushSlot_self] at hterminal
  exact ne_of_terminal?_eq_none (hslot terminal hterminal)

/-- A history pushes no terminal that is there already.  The slot of a record is filled with a
sequence. -/
theorem Trace.interned (h : Trace context builder after) (hbuilder : builder.Interned) :
    after.Interned := by
  induction h with
  | refl => exact hbuilder
  | push _ hsymbol _ ih =>
    refine (ih hbuilder).pushSlot ?_
    rintro terminal ⟨⟩
    exact hsymbol
  | met _ _ ih => exact ih hbuilder
  | missing _ _ _ ih => exact (ih hbuilder).pushSlot nofun
  | @record builder middle last key children order _ _ _ _ hinside _ _ _ ih ihinside =>
    have hopened : (middle.opened key).Interned := (ih hbuilder).pushSlot nofun
    have hsize := hinside.extends.size
    rw [size_opened] at hsize
    refine (ihinside hopened).change middle.slots.size
      (fun id hid => symbol?_fillSlot_of_ne _ hid) ?_
    intro terminal hterminal
    rw [symbol?_fillSlot_self hsize] at hterminal
    cases hterminal

/-! ## Finished programs -/

/-- A finished arena is in layers. -/
theorem Trace.layered (h : Trace context Builder.empty builder) {root : SymbolId}
    (hroot : root < builder.slots.size) {program : Program}
    (hfinish : builder.finish root = .ok program) : program.Layered := by
  obtain ⟨rfl, hsymbol, hlength⟩ := of_finish hfinish
  have horderly := h.orderly (orderly_empty context)
  have hinterned := h.interned interned_empty
  refine ⟨⟨hlength ▸ hroot, ?_⟩, ?_, ?_⟩
  · intro id child hchild
    obtain ⟨symbol, hid, hchild⟩ := Program.exists_of_mem_childrenOf hchild
    rw [hlength]
    exact horderly.children id symbol (hsymbol id ▸ hid) child hchild
  · intro id child hchild
    obtain ⟨symbol, hid, hchild⟩ := Program.exists_of_mem_childrenOf hchild
    rcases horderly.form id symbol (hsymbol id ▸ hid) with hrecord | hback
    · obtain ⟨children, order, arrivals, rfl, horder, -⟩ := hrecord
      exact .inl ⟨children, order, arrivals, hid, (hsymbol order).trans horder⟩
    · exact .inr (hback.1 child hchild)
  · intro id other terminal hid hother
    rw [hsymbol] at hid hother
    exact hinterned id other terminal hid hother

end Builder

/-- The program of a compilation that goes by steps is in layers. -/
theorem Compile.Proceeds.layered {compiled : Builder → MemoKey → SymbolId → Prop}
    {context : Context} {faulty : SchemaFault → Prop} {x : Compile SymbolId}
    {post : SymbolId → Builder → Prop} (h : Proceeds compiled context faulty Builder.empty x post)
    (hpost : ∀ id after, after.Sound compiled → post id after → id < after.slots.size)
    {program : Program} (hprogram : (do
      let (id, builder) ← x Builder.empty
      builder.finish id) = .ok program) : program.Layered := by
  cases hx : x Builder.empty with
  | error fault =>
    rw [hx] at hprogram
    cases hprogram
  | ok result =>
    rcases result with ⟨id, builder⟩
    rw [hx] at hprogram
    obtain ⟨htidy, htrace, hid⟩ := h.of_ok (Builder.tidy_empty _ _) hx
    exact htrace.layered (hpost id builder htidy.sound hid) hprogram

namespace Program

theorem layered_of_pair {pair : SchemaPair} {config : Config} {program : Program}
    (h : pair.program config = .ok program) : program.Layered := by
  rw [SchemaPair.program_eq] at h
  exact (pair.proceeds_build config).layered (fun _ _ hsound hreads => hreads.lt_size hsound) h

theorem layered_of_validating {schema : Schema} {program : Program}
    (h : Program.validating schema = .ok program) : program.Layered := by
  rw [Schema.validating_eq] at h
  have hproceeds := Schema.proceeds_build schema.region_forest (Node.root_mem_forest (.head _))
  exact hproceeds.layered (fun _ _ hsound hvalidates => hvalidates.lt_size hsound) h

/-- In every program that compilation gives, for two schemas or for one by itself, references
lead into the arena, those that are not of a record lead backwards, and no two terminals are
equal.  So every cycle goes through a record, whether the root leads to it or not. -/
theorem layered_of_compiled :
    (∀ (pair : SchemaPair) (config : Config) (program : Program),
      pair.program config = .ok program → program.Layered ∧
        ∀ cycle, program.IsCycle cycle → ∃ id ∈ cycle, program.RecordAt id) ∧
    ∀ (schema : Schema) (program : Program), Program.validating schema = .ok program →
      program.Layered ∧ ∀ cycle, program.IsCycle cycle → ∃ id ∈ cycle, program.RecordAt id := by
  constructor
  · intro pair config program hprogram
    have hlayered := layered_of_pair hprogram
    exact ⟨hlayered, fun _ => hlayered.exists_recordAt⟩
  · intro schema program hprogram
    have hlayered := layered_of_validating hprogram
    exact ⟨hlayered, fun _ => hlayered.exists_recordAt⟩

/-- The next link is read by the link before it. -/
theorem layered_of_compiled_links :
    (∃ program, SchemaPair.links.program {} = .ok program ∧ program.Layered ∧
      ∃ id ∈ [0, 5, 4, 3], program.RecordAt id) ∧
    ∃ program, Program.validating (SchemaPair.link []) = .ok program ∧ program.Layered ∧
      ∃ id ∈ [0, 4, 3], program.RecordAt id := by
  constructor
  · obtain ⟨program, hprogram, h⟩ := Reader.exists_ok (SchemaPair.links.program {})
      (fun program => decide (List.IsChain (fun id child => child ∈ program.childrenOf id)
        [0, 5, 4, 3, 0])) (by decide +kernel)
    obtain ⟨hlayered, hcycles⟩ := layered_of_compiled.1 _ {} program hprogram
    exact ⟨program, hprogram, hlayered, hcycles _ (isCycle_cons.2 (of_decide_eq_true h))⟩
  · obtain ⟨program, hprogram, h⟩ := Reader.exists_ok (Program.validating (SchemaPair.link []))
      (fun program => decide (List.IsChain (fun id child => child ∈ program.childrenOf id)
        [0, 4, 3, 0])) (by decide +kernel)
    obtain ⟨hlayered, hcycles⟩ := layered_of_compiled.2 _ program hprogram
    exact ⟨program, hprogram, hlayered, hcycles _ (isCycle_cons.2 (of_decide_eq_true h))⟩

end Program

end AvroResolution
