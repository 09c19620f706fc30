import AvroResolution.Proofs.Resolution.Correctness
import AvroResolution.Proofs.Resolution.Totality

/-!
# When a branch is picked

A union that reads a record as a record of another name looks at the symbol of the pair
when the branch is picked, and that symbol may still be an empty slot, which shows no
mismatch.  The order of the arena tells when this was so: the symbols that are compiled
for a record come between its slot and the order of its fields, which is pushed last.

* `Builder.PicksTimely` says that a pair that is picked shows no mismatch, unless it was
  picked between its slot and its end.  Every step of compilation keeps it
  (`Builder.Trace.picksTimely`).
* `SchemaPair.adjusts_timely` is the result for whole programs.
* `Chains.picked_too_early` is a program for which the exception cannot be left out.
-/

namespace AvroResolution

namespace Builder

variable {context : Context} {builder middle after last : Builder} {w r : RecordNode}
  {id symbol : SymbolId}

/-- The symbol `id` was compiled as part of the record whose symbol is `symbol`. -/
def CompiledInside (builder : Builder) (id symbol : Nat) : Prop :=
  ∃ children, ∃ order : Nat, builder.symbol? symbol = some (.sequence (children ++ [order])) ∧
    symbol < id ∧ id < order

/-- The pairs of records of two names that unions adjust to show no mismatch, unless
they were picked while they were being compiled. -/
def PicksTimely (context : Context) (builder : Builder) : Prop :=
  ∀ w r id symbol, builder.Adjusts context w r id symbol →
    builder.hasMatchError symbol = false ∨ builder.CompiledInside id symbol

theorem CompiledInside.grow (hgrows : builder.Grows after)
    (h : builder.CompiledInside id symbol) : after.CompiledInside id symbol := by
  obtain ⟨children, order, hsymbol, hinside⟩ := h
  exact ⟨children, order, hgrows.symbol _ _ hsymbol, hinside⟩

theorem picksTimely_empty (context : Context) : Builder.empty.PicksTimely context := by
  rintro w r id symbol ⟨⟨index, hid⟩, _⟩
  cases hid

theorem Adjusts.lt_size (h : builder.Adjusts context w r id symbol)
    (horderly : builder.Orderly context) : symbol < builder.slots.size := by
  obtain ⟨index, hid⟩ := h.adjusts
  exact horderly.children id _ hid symbol (.head _)

/-- A union that adjusts refers backwards. -/
theorem Adjusts.lt (h : builder.Adjusts context w r id symbol)
    (horderly : builder.Orderly context) : symbol < id := by
  obtain ⟨index, hid⟩ := h.adjusts
  rcases horderly.form id _ hid with ⟨_, _, _, hsequence, _⟩ | hback
  · cases hsequence
  · exact hback.1 symbol (.head _)

/-- What was picked stays as good as it was, in an arena that grows. -/
theorem PicksTimely.of_adjusts (h : builder.PicksTimely context)
    (horderly : builder.Orderly context) (hextends : builder.Extends after)
    (hadjusts : builder.Adjusts context w r id symbol) :
    after.hasMatchError symbol = false ∨ after.CompiledInside id symbol := by
  rcases h w r id symbol hadjusts with hshows | hinside
  · rw [horderly.hasMatchError_eq (hadjusts.lt_size horderly) hextends]
    exact .inl hshows
  · exact .inr (hinside.grow hextends.toGrows)

/-- A symbol that may be pushed keeps the picks timely. -/
theorem PicksTimely.push (h : builder.PicksTimely context) (horderly : builder.Orderly context)
    {pushed : Symbol} (hpushed : builder.Admits context pushed)
    (hchildren : ∀ child ∈ pushed.children, child < builder.slots.size) :
    (builder.pushSlot (some pushed)).PicksTimely context := by
  have hextends := builder.extends_pushSlot (some pushed)
  intro w r id symbol hadjusts
  obtain ⟨index, hid⟩ := hadjusts.adjusts
  by_cases hnew : id = builder.slots.size
  · rw [hnew, symbol?_pushSlot_self, Option.some_inj] at hid
    subst hid
    rw [horderly.hasMatchError_eq (hchildren symbol (.head _)) hextends]
    exact .inl (hpushed w r hadjusts.writer hadjusts.reader hadjusts.symbol hadjusts.names)
  · rw [symbol?_pushSlot_of_ne _ hnew] at hid
    exact h.of_adjusts horderly hextends
      ⟨⟨index, hid⟩, hadjusts.writer, hadjusts.reader, hadjusts.symbol, hadjusts.names⟩

/-- A record that is met again changes no pick. -/
theorem PicksTimely.meet (h : builder.PicksTimely context) (horderly : builder.Orderly context)
    (key : MemoKey) (met : SymbolId) : (builder.meet key met).PicksTimely context := by
  intro w r id symbol hadjusts
  exact h.of_adjusts horderly (builder.extends_meet key met)
    ⟨hadjusts.adjusts, hadjusts.writer, hadjusts.reader, hadjusts.symbol, hadjusts.names⟩

/-- No union that is there adjusts to a pair that is remembered now. -/
theorem PicksTimely.remember (h : builder.PicksTimely context)
    (horderly : builder.Orderly context) {key : MemoKey} {slot : Option Symbol}
    (hfresh : builder.memo.lookup key = none)
    (hslot : ∀ index symbol, slot ≠ some (.adjust index symbol)) :
    ((builder.pushSlot slot).remember key builder.slots.size).PicksTimely context := by
  have hextends := (builder.extends_pushSlot slot).trans
    (extends_remember _ builder.slots.size hfresh)
  intro w r id symbol hadjusts
  obtain ⟨index, hid⟩ : ∃ index, (builder.pushSlot slot).symbol? id = some (.adjust index symbol) :=
    hadjusts.adjusts
  have hold : id ≠ builder.slots.size := by
    rintro rfl
    rw [symbol?_pushSlot_self] at hid
    exact hslot index symbol hid
  rw [symbol?_pushSlot_of_ne slot hold] at hid
  have hlookup := hadjusts.symbol
  have hother : MemoKey.resolving w.id r.id ≠ key := by
    rintro rfl
    rw [lookup_remember_self, Option.some_inj] at hlookup
    subst hlookup
    exact Nat.lt_irrefl _ (horderly.children id _ hid _ (.head _))
  rw [lookup_remember_of_ne _ hother] at hlookup
  exact h.of_adjusts horderly hextends
    ⟨⟨index, hid⟩, hadjusts.writer, hadjusts.reader, hlookup, hadjusts.names⟩

/-- Whether another symbol shows a mismatch does not depend on the slot of a record, be it
empty or filled. -/
theorem hasMatchError_fillSlot {slot : SymbolId} (children : List SymbolId)
    (hslot : builder.symbol? slot = none) (hid : id ≠ slot) :
    (builder.fillSlot slot (.sequence children)).hasMatchError id = builder.hasMatchError id := by
  rw [hasMatchError, hasMatchError, symbol?_fillSlot_of_ne _ hid]
  cases builder.symbol? id with
  | none => rfl
  | some symbol =>
    cases symbol with
    | sequence others =>
      dsimp only
      rw [Bool.eq_iff_iff, List.any_eq_true, List.any_eq_true]
      refine exists_congr fun child => and_congr_right fun _ => ?_
      by_cases hchild : child = slot
      · subst hchild
        rw [hslot]
        by_cases hlt : child < builder.slots.size
        · rw [symbol?_fillSlot_self hlt]
          rfl
        · rw [symbol?_of_size_le (by rw [size_fillSlot]; exact Nat.le_of_not_lt hlt)]
      · rw [symbol?_fillSlot_of_ne _ hchild]
    | _ => rfl

/-- A union that adjusts to a record that is finished now was compiled inside of it. -/
theorem PicksTimely.fillSlot (h : builder.PicksTimely context)
    (horderly : builder.Orderly context) {slot : Nat} {children : List SymbolId} {order : Nat}
    {arrivals : List Arrival} (hslot : builder.symbol? slot = none)
    (hlt : slot < builder.slots.size) (horder : builder.symbol? order = some (.reorder arrivals))
    (hlast : builder.slots.size = order + 1) :
    (builder.fillSlot slot (.sequence (children ++ [order]))).PicksTimely context := by
  have hgrows := grows_fillSlot (.sequence (children ++ [order])) hslot
  intro w r id symbol hadjusts
  obtain ⟨index, hid⟩ := hadjusts.adjusts
  have hother : id ≠ slot := by
    rintro rfl
    rw [symbol?_fillSlot_self hlt] at hid
    cases hid
  rw [symbol?_fillSlot_of_ne _ hother] at hid
  have hbefore : builder.Adjusts context w r id symbol :=
    ⟨⟨index, hid⟩, hadjusts.writer, hadjusts.reader, hadjusts.symbol, hadjusts.names⟩
  by_cases hsymbol : symbol = slot
  · subst hsymbol
    have hle : id < order + 1 := hlast ▸ lt_size_of_symbol? hid
    have hne : id ≠ order := by
      rintro rfl
      cases hid.symm.trans horder
    exact .inr ⟨children, order, symbol?_fillSlot_self hlt _, hbefore.lt horderly,
      Nat.lt_of_le_of_ne (Nat.le_of_lt_succ hle) hne⟩
  · rcases h w r id symbol hbefore with hshows | hinside
    · rw [hasMatchError_fillSlot _ hslot hsymbol]
      exact .inl hshows
    · exact .inr (hinside.grow hgrows)

/-- A history keeps the picks timely.  The induction is on the history; a record that is
finished turns the picks of its slot into picks inside of it. -/
theorem Trace.picksTimely (h : Trace context builder after)
    (horderly : builder.Orderly context) (hbuilder : builder.PicksTimely context) :
    after.PicksTimely context := by
  induction h with
  | refl => exact hbuilder
  | push hbefore hsymbol hchildren ih =>
    exact (ih horderly hbuilder).push (hbefore.orderly horderly) hsymbol hchildren
  | met hbefore _ ih => exact (ih horderly hbuilder).meet (hbefore.orderly horderly) _ _
  | missing hbefore _ hfresh ih =>
    exact (ih horderly hbuilder).remember (hbefore.orderly horderly) hfresh nofun
  | record hbefore _ hfresh hinside _ horder hlast ih ihinside =>
    have hmiddle := hbefore.orderly horderly
    have hopened := hmiddle.opened hfresh
    have hextends := hinside.extends
    refine (ihinside hopened ((ih horderly hbuilder).remember hmiddle hfresh nofun)).fillSlot
      (hinside.orderly hopened) hextends.symbol?_opened ?_ horder hlast
    exact Nat.lt_of_lt_of_le (by rw [size_opened]; exact Nat.lt_succ_self _) hextends.size

end Builder

namespace Program.Built

variable {context : Context} {program : Program} {builder : Builder} {id symbol : SymbolId}
  {w r : RecordNode}

/-- A pair of records that a union adjusts to is compiled to a sequence, which shows a
mismatch only if the pair was picked inside of it. -/
theorem of_adjusts (hbuilt : program.Built context builder) (htimely : builder.PicksTimely context)
    (hadjusts : builder.Adjusts context w r id symbol) :
    ∃ children order arrivals, program.symbol? symbol = some (.sequence (children ++ [order])) ∧
      program.symbol? order = some (.reorder arrivals) ∧
        ((∃ child ∈ children, ∃ cause, program.symbol? child = some (.mismatch cause)) →
          symbol < id ∧ id < order) := by
  have hrecord := hbuilt.records _ _ _ hadjusts.writer hadjusts.reader hadjusts.symbol
  simp only [hbuilt.symbol]
  rcases hrecord.cases_symbol with ⟨field, hmismatch⟩ | ⟨children, order, arrivals, hid, horder⟩
  · rcases htimely _ _ _ _ hadjusts with hshows | ⟨_, _, hsequence, _⟩
    · rw [Builder.hasMatchError, hmismatch] at hshows
      cases hshows
    · cases hmismatch.symm.trans hsequence
  · refine ⟨children, order, arrivals, hid, horder, ?_⟩
    rintro ⟨child, hchild, cause, hcause⟩
    rcases htimely _ _ _ _ hadjusts with hshows | ⟨others, last, hsequence, hinside⟩
    · rw [Builder.hasMatchError, hid] at hshows
      have hclear := List.any_eq_false.1 hshows child (List.mem_append_left _ hchild)
      rw [hcause] at hclear
      exact absurd rfl hclear
    · rw [hid, Option.some_inj, Symbol.sequence.injEq] at hsequence
      obtain ⟨rfl, hlast⟩ := List.append_inj' hsequence rfl
      obtain rfl := List.singleton_inj.1 hlast
      exact hinside

/-- Where the picks stand, a union takes the branch that the rules choose. -/
theorem choice_of_adjust (hbuilt : program.Built context builder)
    (hstand : program.PicksStand context builder) {writer reader : Node}
    (hreads : builder.Reads context writer reader id) (hleads : program.Leads program.root id)
    {shape : Shape} {branches : List Node}
    (hreading : context.reading? writer reader = some (.readerUnion branches))
    (hshape : context.shape? writer = some shape) {index : Nat}
    (hid : program.symbol? id = some (.adjust index symbol)) :
    ∃ branch, context.choice shape branches = some (branch, index) := by
  rw [hbuilt.symbol] at hid
  obtain ⟨found, kept, hfound, hkept, hpicked⟩ := hreads.of_reading hreading
  cases hshape.symm.trans hfound
  cases hpick : context.pick shape branches.zipIdx kept with
  | none =>
    rw [hpick] at hpicked
    obtain ⟨cause, hcause⟩ := hpicked
    cases hid.symm.trans hcause
  | some candidate =>
    rcases candidate with ⟨branch, place⟩
    rw [hpick] at hpicked
    obtain ⟨target, hbranch, htarget⟩ := hpicked
    cases hid.symm.trans htarget
    rcases hkept.pick_eq_or hpick with hchoice | ⟨w, r, rfl, hr, hnames, hmisfit⟩
    · exact ⟨branch, hchoice⟩
    · exact absurd hmisfit (hbuilt.picksStand_iff.1 hstand w r id symbol hleads
        (hbranch.adjusts hshape hr hid hnames))

end Program.Built

/-! ## The result -/

namespace SchemaPair

variable {pair : SchemaPair} {config : Config} {program : Program}

/-- A union that reads a record as one of another name adjusts to the sequence of the
pair, which is complete.  If a linked field of the pair is a mismatch, then the union was
compiled inside of the pair.  Where no pair is picked inside of itself, every union takes
the branch that the rules choose, whatever the order in which the pairs were compiled. -/
theorem adjusts_timely (hprogram : pair.program config = .ok program) :
    ∃ builder, pair.build config = .ok (program.root, builder) ∧
      (∀ w r id symbol, builder.Adjusts (pair.context config) w r id symbol →
        ∃ children order arrivals,
          program.symbol? symbol = some (.sequence (children ++ [order])) ∧
            program.symbol? order = some (.reorder arrivals) ∧
              ((∃ child ∈ children, ∃ cause, program.symbol? child = some (.mismatch cause)) →
                symbol < id ∧ id < order)) ∧
      ((∀ w r id symbol, program.Leads program.root id →
          builder.Adjusts (pair.context config) w r id symbol →
            ¬builder.CompiledInside id symbol) →
        ∀ writer reader id shape branches index symbol, program.Leads program.root id →
          builder.Reads (pair.context config) writer reader id →
            (pair.context config).reading? writer reader = some (.readerUnion branches) →
              (pair.context config).shape? writer = some shape →
                program.symbol? id = some (.adjust index symbol) →
                  ∃ branch, (pair.context config).choice shape branches =
                    some (branch, index)) := by
  obtain ⟨builder, hbuild, hbuilt, _⟩ := built hprogram
  have htimely : builder.PicksTimely (pair.context config) :=
    (trace_build hbuild).picksTimely (Builder.orderly_empty _) (Builder.picksTimely_empty _)
  refine ⟨builder, hbuild, fun _ _ _ _ => hbuilt.of_adjusts htimely, ?_⟩
  intro houtside writer reader id shape branches index symbol hleads hreads hreading hshape hid
  have hstand : program.PicksStand (pair.context config) builder := by
    intro w r id symbol hleads hadjusts
    exact (htimely w r id symbol hadjusts).resolve_right
      (houtside w r id symbol hleads hadjusts)
  exact hbuilt.choice_of_adjust hstand hreads hleads hreading hshape hid

end SchemaPair

namespace Chains

theorem defines_numbered : (schemas.context {}).Defines numbered :=
  ⟨schemas.writerRoot, ⟨schemas.writerRoot, rfl, Node.self_mem_preorder _⟩, rfl⟩

theorem defines_named : (schemas.context {}).Defines named :=
  ⟨⟨.reader, 0, chain "Named" either .string⟩,
    ⟨schemas.readerRoot, rfl, Node.part_mem_preorder (Node.self_mem_preorder _) (.head _)⟩, rfl⟩

/-- A path leads to a union that adjusts to the first symbol, which has a mismatch among its
children. -/
def misled (program : Program) : Bool :=
  match program.symbol? 2, program.symbol? 0, program.symbol? 11 with
  | some (.adjust 0 0), some (.sequence [10, 11, 12]), some (.mismatch _) =>
    decide (1 ∈ program.childrenOf program.root ∧ 5 ∈ program.childrenOf 1 ∧
      4 ∈ program.childrenOf 5 ∧ 2 ∈ program.childrenOf 4)
  | _, _, _ => false

/-- More chains of numbered chains are read as named ones, because the pair of the two was
picked before its tags were compiled, which are a number and a text. -/
theorem picked_too_early :
    ∃ program builder, schemas.program {} = .ok program ∧
      schemas.build {} = .ok (program.root, builder) ∧ program.Leads program.root 2 ∧
        builder.Adjusts (schemas.context {}) numbered named 2 0 ∧
          program.symbol? 0 = some (.sequence [10, 11, 12]) ∧
            ∃ cause, program.symbol? 11 = some (.mismatch cause) := by
  obtain ⟨program, hprogram, hmisled⟩ := Reader.exists_ok (schemas.program {}) misled
    (by decide +kernel)
  obtain ⟨result, hresult, hlookup⟩ := Reader.exists_ok (schemas.build {})
    (fun result => result.2.memo.lookup (.resolving numbered.id named.id) == some 0)
    (by decide +kernel)
  obtain ⟨builder, hbuild, hbuilt, _⟩ := SchemaPair.built hprogram
  obtain rfl : (program.root, builder) = result := Except.ok.inj (hbuild.symm.trans hresult)
  rw [misled] at hmisled
  split at hmisled
  · rename_i cause hadjust hsequence hmismatch
    obtain ⟨hfirst, hsecond, hthird, hlast⟩ := of_decide_eq_true hmisled
    have hleads : program.Leads program.root 2 :=
      .head hfirst (.head hsecond (.head hthird (.single hlast)))
    refine ⟨program, builder, hprogram, hbuild, hleads, ?_, hsequence, cause, hmismatch⟩
    exact ⟨⟨0, by rw [← hbuilt.symbol, hadjust]⟩, defines_numbered, defines_named,
      eq_of_beq hlookup, by decide⟩
  · cases hmisled

/-- The pair of numbered and named chains was picked inside of itself. -/
theorem adjusts_timely_chains :
    ∃ program builder children, ∃ order : Nat, schemas.program {} = .ok program ∧
      schemas.build {} = .ok (program.root, builder) ∧
        builder.Adjusts (schemas.context {}) numbered named 2 0 ∧
          program.symbol? 0 = some (.sequence (children ++ [order])) ∧ 2 < order := by
  obtain ⟨program, built, hprogram, hbuilt, _, hadjusts, hsequence, cause, hcause⟩ :=
    picked_too_early
  obtain ⟨builder, hbuild, htimely, _⟩ := SchemaPair.adjusts_timely hprogram
  obtain rfl : built = builder := by
    injection hbuilt.symm.trans hbuild with hresult
    exact congrArg Prod.snd hresult
  obtain ⟨children, order, arrivals, hid, _, hinside⟩ := htimely _ _ _ _ hadjusts
  refine ⟨program, built, children, order, hprogram, hbuild, hadjusts, hid, ?_⟩
  rw [hsequence, Option.some_inj, Symbol.sequence.injEq] at hid
  have hsplit : [10, 11] ++ [12] = children ++ [order] := hid
  obtain ⟨rfl, -⟩ := List.append_inj' hsplit rfl
  exact (hinside ⟨11, .tail _ (.head _), cause, hcause⟩).2

end Chains

end AvroResolution
