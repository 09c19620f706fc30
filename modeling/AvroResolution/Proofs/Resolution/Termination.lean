import AvroResolution.Proofs.Decoding.Ending
import AvroResolution.Proofs.Resolution.Replay
import Mathlib.Data.Fintype.Card
import Mathlib.Data.Set.Finite.Basic
import Mathlib.Order.Filter.AtTopBot.Basic
import Mathlib.Order.Filter.Finite

/-!
# Decoding comes to an end

A compiled program may run in circles only where the data do not get shorter.

* `Registry.Grounded` says that no record contains itself without a union, an array or a
  map in between.  Below a union, an array or a map a byte of the data has been read
  (`Program.Built.ends_of_parts`), and from record to record there is no way back, so
  `Registry.Grounded.induction` covers the rest (`Program.Built.ends`).
* A default is read from bytes of its own, which a grounded record does not bound.  They are
  a datum of the field's type, and reading them goes by the rules of that datum, which meet
  no further default (`Program.Built.takes_itself`).
* `SchemaPair.decode_ends` is the result.  Where one schema is a part of the other, a default
  may be met in a default (`SharedTree.gives_up_of_decode`).
-/

namespace AvroResolution

/-! ## Records in records -/

namespace Registry

variable {registry : Registry} {record inner : RecordNode}

/-- A record has a field whose type is another record. -/
def Encloses (registry : Registry) (outer inner : RecordNode) : Prop :=
  ∃ field ∈ outer.fields, registry.shape? field.type = some (.named (.record inner))

/-- No record contains itself without a union, an array or a map in between. -/
def Grounded (registry : Registry) : Prop :=
  ∀ record, registry.Defines record → ¬Relation.TransGen registry.Encloses record record

theorem Defines.enclosed (h : registry.Defines record) (hinner : registry.Encloses record inner) :
    registry.Defines inner := by
  obtain ⟨field, hfield, hshape⟩ := hinner
  exact ((h.field hfield).1.record (look_of_shape? hshape)).1

theorem finite_defines (registry : Registry) : {record | registry.Defines record}.Finite := by
  have hinjective : Function.Injective Definition.record := by
    intro record other h
    injection h
  refine ((List.finite_toSet (registry.entries.map (·.definition))).preimage
    hinjective.injOn).subset ?_
  rintro record ⟨node, ⟨root, rfl, hnode⟩, hdefinition⟩
  obtain ⟨entry, hentry, hsame⟩ := mem_entries_ofRoot.2 ⟨node, hnode, hdefinition⟩
  exact List.mem_map.2 ⟨entry, hentry, hsame⟩

/-- What holds of a record as soon as it holds of the records right in it holds of all
records. -/
theorem Grounded.induction (h : registry.Grounded) {motive : RecordNode → Prop}
    (step : ∀ record, registry.Defines record →
      (∀ inner, registry.Encloses record inner → motive inner) → motive record)
    (hrecord : registry.Defines record) : motive record := by
  let Inside (inner outer : {record | registry.Defines record}) : Prop :=
    Relation.TransGen registry.Encloses outer.1 inner.1
  have : Finite {record | registry.Defines record} := registry.finite_defines
  have : IsTrans _ Inside := ⟨fun _ _ _ hinner houter => Relation.TransGen.trans houter hinner⟩
  have : Std.Irrefl Inside := ⟨fun record => h record.1 record.2⟩
  have hwf : WellFounded Inside := Finite.wellFounded_of_trans_of_irrefl Inside
  exact hwf.induction (C := fun record => motive record.1) ⟨record, hrecord⟩
    fun record ih => step record.1 record.2 fun inner hinner =>
      ih ⟨inner, Defines.enclosed record.2 hinner⟩ (.single hinner)

/-- It is enough that records get smaller from record to record, by some measure. -/
theorem grounded_of_measure (measure : RecordNode → Nat)
    (h : registry.entries.all (fun entry => (Shape.named entry.definition).parts.all fun part =>
      match entry.definition, registry.shape? part with
      | .record outer, some (.named (.record inner)) => decide (measure inner < measure outer)
      | _, _ => true) = true) : registry.Grounded := by
  have hless {outer inner : RecordNode} (houter : registry.Defines outer)
      (hinner : registry.Encloses outer inner) : measure inner < measure outer := by
    obtain ⟨node, ⟨root, rfl, hnode⟩, hdefinition⟩ := houter
    obtain ⟨field, hfield, hshape⟩ := hinner
    obtain ⟨entry, hentry, hsame⟩ := mem_entries_ofRoot.2 ⟨node, hnode, hdefinition⟩
    have hparts := List.all_eq_true.1 h entry hentry
    rw [hsame] at hparts
    have hpass := List.all_eq_true.1 hparts field.type (List.mem_map_of_mem hfield)
    rw [hshape] at hpass
    exact of_decide_eq_true hpass
  intro record hrecord hcycle
  have hbelow : ∀ inner, Relation.TransGen registry.Encloses record inner →
      registry.Defines inner ∧ measure inner < measure record := by
    intro inner hinner
    induction hinner with
    | single hstep => exact ⟨hrecord.enclosed hstep, hless hrecord hstep⟩
    | tail _ hstep ih => exact ⟨ih.1.enclosed hstep, Nat.lt_trans (hless ih.1 hstep) ih.2⟩
  exact Nat.lt_irrefl _ (hbelow record hcycle).2

end Registry

namespace Context

/-- The encodings of the defaults in a record. -/
def defaultBytes (context : Context) (record : RecordNode) : List (List UInt8) :=
  record.fields.filterMap fun field => do
    let literal ← field.default?
    (encodeDefault (context.registry field.type.side) field.type literal).toOption

theorem mem_defaultBytes {context : Context} {record : RecordNode} {field : Field Node}
    (hfield : field ∈ record.fields) {literal : Literal}
    (hdefault : field.default? = some literal) {bytes : List UInt8}
    (hbytes : encodeDefault (context.registry field.type.side) field.type literal = .ok bytes) :
    bytes ∈ context.defaultBytes record := by
  refine List.mem_filterMap.2 ⟨field, hfield, ?_⟩
  rw [hdefault, Option.bind_eq_bind, Option.bind_some, hbytes]
  rfl

end Context

/-! ## Defaults -/

namespace Program

open Filter Reader

variable {context : Context} {program : Program} {builder : Builder} {target : Side}
  {root node writer reader : Node} {id : SymbolId} {limit : Nat}

/-- What all large depths do for each of two lists of parts, they do for all of them at
once. -/
theorem eventually_forall₂ {α β : Type} {related : Nat → α → β → Prop} {items : List α}
    {others : List β}
    (h : List.Forall₂ (fun item other => ∀ᶠ depth in atTop, related depth item other) items
      others) : ∀ᶠ depth in atTop, List.Forall₂ (related depth) items others := by
  induction h with
  | nil => exact .of_forall fun _ => .nil
  | cons hfirst _ ih => exact (hfirst.and ih).mono fun _ h => .cons h.1 h.2

/-- What follows, some steps deeper, from what all large depths do, all large depths do. -/
theorem eventually_deeper {holds follows : Nat → Prop} (h : ∀ᶠ depth in atTop, holds depth)
    (steps : Nat) (hstep : ∀ depth, holds depth → follows (depth + steps)) :
    ∀ᶠ depth in atTop, follows depth := by
  filter_upwards [(tendsto_sub_atTop_nat steps).eventually h, eventually_ge_atTop steps] with
    depth hless hle
  have hfollows := hstep _ hless
  rwa [Nat.sub_add_cancel hle] at hfollows

theorem takes_readEach {refuses : DecodeFault → Prop} {readers : List (Reader Value)}
    {parts : List (List UInt8)} (h : List.Forall₂ (TakesUnless refuses) readers parts)
    (values : List Value) :
    TakesUnless refuses (readEach (readers.map .kept) values) parts.flatten := by
  induction h generalizing values with
  | nil => exact .pure values
  | cons hfirst _ ih => exact .bind hfirst fun value => ih (value :: values)

/-- A symbol that reads a node as itself reads every datum of the node to its end, if it may
go deep enough.  The induction is on the rules of the datum. -/
theorem Built.takes_itself (hbuilt : program.Built context builder)
    (hmirrors : context.Mirrors root target)
    (hdistinct : root.everyShape Shape.fieldsDistinct = true)
    (hflat : root.everyShape (Registry.ofRoot root).branchesFlat = true) {bytes : List UInt8}
    (h : (Registry.ofRoot root).Encodes node bytes) (hnode : node ∈ Node.forest [root])
    (hreads : builder.Reads context node (node.onSide target) id) :
    ∀ᶠ depth in atTop, TakesUnless (· ≠ .endless) (program.runWithin depth id) bytes := by
  have hdatum : ∀ fault, DecodeFault.refusesDatum fault → fault ≠ .endless :=
    fun _ h => h.ne_endless
  have hpart {node part : Node} (hnode : node ∈ Node.forest [root]) {shape : Shape}
      (hshape : context.shape? node = some shape) (hmem : part ∈ shape.parts) :
      part ∈ Node.forest [root] := hmirrors.spans.part hnode hshape hmem
  induction h generalizing id with
  | primitive hshape haddressable hbytes =>
    rw [← hmirrors.spans.shape?_eq hnode] at hshape
    have hrun := hbuilt.runWithin_itself hmirrors hdistinct hnode hreads hshape
    refine eventually_deeper (eventually_true _) 1 fun less _ => ?_
    rw [hrun]
    exact Registry.takes_of_encodePrimitive hdatum haddressable hbytes
  | enum hshape hbytes =>
    rw [← hmirrors.spans.shape?_eq hnode] at hshape
    have hrun := hbuilt.runWithin_itself hmirrors hdistinct hnode hreads hshape
    refine eventually_deeper (eventually_true _) 1 fun less _ => ?_
    obtain ⟨ordinal, rfl⟩ := Registry.exists_of_encodeEnum hbytes
    rw [hrun]
    exact takes_readEnum hdatum _ ordinal
  | fixed hshape hbytes =>
    rw [← hmirrors.spans.shape?_eq hnode] at hshape
    have hrun := hbuilt.runWithin_itself hmirrors hdistinct hnode hreads hshape
    refine eventually_deeper (eventually_true _) 1 fun less _ => ?_
    obtain ⟨content, _, hbytes⟩ := bind_eq_ok.1 hbytes
    cases hbytes
    rw [hrun]
    exact .bind_pure (takes_take (length_resize _ _)) fun _ => .pure _
  | @record node record parts hshape hlength _ ih =>
    rw [← hmirrors.spans.shape?_eq hnode] at hshape
    obtain ⟨symbols, hsymbols, hrun⟩ :=
      hbuilt.runWithin_itself hmirrors hdistinct hnode hreads hshape
    have hfields : ∀ᶠ depth in atTop, List.Forall₂ (fun symbol part =>
        TakesUnless (· ≠ .endless) (program.runWithin depth symbol) part) symbols parts := by
      refine eventually_forall₂ (List.forall₂_iff_get.2
        ⟨by rw [hlength, hsymbols.length_eq], fun index hsymbol hbytes => ?_⟩)
      have hindex : index < record.fields.length := by rwa [← hlength]
      have hfield := List.getElem?_eq_getElem hindex
      exact ih index _ _ hfield (List.getElem?_eq_getElem hbytes)
        (hpart hnode hshape (List.mem_map_of_mem (List.getElem_mem hindex)))
        (related_of_getElem? hsymbols hfield (List.getElem?_eq_getElem hsymbol))
    refine eventually_deeper hfields 1 fun less hfields => ?_
    rw [hrun]
    refine .bind_pure (takes_readEach (List.forall₂_map_left_iff.2 hfields) []) fun values => ?_
    cases placeFields (Builder.ownArrivals record.fields) values.reverse with
    | ok value => exact .pure value
    | error fault => exact .throw nofun
  | @array node items parts hshape hlength _ ih =>
    rw [← hmirrors.spans.shape?_eq hnode] at hshape
    obtain ⟨item, hitem, hrun⟩ :=
      hbuilt.runWithin_itself hmirrors hdistinct hnode hreads hshape
    have hparts : ∀ᶠ depth in atTop, ∀ part ∈ {part | part ∈ parts},
        TakesUnless (· ≠ .endless) (program.runWithin depth item) part :=
      (eventually_all_finite (List.finite_toSet parts)).2 fun part hmem =>
        ih part hmem (hpart hnode hshape (.head _)) hitem
    refine eventually_deeper hparts 1 fun less hparts => ?_
    rw [hrun]
    exact .readArray hdatum hlength hparts
  | @map node values entries hshape hlength hkeys _ ih =>
    rw [← hmirrors.spans.shape?_eq hnode] at hshape
    obtain ⟨value, hvalue, hrun⟩ :=
      hbuilt.runWithin_itself hmirrors hdistinct hnode hreads hshape
    have hparts : ∀ᶠ depth in atTop, ∀ entry ∈ {entry | entry ∈ entries},
        TakesUnless (· ≠ .endless) (program.runWithin depth value) entry.2 :=
      (eventually_all_finite (List.finite_toSet entries)).2 fun entry hmem =>
        ih entry hmem (hpart hnode hshape (.head _)) hvalue
    refine eventually_deeper hparts 1 fun less hparts => ?_
    rw [hrun]
    exact .readMap hlength hkeys hparts
  | @union node first others bytes hshape _ ih =>
    have hpass := Registry.of_everyShape hflat (Node.mem_forest_singleton.1 hnode) hshape
    rw [← hmirrors.spans.shape?_eq hnode] at hshape
    obtain ⟨alternatives, hlength, hbranches, hrun⟩ :=
      hbuilt.runWithin_itself hmirrors hdistinct hnode hreads hshape
    have hpos : 0 < alternatives.length := by
      rw [hlength]
      exact Nat.succ_pos _
    obtain ⟨own, hadjust, hown⟩ :=
      (hbranches 0 first _ rfl (List.getElem?_eq_getElem hpos)).own_branch hmirrors hnode hshape
        rfl (.of_firstPlace hpass rfl)
    rw [← hbuilt.symbol] at hadjust
    have hfirst := ih (hpart hnode hshape (.head _)) hown
    refine eventually_deeper hfirst 3 fun less hfirst => ?_
    rw [hrun (less + 1)]
    refine .bind_of_run (branchIndex_run hpos) ?_
    have hbranchRun : program.runWithin (less + 1) (alternatives.get ⟨0, hpos⟩).symbol = (do
        let value ← program.runWithin less own
        return .union (Int32.ofNat 0) value) := runStep_adjust hadjust
    rw [hbranchRun]
    exact .bind_pure hfirst fun _ => .pure _

/-! ## Symbols -/

/-- For the symbols that read defaults some depth is enough to read their bytes. -/
def DefaultsEnd (context : Context) (program : Program) (builder : Builder) : Prop :=
  ∀ record, ∀ field ∈ record.fields, ∀ literal bytes value, context.Defines record →
    field.default? = some literal →
      encodeDefault (context.registry field.type.side) field.type literal = .ok bytes →
        builder.Reads context field.type field.type value →
          ∃ depth, program.Answers depth value (.ofList bytes)

theorem exists_length (context : Context) (node : Node) :
    ∃ length, ∀ record, context.shape? node = some (.named (.record record)) →
      ∀ bytes ∈ context.defaultBytes record, bytes.length ≤ length := by
  by_cases h : ∃ record, context.shape? node = some (.named (.record record))
  · obtain ⟨record, hrecord⟩ := h
    refine ⟨(context.defaultBytes record).flatten.length, fun other hother bytes hbytes => ?_⟩
    cases hrecord.symm.trans hother
    exact (List.sublist_flatten_of_mem hbytes).length_le
  · exact ⟨0, fun record hrecord => absurd ⟨record, hrecord⟩ h⟩

theorem promotion_ne_endless (promotion : Promotion) (value : Value) :
    promotion.apply value ≠ .error .endless := by
  intro h
  obtain ⟨cause, hfault⟩ | hfault := Promotion.fault_of_apply h
  · cases hfault
  · cases hfault

/-- The run of a symbol ends if those of its parts do: behind a byte that it reads, all of
them; before that, the fields of the writer's record and the branch of the reader's union. -/
theorem Built.ends_of_parts (hbuilt : program.Built context builder)
    (hdefaults : DefaultsEnd context program builder)
    (hwriter : context.Holds writer) (hreader : context.Holds reader)
    (h : builder.Reads context writer reader id)
    (hbelow : ∀ writer reader id, context.Holds writer → context.Holds reader →
      builder.Reads context writer reader id → program.Ends limit id)
    (hfields : ∀ record, context.shape? writer = some (.named (.record record)) →
      ∀ field ∈ record.fields, ∀ other symbol, context.Holds other →
        builder.Reads context field.type other symbol → program.Ends (limit + 1) symbol)
    (hadjust : ∀ index symbol, builder.symbol? id = some (.adjust index symbol) →
      program.Ends (limit + 1) symbol) :
    program.Ends (limit + 1) id := by
  obtain ⟨length, hlength⟩ := exists_length context reader
  let depth := program.runDepth (limit + 1) + program.runDepth length + 2
  have hlimit : program.runDepth limit ≤ program.runDepth (limit + 1) :=
    program.runDepth_mono (Nat.le_succ limit)
  have hdelimits := program.runWithin_delimits
  suffices hends : EndsBelow (limit + 1) (program.runWithin depth id) from
    fun input hinput => ⟨depth, hends input hinput⟩
  have hdepth : depth = program.runDepth (limit + 1) + program.runDepth length + 2 := rfl
  have hruns := hbuilt.runs h depth
  generalize program.runWithin depth id = x at hruns ⊢
  cases hruns with
  | endless hless => omega
  | missing => exact .throw nofun
  | unbranched => exact .throw nofun
  | mismatch => exact .throw nofun
  | @atom type _ =>
    cases type with
    | primitive type => exact .of_ensures (scalar_readTerminal type).ends
    | fixed size => exact .of_ensures (scalar_readFixed size).ends
  | promotion _ =>
    refine .bind (delimits_readTerminal _) (.of_ensures (scalar_readTerminal _).ends)
      fun value => .ofExcept ?_
    rintro fault hfault rfl
    exact promotion_ne_endless _ _ hfault
  | enum _ => exact .of_ensures (scalar_readEnum _).ends
  | array hreading _ hnear hitem _ =>
    obtain ⟨hwi, hri⟩ := Context.holds_of_reading hwriter hreader hreading
    exact endsBelow_readArray (hdelimits _ _)
      ((hbelow _ _ _ hwi hri hitem).runWithin (by omega))
  | map hreading _ hnear hvalue _ =>
    obtain ⟨hwv, hrv⟩ := Context.holds_of_reading hwriter hreader hreading
    exact endsBelow_readMap (hdelimits _ _)
      ((hbelow _ _ _ hwv hrv hvalue).runWithin (by omega))
  | select hreading _ hnear hcount hbranches _ =>
    have hholds := Context.holds_of_reading hwriter hreader hreading
    refine .bind_of_consumes (consumes_branchIndex _) (.of_ensures (scalar_branchIndex _).ends)
      fun index => ?_
    have hindex := Nat.lt_of_lt_of_eq index.isLt hcount
    have hbranch := hbranches index _ _ (List.getElem?_eq_getElem hindex)
      (List.getElem?_eq_getElem index.isLt)
    exact (hbelow _ _ _ (hholds _ (List.getElem_mem _)) hreader hbranch).runWithin (by omega)
  | adjust _ _ hnear _ _ _ _ _ hid =>
    rw [hbuilt.symbol] at hid
    exact .bind (hdelimits _ _) ((hadjust _ _ hid).runWithin (by omega)) fun _ => .pure _
  | @records w r matching written defaulted less hreading _ hnear _ hmatching hwritten
      hdefaulted =>
    obtain ⟨_, _, hw, hr, hrule⟩ := Context.rule_of_reading? hreading
    cases hrule
    obtain ⟨_, hrdefines⟩ := Context.holds_of_reading hwriter hreader hreading
    have hparts : ∀ part ∈ written ++ defaulted,
        Delimits part.reader ∧ EndsBelow (limit + 1) part.reader := by
      refine List.forall_mem_append.2 ⟨fun part hpart => ?_, fun part hpart => ?_⟩
      · obtain ⟨⟨field, link⟩, hlinked, hread⟩ := exists_of_forall₂_right hwritten hpart
        have hfield := (List.of_mem_zip hlinked).1
        have hholds := (hwriter.part hw (List.mem_map_of_mem hfield)).1
        cases hread with
        | linked hsymbol _ =>
          have hlink := hrdefines.of_linked hmatching hlinked
          exact ⟨hdelimits _ _, (hfields w hw field hfield _ _ hlink hsymbol).runWithin (by omega)⟩
        | dropped hvalue _ =>
          exact ⟨hdelimits _ _, (hfields w hw field hfield _ _ hholds hvalue).runWithin (by omega)⟩
      · obtain ⟨field, hfield, hread⟩ := exists_of_forall₂_right hdefaulted hpart
        have hmem := List.mem_of_getElem?
          (ReaderField.mem_ofFields.1 (Matching.mem_of_defaulted hmatching hfield))
        have hdefault := (Matching.of_ofFields hmatching).2.2 field hfield
        cases hread with
        | intro hbytes hvalue _ =>
          have hless := program.runDepth_mono
            (hlength r hr _ (Context.mem_defaultBytes hmem hdefault hbytes))
          have hanswers := hdefaults r _ hmem _ _ _ hrdefines hdefault hbytes hvalue
          refine ⟨delimits_readWhole _ _ _, endsBelow_readWhole ?_ _⟩
          exact answers_of_exists hanswers (Nat.le_trans hless (by omega))
    exact endsBelow_readRecord (fun part h => (hparts part h).1) (fun part h => (hparts part h).2) _

/-- What holds of a symbol as soon as it holds of the symbol that it adjusts holds of every
symbol. -/
theorem Built.adjust_induction (hbuilt : program.Built context builder) {motive : SymbolId → Prop}
    (hwriter : context.Holds writer) (hreader : context.Holds reader)
    (h : builder.Reads context writer reader id)
    (step : ∀ reader id, context.Holds reader → builder.Reads context writer reader id →
      (∀ index symbol, builder.symbol? id = some (.adjust index symbol) → motive symbol) →
        motive id) : motive id := by
  induction h with
  | adjust hreading hshape hkept hpick hbranch hid ih =>
    have hholds := Context.holds_of_reading hwriter hreader hreading
    have hmem := List.fst_mem_of_mem_zipIdx (hkept.mem_of_pick hpick)
    refine step _ _ hreader (.adjust hreading hshape hkept hpick hbranch hid) ?_
    intro index symbol hadjust
    cases hid.symm.trans hadjust
    exact ih hwriter (hholds _ hmem) step
  | records hreading hw hr hid =>
    refine step _ _ hreader (.records hreading hw hr hid) fun index symbol hadjust => ?_
    cases hbuilt.records _ _ _ hw hr hid with
    | missing _ hmismatch => cases hmismatch.symm.trans hadjust
    | fields _ _ _ _ hsequence => cases hsequence.symm.trans hadjust
  | @atom _ _ _ type hreading hid =>
    refine step _ _ hreader (.atom hreading hid) fun index symbol hadjust => ?_
    cases type <;> cases hid.symm.trans hadjust
  | promotion hreading hsource hid =>
    exact step _ _ hreader (.promotion hreading hsource hid) fun _ _ hadjust =>
      nomatch hid.symm.trans hadjust
  | enum hreading hordinal hremap hid =>
    exact step _ _ hreader (.enum hreading hordinal hremap hid) fun _ _ hadjust =>
      nomatch hid.symm.trans hadjust
  | array hreading hitem hstart hitems hid =>
    exact step _ _ hreader (.array hreading hitem hstart hitems hid) fun _ _ hadjust =>
      nomatch hid.symm.trans hadjust
  | map hreading hvalue hkey hstart hentries hid =>
    exact step _ _ hreader (.map hreading hvalue hkey hstart hentries hid) fun _ _ hadjust =>
      nomatch hid.symm.trans hadjust
  | select hreading hlength hbranches halternative hid =>
    exact step _ _ hreader (.select hreading hlength hbranches halternative hid)
      fun _ _ hadjust => nomatch hid.symm.trans hadjust
  | unbranched hreading hshape hkept hpick hid =>
    exact step _ _ hreader (.unbranched hreading hshape hkept hpick hid) fun _ _ hadjust =>
      nomatch hid.symm.trans hadjust
  | mismatch hreading hid =>
    exact step _ _ hreader (.mismatch hreading hid) fun _ _ hadjust =>
      nomatch hid.symm.trans hadjust

/-- The run of every compiled symbol ends.  The outer induction is on the length of the input,
the one inside it goes from record to record. -/
theorem Built.ends (hbuilt : program.Built context builder)
    (hdefaults : DefaultsEnd context program builder)
    (hgrounded : ∀ side, (context.registry side).Grounded) (limit : Nat)
    (hwriter : context.Holds writer) (hreader : context.Holds reader)
    (h : builder.Reads context writer reader id) : program.Ends limit id := by
  induction limit generalizing writer reader id with
  | zero =>
    intro input hinput
    exact absurd hinput (Nat.not_lt_zero _)
  | succ limit ih =>
    let FieldsEnd (record : RecordNode) : Prop := ∀ field ∈ record.fields, ∀ other symbol,
      context.Holds other → builder.Reads context field.type other symbol →
        program.Ends (limit + 1) symbol
    have hnode {writer reader : Node} {id : SymbolId} (hwriter : context.Holds writer)
        (hreader : context.Holds reader) (h : builder.Reads context writer reader id)
        (hfields : ∀ record, context.shape? writer = some (.named (.record record)) →
          FieldsEnd record) : program.Ends (limit + 1) id :=
      hbuilt.adjust_induction hwriter hreader h fun reader id hreader h hadjust =>
        hbuilt.ends_of_parts hdefaults hwriter hreader h (fun _ _ _ hw hr h => ih hw hr h)
          hfields hadjust
    have hrecord {record : RecordNode} (hrecord : context.Defines record) : FieldsEnd record := by
      refine (hgrounded record.id.side).induction
        (motive := fun other => other.id.side = record.id.side → FieldsEnd other) ?_ hrecord rfl
      intro outer houter hinside hside field hfield other symbol hother hsymbol
      have hdefines : context.Defines outer := by rwa [Context.Defines, hside]
      obtain ⟨hholds, htype⟩ := hdefines.field hfield
      refine hnode hholds hother hsymbol fun inner hinner => ?_
      have hinnerSide := (hholds.record hinner).2
      refine hinside inner ⟨field, hfield, ?_⟩ (by rw [hinnerSide, htype, hside])
      rwa [Context.shape?, htype, hside] at hinner
    exact hnode hwriter hreader h fun record hshape => hrecord (hwriter.record hshape).1

end Program

/-! ## Pairs of schemas -/

/-- The fields of a record have names of their own, and no union stands directly in a
union. -/
def Registry.wellFormed (registry : Registry) (shape : Shape) : Bool :=
  shape.fieldsDistinct && registry.branchesFlat shape

namespace SchemaPair

variable {pair : SchemaPair} {config : Config} {program : Program}

/-- No record of either schema contains itself without a union, an array or a map in
between. -/
def Grounded (pair : SchemaPair) : Prop :=
  ∀ root ∈ pair.roots, (Registry.ofRoot root).Grounded

/-- Whether the types of both schemas are well formed. -/
def wellFormed (pair : SchemaPair) : Bool :=
  pair.roots.all fun root => root.everyShape (Registry.ofRoot root).wellFormed

theorem defaultsEnd {builder : Builder} (hbuilt : program.Built (pair.context config) builder)
    (haddressable : pair.addressable = true) (hwellFormed : pair.wellFormed = true) :
    Program.DefaultsEnd (pair.context config) program builder := by
  intro record field hfield literal bytes value hrecord hdefault hbytes hvalue
  obtain ⟨root, hroot, hspans, hdeclares⟩ := exists_root hrecord
  have htests := List.all_eq_true.1 hwellFormed root hroot
  have hdistinct : root.everyShape Shape.fieldsDistinct = true :=
    Node.everyShape_mono htests fun _ h => (Bool.and_eq_true_iff.1 h).1
  have hflat : root.everyShape (Registry.ofRoot root).branchesFlat = true :=
    Node.everyShape_mono htests fun _ h => (Bool.and_eq_true_iff.1 h).2
  have hmirrors : (pair.context config).Mirrors root root.side := by
    refine ⟨hspans, ?_⟩
    rw [Node.onSide_self rfl]
    exact hspans root (.head _)
  have hnode := hdeclares.field_mem hfield
  have hmem := Node.mem_forest_singleton.1 hnode
  have hregistry := hspans.registry_eq (.head _) hmem
  have hcontext := addressable_context haddressable config
  have hliteral := Registry.addressable_default (hcontext record.id.side) hrecord hfield hdefault
  have hencodes := Registry.encodes_of_encodeDefault (hcontext field.type.side)
    (hrecord.field hfield).1 hliteral hbytes
  rw [hregistry] at hencodes
  have hself : builder.Reads (pair.context config) field.type (field.type.onSide root.side)
      value := by
    rwa [Node.onSide_self (Node.side_of_mem_preorder root field.type hmem)]
  obtain ⟨depth, htakes⟩ :=
    (hbuilt.takes_itself hmirrors hdistinct hflat hencodes hnode hself).exists
  refine ⟨depth, ?_⟩
  rintro ⟨rest, hrun⟩
  have hend := htakes []
  rw [List.append_nil, hrun] at hend
  exact hend rfl

/-- Decoding comes to an end on every input.  The depth that `decode` allows cuts nothing
off, as a deeper run answers alike.  A count in the data does not matter beyond what they can
hold: an array fails before it has more items than bytes and items without bytes, a map
before it has more entries than bytes. -/
theorem decode_ends (hprogram : pair.program config = .ok program)
    (haddressable : pair.addressable = true) (hgrounded : pair.Grounded)
    (hwellFormed : pair.wellFormed = true) (input : Input) :
    ¬Reader.GivesUp (program.decode input) ∧
      (∀ depth, program.runDepth input.length ≤ depth →
        program.runWithin depth program.root input = program.decode input) ∧
      ∀ depth id progress entries before bound count, bound ≤ count →
        (before.length + zeroWidthLimit < bound →
          Reader.iterate (Program.readItem (program.runWithin depth id)) count progress before =
            Reader.iterate (Program.readItem (program.runWithin depth id)) bound progress
              before) ∧
        (before.length < bound →
          Reader.iterate (Program.readEntry (program.runWithin depth id)) count entries before =
            Reader.iterate (Program.readEntry (program.runWithin depth id)) bound entries
              before) := by
  obtain ⟨builder, _, hbuilt, hreads⟩ := built hprogram
  have hregistries : ∀ side, ((pair.context config).registry side).Grounded := by
    intro side
    cases pair <;> cases side <;> first | exact hgrounded _ (.head _) |
      exact hgrounded _ (.tail _ (.head _))
  have hends := hbuilt.ends (defaultsEnd hbuilt haddressable hwellFormed) hregistries
    (input.length + 1) (pair.holds_writerRoot config) (pair.holds_readerRoot config) hreads
  have hanswers : program.Answers (program.runDepth input.length) program.root input :=
    Program.answers_of_exists (hends input (Nat.lt_succ_self _)) (Nat.le_refl _)
  refine ⟨hanswers, fun depth hdepth => (program.runWithin_mono hdepth _).eq hanswers, ?_⟩
  intro depth id progress entries before bound count hle
  have hdelimits := program.runWithin_delimits depth id
  exact ⟨fun hbound => Program.iterate_readItem_eq hdelimits hle (by omega),
    fun hbound => Program.iterate_readEntry_eq hdelimits hle hbound⟩

/-- Folders in folders, with an owner each and marks that take no bytes.  To the reader they
have come to have a backup, whose default holds a record. -/
def folders : SchemaPair :=
  .twoTrees
    (.record ⟨"Folder", none, []⟩
      [⟨"owner", .record ⟨"Owner", none, []⟩ [⟨"name", .primitive .string, none, []⟩], none, []⟩,
        ⟨"marks", .array (.primitive .null), none, []⟩,
        ⟨"below", .union [.primitive .null, .reference "Folder"], none, []⟩])
    (.record ⟨"Folder", none, []⟩
      [⟨"backup", .record ⟨"Backup", none, []⟩
          [⟨"owner", .record ⟨"Owner", none, []⟩ [⟨"name", .primitive .string, none, []⟩],
              none, []⟩,
            ⟨"of", .union [.primitive .null, .reference "Folder"], none, []⟩],
          some (.object [("of", .null), ("owner", .object [("name", .string "x")])]), []⟩,
        ⟨"owner", .reference "Owner", none, []⟩,
        ⟨"marks", .array (.primitive .null), none, []⟩,
        ⟨"below", .union [.primitive .null, .reference "Folder"], none, []⟩])

/-- The marks of the folder start with the count `-2 ^ 63`, and then the data are at their
end. -/
theorem decode_ends_folders :
    ∃ program, folders.program {} = .ok program ∧ folders.Grounded ∧
      ¬Reader.GivesUp (program.decode (.ofList
        [2, 97, 255, 255, 255, 255, 255, 255, 255, 255, 255, 1, 0])) := by
  obtain ⟨program, hprogram, -⟩ := Reader.exists_ok (folders.program {}) (fun _ => true)
    (by decide +kernel)
  have hgrounded : folders.Grounded := by
    intro root hroot
    refine Registry.grounded_of_measure
      (fun record => (record.fields.map fun field => sizeOf field.type.schema).sum) ?_
    simp only [roots, List.mem_cons, List.not_mem_nil, or_false] at hroot
    rcases hroot with rfl | rfl <;> decide +kernel
  exact ⟨program, hprogram, hgrounded,
    (decode_ends hprogram (by decide +kernel) hgrounded (by decide +kernel) _).1⟩

end SchemaPair

namespace SharedTree

/-- Data of a drawer are read as the folder that the drawer belongs to.  A file of the folder has a
group, whose default has a file in it.  The drawer by itself knows no file but an empty one. -/
def drawers : SharedTree :=
  let group : Literal := .object [("files", .array []), ("last", .object [])]
  ⟨.record ⟨"Folder", none, []⟩
      [⟨"file", .record ⟨"File", none, []⟩
          [⟨"group", .reference "Group",
            some (.object [("files", .array [.object [("group", group)]]), ("last", .object [])]),
            []⟩],
          some (.object []), []⟩,
        ⟨"drawer", .record ⟨"Drawer", none, []⟩
            [⟨"group", .record ⟨"Group", none, []⟩
                [⟨"files", .array (.reference "File"), none, []⟩,
                  ⟨"last", .record ⟨"File", some "empty", []⟩ [], none, []⟩], none, []⟩],
          some (.object [("group", group)]), []⟩,
        ⟨"group", .reference "Group", none, []⟩],
    ⟨3, by decide +kernel⟩, ⟨0, by decide +kernel⟩⟩

/-- Where the schemas of `decode_ends` are parts of one tree, a default may be read in a
circle.  The group of the drawer is compiled as data of the folder's, so a file in it is
empty and its group is filled from the default.  The same symbol reads the default, which
has such a file in it. -/
theorem gives_up_of_decode :
    (∀ root ∈ [drawers.writerRoot, drawers.readerRoot],
      (Registry.ofRoot root).addressable = true ∧ (Registry.ofRoot root).Grounded ∧
        root.everyShape (Registry.ofRoot root).wellFormed = true) ∧
    ∃ program, drawers.program {} = .ok program ∧
      ∀ depth, Reader.GivesUp (program.runWithin depth program.root (.ofList [0])) := by
  constructor
  · intro root hroot
    have htests : ∀ root ∈ [drawers.writerRoot, drawers.readerRoot],
        (Registry.ofRoot root).addressable = true ∧
          root.everyShape (Registry.ofRoot root).wellFormed = true := by decide +kernel
    refine ⟨(htests root hroot).1, ?_, (htests root hroot).2⟩
    refine Registry.grounded_of_measure (fun record =>
      ["empty.File", "Group", "File", "Drawer", "Folder"].idxOf record.heading.fullname) ?_
    simp only [List.mem_cons, List.not_mem_nil, or_false] at hroot
    rcases hroot with rfl | rfl <;> decide +kernel
  · obtain ⟨program, hprogram, h⟩ := Reader.exists_ok (drawers.program {})
      (fun program => match program.decode (.ofList [0]) with
        | .error .endless _ => true
        | _ => false) (by decide +kernel)
    split at h
    · rename_i rest hdecode
      refine ⟨program, hprogram, fun depth => ?_⟩
      by_contra hanswers
      exact Program.answers_of_exists ⟨depth, hanswers⟩ (Nat.le_refl _) ⟨rest, hdecode⟩
    · cases h

end SharedTree

end AvroResolution
