import AvroResolution.Proofs.Compilation.Itself
import AvroResolution.Proofs.Decoding.Compiled
import AvroResolution.Proofs.Decoding.Depth
import AvroResolution.Proofs.Decoding.Validating
import AvroResolution.Proofs.Default.Denotation
import AvroResolution.Proofs.Resolution.Safety
import AvroResolution.Proofs.Resolution.Totality

/-!
# Defaults are read back

A field that the writer lacks is read from the bytes of its default, by the symbol that
reads the field's type as itself.  This gives the value that the default denotes
(`SchemaPair.decode_default`).

* `Registry.OwnPlace.of_firstPlace`: what the encoder writes is found at its own place.
* `Program.Built.runWithin_itself` lists what a run does whose symbol reads a node as
  itself, and `Program.Built.yields` says that it reads back what stands for a value, if
  only own places were written.
* `Program.Fills` is the place of a default in the sequence of a record.
* `SharedTree.replay_leftover`: where one schema is a part of the other, the symbol may have
  been built by the names of the other side, and then it does not read the default back.
-/

namespace AvroResolution

/-! ## Places that are found again -/

/-- If the shape is a union, none of its branches is one. -/
def Registry.branchesFlat (registry : Registry) : Shape → Bool
  | .union branches =>
    branches.all fun branch => (registry.shape? branch).all fun shape => shape.kind ≠ .union
  | _ => true

/-- The first of several places is an own place, unless unions stand directly in unions. -/
theorem Registry.OwnPlace.of_firstPlace {registry : Registry} {shape : Shape}
    (hflat : registry.branchesFlat shape = true) {place : Nat} (h : shape.FirstPlace place) :
    registry.OwnPlace shape place := by
  cases shape with
  | union branches =>
    obtain rfl : place = 0 := h
    intro branch found hbranch hfound
    have hkind := List.all_eq_true.1 hflat branch (List.mem_of_getElem? hbranch)
    rw [hfound, Option.all_some] at hkind
    exact ⟨of_decide_eq_true hkind, fun earlier hearlier => absurd hearlier (Nat.not_lt_zero _)⟩
  | named definition =>
    cases definition with
    | enum heading symbols default? => exact h
    | _ => trivial
  | _ => trivial

theorem EnumAdjustment.resolve_between_self {symbols : List String} {ordinal : Nat}
    (h : symbols[ordinal]?.bind symbols.idxOf? = some ordinal) (config : Config)
    (default? : Option String) :
    (EnumAdjustment.between config symbols symbols default?).resolve ordinal = some ordinal := by
  obtain ⟨symbol, hsymbol, hordinal⟩ := Option.bind_eq_some_iff.1 h
  rw [resolve, between, List.getElem?_map, hsymbol]
  simp [hordinal]

/-! ## Parts of values -/

/-- The values right below a value. -/
def Value.parts : Value → List Value
  | .record fields => fields.map (·.2)
  | .array items => items
  | .map entries => entries.map (·.2)
  | .union _ value => [value]
  | _ => []

theorem Value.sizeOf_lt_of_mem_parts {value part : Value} (h : part ∈ value.parts) :
    sizeOf part < sizeOf value := by
  have hpairs {pairs : List (String × Value)} (h : part ∈ pairs.map (·.2)) :
      sizeOf part < sizeOf pairs := by
    obtain ⟨⟨name, value⟩, hpair, rfl⟩ := List.mem_map.1 h
    have hsize := List.sizeOf_lt_of_mem hpair
    simp only [Prod.mk.sizeOf_spec] at hsize
    dsimp only
    omega
  cases value with
  | record fields =>
    have hsize := hpairs h
    simp only [Value.record.sizeOf_spec]
    omega
  | map entries =>
    have hsize := hpairs h
    simp only [Value.map.sizeOf_spec]
    omega
  | array items =>
    have hsize := List.sizeOf_lt_of_mem (show part ∈ items from h)
    simp only [Value.array.sizeOf_spec]
    omega
  | union index value =>
    obtain rfl := List.mem_singleton.1 h
    simp only [Value.union.sizeOf_spec]
    omega
  | _ => cases h

namespace Program

variable {context : Context} {program : Program} {builder : Builder} {target : Side}
  {root node : Node} {id : SymbolId}

/-! ## Runs that read a node as itself -/

/-- What a run does whose symbol reads a node as itself, by the shape of the node.  Under a
union every branch is read as the whole union. -/
theorem Built.runWithin_itself (hbuilt : program.Built context builder)
    (hmirrors : context.Mirrors root target)
    (hdistinct : root.everyShape Shape.fieldsDistinct = true)
    (hnode : node ∈ Node.forest [root]) (h : builder.Reads context node (node.onSide target) id)
    {shape : Shape} (hshape : context.shape? node = some shape) :
    match shape with
    | .primitive type => ∀ depth,
        program.runWithin (depth + 1) id = readTerminal (.primitive type)
    | .named (.fixed _ size) => ∀ depth,
        program.runWithin (depth + 1) id = readTerminal (.fixed size)
    | .named (.enum _ symbols default?) => ∀ depth, program.runWithin (depth + 1) id =
        readEnum (.between context.config symbols symbols default?)
    | .named (.record record) => ∃ symbols, List.Forall₂ (fun (field : Field Node) symbol =>
          builder.Reads context field.type (field.type.onSide target) symbol)
            record.fields symbols ∧
        ∀ depth, program.runWithin (depth + 1) id = readRecord (Builder.ownArrivals record.fields)
          ((symbols.map (program.runWithin depth)).map .kept)
    | .array items => ∃ item, builder.Reads context items (items.onSide target) item ∧
        ∀ depth, program.runWithin (depth + 1) id = readArray (program.runWithin depth item)
    | .map values => ∃ value, builder.Reads context values (values.onSide target) value ∧
        ∀ depth, program.runWithin (depth + 1) id = readMap (program.runWithin depth value)
    | .union branches => ∃ alternatives : List Branch, alternatives.length = branches.length ∧
        (∀ (index : Nat) (branch : Node) (chosen : Branch), branches[index]? = some branch →
          alternatives[index]? = some chosen →
            builder.Reads context branch (node.onSide target) chosen.symbol) ∧
        ∀ depth, program.runWithin (depth + 2) id = (do
          let index ← Reader.branchIndex alternatives.length
          program.runWithin depth (alternatives.get index).symbol) := by
  cases hbuilt.itself hmirrors hdistinct hnode h with
  | primitive hfound hid =>
    cases hshape.symm.trans hfound
    rw [← hbuilt.symbol] at hid
    exact fun _ => runStep_terminal hid
  | fixed hfound hid =>
    cases hshape.symm.trans hfound
    rw [← hbuilt.symbol] at hid
    exact fun _ => runStep_terminal hid
  | enum hfound hordinal hremap hid =>
    cases hshape.symm.trans hfound
    rw [← hbuilt.symbol] at hid hordinal hremap
    exact fun _ => runStep_enum hid hordinal hremap
  | array hfound hitem hstart hbody hid =>
    cases hshape.symm.trans hfound
    rw [← hbuilt.symbol] at hid hstart hbody
    exact ⟨_, hitem, fun _ => runStep_array hid hstart hbody⟩
  | map hfound hvalue _ hstart hbody hid =>
    cases hshape.symm.trans hfound
    rw [← hbuilt.symbol] at hid hstart hbody
    exact ⟨_, hvalue, fun _ => runStep_map hid hstart hbody⟩
  | record hfound hfields horder hid =>
    cases hshape.symm.trans hfound
    rw [← hbuilt.symbol] at hid horder
    refine ⟨_, hfields, fun depth => ?_⟩
    rw [List.map_map]
    refine runStep_fields hid (.of_standsAlone horder fun child hchild => ?_)
    obtain ⟨field, _, hfield⟩ := exists_of_forall₂_right hfields hchild
    exact hbuilt.standsAlone hfield
  | union hfound hlength hbranches halternative hid =>
    cases hshape.symm.trans hfound
    rw [← hbuilt.symbol] at hid halternative
    refine ⟨_, hlength, hbranches, fun depth => ?_⟩
    rw [runWithin, runStep_select hid]
    exact runStep_alternative halternative

/-! ## Reading back -/

theorem yields_readEach {rows : List (Field Node × Value × List UInt8)}
    {readers : List (Reader Value)}
    (h : List.Forall₂ (fun row x => Reader.Yields x row.2.2 row.2.1) rows readers)
    (values : List Value) :
    Reader.Yields (readEach (readers.map .kept) values) (rows.flatMap (·.2.2))
      ((rows.map (·.2.1)).reverse ++ values) := by
  induction h generalizing values with
  | nil => exact .pure values
  | @cons row x rest others hrow _ ih =>
    rw [List.map_cons, List.map_cons, List.reverse_cons, List.append_assoc]
    exact .bind hrow (ih (row.2.1 :: values))

/-- The fields of a record that stand in its own order. -/
theorem yields_readRecord {rows : List (Field Node × Value × List UInt8)}
    {readers : List (Reader Value)}
    (h : List.Forall₂ (fun row x => Reader.Yields x row.2.2 row.2.1) rows readers) :
    Reader.Yields (readRecord (Builder.ownArrivals (rows.map (·.1))) (readers.map .kept))
      (rows.flatMap (·.2.2)) (.record (rows.map fun row => (row.1.name, row.2.1))) := by
  refine .bind_pure (yields_readEach h []) ?_
  have hplaced : placeFields (Builder.ownArrivals (rows.map (·.1))) (rows.map (·.2.1)) =
      .ok (.record (rows.map fun row => (row.1.name, row.2.1))) := by
    have h := @placeFields_ownArrivals (rows.map (·.1))
      (rows.map fun row => (row.1.name, row.2.1)) (by simp)
    rwa [List.map_map] at h
  rw [List.append_nil, List.reverse_reverse, hplaced]
  exact .pure _

/-- A run whose symbol reads a node as itself reads back what stands for a value, if it may
go three times as deep as the value.  The induction is on the rules of the format; a union
takes three steps, because its branch is looked for among all branches. -/
theorem Built.yields (hbuilt : program.Built context builder)
    (hmirrors : context.Mirrors root target)
    (hdistinct : root.everyShape Shape.fieldsDistinct = true) {admits : Shape → Nat → Prop}
    (hown : ∀ node ∈ root.preorder, ∀ shape place, (Registry.ofRoot root).shape? node = some shape →
      admits shape place → (Registry.ofRoot root).OwnPlace shape place)
    {value : Value} {bytes : List UInt8}
    (h : (Registry.ofRoot root).Represents admits node value bytes)
    (hnode : node ∈ Node.forest [root])
    (hreads : builder.Reads context node (node.onSide target) id)
    {depth : Nat} (hdepth : 3 * (sizeOf value + 1) ≤ depth) :
    Reader.Yields (program.runWithin depth id) bytes value := by
  have hpart {node part : Node} (hnode : node ∈ Node.forest [root]) {shape : Shape}
      (hshape : context.shape? node = some shape) (hmem : part ∈ shape.parts) :
      part ∈ Node.forest [root] := hmirrors.spans.part hnode hshape hmem
  induction h generalizing id depth with
  | @primitive node type value step hshape hstep =>
    rw [← hmirrors.spans.shape?_eq hnode] at hshape
    obtain ⟨less, rfl⟩ : ∃ less, depth = less + 3 := ⟨depth - 3, by omega⟩
    rw [hbuilt.runWithin_itself hmirrors hdistinct hnode hreads hshape]
    exact hstep.yields
  | @enum node heading symbols default? ordinal symbol hshape hsymbol hordinal hadmits =>
    have hplace := hown node (Node.mem_forest_singleton.1 hnode) _ _ hshape hadmits
    rw [← hmirrors.spans.shape?_eq hnode] at hshape
    obtain ⟨less, rfl⟩ : ∃ less, depth = less + 3 := ⟨depth - 3, by omega⟩
    rw [hbuilt.runWithin_itself hmirrors hdistinct hnode hreads hshape]
    exact Reader.yields_readEnum hordinal (EnumAdjustment.resolve_between_self hplace _ _) hsymbol
  | @fixed node heading size content hshape hsize =>
    subst hsize
    rw [← hmirrors.spans.shape?_eq hnode] at hshape
    obtain ⟨less, rfl⟩ : ∃ less, depth = less + 3 := ⟨depth - 3, by omega⟩
    rw [hbuilt.runWithin_itself hmirrors hdistinct hnode hreads hshape]
    exact .bind_pure (Reader.take_append content) (.pure _)
  | @record node record rows hshape hfields _ ih =>
    rw [← hmirrors.spans.shape?_eq hnode] at hshape
    obtain ⟨less, rfl⟩ : ∃ less, depth = less + 3 := ⟨depth - 3, by omega⟩
    obtain ⟨symbols, hsymbols, hrun⟩ :=
      hbuilt.runWithin_itself hmirrors hdistinct hnode hreads hshape
    rw [← hfields, List.forall₂_map_left_iff] at hsymbols
    rw [hrun (less + 2), ← hfields]
    refine yields_readRecord (List.forall₂_map_right_iff.2 ?_)
    refine ((List.forall₂_and_left _ _).2 ⟨fun row hrow => hrow, hsymbols⟩).imp ?_
    rintro row symbol ⟨hrow, hsymbol⟩
    have hless : sizeOf row.2.1 <
        sizeOf (Value.record (rows.map fun row => (row.1.name, row.2.1))) :=
      Value.sizeOf_lt_of_mem_parts (List.mem_map_of_mem (List.mem_map_of_mem hrow))
    have hfield : row.1 ∈ record.fields := hfields ▸ List.mem_map_of_mem hrow
    exact ih row hrow (hpart hnode hshape (List.mem_map_of_mem hfield)) hsymbol (by omega)
  | @array node items rows hshape hlength hlimit _ ih =>
    rw [← hmirrors.spans.shape?_eq hnode] at hshape
    obtain ⟨less, rfl⟩ : ∃ less, depth = less + 3 := ⟨depth - 3, by omega⟩
    obtain ⟨item, hitem, hrun⟩ :=
      hbuilt.runWithin_itself hmirrors hdistinct hnode hreads hshape
    rw [hrun (less + 2)]
    refine Reader.yields_readArray hlength hlimit fun row hrow => ?_
    have hless : sizeOf row.1 < sizeOf (Value.array (rows.map (·.1))) :=
      Value.sizeOf_lt_of_mem_parts (List.mem_map_of_mem hrow)
    exact ih row hrow (hpart hnode hshape (.head _)) hitem (by omega)
  | @map node values rows hshape hlength hkeys _ ih =>
    rw [← hmirrors.spans.shape?_eq hnode] at hshape
    obtain ⟨less, rfl⟩ : ∃ less, depth = less + 3 := ⟨depth - 3, by omega⟩
    obtain ⟨value, hvalue, hrun⟩ :=
      hbuilt.runWithin_itself hmirrors hdistinct hnode hreads hshape
    rw [hrun (less + 2)]
    refine Reader.yields_readMap hlength hkeys fun row hrow => ?_
    have hless : sizeOf row.2.1 < sizeOf (Value.map (rows.map fun row => (row.1, row.2.1))) :=
      Value.sizeOf_lt_of_mem_parts (List.mem_map_of_mem (List.mem_map_of_mem hrow))
    exact ih row hrow (hpart hnode hshape (.head _)) hvalue (by omega)
  | @union node branch branches index value bytes hshape hbranch hindex hadmits _ ih =>
    have hplace := hown node (Node.mem_forest_singleton.1 hnode) _ _ hshape hadmits
    rw [← hmirrors.spans.shape?_eq hnode] at hshape
    obtain ⟨less, rfl⟩ : ∃ less, depth = less + 3 := ⟨depth - 3, by omega⟩
    obtain ⟨alternatives, hlength, hbranches, hrun⟩ :=
      hbuilt.runWithin_itself hmirrors hdistinct hnode hreads hshape
    have hless : sizeOf value < sizeOf (Value.union (Int32.ofNat index) value) :=
      Value.sizeOf_lt_of_mem_parts (.head _)
    have hlt : index < alternatives.length := by
      rw [hlength]
      exact (List.getElem?_eq_some_iff.1 hbranch).1
    obtain ⟨own, hadjust, hown⟩ :=
      (hbranches index branch _ hbranch (List.getElem?_eq_getElem hlt)).own_branch hmirrors hnode
        hshape hbranch hplace
    rw [← hbuilt.symbol] at hadjust
    have hbranchRun : program.runWithin (less + 1) (alternatives.get ⟨index, hlt⟩).symbol = (do
        let value ← program.runWithin less own
        return .union (Int32.ofNat index) value) := runStep_adjust hadjust
    have hmem := List.mem_of_getElem? hbranch
    rw [hrun (less + 1)]
    refine .bind (Reader.yields_branchIndex hlt hindex) ?_
    rw [hbranchRun]
    exact .bind_pure (ih (hpart hnode hshape hmem) hown (by omega)) (.pure _)

/-! ## Where defaults stand -/

/-- After the symbol that injects a default stand the symbol `value` that reads it and the
end of the default.  The record goes on with other defaults, of three symbols each, and is
closed by an order in which the value arrives as `arrival`. -/
inductive Fills (program : Program) (value : SymbolId) (arrival : Arrival) : List SymbolId → Prop
  | intro {last order : SymbolId} {more : List SymbolId} {earlier later : List Arrival}
      (hlast : program.symbol? last = some .injectEnd)
      (horder : program.symbol? order = some (.reorder (earlier ++ arrival :: later)))
      (hmore : more.length = 3 * later.length) :
      Fills program value arrival (value :: last :: (more ++ [order]))

theorem Fills.head {value first : SymbolId} {arrival : Arrival} {rest : List SymbolId}
    (h : program.Fills value arrival (first :: rest)) : value = first := by
  cases h
  rfl

variable {type : Schema} {bytes : List UInt8} {inject : SymbolId} {before following : List SymbolId}

theorem Built.ne_inject (hbuilt : program.Built context builder) {writer reader : Node}
    (h : builder.Reads context writer reader id) :
    builder.symbol? id ≠ some (.inject type bytes) := by
  intro hinject
  obtain ⟨symbol, hid, halone⟩ := hbuilt.standsAlone h
  rw [hbuilt.symbol, hinject] at hid
  cases hid
  cases halone

theorem length_defaulted {fields : List DefaultedField} {triples : List (List SymbolId)}
    (h : List.Forall₂ (Builder.ReadsDefault context builder) fields triples) :
    triples.flatten.length = 3 * fields.length := by
  induction h with
  | nil => rfl
  | cons hfield _ ih =>
    cases hfield
    rw [List.flatten_cons, List.length_append, ih, List.length_cons]
    simp only [List.length_cons, List.length_nil]
    omega

/-- Among the symbols that fill fields from their defaults, the one that injects a default
is the first of three.  The induction is on the fields. -/
theorem Built.split_defaulted (hbuilt : program.Built context builder)
    {fields : List DefaultedField} {triples : List (List SymbolId)}
    (h : List.Forall₂ (Builder.ReadsDefault context builder) fields triples) {order : SymbolId}
    {arrivals : List Arrival} (horder : builder.symbol? order = some (.reorder arrivals))
    (hinject : builder.symbol? inject = some (.inject type bytes))
    (hsplit : triples.flatten ++ [order] = before ++ inject :: following) :
    ∃ earlier field later value last more, fields = earlier ++ field :: later ∧
      following = value :: last :: (more ++ [order]) ∧ more.length = 3 * later.length ∧
        Builder.ReadsDefault context builder field [inject, value, last] := by
  induction h generalizing before with
  | nil =>
    cases before with
    | nil =>
      obtain rfl : order = inject := (List.cons.inj hsplit).1
      cases horder.symm.trans hinject
    | cons first rest => simp at hsplit
  | @cons field triple rest others hfield hrest ih =>
    have hlength := length_defaulted hrest
    have htriple := hfield
    cases hfield with
    | intro _ _ hvalue hlast =>
      rw [List.flatten_cons, List.append_assoc] at hsplit
      rcases before with _ | ⟨first, _ | ⟨second, _ | ⟨third, before⟩⟩⟩
      · injection hsplit with hfirst hfollowing
        subst hfirst
        exact ⟨[], field, rest, _, _, _, rfl, hfollowing.symm, hlength, htriple⟩
      · injection hsplit with _ hsplit
        injection hsplit with hvalueId _
        exact absurd (hvalueId ▸ hinject) (hbuilt.ne_inject hvalue)
      · injection hsplit with _ hsplit
        injection hsplit with _ hsplit
        injection hsplit with hlastId _
        rw [hlastId, hinject] at hlast
        cases hlast
      · injection hsplit with _ hsplit
        injection hsplit with _ hsplit
        injection hsplit with _ hsplit
        obtain ⟨earlier, found, later, value, last, more, rfl, hfollowing⟩ := ih hsplit
        exact ⟨field :: earlier, found, later, value, last, more, rfl, hfollowing⟩

/-- A symbol that injects a default stands in the sequence of a record, and fills the field
that has the default. -/
theorem Built.exists_default (hbuilt : program.Built context builder)
    (horderly : builder.Orderly context)
    (hid : program.symbol? id = some (.sequence (before ++ inject :: following)))
    (hinject : program.symbol? inject = some (.inject type bytes)) :
    ∃ record, ∃ field : DefaultedField, ∃ value last, context.Defines record ∧
      record.fields[field.reader.index]? = some field.reader.field ∧
        field.reader.field.default? = some field.default ∧
          program.Fills value ⟨field.reader.field.name, field.reader.index⟩ following ∧
            Builder.ReadsDefault context builder field [inject, value, last] := by
  rw [hbuilt.symbol] at hid hinject
  rcases horderly.form id _ hid with ⟨_, _, _, _, _, key, _, hlookup⟩ | hback
  · rcases hbuilt.sound.compiled key id hlookup with hnone | ⟨w, r, _, hr, _, hrecord⟩
    · cases hid.symm.trans hnone
    cases hrecord with
    | missing _ hmismatch => cases hid.symm.trans hmismatch
    | @fields matching written defaulted order hmatching hwritten hdefaulted horder hsequence =>
      have hsplit : before ++ inject :: following =
          written.map (·.symbol) ++ (defaulted.flatten ++ [order]) := by
        rw [hid, Option.some_inj, Symbol.sequence.injEq, List.append_assoc] at hsequence
        exact hsequence
      have hwrittenSymbols : inject ∉ written.map (·.symbol) := by
        intro hmem
        obtain ⟨part, hpart, rfl⟩ := List.mem_map.1 hmem
        obtain ⟨linked, _, hreads⟩ := exists_of_forall₂_right hwritten hpart
        cases hreads with
        | linked hsymbol => exact hbuilt.ne_inject hsymbol hinject
        | dropped _ hskip => cases hskip.symm.trans hinject
      obtain ⟨middle, hrest⟩ : ∃ middle,
          defaulted.flatten ++ [order] = middle ++ inject :: following := by
        rcases List.append_eq_append_iff.1 hsplit with ⟨middle, hmiddle, hrest⟩ | ⟨middle, _, hrest⟩
        · cases middle with
          | nil => exact ⟨[], hrest.symm⟩
          | cons first rest =>
            obtain rfl : inject = first := (List.cons.inj hrest).1
            exact absurd (hmiddle ▸ List.mem_append_right _ (.head _)) hwrittenSymbols
        · exact ⟨middle, hrest⟩
      obtain ⟨earlier, field, later, value, last, more, hfields, rfl, hmore, hdefault⟩ :=
        hbuilt.split_defaulted hdefaulted horder hinject hrest
      have hmem : field ∈ matching.defaulted := by simp [hfields]
      have harrivals : matching.arrivals =
          (matching.links.readers ++ earlier.map (·.reader)).map
              (fun reader => (⟨reader.field.name, reader.index⟩ : Arrival)) ++
            ⟨field.reader.field.name, field.reader.index⟩ :: (later.map (·.reader)).map
              fun reader => (⟨reader.field.name, reader.index⟩ : Arrival) := by
        simp [Matching.arrivals, Matching.readers, hfields]
      have hlast : builder.symbol? last = some .injectEnd := by
        cases hdefault
        assumption
      rw [← hbuilt.symbol] at horder hlast
      rw [harrivals] at horder
      exact ⟨r, field, value, last, hr,
        ReaderField.mem_ofFields.1 (Matching.mem_of_defaulted hmatching hmem),
        (Matching.of_ofFields hmatching).2.2 field hmem,
        .intro hlast horder (by simpa using hmore), hdefault⟩
  · obtain ⟨found, hfound, hnot⟩ := hback.2 _ rfl inject (by simp)
    cases hinject.symm.trans hfound
    cases hnot

/-- The same arena, run from another symbol. -/
def startAt (program : Program) (id : SymbolId) : Program :=
  { program with root := id }

theorem Built.startAt (hbuilt : program.Built context builder) (id : SymbolId) :
    (program.startAt id).Built context builder :=
  ⟨hbuilt.symbol, hbuilt.sound, hbuilt.records⟩

end Program

/-! ## Pairs of schemas -/

/-- Whether the defaults of a type can be read back: the fields of a record have names of
their own, no union stands directly in a union, and an array in a default has at most
`zeroWidthLimit` elements.  What is besides asked for holds of all that is parsed: an object
has its keys in order (`Literal.pairwise_sorted`), and the ordinals of an enum fit in
32 bits. -/
def Registry.replayable (registry : Registry) (shape : Shape) : Bool :=
  shape.fieldsDistinct && registry.branchesFlat shape && shape.defaultsReplayable &&
    shape.ordinalsFit

section

variable {root : Node} (htests : root.everyShape (Registry.ofRoot root).replayable = true)
include htests

/-- The encoded default of a field stands for a value that the default denotes. -/
theorem Registry.denotes_of_encodeDefault (haddressable : (ofRoot root).addressable = true)
    {record : RecordNode} (hrecord : Node.Declares [root] record) {field : Field Node}
    (hfield : field ∈ record.fields) {literal : Literal} (hdefault : field.default? = some literal)
    {bytes : List UInt8} (hbytes : encodeDefault (ofRoot root) field.type literal = .ok bytes) :
    ∃ content, (ofRoot root).Denotes field.type literal content ∧
      (ofRoot root).Represents Shape.FirstPlace field.type content bytes := by
  have hdefaults : root.everyShape Shape.defaultsReplayable = true := by
    refine Node.everyShape_mono htests fun shape h => ?_
    simp only [replayable, Bool.and_eq_true] at h
    exact h.1.2
  have hfits : root.everyShape Shape.ordinalsFit = true := by
    refine Node.everyShape_mono htests fun shape h => ?_
    simp only [replayable, Bool.and_eq_true] at h
    exact h.2
  have hnode := Node.mem_forest_singleton.1 (hrecord.field_mem hfield)
  obtain ⟨source, hsource, hdefinition⟩ := hrecord
  rw [Node.mem_forest_singleton] at hsource
  have hliteral := addressable_default haddressable ⟨source, ⟨root, rfl, hsource⟩, hdefinition⟩
    hfield hdefault
  have harrays : literal.replayable = true := by
    have hpass := List.all_eq_true.1 hdefaults source hsource
    rw [Node.ownShape?_of_definition? hdefinition] at hpass
    have hall := List.all_eq_true.1 hpass field hfield
    rwa [hdefault] at hall
  exact (writes_of_encodeDefault hbytes).denotes haddressable hdefaults hfits hnode hliteral harrays

/-- A symbol that reads a node as itself reads back what a default stands for. -/
theorem Program.Built.decode_startAt {context : Context} {program : Program} {builder : Builder}
    (hbuilt : program.Built context builder) (hspans : context.Spans [root]) {node : Node}
    (hnode : node ∈ root.preorder) {content : Value} {bytes : List UInt8}
    (h : (Registry.ofRoot root).Represents Shape.FirstPlace node content bytes) {value : SymbolId}
    (hreads : builder.Reads context node node value) :
    (program.startAt value).decode (.ofList bytes) = .ok content (.ofList []) := by
  have hside := Node.side_of_mem_preorder root node hnode
  have hmirrors : context.Mirrors root root.side := by
    refine ⟨hspans, ?_⟩
    rw [Node.onSide_self rfl]
    exact hspans root (.head _)
  have hdistinct : root.everyShape Shape.fieldsDistinct = true := by
    refine Node.everyShape_mono htests fun shape h => ?_
    simp only [Registry.replayable, Bool.and_eq_true] at h
    exact h.1.1.1
  have hown : ∀ node ∈ root.preorder, ∀ shape place,
      (Registry.ofRoot root).shape? node = some shape → shape.FirstPlace place →
        (Registry.ofRoot root).OwnPlace shape place := by
    intro node hnode shape place hshape hplace
    have hpass := Registry.of_everyShape htests hnode hshape
    simp only [Registry.replayable, Bool.and_eq_true] at hpass
    exact .of_firstPlace hpass.1.1.2 hplace
  have hitself : builder.Reads context node (node.onSide root.side) value := by
    rwa [Node.onSide_self hside]
  have hrun := (hbuilt.startAt value).yields hmirrors hdistinct hown h
    (Node.mem_forest_singleton.2 hnode) hitself (Nat.le_refl _) []
  rw [List.append_nil] at hrun
  refine (decode_eq_iff ?_).2 ⟨_, hrun⟩
  rintro ⟨_, ⟨⟩⟩

end

namespace SchemaPair

variable {pair : SchemaPair} {config : Config} {program : Program}

/-- Whether the defaults of all types of both schemas can be read back. -/
def replayable (pair : SchemaPair) : Bool :=
  pair.roots.all fun root => root.everyShape (Registry.ofRoot root).replayable

/-- A record that is defined belongs to one of the two trees. -/
theorem exists_root {record : RecordNode} (h : (pair.context config).Defines record) :
    ∃ root ∈ pair.roots, (pair.context config).Spans [root] ∧ Node.Declares [root] record := by
  obtain ⟨node, ⟨other, hother, hnode⟩, hdefinition⟩ := h
  obtain ⟨root, hroot, hregistry⟩ : ∃ root ∈ pair.roots,
      (pair.context config).registry record.id.side = .ofRoot root := by
    cases pair <;> cases record.id.side
    · exact ⟨_, .head _, rfl⟩
    · exact ⟨_, .tail _ (.head _), rfl⟩
    · exact ⟨_, .head _, rfl⟩
    · exact ⟨_, .head _, rfl⟩
  obtain ⟨entry, hentry, hsame⟩ := Registry.mem_entries_ofRoot.2 ⟨node, hnode, hdefinition⟩
  rw [← hother, hregistry] at hentry
  obtain ⟨source, hsource, hdeclared⟩ := Registry.mem_entries_ofRoot.1 ⟨entry, hentry, hsame⟩
  refine ⟨root, hroot, ?_, source, Node.mem_forest.2 ⟨root, .head _, hsource⟩, hdeclared⟩
  intro found hfound
  obtain rfl := List.mem_singleton.1 hfound
  rw [← Node.side_of_mem_preorder found source hsource, ← Node.side_of_definition? hdeclared]
  exact hregistry

/-- The symbol behind one that injects a default reads the default back: run on the bytes
that are injected it takes all of them, and gives the one value that the default of the field
denotes as one of the field's type. -/
theorem decode_default (hprogram : pair.program config = .ok program)
    (haddressable : pair.addressable = true) (hreplayable : pair.replayable = true)
    {id inject : SymbolId} {before following : List SymbolId} {type : Schema}
    {bytes : List UInt8}
    (hid : program.symbol? id = some (.sequence (before ++ inject :: following)))
    (hinject : program.symbol? inject = some (.inject type bytes)) :
    ∃ value arrival, program.Fills value arrival following ∧
      ∃ record field literal content, (pair.context config).Defines record ∧
        record.fields[arrival.index]? = some field ∧ field.name = arrival.name ∧
          field.type.schema = type ∧ field.default? = some literal ∧
            (∀ other, ((pair.context config).registry field.type.side).Denotes field.type literal
              other ↔ other = content) ∧
              (program.startAt value).decode (.ofList bytes) = .ok content (.ofList []) := by
  obtain ⟨builder, hbuild, hbuilt, _⟩ := built hprogram
  have horderly := (trace_build hbuild).orderly (Builder.orderly_empty _)
  obtain ⟨record, field, value, last, hrecord, hfield, hdefault, hfills, hreadsDefault⟩ :=
    hbuilt.exists_default horderly hid hinject
  obtain ⟨root, hroot, hspans, hdeclares⟩ := exists_root hrecord
  have htests := List.all_eq_true.1 hreplayable root hroot
  have hmem := List.mem_of_getElem? hfield
  have hnode := Node.mem_forest_singleton.1 (hdeclares.field_mem hmem)
  have hregistry := hspans.registry_eq (.head _) hnode
  have hcontext := addressable_context haddressable config field.reader.field.type.side
  rw [hregistry] at hcontext
  cases hreadsDefault with
  | intro hbytes hinjected hvalue _ =>
    rw [← hbuilt.symbol, hinject] at hinjected
    cases hinjected
    rw [hregistry] at hbytes
    obtain ⟨content, hdenotes, hrepresents⟩ :=
      Registry.denotes_of_encodeDefault htests hcontext hdeclares hmem hdefault hbytes
    refine ⟨value, _, hfills, record, field.reader.field, field.default, content, hrecord, hfield,
      rfl, rfl, hdefault, fun other => ?_,
      hbuilt.decode_startAt htests hspans hnode hrepresents hvalue⟩
    rw [hregistry]
    exact ⟨fun hother => hother.unique hdenotes, fun hsame => hsame ▸ hdenotes⟩

/-- Settings to which a window has come, whose parts have defaults of their own. -/
def settings : SchemaPair :=
  .twoTrees
    (.record ⟨"Settings", none, []⟩ [⟨"user", .primitive .int, none, []⟩])
    (.record ⟨"Settings", none, []⟩
      [⟨"user", .primitive .int, none, []⟩,
        ⟨"window", .record ⟨"Window", none, []⟩
          [⟨"title", .primitive .bytes, some (.string "é"), []⟩,
            ⟨"size", .array (.primitive .int), some (.array [.integer 640, .integer 480]), []⟩,
            ⟨"below", .union [.primitive .null, .reference "Window"], some .null, []⟩,
            ⟨"mark", .fixed ⟨"Mark", none, []⟩ 2, some (.string "x"), []⟩],
          some (.object []), []⟩])

/-- The bytes of the window: its title, the block of its sizes, the branch of what is below
and the mark, which is filled up. -/
def windowBytes : List UInt8 :=
  [2, 0xE9, 4, 0x80, 0x0A, 0xC0, 0x07, 0, 0, 0x78, 0]

/-- The sequence of the settings injects the bytes of the window, and they are read back. -/
def opensWindow (program : Program) : Bool :=
  match program.symbol? 0, program.symbol? 2,
    (program.startAt 3).decode (.ofList windowBytes) with
  | some (.sequence [1, 2, 3, 15, 16]), some (.inject _ bytes),
    .ok (.record [(first, .bytes [0xE9]), (second, .array [.int 640, .int 480]),
      (third, .union 0 .null), (last, .fixed [0x78, 0])]) _ =>
    decide (bytes = windowBytes ∧ [first, second, third, last] = ["title", "size", "below", "mark"])
  | _, _, _ => false

theorem decode_default_settings :
    settings.addressable = true ∧ settings.replayable = true ∧
      ∃ program type arrival record field literal, settings.program {} = .ok program ∧
        program.symbol? 0 = some (.sequence ([1] ++ 2 :: [3, 15, 16])) ∧
          program.symbol? 2 = some (.inject type windowBytes) ∧
            program.Fills 3 arrival [3, 15, 16] ∧ (settings.context {}).Defines record ∧
              record.fields[arrival.index]? = some field ∧ field.default? = some literal ∧
                ((settings.context {}).registry field.type.side).Denotes field.type literal
                  (.record [("title", .bytes [0xE9]), ("size", .array [.int 640, .int 480]),
                    ("below", .union 0 .null), ("mark", .fixed [0x78, 0])]) := by
  have haddressable : settings.addressable = true := by decide +kernel
  have hreplayable : settings.replayable = true := by decide +kernel
  obtain ⟨program, hprogram, hopens⟩ := Reader.exists_ok (settings.program {}) opensWindow
    (by decide +kernel)
  refine ⟨haddressable, hreplayable, program, ?_⟩
  rw [opensWindow] at hopens
  split at hopens
  · rename_i type bytes first second third last rest hid hinject hdecode
    obtain ⟨rfl, hnames⟩ := of_decide_eq_true hopens
    have hsplit : program.symbol? 0 = some (.sequence ([1] ++ 2 :: [3, 15, 16])) := hid
    obtain ⟨value, arrival, hfills, record, field, literal, content, hrecord, hfield, -, -,
      hdefault, hdenotes, hcontent⟩ :=
        decode_default hprogram haddressable hreplayable hsplit hinject
    obtain rfl : value = 3 := hfills.head
    rw [hdecode] at hcontent
    cases hcontent
    cases hnames
    exact ⟨type, arrival, record, field, literal, hprogram, hsplit, hinject, hfills, hrecord,
      hfield, hdefault, (hdenotes _).2 rfl⟩
  · cases hopens

end SchemaPair

namespace SharedTree

/-- Whether the sequence of the order injects the label of its part, in bytes of which one is left
over when they are read back. -/
def injectsLabel (program : Program) : Bool :=
  match program.symbol? 0, program.symbol? 8, (program.startAt 9).decode (.ofList [97, 98, 99]) with
  | some (.sequence [4, 5, 6, 7, 8, 9, 11, 12]), some (.inject _ [97, 98, 99]), .ok _ rest =>
    decide (rest.bytes = [99])
  | _, _, _ => false

/-- Where the schemas of `decode_default` are parts of one tree, a default may not be read back.
That of the order's part has three bytes, by the names of the order.  The symbol behind it takes
two of them: it refers to the label that was compiled with the names of the part. -/
theorem replay_leftover :
    (∀ root ∈ [orders.writerRoot, orders.readerRoot],
      (Registry.ofRoot root).addressable = true ∧
        root.everyShape (Registry.ofRoot root).replayable = true) ∧
    ∃ program type content rest, orders.program {} = .ok program ∧
      program.symbol? 0 = some (.sequence ([4, 5, 6, 7] ++ 8 :: [9, 11, 12])) ∧
        program.symbol? 8 = some (.inject type [97, 98, 99]) ∧
          (program.startAt 9).decode (.ofList [97, 98, 99]) = .ok content rest ∧
            rest.bytes = [99] := by
  refine ⟨by decide +kernel, ?_⟩
  obtain ⟨program, hprogram, hinjects⟩ := Reader.exists_ok (orders.program {}) injectsLabel
    (by decide +kernel)
  rw [injectsLabel] at hinjects
  split at hinjects
  · rename_i type content rest hid hinject hdecode
    exact ⟨program, type, content, rest, hprogram, hid, hinject, hdecode,
      of_decide_eq_true hinjects⟩
  · cases hinjects

end SharedTree

end AvroResolution
