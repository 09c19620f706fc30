import AvroResolution.Proofs.Compilation.Builder
import AvroResolution.Proofs.Compilation.Matching
import AvroResolution.Proofs.Compilation.Reading

/-!
# What a compiled symbol reads

* `Builder.Reads` says that a symbol reads one node as another: it has the form
  that the rule for the two asks for, and so do the symbols below it.  Two
  records are read by the symbol remembered for them, so the relation does not
  follow the cycles of the arena.
* `Builder.ReadsRecord` says what that symbol holds.
* `Builder.misfit_of_hasMatchError`: the symbol of two records shows a mismatch at
  first sight only if the records are a `Context.Misfit`.
-/

namespace AvroResolution

namespace Builder

/-- The symbol reads a writer's node as a reader's. -/
inductive Reads (context : Context) (builder : Builder) : Node → Node → SymbolId → Prop
  | atom {writer reader : Node} {id : SymbolId} {type : Atom}
      (hreading : context.reading? writer reader = some (.atom type))
      (hid : builder.symbol? id = some (.terminal type.terminal)) :
      Reads context builder writer reader id
  | promotion {writer reader : Node} {id source : SymbolId} {promotion : Promotion}
      (hreading : context.reading? writer reader = some (.promotion promotion))
      (hsource : builder.symbol? source = some (.terminal (.primitive promotion.source)))
      (hid : builder.symbol? id = some (.promote source promotion)) :
      Reads context builder writer reader id
  | enum {writer reader : Node} {id ordinal remap : SymbolId} {ws rs : List String}
      {default? : Option String}
      (hreading : context.reading? writer reader = some (.enum ws rs default?))
      (hordinal : builder.symbol? ordinal = some (.terminal .enum))
      (hremap : builder.symbol? remap =
        some (.remap (.between context.config ws rs default?)))
      (hid : builder.symbol? id = some (.sequence [ordinal, remap])) :
      Reads context builder writer reader id
  | array {writer reader wi ri : Node} {id start items item : SymbolId}
      (hreading : context.reading? writer reader = some (.array wi ri))
      (hitem : Reads context builder wi ri item)
      (hstart : builder.symbol? start = some (.terminal (.start .array)))
      (hitems : builder.symbol? items = some (.repetition .array [item]))
      (hid : builder.symbol? id = some (.sequence [start, items])) :
      Reads context builder writer reader id
  | map {writer reader wv rv : Node} {id start entries key value : SymbolId}
      (hreading : context.reading? writer reader = some (.map wv rv))
      (hvalue : Reads context builder wv rv value)
      (hkey : builder.symbol? key = some (.terminal (.primitive .string)))
      (hstart : builder.symbol? start = some (.terminal (.start .map)))
      (hentries : builder.symbol? entries = some (.repetition .map [key, value]))
      (hid : builder.symbol? id = some (.sequence [start, entries])) :
      Reads context builder writer reader id
  | records {writer reader : Node} {id : SymbolId} {w r : RecordNode}
      (hreading : context.reading? writer reader = some (.records w r))
      (hw : context.Defines w) (hr : context.Defines r)
      (hid : builder.memo.lookup (.resolving w.id r.id) = some id) :
      Reads context builder writer reader id
  | select {writer reader : Node} {id alternative : SymbolId} {branches : List Node}
      {alternatives : List Branch}
      (hreading : context.reading? writer reader = some (.writerUnion branches))
      (hlength : alternatives.length = branches.length)
      (hbranches : ∀ (index : Nat) (branch : Node) (chosen : Branch),
        branches[index]? = some branch → alternatives[index]? = some chosen →
          Reads context builder branch reader chosen.symbol)
      (halternative : builder.symbol? alternative = some (.alternative alternatives))
      (hid : builder.symbol? id = some (.select alternative)) :
      Reads context builder writer reader id
  | adjust {writer reader branch : Node} {id symbol : SymbolId} {index : Nat} {shape : Shape}
      {branches : List Node} {kept : List (Node × Nat)}
      (hreading : context.reading? writer reader = some (.readerUnion branches))
      (hshape : context.shape? writer = some shape)
      (hkept : context.Sifted shape branches.zipIdx kept)
      (hpick : context.pick shape branches.zipIdx kept = some (branch, index))
      (hbranch : Reads context builder writer branch symbol)
      (hid : builder.symbol? id = some (.adjust index symbol)) :
      Reads context builder writer reader id
  | unbranched {writer reader : Node} {id : SymbolId} {shape : Shape} {branches : List Node}
      {kept : List (Node × Nat)}
      (hreading : context.reading? writer reader = some (.readerUnion branches))
      (hshape : context.shape? writer = some shape)
      (hkept : context.Sifted shape branches.zipIdx kept)
      (hpick : context.pick shape branches.zipIdx kept = none)
      (hid : builder.symbol? id = some (.mismatch (.types shape.typeName Kind.union.name))) :
      Reads context builder writer reader id
  | mismatch {writer reader : Node} {id : SymbolId} {cause : Mismatch}
      (hreading : context.reading? writer reader = some (.mismatch cause))
      (hid : builder.symbol? id = some (.mismatch cause)) :
      Reads context builder writer reader id

/-- What the form of a symbol says of records, unions and mismatches. -/
theorem Reads.of_reading {context : Context} {builder : Builder} {writer reader : Node}
    {id : SymbolId} {reading : Reading} (h : builder.Reads context writer reader id)
    (hreading : context.reading? writer reader = some reading) :
    match reading with
    | .records w r => context.Defines w ∧ context.Defines r ∧
        builder.memo.lookup (.resolving w.id r.id) = some id
    | .mismatch cause => builder.symbol? id = some (.mismatch cause)
    | .readerUnion branches => ∃ shape kept, context.shape? writer = some shape ∧
        context.Sifted shape branches.zipIdx kept ∧
          match context.pick shape branches.zipIdx kept with
          | some (branch, index) => ∃ symbol, builder.Reads context writer branch symbol ∧
              builder.symbol? id = some (.adjust index symbol)
          | none => ∃ cause, builder.symbol? id = some (.mismatch cause)
    | _ => True := by
  cases h with
  | atom h => cases hreading.symm.trans h; trivial
  | promotion h => cases hreading.symm.trans h; trivial
  | enum h => cases hreading.symm.trans h; trivial
  | array h => cases hreading.symm.trans h; trivial
  | map h => cases hreading.symm.trans h; trivial
  | select h => cases hreading.symm.trans h; trivial
  | records h hw hr hid =>
    cases hreading.symm.trans h
    exact ⟨hw, hr, hid⟩
  | mismatch h hid =>
    cases hreading.symm.trans h
    exact hid
  | adjust h hshape hkept hpick hbranch hid =>
    cases hreading.symm.trans h
    refine ⟨_, _, hshape, hkept, ?_⟩
    rw [hpick]
    exact ⟨_, hbranch, hid⟩
  | unbranched h hshape hkept hpick hid =>
    cases hreading.symm.trans h
    refine ⟨_, _, hshape, hkept, ?_⟩
    rw [hpick]
    exact ⟨_, hid⟩

/-- The symbols read a writer field as the reader field it is linked to, or read it
and drop it. -/
inductive ReadsWritten (context : Context) (builder : Builder) :
    Field Node × Option ReaderField → Compile.WrittenField → Prop
  | linked {field : Field Node} {reader : ReaderField} {symbol : SymbolId}
      (hsymbol : builder.Reads context field.type reader.field.type symbol) :
      ReadsWritten context builder (field, some reader)
        ⟨symbol, some ⟨reader.field.name, reader.index⟩⟩
  | dropped {field : Field Node} {symbol value : SymbolId}
      (hvalue : builder.Reads context field.type field.type value)
      (hsymbol : builder.symbol? symbol = some (.skip value)) :
      ReadsWritten context builder (field, none) ⟨symbol, none⟩

/-- The symbols read a field from the bytes of its default. -/
inductive ReadsDefault (context : Context) (builder : Builder) :
    DefaultedField → List SymbolId → Prop
  | intro {field : DefaultedField} {bytes : List UInt8} {inject value last : SymbolId}
      (hbytes : encodeDefault (context.registry field.reader.field.type.side)
        field.reader.field.type field.default = .ok bytes)
      (hinject : builder.symbol? inject =
        some (.inject field.reader.field.type.schema bytes))
      (hvalue : builder.Reads context field.reader.field.type field.reader.field.type value)
      (hlast : builder.symbol? last = some .injectEnd) :
      ReadsDefault context builder field [inject, value, last]

/-- The symbol reads a writer's record as a reader's. -/
inductive ReadsRecord (context : Context) (builder : Builder) (w r : RecordNode)
    (id : SymbolId) : Prop
  | missing {field : String}
      (hmissing : Matching.ofFields context.config w.fields r.fields = .error field)
      (hid : builder.symbol? id =
        some (.mismatch (.missingField w.heading.fullname r.heading.fullname field)))
  | fields {matching : Matching} {written : List Compile.WrittenField}
      {defaulted : List (List SymbolId)} {order : SymbolId}
      (hmatching : Matching.ofFields context.config w.fields r.fields = .ok matching)
      (hwritten : List.Forall₂ (ReadsWritten context builder) (w.fields.zip matching.links)
        written)
      (hdefaulted : List.Forall₂ (ReadsDefault context builder) matching.defaulted defaulted)
      (horder : builder.symbol? order = some (.reorder matching.arrivals))
      (hid : builder.symbol? id =
        some (.sequence (written.map (·.symbol) ++ defaulted.flatten ++ [order])))

/-- The symbol that is remembered under a key is compiled for the pair of records that the
key names. -/
def ReadsKey (context : Context) (builder : Builder) (key : MemoKey) (id : SymbolId) : Prop :=
  ∃ w r, context.Defines w ∧ context.Defines r ∧ key = .resolving w.id r.id ∧
    builder.ReadsRecord context w r id

/-! ## Growing -/

variable {context : Context} {builder after : Builder}

theorem Reads.grow (hgrows : builder.Grows after) {writer reader : Node} {id : SymbolId}
    (h : builder.Reads context writer reader id) : after.Reads context writer reader id := by
  induction h with
  | atom hreading hid => exact .atom hreading (hgrows.symbol _ _ hid)
  | promotion hreading hsource hid =>
    exact .promotion hreading (hgrows.symbol _ _ hsource) (hgrows.symbol _ _ hid)
  | enum hreading hordinal hremap hid =>
    exact .enum hreading (hgrows.symbol _ _ hordinal) (hgrows.symbol _ _ hremap)
      (hgrows.symbol _ _ hid)
  | array hreading _ hstart hitems hid ih =>
    exact .array hreading ih (hgrows.symbol _ _ hstart) (hgrows.symbol _ _ hitems)
      (hgrows.symbol _ _ hid)
  | map hreading _ hkey hstart hentries hid ih =>
    exact .map hreading ih (hgrows.symbol _ _ hkey) (hgrows.symbol _ _ hstart)
      (hgrows.symbol _ _ hentries) (hgrows.symbol _ _ hid)
  | records hreading hw hr hid => exact .records hreading hw hr (hgrows.memo _ _ hid)
  | select hreading hlength _ halternative hid ih =>
    exact .select hreading hlength ih (hgrows.symbol _ _ halternative) (hgrows.symbol _ _ hid)
  | adjust hreading hshape hkept hpick _ hid ih =>
    exact .adjust hreading hshape hkept hpick ih (hgrows.symbol _ _ hid)
  | unbranched hreading hshape hkept hpick hid =>
    exact .unbranched hreading hshape hkept hpick (hgrows.symbol _ _ hid)
  | mismatch hreading hid => exact .mismatch hreading (hgrows.symbol _ _ hid)

theorem ReadsWritten.grow (hgrows : builder.Grows after)
    {linked : Field Node × Option ReaderField} {written : Compile.WrittenField}
    (h : ReadsWritten context builder linked written) :
    ReadsWritten context after linked written := by
  cases h with
  | linked hsymbol => exact .linked (hsymbol.grow hgrows)
  | dropped hvalue hsymbol => exact .dropped (hvalue.grow hgrows) (hgrows.symbol _ _ hsymbol)

theorem ReadsDefault.grow (hgrows : builder.Grows after) {field : DefaultedField}
    {symbols : List SymbolId} (h : ReadsDefault context builder field symbols) :
    ReadsDefault context after field symbols := by
  cases h with
  | intro hbytes hinject hvalue hlast =>
    exact .intro hbytes (hgrows.symbol _ _ hinject) (hvalue.grow hgrows)
      (hgrows.symbol _ _ hlast)

theorem ReadsRecord.grow (hgrows : builder.Grows after) {w r : RecordNode} {id : SymbolId}
    (h : builder.ReadsRecord context w r id) : after.ReadsRecord context w r id := by
  cases h with
  | missing hmissing hid => exact .missing hmissing (hgrows.symbol _ _ hid)
  | fields hmatching hwritten hdefaulted horder hid =>
    exact .fields hmatching (hwritten.imp fun _ _ h => h.grow hgrows)
      (hdefaulted.imp fun _ _ h => h.grow hgrows) (hgrows.symbol _ _ horder)
      (hgrows.symbol _ _ hid)

theorem lasting_readsKey (context : Context) : Lasting (ReadsKey context) := by
  rintro before after key id hgrows ⟨w, r, hw, hr, hkey, h⟩
  exact ⟨w, r, hw, hr, hkey, h.grow hgrows⟩

theorem ReadsKey.readsRecord {w r : RecordNode} {id : SymbolId}
    (h : builder.ReadsKey context (.resolving w.id r.id) id) (hw : context.Defines w)
    (hr : context.Defines r) : builder.ReadsRecord context w r id := by
  obtain ⟨w', r', hw', hr', hkey, h⟩ := h
  injection hkey with hwid hrid
  obtain rfl := hw.eq hw' hwid
  obtain rfl := hr.eq hr' hrid
  exact h

theorem Sound.readsRecord (hsound : builder.Sound (ReadsKey context)) {w r : RecordNode}
    {id : SymbolId} (hw : context.Defines w) (hr : context.Defines r)
    (hid : builder.memo.lookup (.resolving w.id r.id) = some id) {symbol : Symbol}
    (hsymbol : builder.symbol? id = some symbol) : builder.ReadsRecord context w r id := by
  rcases hsound.compiled _ id hid with hnone | hcompiled
  · rw [hnone] at hsymbol
    cases hsymbol
  · exact hcompiled.readsRecord hw hr

/-! ## Mismatches at first sight -/

/-- A node read as itself is no mismatch. -/
theorem Reads.self_ne_mismatch (hsound : builder.Sound (ReadsKey context)) {node : Node}
    {id : SymbolId} (h : builder.Reads context node node id) (cause : Mismatch) :
    builder.symbol? id ≠ some (.mismatch cause) := by
  intro hmismatch
  have hself {reading : Reading} (hreading : context.reading? node node = some reading) :
      ∃ shape : Shape, shape.reading shape = reading := by
    obtain ⟨shape, shape', hshape, hshape', hreading⟩ := Context.reading?_eq_some.1 hreading
    rw [hshape] at hshape'
    cases hshape'
    exact ⟨shape, hreading⟩
  cases h with
  | atom _ hid => rw [hid] at hmismatch; cases hmismatch
  | promotion _ _ hid => rw [hid] at hmismatch; cases hmismatch
  | enum _ _ _ hid => rw [hid] at hmismatch; cases hmismatch
  | array _ _ _ _ hid => rw [hid] at hmismatch; cases hmismatch
  | map _ _ _ _ _ hid => rw [hid] at hmismatch; cases hmismatch
  | select _ _ _ _ hid => rw [hid] at hmismatch; cases hmismatch
  | adjust _ _ _ _ _ hid => rw [hid] at hmismatch; cases hmismatch
  | unbranched hreading =>
    obtain ⟨shape, hshape⟩ := hself hreading
    exact absurd hshape ((Shape.reading_self shape).2 _)
  | mismatch hreading =>
    obtain ⟨shape, hshape⟩ := hself hreading
    exact absurd hshape ((Shape.reading_self shape).1 _)
  | records hreading hw hr hid =>
    obtain ⟨shape, hshape⟩ := hself hreading
    have hrule := shape.rule_reading shape
    rw [hshape] at hrule
    cases hrule
    cases hsound.readsRecord hw hr hid hmismatch with
    | missing hmissing _ =>
      obtain ⟨matching, hmatching⟩ := Matching.exists_ofFields_self context.config _
      rw [hmatching] at hmissing
      cases hmissing
    | fields _ _ _ _ hid =>
      rw [hid] at hmismatch
      cases hmismatch

/-- A branch that does not fit is a misfit. -/
theorem misfit_of_unfit {shape : Shape} {candidates : List (Node × Nat)}
    (hnone : context.fitting shape candidates = []) {candidate : Node × Nat}
    (hmem : candidate ∈ candidates) {w r : RecordNode} (hw : shape = .named (.record w))
    (hr : context.recordAt? candidate = some r) : context.Misfit w r := by
  by_contra hfits
  have hmem : candidate ∈ context.fitting shape candidates :=
    Context.mem_fitting.2 ⟨hmem, w, r, hw, hr, hfits⟩
  rw [hnone] at hmem
  cases hmem

/-- Two linked fields whose symbol is a mismatch make their records a misfit. -/
theorem misfit_of_mismatch (hsound : builder.Sound (ReadsKey context)) {w r : RecordNode}
    {matching : Matching} {field : Field Node} {link : ReaderField} {id : SymbolId}
    {cause : Mismatch}
    (hmatching : Matching.ofFields context.config w.fields r.fields = .ok matching)
    (hlinked : (field, some link) ∈ w.fields.zip matching.links)
    (hreads : builder.Reads context field.type link.field.type id)
    (hmismatch : builder.symbol? id = some (.mismatch cause)) : context.Misfit w r := by
  cases hreads with
  | atom _ hid => rw [hid] at hmismatch; cases hmismatch
  | promotion _ _ hid => rw [hid] at hmismatch; cases hmismatch
  | enum _ _ _ hid => rw [hid] at hmismatch; cases hmismatch
  | array _ _ _ _ hid => rw [hid] at hmismatch; cases hmismatch
  | map _ _ _ _ _ hid => rw [hid] at hmismatch; cases hmismatch
  | select _ _ _ _ hid => rw [hid] at hmismatch; cases hmismatch
  | adjust _ _ _ _ _ hid => rw [hid] at hmismatch; cases hmismatch
  | mismatch hreading => exact .types hmatching hlinked hreading
  | records hreading hw hr hid =>
    cases hsound.readsRecord hw hr hid hmismatch with
    | missing hmissing _ => exact .records hmatching hlinked hreading hmissing
    | fields _ _ _ _ hid =>
      rw [hid] at hmismatch
      cases hmismatch
  | unbranched hreading hshape hkept hpick _ =>
    obtain ⟨rfl, hpick⟩ := Context.pick_eq_none hpick
    exact .branches hmatching hlinked hreading hshape hpick
      fun candidate hmem inner inner' hw hr => misfit_of_unfit hkept.fitting.symm hmem hw hr

/-- The symbol of two records shows a mismatch only if the records do not fit. -/
theorem misfit_of_hasMatchError (hsound : builder.Sound (ReadsKey context)) {w r : RecordNode}
    {id : SymbolId} (hw : context.Defines w) (hr : context.Defines r)
    (hid : builder.memo.lookup (.resolving w.id r.id) = some id)
    (herror : builder.hasMatchError id = true) : context.Misfit w r := by
  cases hsymbol : builder.symbol? id with
  | none =>
    rw [hasMatchError, hsymbol] at herror
    cases herror
  | some symbol =>
    cases hsound.readsRecord hw hr hid hsymbol with
    | missing hmissing _ => exact .missing hmissing
    | @fields matching written defaulted order hmatching hwritten hdefaulted horder hsequence =>
      rw [hasMatchError, hsequence] at herror
      obtain ⟨child, hchild, hshows⟩ := List.any_eq_true.1 herror
      obtain ⟨cause, hmismatch⟩ : ∃ cause, builder.symbol? child = some (.mismatch cause) := by
        split at hshows
        · rename_i found hfound
          cases found <;> cases hshows
          exact ⟨_, hfound⟩
        · cases hshows
      rw [List.append_assoc, List.mem_append, List.mem_append] at hchild
      rcases hchild with hchild | hchild | hchild
      · obtain ⟨field, hfield, rfl⟩ := List.mem_map.1 hchild
        obtain ⟨linked, hlinked, hreads⟩ := exists_of_forall₂_right hwritten hfield
        cases hreads with
        | linked hsymbol => exact misfit_of_mismatch hsound hmatching hlinked hsymbol hmismatch
        | dropped _ hskip =>
          rw [hskip] at hmismatch
          cases hmismatch
      · obtain ⟨symbols, hsymbols, hchild⟩ := List.mem_flatten.1 hchild
        obtain ⟨field, _, hreads⟩ := exists_of_forall₂_right hdefaulted hsymbols
        cases hreads with
        | intro _ hinject hvalue hlast =>
          rcases List.mem_cons.1 hchild with rfl | hchild
          · rw [hinject] at hmismatch
            cases hmismatch
          · rcases List.mem_cons.1 hchild with rfl | hchild
            · exact absurd hmismatch (hvalue.self_ne_mismatch hsound cause)
            · obtain rfl := List.mem_singleton.1 hchild
              rw [hlast] at hmismatch
              cases hmismatch
      · obtain rfl := List.mem_singleton.1 hchild
        rw [horder] at hmismatch
        cases hmismatch

end Builder

end AvroResolution
