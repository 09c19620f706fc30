import AvroResolution.Proofs.Decoding.Symbols

/-!
# Running a compiled program

What a run does in the arena of a compiled program, by the rule for the two nodes
that its symbol reads.

* `Program.Built.record` takes the symbol of two records apart into the readers
  of their fields.
* `Program.Runs` has one case for each rule, and `Program.Built.runs` says that
  the run of every compiled symbol is one of them.  What is proved of runs is
  proved by these cases.
-/

namespace AvroResolution

namespace Program

variable {program : Program} {context : Context} {builder : Builder}
  {run : SymbolId → Reader Value} {id : SymbolId}

/-! ## Records -/

theorem Built.standsAlone (hbuilt : program.Built context builder) {writer reader : Node}
    (h : builder.Reads context writer reader id) :
    ∃ symbol, program.symbol? id = some symbol ∧ symbol.standsAlone = true := by
  rw [hbuilt.symbol]
  cases h with
  | @atom _ _ _ type _ hid => exact ⟨_, hid, by cases type <;> rfl⟩
  | promotion _ _ hid => exact ⟨_, hid, rfl⟩
  | enum _ _ _ hid => exact ⟨_, hid, rfl⟩
  | array _ _ _ _ hid => exact ⟨_, hid, rfl⟩
  | map _ _ _ _ _ hid => exact ⟨_, hid, rfl⟩
  | select _ _ _ _ hid => exact ⟨_, hid, rfl⟩
  | adjust _ _ _ _ _ hid => exact ⟨_, hid, rfl⟩
  | unbranched _ _ _ _ hid => exact ⟨_, hid, rfl⟩
  | mismatch _ hid => exact ⟨_, hid, rfl⟩
  | records _ hw hr hid =>
    cases hbuilt.records _ _ _ hw hr hid with
    | missing _ hid => exact ⟨_, hid, rfl⟩
    | fields _ _ _ _ hid => exact ⟨_, hid, rfl⟩

/-- The reader of a writer field: as the reader field that it is linked to, or as
itself and dropped. -/
inductive WrittenRead (context : Context) (program : Program) (builder : Builder)
    (run : SymbolId → Reader Value) (id : SymbolId) :
    Field Node × Option ReaderField → FieldRead → Prop
  | linked {field : Field Node} {reader : ReaderField} {symbol : SymbolId}
      (hsymbol : builder.Reads context field.type reader.field.type symbol)
      (hleads : program.Leads id symbol) :
      WrittenRead context program builder run id (field, some reader) (.kept (run symbol))
  | dropped {field : Field Node} {value : SymbolId}
      (hvalue : builder.Reads context field.type field.type value)
      (hleads : program.Leads id value) :
      WrittenRead context program builder run id (field, none) (.dropped (run value))

/-- The reader of a field that is filled from the bytes of its default. -/
inductive DefaultRead (context : Context) (program : Program) (builder : Builder)
    (run : SymbolId → Reader Value) (id : SymbolId) : DefaultedField → FieldRead → Prop
  | intro {field : DefaultedField} {bytes : List UInt8} {inject value : SymbolId}
      (hbytes : encodeDefault (context.registry field.reader.field.type.side)
        field.reader.field.type field.default = .ok bytes)
      (hvalue : builder.Reads context field.reader.field.type field.reader.field.type value)
      (hleads : program.Leads id value) :
      DefaultRead context program builder run id field (.kept (readWhole (run value) bytes inject))

/-- The symbols of the defaults are taken apart, down to the reorder. -/
theorem Built.defaultReads (hbuilt : program.Built context builder)
    (run : SymbolId → Reader Value) {arrivals : List Arrival}
    {order : SymbolId} (horder : program.symbol? order = some (.reorder arrivals))
    {fields : List DefaultedField} {symbols : List (List SymbolId)}
    (h : List.Forall₂ (Builder.ReadsDefault context builder) fields symbols)
    (hleads : ∀ child ∈ symbols.flatten, program.Leads id child) :
    ∃ reads, List.Forall₂ (DefaultRead context program builder run id) fields reads ∧
      program.FieldsOf run (symbols.flatten ++ [order]) reads arrivals := by
  induction h with
  | nil => exact ⟨[], .nil, .order horder⟩
  | cons hfirst _ ih =>
    obtain ⟨reads, hreads, hfields⟩ :=
      ih fun child h => hleads child (List.mem_append_right _ h)
    cases hfirst with
    | intro hbytes hinject hvalue hlast =>
      obtain ⟨symbol, hsymbol, _⟩ := hbuilt.standsAlone hvalue
      rw [← hbuilt.symbol] at hinject hlast
      exact ⟨_, .cons (.intro hbytes hvalue (hleads _ (.tail _ (.head _)))) hreads,
        .filled hinject hsymbol hlast hfields⟩

/-- The symbols of the writer's fields are taken apart, down to what follows
them. -/
theorem Built.writtenReads (hbuilt : program.Built context builder) {arrivals : List Arrival}
    {more : List SymbolId} {others : List FieldRead}
    (hmore : program.FieldsOf run more others arrivals)
    {fields : List (Field Node × Option ReaderField)} {written : List Compile.WrittenField}
    (h : List.Forall₂ (Builder.ReadsWritten context builder) fields written)
    (hleads : ∀ child ∈ written.map (·.symbol), program.Leads id child) :
    ∃ reads, List.Forall₂ (WrittenRead context program builder run id) fields reads ∧
      program.FieldsOf run (written.map (·.symbol) ++ more) (reads ++ others) arrivals := by
  induction h with
  | nil => exact ⟨[], .nil, hmore⟩
  | cons hfirst _ ih =>
    obtain ⟨reads, hreads, hfields⟩ := ih fun child h => hleads child (.tail _ h)
    have hfirstLeads := hleads _ (.head _)
    cases hfirst with
    | linked hsymbol =>
      obtain ⟨symbol, hid, halone⟩ := hbuilt.standsAlone hsymbol
      exact ⟨_, .cons (.linked hsymbol hfirstLeads) hreads, .kept hid halone hfields⟩
    | dropped hvalue hskip =>
      rw [← hbuilt.symbol] at hskip
      have hvalueLeads := hfirstLeads.tail (mem_childrenOf hskip (.head _))
      exact ⟨_, .cons (.dropped hvalue hvalueLeads) hreads, .dropped hskip hfields⟩

/-- The symbol of two records is a mismatch, or reads the parts of the writer's
record and then the defaults. -/
theorem Built.record (hbuilt : program.Built context builder) {w r : RecordNode}
    (h : builder.ReadsRecord context w r id) (run : SymbolId → Reader Value) :
    (∃ field, Matching.ofFields context.config w.fields r.fields = .error field ∧
      program.symbol? id =
        some (.mismatch (.missingField w.heading.fullname r.heading.fullname field))) ∨
    ∃ matching written defaulted,
      Matching.ofFields context.config w.fields r.fields = .ok matching ∧
      List.Forall₂ (WrittenRead context program builder run id) (w.fields.zip matching.links)
        written ∧
      List.Forall₂ (DefaultRead context program builder run id) matching.defaulted defaulted ∧
      program.runStep run id = readRecord matching.arrivals (written ++ defaulted) := by
  cases h with
  | missing hmissing hid => exact .inl ⟨_, hmissing, by rw [hbuilt.symbol, hid]⟩
  | @fields matching written defaulted order hmatching hwritten hdefaulted horder hid =>
    right
    rw [← hbuilt.symbol] at hid horder
    have hchild {child : SymbolId} (h : child ∈ written.map (·.symbol) ++ defaulted.flatten ++
        [order]) : program.Leads id child :=
      .single (mem_childrenOf hid h)
    obtain ⟨defaultReads, hdefaultReads, hdefaultFields⟩ :=
      hbuilt.defaultReads run horder hdefaulted fun child h =>
        hchild (List.mem_append_left _ (List.mem_append_right _ h))
    obtain ⟨writtenReads, hwrittenReads, hfields⟩ :=
      hbuilt.writtenReads hdefaultFields hwritten fun child h =>
        hchild (List.mem_append_left _ (List.mem_append_left _ h))
    rw [List.append_assoc] at hid
    exact ⟨matching, writtenReads, defaultReads, hmatching, hwrittenReads, hdefaultReads,
      runStep_fields hid hfields⟩

/-! ## Runs -/

/-- What the run of a symbol that reads one node as another does within a depth.
The symbols below it run one or two steps less deep. -/
inductive Runs (context : Context) (program : Program) (builder : Builder) (depth : Nat)
    (writer reader : Node) (id : SymbolId) : Reader Value → Prop
  | endless (hdepth : depth < 2) : Runs context program builder depth writer reader id
      (throw .endless)
  | atom {type : Atom} (hreading : context.reading? writer reader = some (.atom type)) :
      Runs context program builder depth writer reader id (readTerminal type.terminal)
  | promotion {promotion : Promotion}
      (hreading : context.reading? writer reader = some (.promotion promotion)) :
      Runs context program builder depth writer reader id (do
        let value ← readTerminal (.primitive promotion.source)
        Reader.ofExcept (fun fault => fault) (promotion.apply value))
  | enum {ws rs : List String} {default? : Option String}
      (hreading : context.reading? writer reader = some (.enum ws rs default?)) :
      Runs context program builder depth writer reader id
        (readEnum (.between context.config ws rs default?))
  | array {wi ri : Node} {item : SymbolId} {less : Nat}
      (hreading : context.reading? writer reader = some (.array wi ri))
      (hless : less < depth) (hnear : depth ≤ less + 2)
      (hitem : builder.Reads context wi ri item) (hleads : program.Leads id item) :
      Runs context program builder depth writer reader id
        (readArray (program.runWithin less item))
  | map {wv rv : Node} {value : SymbolId} {less : Nat}
      (hreading : context.reading? writer reader = some (.map wv rv))
      (hless : less < depth) (hnear : depth ≤ less + 2)
      (hvalue : builder.Reads context wv rv value) (hleads : program.Leads id value) :
      Runs context program builder depth writer reader id
        (readMap (program.runWithin less value))
  | records {w r : RecordNode} {matching : Matching} {written defaulted : List FieldRead}
      {less : Nat}
      (hreading : context.reading? writer reader = some (.records w r))
      (hless : less < depth) (hnear : depth ≤ less + 2)
      (hid : builder.memo.lookup (.resolving w.id r.id) = some id)
      (hmatching : Matching.ofFields context.config w.fields r.fields = .ok matching)
      (hwritten : List.Forall₂
        (WrittenRead context program builder (program.runWithin less) id)
        (w.fields.zip matching.links) written)
      (hdefaulted : List.Forall₂
        (DefaultRead context program builder (program.runWithin less) id)
        matching.defaulted defaulted) :
      Runs context program builder depth writer reader id
        (readRecord matching.arrivals (written ++ defaulted))
  | missing {w r : RecordNode} {field : String}
      (hreading : context.reading? writer reader = some (.records w r))
      (hmissing : Matching.ofFields context.config w.fields r.fields = .error field)
      (hid : program.symbol? id =
        some (.mismatch (.missingField w.heading.fullname r.heading.fullname field))) :
      Runs context program builder depth writer reader id
        (throw (.mismatch (.missingField w.heading.fullname r.heading.fullname field)))
  | select {branches : List Node} {alternatives : List Branch} {less : Nat}
      (hreading : context.reading? writer reader = some (.writerUnion branches))
      (hless : less < depth) (hnear : depth ≤ less + 2)
      (hlength : alternatives.length = branches.length)
      (hbranches : ∀ (index : Nat) (branch : Node) (chosen : Branch),
        branches[index]? = some branch → alternatives[index]? = some chosen →
          builder.Reads context branch reader chosen.symbol)
      (hleads : ∀ chosen ∈ alternatives, program.Leads id chosen.symbol) :
      Runs context program builder depth writer reader id (do
        let index ← Reader.branchIndex alternatives.length
        program.runWithin less alternatives[index].symbol)
  | adjust {branch : Node} {symbol : SymbolId} {index less : Nat} {shape : Shape}
      {branches : List Node} {kept : List (Node × Nat)}
      (hreading : context.reading? writer reader = some (.readerUnion branches))
      (hless : less < depth) (hnear : depth ≤ less + 2)
      (hshape : context.shape? writer = some shape)
      (hkept : context.Sifted shape branches.zipIdx kept)
      (hpick : context.pick shape branches.zipIdx kept = some (branch, index))
      (hbranch : builder.Reads context writer branch symbol) (hleads : program.Leads id symbol)
      (hid : program.symbol? id = some (.adjust index symbol)) :
      Runs context program builder depth writer reader id (do
        let value ← program.runWithin less symbol
        return .union (Int32.ofNat index) value)
  | unbranched {shape : Shape} {branches : List Node} {kept : List (Node × Nat)}
      (hreading : context.reading? writer reader = some (.readerUnion branches))
      (hshape : context.shape? writer = some shape)
      (hkept : context.Sifted shape branches.zipIdx kept)
      (hpick : context.pick shape branches.zipIdx kept = none)
      (hid : program.symbol? id = some (.mismatch (.types shape.typeName Kind.union.name))) :
      Runs context program builder depth writer reader id
        (throw (.mismatch (.types shape.typeName Kind.union.name)))
  | mismatch {cause : Mismatch}
      (hreading : context.reading? writer reader = some (.mismatch cause))
      (hid : program.symbol? id = some (.mismatch cause)) :
      Runs context program builder depth writer reader id (throw (.mismatch cause))

/-- The run of a compiled symbol follows the rule for the two nodes that the symbol
reads. -/
theorem Built.runs (hbuilt : program.Built context builder) {writer reader : Node}
    (h : builder.Reads context writer reader id) (depth : Nat) :
    program.Runs context builder depth writer reader id (program.runWithin depth id) := by
  have hsymbol := hbuilt.symbol
  cases depth with
  | zero => exact .endless (by omega)
  | succ less =>
    rw [runWithin]
    cases h with
    | @atom _ _ _ type hreading hid =>
      rw [← hsymbol] at hid
      rw [runStep_terminal hid]
      exact .atom hreading
    | promotion hreading hsource hid =>
      rw [← hsymbol] at hid hsource
      rw [runStep_promote hid]
      cases less with
      | zero => exact .endless (by omega)
      | succ less =>
        rw [runWithin, runStep_terminal hsource]
        exact .promotion hreading
    | enum hreading hordinal hremap hid =>
      rw [← hsymbol] at hid hordinal hremap
      rw [runStep_enum hid hordinal hremap]
      exact .enum hreading
    | @array _ _ _ _ _ start items item hreading hitem hstart hitems hid =>
      rw [← hsymbol] at hid hstart hitems
      rw [runStep_array hid hstart hitems]
      have hleads : program.Leads id item :=
        .head (mem_childrenOf hid (.tail _ (.head _))) (.single (mem_childrenOf hitems (.head _)))
      exact .array hreading (by omega) (by omega) hitem hleads
    | @map _ _ _ _ _ start entries key value hreading hvalue _ hstart hentries hid =>
      rw [← hsymbol] at hid hstart hentries
      rw [runStep_map hid hstart hentries]
      have hleads : program.Leads id value :=
        .head (mem_childrenOf hid (.tail _ (.head _)))
          (.single (mem_childrenOf hentries (.tail _ (.head _))))
      exact .map hreading (by omega) (by omega) hvalue hleads
    | records hreading hw hr hid =>
      rcases hbuilt.record (hbuilt.records _ _ _ hw hr hid) (program.runWithin less) with
        ⟨field, hmissing, hid⟩ |
          ⟨matching, written, defaulted, hmatching, hwritten, hdefaulted, hrun⟩
      · rw [runStep_mismatch hid]
        exact .missing hreading hmissing hid
      · rw [hrun]
        exact .records hreading (by omega) (by omega) hid hmatching hwritten hdefaulted
    | @select _ _ _ alternative branches alternatives hreading hlength hbranches halternative hid =>
      rw [← hsymbol] at hid halternative
      rw [runStep_select hid]
      cases less with
      | zero => exact .endless (by omega)
      | succ less =>
        rw [runWithin, runStep_alternative halternative]
        refine .select hreading (by omega) (by omega) hlength hbranches ?_
        intro chosen hchosen
        have hchild : chosen.symbol ∈ (Symbol.alternative alternatives).children :=
          List.mem_map_of_mem hchosen
        exact .head (mem_childrenOf hid (.head _)) (.single (mem_childrenOf halternative hchild))
    | adjust hreading hshape hkept hpick hbranch hid =>
      rw [← hsymbol] at hid
      rw [runStep_adjust hid]
      exact .adjust hreading (by omega) (by omega) hshape hkept hpick hbranch
        (.single (mem_childrenOf hid (.head _))) hid
    | unbranched hreading hshape hkept hpick hid =>
      rw [← hsymbol] at hid
      rw [runStep_mismatch hid]
      exact .unbranched hreading hshape hkept hpick hid
    | mismatch hreading hid =>
      rw [← hsymbol] at hid
      rw [runStep_mismatch hid]
      exact .mismatch hreading hid

end Program

end AvroResolution
