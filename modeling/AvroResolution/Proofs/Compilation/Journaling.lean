import AvroResolution.Proofs.Compilation.Descent
import AvroResolution.Proofs.Compilation.Journal
import AvroResolution.Proofs.Compilation.Validating

/-!
# The journal of a compilation

* `Compile.Keeps` says that what a compilation logs is a lawful journal, and that what it binds is
  built from then on.  It is proved construct by construct, with one lemma for each function of
  the two compilers (`Compile.keeps_resolving`, `Compile.keeps_validating`).
* `Compile.keeps_reserveFor` is where a slot is filled: what lies between the reservation and the
  filling leaves old slots empty, so the slot is still empty.
* `Builder.HoldsKey` says what is built for two records, also if the sides are parts of one tree.
-/

namespace AvroResolution

namespace Compile

open Builder (Event)

variable {α β : Type} {x : Compile α} {builder after : Builder} {value : α}

/-! ## Keeping a journal -/

/-- What a compilation that succeeds does to the builder is a lawful journal.  It fills no old
slots, and what it binds is built from then on. -/
def Keeps (built : Builder → MemoKey → SymbolId → Prop) (builder : Builder) (x : Compile α) :
    Prop :=
  ∀ value after, x builder = .ok (value, after) → builder.Extends after ∧
    ∃ events, builder.Lawful events ∧ builder.replay events = after ∧
      ∀ key id, .bound key id ∈ events → ∀ last, after.Grows last → built last key id

variable {built : Builder → MemoKey → SymbolId → Prop}

namespace Keeps

/-- There is one run from a builder, so its journal is enough. -/
theorem of_run (events : List Event) (hx : x builder = .ok (value, builder.replay events))
    (hlawful : builder.Lawful events) (hextends : builder.Extends (builder.replay events))
    (hbuilt : ∀ key id, .bound key id ∈ events →
      ∀ last, (builder.replay events).Grows last → built last key id) :
    Keeps built builder x := by
  intro result after hrun
  rw [hx] at hrun
  cases hrun
  exact ⟨hextends, events, hlawful, rfl, hbuilt⟩

/-- What leaves the builder as it is logs nothing. -/
theorem of_same (h : ∀ value after, x builder = .ok (value, after) → after = builder) :
    Keeps built builder x := by
  intro value after hx
  obtain rfl := h value after hx
  exact ⟨.refl after, [], trivial, rfl, nofun⟩

protected theorem pure (value : α) : Keeps built builder (pure value) :=
  .of_run [] rfl trivial (.refl builder) nofun

protected theorem throw (fault : SchemaFault) :
    Keeps built builder (throw fault : Compile α) := by
  intro _ _ hx
  cases hx

protected theorem bind {f : α → Compile β} (hx : Keeps built builder x)
    (hf : ∀ value middle, x.Returns value → Keeps built middle (f value)) :
    Keeps built builder (x >>= f) := by
  intro value after hrun
  obtain ⟨first, middle, hfirst, hrest⟩ := bind_ok.1 hrun
  obtain ⟨hextends, events, hlawful, rfl, hbuilt⟩ := hx first middle hfirst
  obtain ⟨hextends', later, hlawful', rfl, hbuilt'⟩ :=
    hf first _ ⟨builder, _, hfirst⟩ value after hrest
  refine ⟨hextends.trans hextends', events ++ later, Builder.lawful_append.2 ⟨hlawful, hlawful'⟩,
    Builder.replay_append builder events later, ?_⟩
  intro key id hbound last hlast
  rcases List.mem_append.1 hbound with hbound | hbound
  · exact hbuilt key id hbound last (hextends'.toGrows.trans hlast)
  · exact hbuilt' key id hbound last hlast

/-- A list is compiled one after the other. -/
protected theorem mapM {f : α → Compile β} {items : List α}
    (hf : ∀ item ∈ items, ∀ builder, Keeps built builder (f item)) :
    Keeps built builder (items.mapM f) := by
  induction items generalizing builder with
  | nil =>
    rw [List.mapM_nil]
    exact .pure []
  | cons item rest ih =>
    rw [List.mapM_cons]
    refine .bind (hf item (.head _) builder) ?_
    intro value middle _
    refine .bind (ih fun other hother => hf other (.tail _ hother)) ?_
    intro values last _
    exact .pure (value :: values)

end Keeps

/-! ## The arena -/

theorem keeps_push (symbol : Symbol) : Keeps built builder (push symbol) :=
  .of_run [.push builder.slots.size symbol] rfl (Builder.lawful_singleton.2 rfl)
    (builder.extends_pushSlot (some symbol)) nofun

theorem keeps_terminal (wanted : Terminal) : Keeps built builder (terminal wanted) := by
  intro id after hx
  cases hfound : builder.terminal? wanted with
  | some found =>
    rw [terminal, hfound] at hx
    exact Keeps.pure found id after hx
  | none =>
    rw [terminal, hfound] at hx
    exact keeps_push (.terminal wanted) id after hx

theorem keeps_hasMatchError (id : SymbolId) : Keeps built builder (hasMatchError id) :=
  .of_run [] rfl trivial (.refl builder) nofun

theorem keeps_look (context : Context) (node : Node) :
    Keeps built builder (context.look node) := by
  refine .of_same fun shape after hx => ?_
  rw [Context.look] at hx
  split at hx <;> cases hx
  rfl

theorem keeps_defaultBytes (context : Context) (field : DefaultedField) :
    Keeps built builder (defaultBytes context field) := by
  refine .of_same fun bytes after hx => ?_
  simp only [defaultBytes] at hx
  split at hx <;> cases hx
  rfl

theorem keeps_blocks (collection : Collection) (body : List SymbolId) :
    Keeps built builder (blocks collection body) := by
  refine .bind (keeps_terminal _) ?_
  intro start first _
  refine .bind (keeps_push _) ?_
  intro items second _
  exact keeps_push _

theorem keeps_enumeration (adjustment : EnumAdjustment) :
    Keeps built builder (enumeration adjustment) := by
  refine .bind (keeps_terminal _) ?_
  intro ordinal first _
  refine .bind (keeps_push _) ?_
  intro remap second _
  exact keeps_push _

/-! ## Records -/

/-- A record that is met again is logged, and nothing else happens. -/
theorem keeps_onFirstSight {key : MemoKey} {compile : Compile SymbolId}
    (h : builder.memo.lookup key = none → Keeps built builder compile) :
    Keeps built builder (onFirstSight key compile) := by
  cases hlookup : builder.memo.lookup key with
  | some found =>
    exact .of_run [.met key found] (onFirstSight_of_some hlookup)
      (Builder.lawful_singleton.2 hlookup) (builder.extends_meet key found) nofun
  | none =>
    intro id after hx
    rw [onFirstSight_of_none hlookup] at hx
    exact h hlookup id after hx

theorem keeps_pushFor {key : MemoKey} {symbol : Symbol} (hfresh : builder.memo.lookup key = none)
    (hbuilt : ∀ last, Builder.symbol? last builder.slots.size = some symbol →
      built last key builder.slots.size) : Keeps built builder (pushFor key symbol) := by
  refine .of_run [.push builder.slots.size symbol, .bound key builder.slots.size] rfl
    ⟨rfl, ⟨hfresh, rfl⟩, trivial⟩
    ((builder.extends_pushSlot _).trans (Builder.extends_remember _ _ hfresh)) ?_
  intro other id hbound last hlast
  have hsame : (other, id) = (key, builder.slots.size) := by
    simpa using hbound
  cases hsame
  exact hbuilt last (hlast.symbol _ _ (builder.symbol?_pushSlot_self (some symbol)))

/-- The slot is filled while it is empty: what lies between leaves old slots as they are. -/
theorem keeps_reserveFor {key : MemoKey} {body : Compile Symbol}
    (hfresh : builder.memo.lookup key = none) (hbody : Keeps built (builder.opened key) body)
    (hbuilt : ∀ symbol middle last, body (builder.opened key) = .ok (symbol, middle) →
      middle.Grows last → last.symbol? builder.slots.size = some symbol →
        built last key builder.slots.size) : Keeps built builder (reserveFor key body) := by
  intro id after hx
  obtain ⟨symbol, middle, hsymbol, rfl, rfl⟩ := reserveFor_ok.1 hx
  obtain ⟨hextends, events, hlawful, hreplay, hinside⟩ := hbody symbol middle hsymbol
  have hsize : builder.slots.size < middle.slots.size := by
    have hopened := hextends.size
    rwa [Builder.size_opened] at hopened
  have hempty : middle.symbol? builder.slots.size = none := hextends.symbol?_opened
  have hfilled : (builder.opened key).Lawful
      (events ++ [Event.fill builder.slots.size symbol]) := by
    rw [Builder.lawful_append, hreplay, Builder.lawful_singleton]
    exact ⟨hlawful, hsize, hempty⟩
  have hall : builder.Lawful (.reserve builder.slots.size :: .bound key builder.slots.size ::
      (events ++ [Event.fill builder.slots.size symbol])) := ⟨rfl, ⟨hfresh, rfl⟩, hfilled⟩
  refine ⟨hextends.fillSlot hfresh symbol, _, hall, ?_, ?_⟩
  · have hrest := Builder.replay_append (builder.opened key) events
      [.fill builder.slots.size symbol]
    rw [hreplay] at hrest
    exact hrest
  · intro other id hbound last hlast
    have hgrows : middle.Grows last := (Builder.grows_fillSlot symbol hempty).trans hlast
    simp only [List.mem_cons, List.mem_append, Event.bound.injEq, List.not_mem_nil,
      reduceCtorEq, false_or, or_false] at hbound
    rcases hbound with ⟨rfl, rfl⟩ | hbound
    · exact hbuilt symbol middle last hsymbol hgrows
        (hlast.symbol _ _ (Builder.symbol?_fillSlot_self hsize symbol))
    · exact hinside other id hbound last hgrows

end Compile

/-- The symbol stands for two records under their key.  It is a mismatch for want of a field, or a
sequence that ends with the order of the reader's fields. -/
def Builder.HoldsKey (context : Context) (builder : Builder) (key : MemoKey) (id : SymbolId) :
    Prop :=
  ∃ w r, context.Defines w ∧ context.Defines r ∧ key = context.key w r ∧
    match Matching.ofFields context.config w.fields r.fields with
    | .error field => builder.symbol? id =
        some (.mismatch (.missingField w.heading.fullname r.heading.fullname field))
    | .ok matching => ∃ children order,
        builder.symbol? order = some (.reorder matching.arrivals) ∧
          builder.symbol? id = some (.sequence (children ++ [order]))

namespace Compile

variable {builder : Builder}

/-! ## Reading one schema as another -/

section

variable {context : Context} {resolve : Node → Node → Compile SymbolId}

/-- The reader field that a writer field is linked to arrives with it. -/
theorem arrival?_of_returns {linked : Field Node × Option ReaderField} {written : WrittenField}
    (h : (resolveWritten resolve linked).Returns written) :
    written.arrival? =
      linked.2.map fun reader => (⟨reader.field.name, reader.index⟩ : Arrival) := by
  rcases linked with ⟨field, _ | reader⟩
  · obtain ⟨value, _, h⟩ := h.of_bind
    obtain ⟨symbol, _, h⟩ := h.of_bind
    obtain rfl := h.of_pure
    rfl
  · obtain ⟨symbol, _, h⟩ := h.of_bind
    obtain rfl := h.of_pure
    rfl

/-- The sequence of two records ends with the order of the reader's fields. -/
theorem resolveFields_ok {w : RecordNode} {matching : Matching} {symbol : Symbol} {after : Builder}
    (hlength : matching.links.length = w.fields.length)
    (h : resolveFields context resolve w matching builder = .ok (symbol, after)) :
    ∃ children order, symbol = .sequence (children ++ [order]) ∧
      after.symbol? order = some (.reorder matching.arrivals) := by
  obtain ⟨written, first, hwritten, h⟩ := bind_ok.1 h
  obtain ⟨defaulted, second, _, h⟩ := bind_ok.1 h
  obtain ⟨order, third, horder, h⟩ := bind_ok.1 h
  have hreturns : Returns ((w.fields.zip matching.links).mapM (resolveWritten resolve)) written :=
    ⟨builder, first, hwritten⟩
  have harrivals := arrivals_of_linked hlength
    (hreturns.of_mapM.imp fun linked field hfield => arrival?_of_returns hfield)
  rw [harrivals] at horder
  cases horder
  cases h
  exact ⟨_, _, rfl, second.symbol?_pushSlot_self _⟩

variable (hresolve : ∀ writer reader builder, context.Holds writer → context.Holds reader →
  Keeps (Builder.HoldsKey context) builder (resolve writer reader))
include hresolve

theorem keeps_resolveWritten {linked : Field Node × Option ReaderField}
    (hfield : context.Holds linked.1.type)
    (hlink : ∀ reader, linked.2 = some reader → context.Holds reader.field.type) :
    Keeps (Builder.HoldsKey context) builder (resolveWritten resolve linked) := by
  rcases linked with ⟨field, _ | reader⟩
  · refine .bind (hresolve _ _ _ hfield hfield) ?_
    intro value middle _
    refine .bind (keeps_push (.skip value)) ?_
    intro symbol after _
    exact .pure _
  · refine .bind (hresolve _ _ _ hfield (hlink reader rfl)) ?_
    intro symbol after _
    exact .pure _

theorem keeps_resolveDefaulted {field : DefaultedField}
    (hfield : context.Holds field.reader.field.type) :
    Keeps (Builder.HoldsKey context) builder (resolveDefaulted context resolve field) := by
  refine .bind (keeps_defaultBytes context field) ?_
  intro bytes first _
  refine .bind (keeps_push _) ?_
  intro inject second _
  refine .bind (hresolve _ _ _ hfield hfield) ?_
  intro value third _
  refine .bind (keeps_push .injectEnd) ?_
  intro last fourth _
  exact .pure _

theorem keeps_resolveFields {w r : RecordNode} {matching : Matching} (hw : context.Defines w)
    (hr : context.Defines r)
    (hmatching : Matching.ofFields context.config w.fields r.fields = .ok matching) :
    Keeps (Builder.HoldsKey context) builder (resolveFields context resolve w matching) := by
  have hreader {reader : ReaderField} (hmem : reader ∈ ReaderField.ofFields r.fields) :
      context.Holds reader.field.type :=
    (hr.field (List.mem_of_getElem? (ReaderField.mem_ofFields.1 hmem))).1
  refine .bind (.mapM ?_) ?_
  · rintro ⟨field, link⟩ hmem middle
    refine keeps_resolveWritten hresolve (hw.field (List.of_mem_zip hmem).1).1 ?_
    rintro reader rfl
    exact hreader (Matching.mem_of_linked hmatching hmem)
  intro written first _
  refine .bind (.mapM ?_) ?_
  · intro field hmem middle
    exact keeps_resolveDefaulted hresolve (hreader (Matching.mem_of_defaulted hmatching hmem))
  intro defaulted second _
  refine .bind (keeps_push _) ?_
  intro order third _
  exact .pure _

theorem keeps_resolveRecords {w r : RecordNode} (hw : context.Defines w)
    (hr : context.Defines r) :
    Keeps (Builder.HoldsKey context) builder (resolveRecords context resolve w r) := by
  rw [resolveRecords_eq]
  refine keeps_onFirstSight fun hfresh => ?_
  cases hmatching : Matching.ofFields context.config w.fields r.fields with
  | error field =>
    refine keeps_pushFor hfresh ?_
    intro last hid
    refine ⟨w, r, hw, hr, rfl, ?_⟩
    rwa [hmatching]
  | ok matching =>
    refine keeps_reserveFor hfresh (keeps_resolveFields hresolve hw hr hmatching) ?_
    intro symbol middle last hsymbol hgrows hid
    obtain ⟨children, order, rfl, horder⟩ :=
      resolveFields_ok (Matching.length_links hmatching) hsymbol
    refine ⟨w, r, hw, hr, rfl, ?_⟩
    rw [hmatching]
    exact ⟨children, order, hgrows.symbol _ _ horder, hid⟩

theorem keeps_branchOfType {writer : Shape}
    (hwriter : ∀ w, writer = .named (.record w) → context.Defines w)
    (candidates : List (Node × Nat)) (hholds : ∀ candidate ∈ candidates, context.Holds candidate.1)
    (structural : Option (Node × Nat)) :
    Keeps (Builder.HoldsKey context) builder
      (branchOfType context resolve writer candidates structural) := by
  induction candidates generalizing builder structural with
  | nil => exact .pure structural
  | cons candidate rest ih =>
    have hrest : ∀ other ∈ rest, context.Holds other.1 :=
      fun other hother => hholds other (.tail _ hother)
    rw [branchOfType_cons]
    refine .bind (keeps_look context candidate.1) ?_
    intro shape first hshape
    split
    · exact .pure _
    · split
      · rename_i w r _
        have hr := ((hholds candidate (.head _)).record (returns_look hshape)).1
        refine .bind (keeps_resolveRecords hresolve (hwriter w rfl) hr) ?_
        intro id second _
        refine .bind (keeps_hasMatchError id) ?_
        intro failed third _
        exact ih hrest _
      · exact ih hrest structural

omit hresolve in
theorem keeps_branchByPromotion {built : Builder → MemoKey → SymbolId → Prop} (writer : Shape)
    (candidates : List (Node × Nat)) :
    Keeps built builder (branchByPromotion context writer candidates) := by
  induction candidates generalizing builder with
  | nil => exact .pure none
  | cons candidate rest ih =>
    rcases candidate with ⟨branch, index⟩
    rw [branchByPromotion]
    refine .bind (keeps_look context branch) ?_
    intro shape first _
    split
    · split
      · exact .pure _
      · exact ih
    · exact ih

theorem keeps_chooseBranch {writer : Shape}
    (hwriter : ∀ w, writer = .named (.record w) → context.Defines w) {branches : List Node}
    (hholds : ∀ branch ∈ branches, context.Holds branch) :
    Keeps (Builder.HoldsKey context) builder (chooseBranch context resolve writer branches) := by
  have hcandidates : ∀ candidate ∈ branches.zipIdx, context.Holds candidate.1 :=
    fun candidate hmem => hholds _ (List.fst_mem_of_mem_zipIdx hmem)
  refine .bind (keeps_branchOfType hresolve hwriter _ hcandidates none) ?_
  intro chosen? middle _
  cases chosen? with
  | some chosen => exact .pure _
  | none => exact keeps_branchByPromotion _ _

theorem keeps_resolveWriterUnion {branches : List Node} {reader : Node}
    (hbranches : ∀ branch ∈ branches, context.Holds branch) (hreader : context.Holds reader) :
    Keeps (Builder.HoldsKey context) builder (resolveWriterUnion resolve branches reader) := by
  refine .bind (.mapM ?_) ?_
  · intro branch hbranch middle
    refine .bind (hresolve _ _ _ (hbranches branch hbranch) hreader) ?_
    intro symbol after _
    exact .pure _
  intro alternatives first _
  refine .bind (keeps_push _) ?_
  intro alternative second _
  exact keeps_push _

theorem keeps_resolveReaderUnion {writer : Node} {w r : Shape} {branches : List Node}
    (hwriter : context.Holds writer) (hw : context.shape? writer = some w)
    (hbranches : ∀ branch ∈ branches, context.Holds branch) :
    Keeps (Builder.HoldsKey context) builder
      (resolveReaderUnion context resolve writer w r branches) := by
  have hrecord : ∀ record, w = .named (.record record) → context.Defines record := by
    rintro record rfl
    exact (hwriter.record hw).1
  have hconsidered : context.AllConsidered w branches.zipIdx fun chosen =>
      context.Holds chosen.1 := by
    intro before chosen after hsplit _ _
    have hmem : chosen ∈ branches.zipIdx := by
      rw [hsplit]
      exact List.mem_append_right _ (.head _)
    exact hbranches _ (List.fst_mem_of_mem_zipIdx hmem)
  refine .bind (keeps_chooseBranch hresolve hrecord hbranches) ?_
  intro chosen? first hchosen
  cases chosen? with
  | some chosen =>
    refine .bind (hresolve _ _ _ hwriter (returns_chooseBranch hconsidered hchosen)) ?_
    intro symbol second _
    exact keeps_push _
  | none => exact keeps_push _

theorem keeps_ofReading {writer reader : Node} {w r : Shape} {reading : Reading}
    (hwriter : context.Holds writer) (hreader : context.Holds reader)
    (hw : context.shape? writer = some w)
    (hreading : context.reading? writer reader = some reading) :
    Keeps (Builder.HoldsKey context) builder
      (ofReading context resolve writer reader w r reading) := by
  have hparts := Context.holds_of_reading hwriter hreader hreading
  cases reading with
  | atom type => exact keeps_terminal _
  | promotion promotion =>
    refine .bind (keeps_terminal _) ?_
    intro source first _
    exact keeps_push _
  | enum ws rs default? => exact keeps_enumeration _
  | array wi ri =>
    refine .bind (hresolve _ _ _ hparts.1 hparts.2) ?_
    intro item first _
    exact keeps_blocks _ _
  | map wv rv =>
    refine .bind (keeps_terminal _) ?_
    intro key first _
    refine .bind (hresolve _ _ _ hparts.1 hparts.2) ?_
    intro value second _
    exact keeps_blocks _ _
  | records wr rr => exact keeps_resolveRecords hresolve hparts.1 hparts.2
  | writerUnion branches => exact keeps_resolveWriterUnion hresolve hparts hreader
  | readerUnion branches => exact keeps_resolveReaderUnion hresolve hwriter hw hparts
  | mismatch cause => exact keeps_push _

end

theorem keeps_resolving (context : Context) (depth : Nat) (writer reader : Node)
    (builder : Builder) (hwriter : context.Holds writer) (hreader : context.Holds reader) :
    Keeps (Builder.HoldsKey context) builder (resolving context depth writer reader) := by
  induction depth generalizing writer reader builder with
  | zero => exact .throw _
  | succ depth ih =>
    rw [resolving, resolvingStep_eq]
    refine .bind (keeps_look context writer) ?_
    intro w first hw
    refine .bind (keeps_look context reader) ?_
    intro r second hr
    have hw := returns_look hw
    have hr := returns_look hr
    exact keeps_ofReading ih hwriter hreader hw
      (Context.reading?_eq_some.2 ⟨w, r, hw, hr, rfl⟩)

/-! ## A schema's own grammar -/

section

variable {context : Context} {validate : Node → Compile SymbolId}
  {built : Builder → MemoKey → SymbolId → Prop}
  (hvalidate : ∀ node builder, Keeps built builder (validate node))
include hvalidate

theorem keeps_validateUnion (branches : List Node) :
    Keeps built builder (validateUnion validate branches) := by
  refine .bind (.mapM ?_) ?_
  · intro branch _ middle
    refine .bind (hvalidate _ _) ?_
    intro symbol after _
    exact .pure _
  intro alternatives first _
  refine .bind (keeps_terminal .union) ?_
  intro index second _
  refine .bind (keeps_push _) ?_
  intro alternative third _
  exact keeps_push _

variable (hbuilt : ∀ builder record id, built builder (.validating record) id)
include hbuilt

theorem keeps_validateRecord (record : RecordNode) :
    Keeps built builder (validateRecord validate record) := by
  rw [validateRecord_eq]
  refine keeps_onFirstSight fun hfresh => keeps_reserveFor hfresh ?_ ?_
  · refine .bind (.mapM fun field _ middle => hvalidate field.type middle) ?_
    intro fields first _
    refine .bind (keeps_push _) ?_
    intro order second _
    exact .pure _
  · intro symbol middle last _ _ _
    exact hbuilt last record.id _

theorem keeps_validatingStep (node : Node) :
    Keeps built builder (validatingStep context validate node) := by
  refine .bind (keeps_look context node) ?_
  intro shape first _
  cases shape with
  | primitive type => exact keeps_terminal _
  | named definition =>
    cases definition with
    | fixed heading size => exact keeps_terminal _
    | enum heading symbols default? => exact keeps_enumeration _
    | record record => exact keeps_validateRecord hvalidate hbuilt record
  | array items =>
    refine .bind (hvalidate _ _) ?_
    intro item second _
    exact keeps_blocks _ _
  | map values =>
    refine .bind (keeps_terminal _) ?_
    intro key second _
    refine .bind (hvalidate _ _) ?_
    intro value third _
    exact keeps_blocks _ _
  | union branches => exact keeps_validateUnion hvalidate branches

end

theorem keeps_validating {built : Builder → MemoKey → SymbolId → Prop}
    (hbuilt : ∀ builder record id, built builder (.validating record) id) (context : Context)
    (depth : Nat) (node : Node) (builder : Builder) :
    Keeps built builder (validating context depth node) := by
  induction depth generalizing node builder with
  | zero => exact .throw _
  | succ depth ih => exact keeps_validatingStep ih hbuilt node

end Compile

end AvroResolution
