import AvroResolution.Proofs.Compilation.Progress
import AvroResolution.Proofs.Compilation.Resolving
import Mathlib.Data.List.ProdSigma

/-!
# The steps of resolving

Compiling one tree as another goes by the steps of `Builder.Trace`, and fails only for
the causes of `Context.Faulty`: a reference to nothing, or a default without encoding
(`Compile.proceeds_resolving`).

The proof goes construct by construct.  The depth that a compilation may use is enough
for it: `Builder.pairRoom` is what the pairs of records that are still new may take,
and the nodes below a pair of nodes are fewer than those of the pair.
-/

namespace AvroResolution

namespace Context

/-! ## Causes of failure -/

/-- What keeps some trees from being compiled. -/
inductive Faulty (context : Context) (roots : List Node) : SchemaFault → Prop
  | dangling {node : Node} {name : String} (hnode : node ∈ Node.forest roots)
      (hreference : node.schema = .reference name)
      (hfind : (context.registry node.side).find? name = none) :
      Faulty context roots (.danglingReference name)
  | default {record : RecordNode} {field : Field Node} {literal : Literal} {source : EncodeFault}
      (hrecord : Node.Declares roots record) (hfield : field ∈ record.fields)
      (hdefault : field.default? = some literal)
      (hencode : encodeDefault (context.registry field.type.side) field.type literal =
        .error source) :
      Faulty context roots (.invalidDefault field.name source)

variable {context : Context} {roots : List Node} {node : Node}

/-- A node that cannot be looked up is a reference to nothing, perhaps below logical
types. -/
theorem faulty_of_look (hnode : node ∈ Node.forest roots) {dangling : DanglingReference}
    (hlook : (context.registry node.side).look node = .error dangling) :
    context.Faulty roots (.danglingReference dangling.name) := by
  induction node using Node.induction with
  | step node ih =>
    rcases node with ⟨side, ordinal, schema⟩
    cases schema with
    | logical base logicalType =>
      have hbase : (⟨side, ordinal, base⟩ : Node) ∈
          Node.parts ⟨side, ordinal, .logical base logicalType⟩ := .head _
      exact ih ⟨side, ordinal, base⟩ hbase (Node.part_mem_forest hnode hbase) hlook
    | reference name =>
      rw [Registry.look, Registry.lookFrom] at hlook
      split at hlook
      · cases hlook
      · rename_i hfind
        cases hlook
        exact .dangling hnode rfl hfind
    | _ => cases hlook

end Context

namespace Builder

variable {context : Context} {builder after : Builder}

/-! ## Symbols that show no mismatch -/

/-- Whether a symbol shows a mismatch does not change once its children are there. -/
theorem Orderly.hasMatchError_eq (h : builder.Orderly context) {id : SymbolId}
    (hid : id < builder.slots.size) (hextends : builder.Extends after) :
    after.hasMatchError id = builder.hasMatchError id := by
  rw [hasMatchError, hasMatchError, hextends.symbol?_eq hid]
  cases hsymbol : builder.symbol? id with
  | none => rfl
  | some symbol =>
    cases symbol with
    | sequence children =>
      have hchildren := h.children id _ hsymbol
      dsimp only
      rw [Bool.eq_iff_iff, List.any_eq_true, List.any_eq_true]
      refine exists_congr fun child => and_congr_right fun hchild => ?_
      rw [hextends.symbol?_eq (hchildren child hchild)]
    | _ => rfl

/-- If the candidate is a record of another name, its pair with the writer's record shows
no mismatch. -/
def Clears (context : Context) (builder : Builder) (writer : Shape)
    (candidate : Node × Nat) : Prop :=
  ∀ w r, writer = .named (.record w) → context.recordAt? candidate = some r →
    w.heading.fullname ≠ r.heading.fullname →
      ∃ id, builder.memo.lookup (.resolving w.id r.id) = some id ∧
        builder.hasMatchError id = false

theorem Clears.extend {writer : Shape} {candidate : Node × Nat}
    (h : builder.Clears context writer candidate)
    (htidy : builder.Tidy (ReadsKey context) context) (hextends : builder.Extends after) :
    after.Clears context writer candidate := by
  intro w r hw hr hnames
  obtain ⟨id, hid, hshows⟩ := h w r hw hr hnames
  refine ⟨id, hextends.memo _ _ hid, ?_⟩
  rw [htidy.orderly.hasMatchError_eq (htidy.sound.bounded _ _ hid) hextends, hshows]

theorem Clears.of_isOfType {writer : Shape} {candidate : Node × Nat}
    (h : context.isOfType writer candidate = true) : builder.Clears context writer candidate := by
  rintro w r rfl hr hnames
  rw [Context.isOfType, Context.recordAt?_eq_some.1 hr, Option.any_some] at h
  exact absurd (Shape.isOfType_named.1 h).2 hnames

theorem Clears.of_isPromoted {writer : Shape} {candidate : Node × Nat}
    (h : context.isPromoted writer candidate = true) :
    builder.Clears context writer candidate := by
  rintro w r rfl hr _
  rw [Context.isPromoted, Context.recordAt?_eq_some.1 hr] at h
  cases h

/-! ## Symbols of two nodes -/

theorem Reads.lt_size {compiled : Builder → MemoKey → SymbolId → Prop}
    (hsound : builder.Sound compiled) {writer reader : Node} {id : SymbolId}
    (h : builder.Reads context writer reader id) : id < builder.slots.size := by
  cases h with
  | atom _ hid => exact lt_size_of_symbol? hid
  | promotion _ _ hid => exact lt_size_of_symbol? hid
  | enum _ _ _ hid => exact lt_size_of_symbol? hid
  | array _ _ _ _ hid => exact lt_size_of_symbol? hid
  | map _ _ _ _ _ hid => exact lt_size_of_symbol? hid
  | records _ _ _ hid => exact hsound.bounded _ _ hid
  | select _ _ _ _ hid => exact lt_size_of_symbol? hid
  | adjust _ _ _ _ _ hid => exact lt_size_of_symbol? hid
  | unbranched _ _ _ _ hid => exact lt_size_of_symbol? hid
  | mismatch _ hid => exact lt_size_of_symbol? hid

/-- The finished symbol of two records is the mismatch of a missing field, or ends in the
order of the fields. -/
theorem ReadsRecord.cases_symbol {w r : RecordNode} {id : SymbolId}
    (h : builder.ReadsRecord context w r id) :
    (∃ field, builder.symbol? id =
      some (.mismatch (.missingField w.heading.fullname r.heading.fullname field))) ∨
    ∃ children order arrivals, builder.symbol? id = some (.sequence (children ++ [order])) ∧
      builder.symbol? order = some (.reorder arrivals) := by
  cases h with
  | missing _ hid => exact .inl ⟨_, hid⟩
  | fields _ _ _ horder hid => exact .inr ⟨_, _, _, hid, horder⟩

/-- A symbol that is remembered for two records reads no other nodes. -/
theorem Reads.of_lookup {writer reader : Node} {id : SymbolId}
    (h : builder.Reads context writer reader id) (hsound : builder.Sound (ReadsKey context))
    {w r : RecordNode} (hw : context.Defines w) (hr : context.Defines r)
    (hid : builder.memo.lookup (.resolving w.id r.id) = some id) :
    context.reading? writer reader = some (.records w r) := by
  have hrecord {symbol : Symbol} (hsymbol : builder.symbol? id = some symbol) :=
    (hsound.readsRecord hw hr hid hsymbol).cases_symbol
  have hpair {first second : SymbolId} {symbol : Symbol}
      (hsymbol : builder.symbol? id = some (.sequence [first, second]))
      (hsecond : builder.symbol? second = some symbol)
      (hother : ∀ arrivals, symbol ≠ .reorder arrivals) : False := by
    rcases hrecord hsymbol with ⟨field, hfield⟩ | ⟨children, order, arrivals, hsequence, horder⟩
    · rw [hsymbol] at hfield
      cases hfield
    · rw [hsymbol, Option.some_inj, Symbol.sequence.injEq] at hsequence
      have hlast : [first, second].getLast? = some order := by rw [hsequence, List.getLast?_concat]
      obtain rfl : second = order := by simpa using hlast
      exact hother arrivals (Option.some.inj (hsecond.symm.trans horder))
  have hplain {symbol : Symbol} (hsymbol : builder.symbol? id = some symbol)
      (hmismatch : ∀ w r field, symbol ≠ .mismatch (.missingField w r field))
      (hsequence : ∀ children, symbol ≠ .sequence children) : False := by
    rcases hrecord hsymbol with ⟨field, hfield⟩ | ⟨children, order, arrivals, hchildren, _⟩
    · exact hmismatch _ _ _ (Option.some.inj (hsymbol.symm.trans hfield))
    · exact hsequence _ (Option.some.inj (hsymbol.symm.trans hchildren))
  cases h with
  | atom _ hsymbol => exact (hplain hsymbol nofun nofun).elim
  | promotion _ _ hsymbol => exact (hplain hsymbol nofun nofun).elim
  | enum _ _ hremap hsymbol => exact (hpair hsymbol hremap nofun).elim
  | array _ _ _ hitems hsymbol => exact (hpair hsymbol hitems nofun).elim
  | map _ _ _ _ hentries hsymbol => exact (hpair hsymbol hentries nofun).elim
  | select _ _ _ _ hsymbol => exact (hplain hsymbol nofun nofun).elim
  | adjust _ _ _ _ _ hsymbol => exact (hplain hsymbol nofun nofun).elim
  | unbranched _ _ _ _ hsymbol => exact (hplain hsymbol nofun nofun).elim
  | mismatch hreading hsymbol =>
    obtain ⟨wshape, rshape, _, _, hrule⟩ := Context.rule_of_reading? hreading
    cases hrule
    exact (hplain hsymbol nofun nofun).elim
  | records hreading hw' hr' hid' =>
    injection hsound.injective _ _ _ hid hid' with hwid hrid
    rwa [hw.eq hw' hwid, hr.eq hr' hrid]

/-! ## Room -/

/-- The pairs of records of some trees. -/
def pairKeys (roots : List Node) : List MemoKey :=
  (Node.recordIds roots ×ˢ Node.recordIds roots).map fun pair =>
    .resolving pair.1 pair.2

/-- How deep the pairs of records that are still new let a compilation go. -/
def pairRoom (roots : List Node) (builder : Builder) : Nat :=
  builder.unseen (pairKeys roots) * (2 * (Node.forest roots).length + 1)

theorem pairRoom_le (roots : List Node) (h : builder.Extends after) :
    after.pairRoom roots ≤ builder.pairRoom roots :=
  Nat.mul_le_mul_right _ (unseen_le _ h.toGrows)

theorem pairRoom_opened_lt {roots : List Node} {w r : RecordNode}
    (hw : Node.Declares roots w) (hr : Node.Declares roots r)
    (hfresh : builder.memo.lookup (.resolving w.id r.id) = none) :
    (builder.opened (.resolving w.id r.id)).pairRoom roots + 2 * (Node.forest roots).length <
      builder.pairRoom roots := by
  have hmem : MemoKey.resolving w.id r.id ∈ pairKeys roots :=
    List.mem_map.2 ⟨(w.id, r.id), List.mem_product.2 ⟨hw.id_mem, hr.id_mem⟩, rfl⟩
  have hseen := Nat.mul_le_mul_right (2 * (Node.forest roots).length + 1)
    (Nat.succ_le_of_lt (unseen_opened_lt hmem hfresh))
  rw [Nat.succ_mul] at hseen
  rw [pairRoom, pairRoom]
  omega

theorem pairRoom_empty (roots : List Node) :
    Builder.empty.pairRoom roots = (Node.recordIds roots).length * (Node.recordIds roots).length *
      (2 * (Node.forest roots).length + 1) := by
  rw [pairRoom, unseen_empty, pairKeys, List.length_map, List.length_product]

end Builder

namespace Compile

variable {context : Context} {roots : List Node} {resolve : Node → Node → Compile SymbolId}
  {builder : Builder} {depth : Nat}

theorem proceeds_hasMatchError {compiled : Builder → MemoKey → SymbolId → Prop}
    {faulty : SchemaFault → Prop} (id : SymbolId) :
    Proceeds compiled context faulty builder (hasMatchError id) fun failed after =>
      after.hasMatchError id = failed :=
  .of_steps (gives_hasMatchError id) fun _ => .refl builder

/-! ## Records -/

section

variable (hspans : context.Spans roots)
  (hgives : ∀ builder writer reader, context.Holds writer → context.Holds reader →
    Gives (Builder.ReadsKey context) builder (resolve writer reader)
      fun id after => after.Reads context writer reader id)
  (hproceeds : ∀ builder writer reader, writer ∈ Node.forest roots →
    reader ∈ Node.forest roots →
      builder.pairRoom roots + (writer.preorder.length + reader.preorder.length) ≤ depth →
        Proceeds (Builder.ReadsKey context) context (context.Faulty roots) builder
          (resolve writer reader) fun id after => after.Reads context writer reader id)
include hproceeds

/-- Inside a record there is room for every pair of nodes. -/
theorem proceeds_inside {writer reader : Node} (hwriter : writer ∈ Node.forest roots)
    (hreader : reader ∈ Node.forest roots)
    (hroom : builder.pairRoom roots + 2 * (Node.forest roots).length ≤ depth) :
    Proceeds (Builder.ReadsKey context) context (context.Faulty roots) builder
      (resolve writer reader) fun id after => id < after.slots.size := by
  have hw := Node.length_preorder_le_forest hwriter
  have hr := Node.length_preorder_le_forest hreader
  refine (hproceeds builder writer reader hwriter hreader (by omega)).mono ?_
  intro id after _ htidy hreads
  exact hreads.lt_size htidy.sound

theorem proceeds_resolveWritten {linked : Field Node × Option ReaderField}
    (hfield : linked.1.type ∈ Node.forest roots)
    (hlink : ∀ reader, linked.2 = some reader → reader.field.type ∈ Node.forest roots)
    (hroom : builder.pairRoom roots + 2 * (Node.forest roots).length ≤ depth) :
    Proceeds (Builder.ReadsKey context) context (context.Faulty roots) builder
      (resolveWritten resolve linked) fun written after => written.symbol < after.slots.size := by
  rcases linked with ⟨field, _ | reader⟩
  · refine .bind (proceeds_inside hproceeds hfield hfield hroom) ?_
    intro value middle _ _ hvalue
    refine .bind (proceeds_push (Builder.lasting_readsKey context) trivial ?_) ?_
    · intro child hchild
      obtain rfl := List.mem_singleton.1 hchild
      exact hvalue
    rintro symbol after _ _ ⟨rfl, rfl⟩
    refine .pure ?_
    rw [Builder.size_pushSlot]
    exact Nat.lt_succ_self _
  · refine .bind (proceeds_inside hproceeds hfield (hlink reader rfl) hroom) ?_
    intro symbol middle _ _ hsymbol
    exact .pure hsymbol

omit hproceeds in
theorem proceeds_defaultBytes {w r : RecordNode} (hr : Node.Declares roots r)
    {matching : Matching}
    (hmatching : Matching.ofFields context.config w.fields r.fields = .ok matching)
    {field : DefaultedField} (hfield : field ∈ matching.defaulted) :
    Proceeds (Builder.ReadsKey context) context (context.Faulty roots) builder
      (defaultBytes context field) fun _ _ => True := by
  refine .of_steps ((gives_defaultBytes field).mono fun _ _ _ _ => trivial) fun _ => ?_
  simp only [Steps, defaultBytes]
  cases hencode : encodeDefault (context.registry field.reader.field.type.side)
      field.reader.field.type field.default with
  | ok bytes => exact .refl builder
  | error source =>
    have hmem := Matching.mem_of_defaulted hmatching hfield
    exact .default hr (List.mem_of_getElem? (ReaderField.mem_ofFields.1 hmem))
      ((Matching.of_ofFields hmatching).2.2 field hfield) hencode

theorem proceeds_resolveDefaulted {w r : RecordNode} (hr : Node.Declares roots r)
    {matching : Matching}
    (hmatching : Matching.ofFields context.config w.fields r.fields = .ok matching)
    {field : DefaultedField} (hfield : field ∈ matching.defaulted)
    (hroom : builder.pairRoom roots + 2 * (Node.forest roots).length ≤ depth) :
    Proceeds (Builder.ReadsKey context) context (context.Faulty roots) builder
      (resolveDefaulted context resolve field)
      fun symbols after => ∀ id ∈ symbols, id < after.slots.size := by
  have hlasting := Builder.lasting_readsKey context
  have hmem := Matching.mem_of_defaulted hmatching hfield
  have htype := hr.field_mem (List.mem_of_getElem? (ReaderField.mem_ofFields.1 hmem))
  refine .bind (proceeds_defaultBytes hr hmatching hfield) ?_
  intro bytes first hfirst _ _
  refine .bind (proceeds_push hlasting trivial nofun) ?_
  rintro inject second hsecond _ ⟨rfl, rfl⟩
  have hle := Builder.pairRoom_le roots (hfirst.trans hsecond)
  refine .bind (proceeds_inside hproceeds htype htype (by omega)) ?_
  intro value third hthird _ hvalue
  refine .bind (proceeds_push hlasting trivial nofun) ?_
  rintro last fourth hfourth _ ⟨rfl, rfl⟩
  have hsize := hthird.size
  rw [Builder.size_pushSlot] at hsize
  refine .pure ?_
  intro id hid
  rw [Builder.size_pushSlot]
  simp only [List.mem_cons, List.not_mem_nil, or_false] at hid
  rcases hid with rfl | rfl | rfl
  · exact Nat.lt_succ_of_lt hsize
  · exact Nat.lt_succ_of_lt hvalue
  · exact Nat.lt_succ_self _

theorem proceeds_resolveFields {w r : RecordNode} (hw : Node.Declares roots w)
    (hr : Node.Declares roots r) {matching : Matching}
    (hmatching : Matching.ofFields context.config w.fields r.fields = .ok matching)
    (hroom : builder.pairRoom roots + 2 * (Node.forest roots).length ≤ depth) :
    Proceeds (Builder.ReadsKey context) context (context.Faulty roots) builder
      (resolveFields context resolve w matching) ClosesRecord := by
  refine .bind (.mapM (fun _ (written : WrittenField) after => written.symbol < after.slots.size)
    _ ?_ ?_) ?_
  · intro _ _ _ _ hafter h
    exact Nat.lt_of_lt_of_le h hafter.size
  · rintro ⟨field, link⟩ hmem middle hmiddle
    have hle := Builder.pairRoom_le roots hmiddle
    refine proceeds_resolveWritten hproceeds (hw.field_mem (List.of_mem_zip hmem).1) ?_ (by omega)
    rintro reader rfl
    have hreader := Matching.mem_of_linked hmatching hmem
    exact hr.field_mem (List.mem_of_getElem? (ReaderField.mem_ofFields.1 hreader))
  intro written first hfirst _ hwritten
  refine .bind (.mapM (fun _ symbols after => ∀ id ∈ symbols, id < after.slots.size) _ ?_ ?_) ?_
  · intro _ _ _ _ hafter h id hid
    exact Nat.lt_of_lt_of_le (h id hid) hafter.size
  · intro field hmem middle hmiddle
    have hle := Builder.pairRoom_le roots (hfirst.trans hmiddle)
    exact proceeds_resolveDefaulted hproceeds hr hmatching hmem (by omega)
  intro defaulted second hsecond _ hdefaulted
  refine .bind (proceeds_push (Builder.lasting_readsKey context) trivial nofun) ?_
  rintro order third hthird _ ⟨rfl, rfl⟩
  refine .pure ⟨_, _, _, rfl, ?_, second.symbol?_pushSlot_self _, second.size_pushSlot _⟩
  intro child hchild
  rcases List.mem_append.1 hchild with hchild | hchild
  · obtain ⟨field, hfield, rfl⟩ := List.mem_map.1 hchild
    obtain ⟨_, _, hlt⟩ := exists_of_forall₂_right hwritten hfield
    exact Nat.lt_of_lt_of_le hlt (hsecond.trans hthird).size
  · obtain ⟨symbols, hsymbols, hchild⟩ := List.mem_flatten.1 hchild
    obtain ⟨_, _, hlt⟩ := exists_of_forall₂_right hdefaulted hsymbols
    exact Nat.lt_of_lt_of_le (hlt child hchild) hthird.size

variable [context.Unshared]
include hspans hgives

theorem proceeds_resolveRecords {w r : RecordNode} (hw : Node.Declares roots w)
    (hr : Node.Declares roots r) (hroom : builder.pairRoom roots ≤ depth) :
    Proceeds (Builder.ReadsKey context) context (context.Faulty roots) builder
      (resolveRecords context resolve w r)
      fun id after => after.memo.lookup (.resolving w.id r.id) = some id := by
  have hwdefines := hspans.defines hw
  have hrdefines := hspans.defines hr
  refine .of_steps (gives_resolveRecords hgives hwdefines hrdefines) fun htidy => ?_
  have hkey : Builder.Names context (.resolving w.id r.id) :=
    ⟨w, r, hwdefines, hrdefines, rfl, rfl⟩
  rw [resolveRecords_eq, context.key_eq]
  refine steps_onFirstSight fun hfresh => ?_
  split
  · exact steps_missing hkey hfresh _
  · rename_i matching hmatching
    have hlt := Builder.pairRoom_opened_lt hw hr hfresh
    exact steps_reserveFor (Builder.lasting_readsKey context) hkey hfresh htidy
      (proceeds_resolveFields hproceeds hw hr hmatching (by omega))

/-! ## Branches -/

theorem proceeds_branchOfType {writer : Shape}
    (hwriter : ∀ w, writer = .named (.record w) → Node.Declares roots w)
    (candidates : List (Node × Nat))
    (hmem : ∀ candidate ∈ candidates, candidate.1 ∈ Node.forest roots)
    (structural : Option (Node × Nat))
    (hstructural : ∀ candidate, structural = some candidate →
      builder.Clears context writer candidate)
    (hroom : builder.pairRoom roots ≤ depth) :
    Proceeds (Builder.ReadsKey context) context (context.Faulty roots) builder
      (branchOfType context resolve writer candidates structural)
      fun chosen after => ∀ candidate, chosen = some candidate →
        after.Clears context writer candidate := by
  induction candidates generalizing builder structural with
  | nil => exact .pure hstructural
  | cons candidate rest ih =>
    have hcandidate := hmem candidate (.head _)
    have hrest : ∀ candidate ∈ rest, candidate.1 ∈ Node.forest roots :=
      fun candidate h => hmem candidate (.tail _ h)
    rw [branchOfType_cons]
    intro htidy
    refine Proceeds.bind (proceeds_look fun _ => Context.faulty_of_look hcandidate) ?_ htidy
    intro shape first hfirst hfirstTidy hshape
    have hfirstRoom := Builder.pairRoom_le roots hfirst
    have hclears : ∀ candidate, structural = some candidate →
        first.Clears context writer candidate :=
      fun candidate h => (hstructural candidate h).extend htidy hfirst
    split
    · rename_i htype
      refine .pure ?_
      rintro _ ⟨⟩
      refine .of_isOfType ?_
      rwa [Context.isOfType, hshape]
    · rename_i htype
      split
      · rename_i w r
        have hr : context.recordAt? candidate = some r := Context.recordAt?_eq_some.2 hshape
        refine .bind (proceeds_resolveRecords hspans hgives hproceeds (hwriter w rfl)
          (hspans.declares hcandidate hshape) (by omega)) ?_
        intro id second hsecond hsecondTidy hid
        refine .bind (proceeds_hasMatchError id) ?_
        rintro failed third hthird _ rfl
        have hthirdRoom := Builder.pairRoom_le roots (hsecond.trans hthird)
        refine ih hrest _ ?_ (by omega)
        intro chosen hchosen
        by_cases hkeep : (!third.hasMatchError id &&
            (structural.isNone || w.heading.name = r.heading.name)) = true
        · rw [if_pos hkeep] at hchosen
          cases hchosen
          rw [Bool.and_eq_true, Bool.not_eq_true'] at hkeep
          rintro w' r' ⟨⟩ hr' _
          cases hr.symm.trans hr'
          exact ⟨id, hthird.memo _ _ hid, hkeep.1⟩
        · rw [if_neg hkeep] at hchosen
          exact (hclears chosen hchosen).extend hfirstTidy (hsecond.trans hthird)
      · exact ih hrest structural hclears (by omega)

omit hspans hgives hproceeds [context.Unshared] in
theorem proceeds_branchByPromotion (writer : Shape) (candidates : List (Node × Nat))
    (hmem : ∀ candidate ∈ candidates, candidate.1 ∈ Node.forest roots) :
    Proceeds (Builder.ReadsKey context) context (context.Faulty roots) builder
      (branchByPromotion context writer candidates) fun _ _ => True := by
  induction candidates generalizing builder with
  | nil => exact .pure trivial
  | cons candidate rest ih =>
    rcases candidate with ⟨branch, index⟩
    have hbranch : branch ∈ Node.forest roots := hmem _ (.head _)
    rw [branchByPromotion]
    refine .bind (proceeds_look fun _ => Context.faulty_of_look hbranch) ?_
    intro shape first _ _ _
    have hrest := @ih first fun candidate h => hmem candidate (.tail _ h)
    split
    · split
      · exact .pure trivial
      · exact hrest
    · exact hrest

theorem proceeds_chooseBranch {writer : Shape}
    (hwriter : ∀ w, writer = .named (.record w) → Node.Declares roots w) {branches : List Node}
    (hbranches : ∀ branch ∈ branches, branch ∈ Node.forest roots)
    (hroom : builder.pairRoom roots ≤ depth) :
    Proceeds (Builder.ReadsKey context) context (context.Faulty roots) builder
      (chooseBranch context resolve writer branches)
      fun chosen after => (∀ candidate, chosen = some candidate →
        after.Clears context writer candidate) ∧
          ∃ kept, context.Sifted writer branches.zipIdx kept ∧
            chosen = context.pick writer branches.zipIdx kept := by
  have hmem : ∀ candidate ∈ branches.zipIdx, candidate.1 ∈ Node.forest roots :=
    fun candidate h => hbranches _ (List.fst_mem_of_mem_zipIdx h)
  have hdefines : ∀ w, writer = .named (.record w) → context.Defines w :=
    fun w hw => hspans.defines (hwriter w hw)
  refine .and_gives ?_ (gives_chooseBranch hgives hdefines fun branch hbranch =>
    hspans.holds (hbranches branch hbranch))
  refine .bind (proceeds_branchOfType hspans hgives hproceeds hwriter _ hmem none nofun hroom) ?_
  intro chosen first _ _ hchosen
  split
  · exact .pure hchosen
  · refine ((proceeds_branchByPromotion writer _ hmem).and_gives
      (gives_branchByPromotion writer _)).mono ?_
    rintro _ after _ _ ⟨_, rfl⟩ candidate hcandidate
    exact .of_isPromoted (List.find?_some hcandidate)

/-! ## Pairs of nodes -/

omit hspans hgives [context.Unshared] in
theorem proceeds_resolveWriterUnion {reader : Node} {branches : List Node} {width : Nat}
    (hbranches : ∀ branch ∈ branches, branch ∈ Node.forest roots ∧
      branch.preorder.length < width) (hreader : reader ∈ Node.forest roots)
    (hroom : builder.pairRoom roots + (width + reader.preorder.length) ≤ depth + 1) :
    Proceeds (Builder.ReadsKey context) context (context.Faulty roots) builder
      (resolveWriterUnion resolve branches reader) fun _ _ => True := by
  have hlasting := Builder.lasting_readsKey context
  refine .bind (.mapM (fun _ (chosen : Branch) after => chosen.symbol < after.slots.size)
    branches ?_ ?_) ?_
  · intro _ _ _ _ hafter h
    exact Nat.lt_of_lt_of_le h hafter.size
  · intro branch hbranch middle hmiddle
    obtain ⟨hmem, hlt⟩ := hbranches branch hbranch
    have hle := Builder.pairRoom_le roots hmiddle
    refine .bind (hproceeds middle branch reader hmem hreader (by omega)) ?_
    intro symbol after _ htidy hsymbol
    exact .pure (hsymbol.lt_size htidy.sound)
  intro alternatives first _ _ halternatives
  refine .bind (proceeds_push hlasting trivial ?_) ?_
  · intro child hchild
    obtain ⟨chosen, hchosen, rfl⟩ := List.mem_map.1 hchild
    obtain ⟨_, _, hlt⟩ := exists_of_forall₂_right halternatives hchosen
    exact hlt
  rintro alternative second _ _ ⟨rfl, rfl⟩
  refine Proceeds.mono (proceeds_push hlasting trivial ?_) fun _ _ _ _ _ => trivial
  intro child hchild
  obtain rfl := List.mem_singleton.1 hchild
  rw [Builder.size_pushSlot]
  exact Nat.lt_succ_self _

theorem proceeds_resolveReaderUnion {writer reader : Node} {w r : Shape} {branches : List Node}
    (hwriter : writer ∈ Node.forest roots) (hw : context.shape? writer = some w)
    (hbranches : ∀ branch ∈ branches, branch ∈ Node.forest roots ∧
      branch.preorder.length < reader.preorder.length)
    (hroom : builder.pairRoom roots + (writer.preorder.length + reader.preorder.length) ≤
      depth + 1) :
    Proceeds (Builder.ReadsKey context) context (context.Faulty roots) builder
      (resolveReaderUnion context resolve writer w r branches) fun _ _ => True := by
  have hlasting := Builder.lasting_readsKey context
  have hrecord : ∀ record, w = .named (.record record) → Node.Declares roots record := by
    rintro record rfl
    exact hspans.declares hwriter hw
  have hpositive := List.length_pos_of_mem writer.self_mem_preorder
  refine .bind (proceeds_chooseBranch hspans hgives hproceeds hrecord
    (fun branch h => (hbranches branch h).1) (by omega)) ?_
  rintro chosen first hfirst hfirstTidy ⟨hclears, kept, hkept, rfl⟩
  split
  · rename_i branch index hpick
    have hbranch : branch ∈ branches := List.fst_mem_of_mem_zipIdx (hkept.mem_of_pick hpick)
    obtain ⟨hmem, hlt⟩ := hbranches branch hbranch
    have hle := Builder.pairRoom_le roots hfirst
    refine .bind (hproceeds first writer branch hwriter hmem (by omega)) ?_
    intro symbol second hsecond hsecondTidy hsymbol
    refine (proceeds_push hlasting ?_ ?_).mono fun _ _ _ _ _ => trivial
    · intro w' r' hw' hr' hid hnames
      have hreading := hsymbol.of_lookup hsecondTidy.sound hw' hr' hid
      obtain ⟨_, _, hwshape, hrshape, hrule⟩ := Context.rule_of_reading? hreading
      cases hrule
      cases hw.symm.trans hwshape
      have hclears := (hclears (branch, index) hpick).extend hfirstTidy hsecond
      obtain ⟨id, hfound, hshows⟩ :=
        hclears w' r' rfl (Context.recordAt?_eq_some.2 hrshape) hnames
      cases hid.symm.trans hfound
      exact hshows
    · intro child hchild
      obtain rfl := List.mem_singleton.1 hchild
      exact hsymbol.lt_size hsecondTidy.sound
  · exact Proceeds.mono (proceeds_push hlasting trivial nofun) fun _ _ _ _ _ => trivial

/-- Every rule compiles by steps. -/
theorem proceeds_ofReading {writer reader : Node} {w r : Shape}
    (hwriter : writer ∈ Node.forest roots) (hreader : reader ∈ Node.forest roots)
    (hw : context.shape? writer = some w) (hr : context.shape? reader = some r)
    (hroom : builder.pairRoom roots + (writer.preorder.length + reader.preorder.length) ≤
      depth + 1) :
    Proceeds (Builder.ReadsKey context) context (context.Faulty roots) builder
      (ofReading context resolve writer reader w r (w.reading r)) fun _ _ => True := by
  have hlasting := Builder.lasting_readsKey context
  have hrule := w.rule_reading r
  cases hcase : w.reading r with
  | atom type => exact (proceeds_terminal hlasting _).mono fun _ _ _ _ _ => trivial
  | promotion promotion =>
    refine .bind (proceeds_terminal hlasting _) ?_
    intro source first _ _ hsource
    refine Proceeds.mono (proceeds_push hlasting trivial ?_) fun _ _ _ _ _ => trivial
    intro child hchild
    obtain rfl := List.mem_singleton.1 hchild
    exact Builder.lt_size_of_symbol? hsource
  | enum ws rs default? => exact proceeds_enumeration hlasting _
  | array wi ri =>
    rw [hcase] at hrule
    cases hrule
    have hwi := Context.length_part_lt hw nofun (.head _)
    have hri := Context.length_part_lt hr nofun (.head _)
    refine .bind (hproceeds builder wi ri (hspans.part hwriter hw (.head _))
      (hspans.part hreader hr (.head _)) (by omega)) ?_
    intro item first _ htidy hitem
    refine proceeds_blocks hlasting .array ?_
    intro child hchild
    obtain rfl := List.mem_singleton.1 hchild
    exact hitem.lt_size htidy.sound
  | map wv rv =>
    rw [hcase] at hrule
    cases hrule
    have hwv := Context.length_part_lt hw nofun (.head _)
    have hrv := Context.length_part_lt hr nofun (.head _)
    refine .bind (proceeds_terminal hlasting _) ?_
    intro key first hfirst _ hkey
    have hle := Builder.pairRoom_le roots hfirst
    refine .bind (hproceeds first wv rv (hspans.part hwriter hw (.head _))
      (hspans.part hreader hr (.head _)) (by omega)) ?_
    intro value second hsecond htidy hvalue
    refine proceeds_blocks hlasting .map ?_
    intro child hchild
    rcases List.mem_cons.1 hchild with rfl | hchild
    · exact Builder.lt_size_of_symbol? (hsecond.symbol _ _ hkey)
    · obtain rfl := List.mem_singleton.1 hchild
      exact hvalue.lt_size htidy.sound
  | records wr rr =>
    rw [hcase] at hrule
    cases hrule
    exact (proceeds_resolveRecords hspans hgives hproceeds (hspans.declares hwriter hw)
      (hspans.declares hreader hr)
      (by have := List.length_pos_of_mem writer.self_mem_preorder; omega)).mono
        fun _ _ _ _ _ => trivial
  | writerUnion branches =>
    rw [hcase] at hrule
    cases hrule
    exact proceeds_resolveWriterUnion hproceeds (fun branch hbranch =>
      ⟨hspans.part hwriter hw hbranch, Context.length_part_lt hw nofun hbranch⟩) hreader hroom
  | readerUnion branches =>
    rw [hcase] at hrule
    cases hrule
    exact proceeds_resolveReaderUnion hspans hgives hproceeds hwriter hw (fun branch hbranch =>
      ⟨hspans.part hreader hr hbranch, Context.length_part_lt hr nofun hbranch⟩) hroom
  | mismatch cause =>
    exact Proceeds.mono (proceeds_push hlasting trivial nofun) fun _ _ _ _ _ => trivial

end

/-- Compiling two nodes of the trees goes by steps, when the depth leaves room for the
pairs of records that are new and for the nodes below the two. -/
theorem proceeds_resolving [context.Unshared] (hspans : context.Spans roots) (depth : Nat)
    (builder : Builder) (writer reader : Node) (hwriter : writer ∈ Node.forest roots)
    (hreader : reader ∈ Node.forest roots)
    (hroom : builder.pairRoom roots + (writer.preorder.length + reader.preorder.length) ≤ depth) :
    Proceeds (Builder.ReadsKey context) context (context.Faulty roots) builder
      (resolving context depth writer reader)
      fun id after => after.Reads context writer reader id := by
  induction depth generalizing builder writer reader with
  | zero =>
    have hpositive := List.length_pos_of_mem writer.self_mem_preorder
    omega
  | succ depth ih =>
    refine .of_gives (gives_resolving context (depth + 1) builder writer reader
      (hspans.holds hwriter) (hspans.holds hreader)) ?_
    rw [resolving, resolvingStep_eq]
    refine .bind (proceeds_look fun _ => Context.faulty_of_look hwriter) ?_
    intro w first hfirst _ hw
    refine .bind (proceeds_look fun _ => Context.faulty_of_look hreader) ?_
    intro r second hsecond _ hr
    have hle := Builder.pairRoom_le roots (hfirst.trans hsecond)
    exact proceeds_ofReading hspans (gives_resolving context depth) ih hwriter hreader hw hr
      (by omega)

end Compile

end AvroResolution
