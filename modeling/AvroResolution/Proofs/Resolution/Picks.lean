import AvroResolution.Proofs.Decoding.Fields

/-!
# Branches picked too early

While a pair of records is being compiled its symbol is reserved, and a reserved
symbol shows no mismatch.  A union inside the pair may therefore pick a branch for
the pair itself, although the finished symbol shows a mismatch.

* `Builder.Adjusts` singles out the symbols that adjust to a pair of records of two
  names, and `Builder.PicksStand` says that the finished symbols of the pairs picked
  in this way still show no mismatch.
* `Program.Built.fails_of_misfit`: a pair that does not fit is never read.
* `Program.Built.picksStand_iff`: the picks stand exactly if no pair is picked that does
  not fit.
-/

namespace AvroResolution

namespace Reader

variable {α β : Type}

/-- The reader gives no value. -/
abbrev Fails (x : Reader α) : Prop :=
  Ensures (fun _ => False) (fun _ => True) x

namespace Fails

protected theorem throw (fault : DecodeFault) : Fails (throw fault : Reader α) :=
  Ensures.throw trivial

theorem bind_left {x : Reader α} (hx : Fails x) (f : α → Reader β) : Fails (x >>= f) :=
  Ensures.bind hx fun _ h => h.elim

theorem bind_right (x : Reader α) {f : α → Reader β} (hf : ∀ value, Fails (f value)) :
    Fails (x >>= f) :=
  Ensures.bind (.intro (fun _ _ _ _ => trivial) fun _ _ _ _ => trivial) fun value _ => hf value

theorem readEach {x : Reader Value} (hx : Fails x) {parts : List Program.FieldRead}
    (hmem : .kept x ∈ parts) (values : List Value) : Fails (Program.readEach parts values) := by
  induction parts generalizing values with
  | nil => cases hmem
  | cons part rest ih =>
    rcases List.mem_cons.1 hmem with rfl | hrest
    · exact hx.bind_left _
    · cases part with
      | kept read => exact bind_right _ fun value => ih hrest (value :: values)
      | dropped read => exact bind_right _ fun _ => ih hrest values

theorem simulates {x : Reader α} (hx : Fails x) {counts : DecodeFault → Prop}
    (hcounts : ∀ fault, ¬counts fault) (y : Reader α) :
    Simulates (fun _ => True) counts Eq x y :=
  .intro (fun _ _ _ _ h => (hx.of_ok h).elim) fun _ _ _ _ _ h => absurd h (hcounts _)

end Fails

end Reader

/-! ## Picks -/

namespace Builder

variable {context : Context} {builder : Builder}

/-- The symbol adjusts to that of two records of different names. -/
structure Adjusts (context : Context) (builder : Builder) (w r : RecordNode)
    (id symbol : SymbolId) : Prop where
  adjusts : ∃ index, builder.symbol? id = some (.adjust index symbol)
  writer : context.Defines w
  reader : context.Defines r
  symbol : builder.memo.lookup (.resolving w.id r.id) = some symbol
  names : w.heading.fullname ≠ r.heading.fullname

/-- A union whose branch is a pair of records of different names adjusts to the pair. -/
theorem Reads.adjusts {writer branch : Node} {id symbol : SymbolId} {index : Nat}
    {w r : RecordNode} (h : builder.Reads context writer branch symbol)
    (hw : context.shape? writer = some (.named (.record w)))
    (hr : context.recordAt? (branch, index) = some r)
    (hid : builder.symbol? id = some (.adjust index symbol))
    (hnames : w.heading.fullname ≠ r.heading.fullname) : builder.Adjusts context w r id symbol := by
  have hreading : context.reading? writer branch = some (.records w r) :=
    Context.reading?_eq_some.2 ⟨_, _, hw, Context.recordAt?_eq_some.1 hr, rfl⟩
  obtain ⟨hwriter, hreader, hsymbol⟩ := h.of_reading hreading
  exact ⟨⟨index, hid⟩, hwriter, hreader, hsymbol, hnames⟩

/-- A union of which no branch fits is a mismatch, unless it adjusts to a pair that was
picked too early. -/
theorem Reads.of_misfits {writer reader : Node} {id : SymbolId} {shape : Shape}
    {branches : List Node} (h : builder.Reads context writer reader id)
    (hreading : context.reading? writer reader = some (.readerUnion branches))
    (hshape : context.shape? writer = some shape)
    (hnone : context.pick shape branches.zipIdx [] = none)
    (hmisfits : ∀ candidate ∈ branches.zipIdx, ∀ w r, shape = .named (.record w) →
      context.recordAt? candidate = some r → context.Misfit w r) :
    (∃ cause, builder.symbol? id = some (.mismatch cause)) ∨
      ∃ candidate ∈ branches.zipIdx, ∃ w r symbol, shape = .named (.record w) ∧
        context.recordAt? candidate = some r ∧ builder.Adjusts context w r id symbol := by
  obtain ⟨found, kept, hfound, hkept, hid⟩ := h.of_reading hreading
  cases hshape.symm.trans hfound
  cases hpick : context.pick shape branches.zipIdx kept with
  | none =>
    rw [hpick] at hid
    exact .inl hid
  | some candidate =>
    rcases candidate with ⟨branch, index⟩
    rw [hpick] at hid
    obtain ⟨symbol, hbranch, hid⟩ := hid
    have hunfit : context.fitting shape branches.zipIdx = [] := by
      refine List.eq_nil_iff_forall_not_mem.2 fun candidate hmem => ?_
      obtain ⟨hmem, w, r, hw, hr, hfits⟩ := Context.mem_fitting.1 hmem
      exact hfits (hmisfits candidate hmem w r hw hr)
    rcases hkept.pick_eq_or hpick with hchoice | ⟨w, r, rfl, hr, hnames, _⟩
    · rw [hunfit, hnone] at hchoice
      cases hchoice
    · exact .inr ⟨_, hkept.mem_of_pick hpick, w, r, symbol, rfl, hr,
        hbranch.adjusts hshape hr hid hnames⟩

/-- The symbol of two linked fields is among the children of their records' symbol. -/
theorem ReadsRecord.exists_child {w r : RecordNode} {id : SymbolId} {matching : Matching}
    {field : Field Node} {link : ReaderField} (h : builder.ReadsRecord context w r id)
    (hmatching : Matching.ofFields context.config w.fields r.fields = .ok matching)
    (hlinked : (field, some link) ∈ w.fields.zip matching.links) :
    ∃ symbol children, builder.symbol? id = some (.sequence children) ∧ symbol ∈ children ∧
      builder.Reads context field.type link.field.type symbol := by
  cases h with
  | missing hmissing => cases hmatching.symm.trans hmissing
  | @fields _ written defaulted order hmatching' hwritten _ _ hid =>
    cases hmatching.symm.trans hmatching'
    obtain ⟨part, hpart, hreads⟩ := exists_of_forall₂_right hwritten.flip hlinked
    cases hreads with
    | @linked _ _ symbol hsymbol =>
      have hchild : symbol ∈ written.map (·.symbol) ++ defaulted.flatten ++ [order] :=
        List.mem_append_left _ (List.mem_append_left _ (List.mem_map.2 ⟨_, hpart, rfl⟩))
      exact ⟨symbol, _, hid, hchild, hsymbol⟩

/-- A record one of whose fields is a mismatch shows it. -/
theorem ReadsRecord.hasMatchError_of_field {w r : RecordNode} {id : SymbolId}
    {matching : Matching} {field : Field Node} {link : ReaderField}
    (h : builder.ReadsRecord context w r id)
    (hmatching : Matching.ofFields context.config w.fields r.fields = .ok matching)
    (hlinked : (field, some link) ∈ w.fields.zip matching.links)
    (hmismatch : ∀ symbol children, builder.symbol? id = some (.sequence children) →
      symbol ∈ children → builder.Reads context field.type link.field.type symbol →
        ∃ cause, builder.symbol? symbol = some (.mismatch cause)) :
    builder.hasMatchError id = true := by
  obtain ⟨symbol, children, hid, hchild, hsymbol⟩ := h.exists_child hmatching hlinked
  obtain ⟨cause, hcause⟩ := hmismatch symbol children hid hchild hsymbol
  rw [hasMatchError, hid]
  refine List.any_eq_true.2 ⟨symbol, hchild, ?_⟩
  rw [hcause]
  rfl

theorem ReadsRecord.hasMatchError_of_missing {w r : RecordNode} {id : SymbolId} {field : String}
    (h : builder.ReadsRecord context w r id)
    (hmissing : Matching.ofFields context.config w.fields r.fields = .error field) :
    (∃ cause, builder.symbol? id = some (.mismatch cause)) ∧ builder.hasMatchError id = true := by
  cases h with
  | missing _ hid => exact ⟨⟨_, hid⟩, by rw [hasMatchError, hid]⟩
  | fields hmatching => cases hmissing.symm.trans hmatching

/-- No symbol of the arena adjusts to one that shows a mismatch. -/
def adjustsFit (builder : Builder) : Bool :=
  builder.slots.all fun slot =>
    match slot with
    | some (.adjust _ symbol) => !builder.hasMatchError symbol
    | _ => true

theorem hasMatchError_of_adjustsFit (h : builder.adjustsFit = true) {id symbol : SymbolId}
    {index : Nat} (hid : builder.symbol? id = some (.adjust index symbol)) :
    builder.hasMatchError symbol = false := by
  rw [symbol?, Option.join_eq_some_iff] at hid
  have hslot := Array.all_eq_true'.1 h _ (Array.mem_of_getElem? hid)
  simpa using hslot

end Builder

namespace Program

variable {context : Context} {program : Program} {builder : Builder} {w r : RecordNode}
  {id : SymbolId}

/-! ## Runs of misfits -/

theorem fails_of_mismatch {cause : Mismatch} (hid : program.symbol? id = some (.mismatch cause))
    (depth : Nat) : Reader.Fails (program.runWithin depth id) := by
  cases depth with
  | zero => exact .throw _
  | succ depth =>
    rw [runWithin, runStep_mismatch hid]
    exact .throw _

theorem fails_of_adjust {index : Nat} {symbol : SymbolId}
    (hid : program.symbol? id = some (.adjust index symbol))
    (hsymbol : ∀ depth, Reader.Fails (program.runWithin depth symbol)) (depth : Nat) :
    Reader.Fails (program.runWithin depth id) := by
  cases depth with
  | zero => exact .throw _
  | succ depth =>
    rw [runWithin, runStep_adjust hid]
    exact (hsymbol depth).bind_left _

/-- Two records are not read when a pair of linked fields is not. -/
theorem Built.fails_of_field (hbuilt : program.Built context builder) {matching : Matching}
    {field : Field Node} {link : ReaderField} (h : builder.ReadsRecord context w r id)
    (hmatching : Matching.ofFields context.config w.fields r.fields = .ok matching)
    (hlinked : (field, some link) ∈ w.fields.zip matching.links)
    (hfails : ∀ symbol, builder.Reads context field.type link.field.type symbol →
      ∀ depth, Reader.Fails (program.runWithin depth symbol)) (depth : Nat) :
    Reader.Fails (program.runWithin depth id) := by
  cases depth with
  | zero => exact .throw _
  | succ depth =>
    rw [runWithin]
    rcases hbuilt.record h (program.runWithin depth) with
      ⟨_, _, hmismatch⟩ | ⟨_, written, defaulted, hmatching', hwritten, _, hrun⟩
    · rw [runStep_mismatch hmismatch]
      exact .throw _
    · cases hmatching.symm.trans hmatching'
      obtain ⟨part, hpart, hread⟩ := exists_of_forall₂_right hwritten.flip hlinked
      rw [hrun, readRecord]
      cases hread with
      | linked hsymbol _ =>
        have hparts := List.mem_append_left defaulted hpart
        exact ((hfails _ hsymbol depth).readEach hparts []).bind_left _

/-- Two records that do not fit are not read.  The induction is on the reason why they do
not fit. -/
theorem Built.fails_of_misfit (hbuilt : program.Built context builder)
    (hmisfit : context.Misfit w r) (hw : context.Defines w) (hr : context.Defines r)
    (hid : builder.memo.lookup (.resolving w.id r.id) = some id) (depth : Nat) :
    Reader.Fails (program.runWithin depth id) := by
  induction hmisfit generalizing id depth with
  | missing hmissing =>
    obtain ⟨⟨cause, hcause⟩, _⟩ :=
      (hbuilt.records _ _ _ hw hr hid).hasMatchError_of_missing hmissing
    rw [← hbuilt.symbol] at hcause
    exact fails_of_mismatch hcause depth
  | types hmatching hlinked hreading =>
    refine hbuilt.fails_of_field (hbuilt.records _ _ _ hw hr hid) hmatching hlinked ?_ depth
    intro symbol hsymbol
    have hcause := hsymbol.of_reading hreading
    rw [← hbuilt.symbol] at hcause
    exact fails_of_mismatch hcause
  | records hmatching hlinked hreading hmissing =>
    refine hbuilt.fails_of_field (hbuilt.records _ _ _ hw hr hid) hmatching hlinked ?_ depth
    intro symbol hsymbol
    obtain ⟨hinner, hinner', hsymbol⟩ := hsymbol.of_reading hreading
    obtain ⟨⟨cause, hcause⟩, _⟩ :=
      (hbuilt.records _ _ _ hinner hinner' hsymbol).hasMatchError_of_missing hmissing
    rw [← hbuilt.symbol] at hcause
    exact fails_of_mismatch hcause
  | branches hmatching hlinked hreading hshape hnone hmisfits ih =>
    refine hbuilt.fails_of_field (hbuilt.records _ _ _ hw hr hid) hmatching hlinked ?_ depth
    intro symbol hsymbol
    rcases hsymbol.of_misfits hreading hshape hnone hmisfits with
      ⟨cause, hcause⟩ | ⟨candidate, hmem, inner, inner', found, hinner, hinner', hadjusts⟩
    · rw [← hbuilt.symbol] at hcause
      exact fails_of_mismatch hcause
    · obtain ⟨index, hsymbol⟩ := hadjusts.adjusts
      rw [← hbuilt.symbol] at hsymbol
      exact fails_of_adjust hsymbol
        (ih candidate hmem inner inner' hinner hinner' hadjusts.writer hadjusts.reader
          hadjusts.symbol)

/-! ## Picks that stand -/

/-- The symbols of the pairs that are picked show no mismatch once they are finished,
as none may by the rules for picking. -/
def PicksStand (program : Program) (context : Context) (builder : Builder) : Prop :=
  ∀ w r id symbol, program.Leads program.root id → builder.Adjusts context w r id symbol →
    builder.hasMatchError symbol = false

theorem picksStand_of_adjustsFit (h : builder.adjustsFit = true) :
    program.PicksStand context builder := by
  intro w r id symbol _ hadjusts
  obtain ⟨index, hid⟩ := hadjusts.adjusts
  exact Builder.hasMatchError_of_adjustsFit h hid

/-- Where the picks stand, the symbol of two records that do not fit shows a mismatch. -/
theorem Built.hasMatchError_of_misfit (hbuilt : program.Built context builder)
    (hstand : program.PicksStand context builder) (hmisfit : context.Misfit w r)
    (hw : context.Defines w) (hr : context.Defines r)
    (hid : builder.memo.lookup (.resolving w.id r.id) = some id)
    (hleads : program.Leads program.root id) : builder.hasMatchError id = true := by
  induction hmisfit generalizing id with
  | missing hmissing => exact ((hbuilt.records _ _ _ hw hr hid).hasMatchError_of_missing hmissing).2
  | types hmatching hlinked hreading =>
    refine (hbuilt.records _ _ _ hw hr hid).hasMatchError_of_field hmatching hlinked ?_
    intro symbol _ _ _ hsymbol
    exact ⟨_, hsymbol.of_reading hreading⟩
  | records hmatching hlinked hreading hmissing =>
    refine (hbuilt.records _ _ _ hw hr hid).hasMatchError_of_field hmatching hlinked ?_
    intro symbol _ _ _ hsymbol
    obtain ⟨hinner, hinner', hsymbol⟩ := hsymbol.of_reading hreading
    exact ((hbuilt.records _ _ _ hinner hinner' hsymbol).hasMatchError_of_missing hmissing).1
  | branches hmatching hlinked hreading hshape hnone hmisfits ih =>
    refine (hbuilt.records _ _ _ hw hr hid).hasMatchError_of_field hmatching hlinked ?_
    intro symbol children hsequence hchild hsymbol
    rcases hsymbol.of_misfits hreading hshape hnone hmisfits with
      hcause | ⟨candidate, hmem, inner, inner', found, hinner, hinner', hadjusts⟩
    · exact hcause
    · rw [← hbuilt.symbol] at hsequence
      have hsymbolLeads := hleads.tail (mem_childrenOf hsequence hchild)
      obtain ⟨index, hadjust⟩ := hadjusts.adjusts
      rw [← hbuilt.symbol] at hadjust
      have hshows := ih candidate hmem inner inner' hinner hinner' hadjusts.writer hadjusts.reader
        hadjusts.symbol (hsymbolLeads.tail (mem_childrenOf hadjust (.head _)))
      rw [hstand _ _ _ _ hsymbolLeads hadjusts] at hshows
      cases hshows

/-- The picks stand exactly if no two records are picked that do not fit. -/
theorem Built.picksStand_iff (hbuilt : program.Built context builder) :
    program.PicksStand context builder ↔
      ∀ w r id symbol, program.Leads program.root id → builder.Adjusts context w r id symbol →
        ¬context.Misfit w r := by
  constructor
  · intro hstand w r id symbol hleads hadjusts hmisfit
    obtain ⟨index, hid⟩ := hadjusts.adjusts
    rw [← hbuilt.symbol] at hid
    have hshows := hbuilt.hasMatchError_of_misfit hstand hmisfit hadjusts.writer hadjusts.reader
      hadjusts.symbol (hleads.tail (mem_childrenOf hid (.head _)))
    rw [hstand _ _ _ _ hleads hadjusts] at hshows
    cases hshows
  · intro hfits w r id symbol hleads hadjusts
    by_contra hshows
    have hmisfit := Builder.misfit_of_hasMatchError hbuilt.sound hadjusts.writer hadjusts.reader
      hadjusts.symbol (by simpa using hshows)
    exact hfits w r id symbol hleads hadjusts hmisfit

/-- A pick that does not stand gives no value. -/
theorem Built.fails_of_adjusts (hbuilt : program.Built context builder) {symbol : SymbolId}
    (hadjusts : builder.Adjusts context w r id symbol) (hmisfit : context.Misfit w r)
    (depth : Nat) : Reader.Fails (program.runWithin depth id) := by
  obtain ⟨index, hid⟩ := hadjusts.adjusts
  rw [← hbuilt.symbol] at hid
  exact fails_of_adjust hid
    (hbuilt.fails_of_misfit hmisfit hadjusts.writer hadjusts.reader hadjusts.symbol) depth

end Program

end AvroResolution
