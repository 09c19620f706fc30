import AvroResolution.Proofs.Resolution.Identity
import AvroResolution.Proofs.Resolution.Precedence

/-!
# What a look at first sight misses

A branch is picked for a record if the fields are no mismatches.  Below the fields the two records
may still not go together.

* `Context.Clashes` says that reading one type as another gets to a mismatch somewhere.  Where the
  schemas contain no references, the mismatches of a program are those of its two types
  (`SchemaPair.hasErrors_iff_clashes`).
* `Context.Clashes.twins`: it does not matter where the two types stand.
* `SchemaPair.hasErrors_of_choice` is the result: the program of a record and a union has the
  errors of the record branch that is picked, which are all below its fields.
* `Hidden.misses_clash`: of a union the branch that is picked may have errors, and another none.
-/

namespace AvroResolution

/-! ## Clashes -/

namespace Context

variable {context image : Context}

/-- Reading the writer's type as the reader's gets to a mismatch. -/
inductive Clashes (context : Context) : Node → Node → Prop
  | mismatched {writer reader : Node} (h : context.Mismatched writer reader) :
      Clashes context writer reader
  | chosen {writer reader branch : Node} {shape : Shape} {branches : List Node} {index : Nat}
      (hreading : context.reading? writer reader = some (.readerUnion branches))
      (hshape : context.shape? writer = some shape)
      (hchoice : context.choice shape branches = some (branch, index))
      (h : Clashes context writer branch) : Clashes context writer reader
  | deeper {writer reader inner inner' : Node}
      (hunion : ∀ branches, context.reading? writer reader ≠ some (.readerUnion branches))
      (hdescends : context.Descends (writer, reader) (inner, inner'))
      (h : Clashes context inner inner') : Clashes context writer reader

/-- Two records are not read by the rule for a union. -/
theorem ne_readerUnion {writer reader : Node} {w r : RecordNode}
    (hreading : context.reading? writer reader = some (.records w r)) (branches : List Node) :
    context.reading? writer reader ≠ some (.readerUnion branches) := by
  intro hunion
  cases hreading.symm.trans hunion

theorem Mismatched.twins (hconfig : image.config = context.config)
    {writer reader writer' reader' : Node} (h : context.Mismatched writer reader)
    (hw : writer.Twins writer') (hr : reader.Twins reader') :
    image.Mismatched writer' reader' := by
  have hrules := hw.reading? hr context image
  cases h with
  | types hreading =>
    obtain ⟨_, hreading', hrule⟩ := exists_of_rel hrules hreading
    cases hrule
    exact .types hreading'
  | missing hreading hmissing =>
    obtain ⟨_, hreading', hrule⟩ := exists_of_rel hrules hreading
    cases hrule with
    | records hrecord hrecord' =>
      have hmissing' := hrecord.ofFields_error hrecord' hmissing
      rw [← hconfig] at hmissing'
      exact .missing hreading' hmissing'
  | unbranched hreading hshape hchoice =>
    obtain ⟨_, hreading', hrule⟩ := exists_of_rel hrules hreading
    obtain ⟨shape', hshape', htwins⟩ := exists_of_rel (hw.shape? context image) hshape
    cases hrule with
    | readerUnion hbranches =>
      have hchoice' := htwins.choice hconfig hbranches
      rw [hchoice] at hchoice'
      cases hfound : image.choice shape' _ with
      | none => exact .unbranched hreading' hshape' hfound
      | some chosen =>
        rw [hfound] at hchoice'
        cases hchoice'

/-- Types that clash do so wherever they stand.  The induction is on the way to the mismatch. -/
theorem Clashes.twins (hconfig : image.config = context.config) {writer reader : Node}
    (h : context.Clashes writer reader) {writer' reader' : Node} (hw : writer.Twins writer')
    (hr : reader.Twins reader') : image.Clashes writer' reader' := by
  induction h generalizing writer' reader' with
  | mismatched h => exact .mismatched (h.twins hconfig hw hr)
  | chosen hreading hshape hchoice _ ih =>
    obtain ⟨_, hreading', hrule⟩ := exists_of_rel (hw.reading? hr context image) hreading
    obtain ⟨shape', hshape', htwins⟩ := exists_of_rel (hw.shape? context image) hshape
    cases hrule with
    | readerUnion hbranches =>
      obtain ⟨⟨branch', index'⟩, hchoice', hbranch, _⟩ :=
        exists_of_rel (htwins.choice hconfig hbranches) hchoice
      exact .chosen hreading' hshape' hchoice' (ih hw hbranch)
  | deeper hunion hdescends _ ih =>
    obtain ⟨⟨inner, inner'⟩, hdescends', hinner, hinner'⟩ :=
      hdescends.twins hconfig hw hr hunion
    refine .deeper (fun branches hreading' => ?_) hdescends' (ih hinner hinner')
    obtain ⟨_, hreading, hrule⟩ :=
      exists_of_rel_right (hw.reading? hr context image) hreading'
    cases hrule
    exact hunion _ hreading

end Context

/-! ## Clashes of a program -/

/-- No child of a sequence that shows no mismatch is one. -/
theorem Builder.ne_mismatch_of_hasMatchError {builder : Builder} {id : SymbolId}
    {children : List SymbolId} (h : builder.hasMatchError id = false)
    (hid : builder.symbol? id = some (.sequence children)) :
    ∀ child ∈ children, ∀ cause, builder.symbol? child ≠ some (.mismatch cause) := by
  intro child hchild cause hcause
  rw [hasMatchError, hid] at h
  have hmatched := List.any_eq_false.1 h child hchild
  rw [hcause] at hmatched
  exact hmatched rfl

namespace Program

variable {context : Context} {program : Program} {builder : Builder} {writer reader : Node}
  {id : SymbolId}

theorem hasErrors_iff_leads : program.hasErrors = true ↔ program.LeadsToMismatch program.root := by
  rw [hasErrors_iff]
  constructor
  · intro hne
    obtain ⟨cause, hcause⟩ := List.exists_mem_of_ne_nil _ hne
    obtain ⟨id, hid, hfound⟩ := List.mem_filterMap.1 hcause
    obtain ⟨symbol, hsymbol, hmismatch⟩ := Option.bind_eq_some_iff.1 hfound
    cases symbol <;> cases hmismatch
    exact ⟨id, cause, (mem_reachable.1 hid).2, hsymbol⟩
  · rintro ⟨id, cause, hleads, hid⟩
    exact List.ne_nil_of_mem (mem_mismatches hleads hid)

/-- A symbol leads to a mismatch if a search as deep as allowed finds one. -/
def findsMismatch (program : Program) : (depth : Nat) → SymbolId → Bool
  | 0, _ => false
  | depth + 1, id => (program.symbol? id).any fun symbol =>
    symbol.isMismatch || symbol.children.any (program.findsMismatch depth)

theorem leads_of_findsMismatch {depth : Nat} (h : program.findsMismatch depth id = true) :
    program.LeadsToMismatch id := by
  induction depth generalizing id with
  | zero => cases h
  | succ depth ih =>
    obtain ⟨symbol, hid, hfinds⟩ := (Option.any_eq_true _ _).1 h
    rcases Bool.or_eq_true_iff.1 hfinds with hmismatch | hbelow
    · cases symbol <;> cases hmismatch
      exact ⟨id, _, .refl, hid⟩
    · obtain ⟨child, hchild, hfinds⟩ := List.any_eq_true.1 hbelow
      exact .of_child hid hchild (ih hfinds)

/-- A program without mismatches in its arena has no errors. -/
theorem hasErrors_of_all (h : program.symbols.all (fun symbol => !symbol.isMismatch) = true) :
    program.hasErrors = false := by
  refine Bool.eq_false_iff.2 fun herrors => ?_
  obtain ⟨found, cause, _, hfound⟩ := hasErrors_iff_leads.1 herrors
  have hmatched := Array.all_eq_true'.1 h _ (Array.mem_of_getElem? hfound)
  cases hmatched

/-- What a compilation goes on with has a symbol that is led to, where no branch is chosen. -/
theorem Built.exists_of_descends (hbuilt : program.Built context builder) {other : Node × Node}
    (hreads : builder.Reads context writer reader id)
    (hunion : ∀ branches, context.reading? writer reader ≠ some (.readerUnion branches))
    (hdescends : context.Descends (writer, reader) other) :
    ∃ symbol, builder.Reads context other.1 other.2 symbol ∧ program.Leads id symbol := by
  have hchild {parent child : SymbolId} {symbol : Symbol}
      (hid : builder.symbol? parent = some symbol) (hmem : child ∈ symbol.children) :
      child ∈ program.childrenOf parent := by
    rw [← hbuilt.symbol] at hid
    exact mem_childrenOf hid hmem
  cases hreads with
  | atom hreading => cases hdescends.of_reading hreading
  | promotion hreading => cases hdescends.of_reading hreading
  | enum hreading => cases hdescends.of_reading hreading
  | mismatch hreading => cases hdescends.of_reading hreading
  | adjust hreading => exact absurd hreading (hunion _)
  | unbranched hreading => exact absurd hreading (hunion _)
  | array hreading hitem _ hitems hid =>
    obtain rfl := hdescends.of_reading hreading
    exact ⟨_, hitem, .head (hchild hid (.tail _ (.head _))) (.single (hchild hitems (.head _)))⟩
  | map hreading hvalue _ _ hentries hid =>
    obtain rfl := hdescends.of_reading hreading
    exact ⟨_, hvalue, .head (hchild hid (.tail _ (.head _)))
      (.single (hchild hentries (.tail _ (.head _))))⟩
  | records hreading hw hr hid =>
    obtain ⟨matching, hmatching, hcases⟩ := hdescends.of_reading hreading
    cases hbuilt.records _ _ _ hw hr hid with
    | missing hmissing => cases hmatching.symm.trans hmissing
    | @fields _ written defaulted order hmatching' hwritten hdefaulted _ hsequence =>
      cases hmatching.symm.trans hmatching'
      have hpart {part : Compile.WrittenField} (hmem : part ∈ written) :
          part.symbol ∈ program.childrenOf id := by
        refine hchild hsequence (List.mem_append_left _ (List.mem_append_left _ ?_))
        exact List.mem_map_of_mem hmem
      rcases hcases with ⟨field, link, hlinked, rfl⟩ | ⟨field, hskipped, rfl⟩ |
        ⟨field, hfilled, rfl⟩
      · obtain ⟨_, hmem, hsymbol⟩ := exists_of_forall₂_left hwritten hlinked
        cases hsymbol with
        | linked hsymbol => exact ⟨_, hsymbol, .single (hpart hmem)⟩
      · obtain ⟨_, hmem, hsymbol⟩ := exists_of_forall₂_left hwritten hskipped
        cases hsymbol with
        | dropped hvalue hskip =>
          exact ⟨_, hvalue, .head (hpart hmem) (.single (hchild hskip (.head _)))⟩
      · obtain ⟨symbols, hmem, hsymbols⟩ := exists_of_forall₂_left hdefaulted hfilled
        cases hsymbols with
        | intro _ _ hvalue _ =>
          have hvalues := List.mem_flatten_of_mem hmem (.tail _ (.head _))
          exact ⟨_, hvalue, .single (hchild hsequence
            (List.mem_append_left _ (List.mem_append_right _ hvalues)))⟩
  | select hreading hlength hbranches halternative hid =>
    obtain ⟨branch, hbranch, rfl⟩ := hdescends.of_reading hreading
    obtain ⟨index, hindex, rfl⟩ := List.mem_iff_getElem.1 hbranch
    have hindex' := hlength.symm ▸ hindex
    refine ⟨_, hbranches index _ _ (List.getElem?_eq_getElem hindex)
      (List.getElem?_eq_getElem hindex'), .head (hchild hid (.head _)) (.single ?_)⟩
    exact hchild halternative (List.mem_map_of_mem (List.getElem_mem hindex'))

theorem Built.clean_defaulted (hbuilt : program.Built context builder) {field : DefaultedField}
    {symbols : List SymbolId} (h : Builder.ReadsDefault context builder field symbols)
    {good : SymbolId → Prop} (hgood : ∀ value,
      builder.Reads context field.reader.field.type field.reader.field.type value → good value) :
    ∀ child ∈ symbols, program.Clean good child := by
  cases h with
  | intro _ hinject hvalue hlast =>
    rw [← hbuilt.symbol] at hinject hlast
    exact List.forall_mem_cons.2 ⟨.leaf hinject rfl rfl, List.forall_mem_cons.2
      ⟨.good (hgood _ hvalue), List.forall_mem_singleton.2 (.leaf hlast rfl rfl)⟩⟩

/-- What a symbol leads to without a mismatch in between are the symbols of what the compilation
goes on with, where no branch is chosen. -/
theorem Built.clean_of_descends (hbuilt : program.Built context builder)
    (hreads : builder.Reads context writer reader id)
    (hunion : ∀ branches, context.reading? writer reader ≠ some (.readerUnion branches))
    (hmatched : ∀ cause, program.symbol? id ≠ some (.mismatch cause)) {good : SymbolId → Prop}
    (hgood : ∀ other symbol, context.Descends (writer, reader) other →
      builder.Reads context other.1 other.2 symbol → good symbol) :
    ∃ symbol, program.symbol? id = some symbol ∧ symbol.isMismatch = false ∧
      ∀ child ∈ symbol.children, program.Clean good child := by
  cases hreads with
  | atom _ hid =>
    rw [← hbuilt.symbol] at hid
    exact ⟨_, hid, rfl, List.forall_mem_nil _⟩
  | promotion _ hsource hid =>
    rw [← hbuilt.symbol] at hid hsource
    exact ⟨_, hid, rfl, List.forall_mem_singleton.2 (.leaf hsource rfl rfl)⟩
  | enum _ hordinal hremap hid =>
    rw [← hbuilt.symbol] at hid hordinal hremap
    exact ⟨_, hid, rfl, List.forall_mem_cons.2 ⟨.leaf hordinal rfl rfl,
      List.forall_mem_singleton.2 (.leaf hremap rfl rfl)⟩⟩
  | array hreading hitem hstart hbody hid =>
    rw [← hbuilt.symbol] at hid hstart hbody
    have hitems := Clean.step hbody rfl
      (List.forall_mem_singleton.2 (.good (hgood _ _ (.items hreading) hitem)))
    exact ⟨_, hid, rfl, List.forall_mem_cons.2 ⟨.leaf hstart rfl rfl,
      List.forall_mem_singleton.2 hitems⟩⟩
  | map hreading hvalue hkey hstart hbody hid =>
    rw [← hbuilt.symbol] at hid hkey hstart hbody
    have hentries := Clean.step hbody rfl (List.forall_mem_cons.2 ⟨.leaf hkey rfl rfl,
      List.forall_mem_singleton.2 (.good (hgood _ _ (.values hreading) hvalue))⟩)
    exact ⟨_, hid, rfl, List.forall_mem_cons.2 ⟨.leaf hstart rfl rfl,
      List.forall_mem_singleton.2 hentries⟩⟩
  | records hreading hw hr hid =>
    cases hbuilt.records _ _ _ hw hr hid with
    | missing _ hmissing =>
      rw [← hbuilt.symbol] at hmissing
      exact absurd hmissing (hmatched _)
    | fields hmatching hwritten hdefaulted horder hsequence =>
      rw [← hbuilt.symbol] at hsequence horder
      refine ⟨_, hsequence, rfl, List.forall_mem_append.2 ⟨List.forall_mem_append.2
        ⟨fun child hchild => ?_, fun child hchild => ?_⟩,
        List.forall_mem_singleton.2 (.leaf horder rfl rfl)⟩⟩
      · obtain ⟨part, hpart, rfl⟩ := List.mem_map.1 hchild
        obtain ⟨_, hlinked, hsymbol⟩ := exists_of_forall₂_right hwritten hpart
        cases hsymbol with
        | linked hsymbol => exact .good (hgood _ _ (.linked hreading hmatching hlinked) hsymbol)
        | dropped hvalue hskip =>
          rw [← hbuilt.symbol] at hskip
          exact .step hskip rfl (List.forall_mem_singleton.2
            (.good (hgood _ _ (.skipped hreading hmatching hlinked) hvalue)))
      · obtain ⟨symbols, hsymbols, hchild⟩ := List.mem_flatten.1 hchild
        obtain ⟨field, hfilled, hdefault⟩ := exists_of_forall₂_right hdefaulted hsymbols
        exact hbuilt.clean_defaulted hdefault (fun value hvalue =>
          hgood _ value (.filled hreading hmatching hfilled) hvalue) child hchild
  | select hreading hlength hbranches halternative hid =>
    rw [← hbuilt.symbol] at hid halternative
    refine ⟨_, hid, rfl, List.forall_mem_singleton.2 (.step halternative rfl ?_)⟩
    intro child hchild
    obtain ⟨chosen, hchosen, rfl⟩ := List.mem_map.1 hchild
    obtain ⟨index, hindex, rfl⟩ := List.mem_iff_getElem.1 hchosen
    have hbranch := List.getElem?_eq_getElem (hlength ▸ hindex)
    exact .good (hgood _ _ (.alternatives hreading (List.mem_of_getElem? hbranch))
      (hbranches index _ _ hbranch (List.getElem?_eq_getElem hindex)))
  | adjust hreading => exact absurd hreading (hunion _)
  | unbranched hreading => exact absurd hreading (hunion _)
  | mismatch _ hid =>
    rw [← hbuilt.symbol] at hid
    exact absurd hid (hmatched _)

namespace Built

variable (hbuilt : program.Built context builder)
  (hclear : ∀ w r id symbol, builder.Adjusts context w r id symbol →
    builder.hasMatchError symbol = false)
include hbuilt hclear

/-- The symbol of types that clash leads to a mismatch.  The induction is on the way to it. -/
theorem leads_of_clashes (hclashes : context.Clashes writer reader)
    (hreads : builder.Reads context writer reader id) : program.LeadsToMismatch id := by
  induction hclashes generalizing id with
  | mismatched h =>
    obtain ⟨cause, hcause⟩ := (hbuilt.mismatched_iff hclear hreads).1 h
    exact ⟨id, cause, .refl, hcause⟩
  | chosen hreading hshape hchoice _ ih =>
    have hid := hbuilt.choice_of_reads hclear hreads hreading hshape
    rw [hchoice] at hid
    obtain ⟨symbol, hbranch, hid⟩ := hid
    exact .of_child hid (.head _) (ih hbranch)
  | deeper hunion hdescends _ ih =>
    obtain ⟨symbol, hsymbol, hleads⟩ := hbuilt.exists_of_descends hreads hunion hdescends
    obtain ⟨found, cause, hfound, hcause⟩ := ih hsymbol
    exact ⟨found, cause, hleads.trans hfound, hcause⟩

/-- The symbol of two types leads to a mismatch exactly if they clash. -/
theorem leads_iff_clashes (hreads : builder.Reads context writer reader id) :
    program.LeadsToMismatch id ↔ context.Clashes writer reader := by
  refine ⟨?_, fun h => hbuilt.leads_of_clashes hclear h hreads⟩
  rintro ⟨found, cause, hleads, hfound⟩
  by_contra hclashes
  let good (id : SymbolId) : Prop :=
    ∃ writer reader, builder.Reads context writer reader id ∧ ¬context.Clashes writer reader
  have hgood : ∀ id, good id → ∃ symbol, program.symbol? id = some symbol ∧
      symbol.isMismatch = false ∧ ∀ child ∈ symbol.children, program.Clean good child := by
    rintro id ⟨writer, reader, hreads, hclashes⟩
    by_cases hunion : ∃ branches, context.reading? writer reader = some (.readerUnion branches)
    · obtain ⟨branches, hreading⟩ := hunion
      obtain ⟨shape, _, hshape, _⟩ := Context.reading?_eq_some.1 hreading
      have hid := hbuilt.choice_of_reads hclear hreads hreading hshape
      cases hchoice : context.choice shape branches with
      | none => exact absurd (.mismatched (.unbranched hreading hshape hchoice)) hclashes
      | some chosen =>
        rw [hchoice] at hid
        obtain ⟨symbol, hbranch, hid⟩ := hid
        exact ⟨_, hid, rfl, List.forall_mem_singleton.2 (.good ⟨_, _, hbranch, fun h =>
          hclashes (.chosen hreading hshape hchoice h)⟩)⟩
    · have hunion := not_exists.1 hunion
      refine hbuilt.clean_of_descends hreads hunion (fun cause hcause => ?_) ?_
      · exact hclashes (.mismatched ((hbuilt.mismatched_iff hclear hreads).2 ⟨cause, hcause⟩))
      · intro other symbol hdescends hsymbol
        exact ⟨_, _, hsymbol, fun h => hclashes (.deeper hunion hdescends h)⟩
  obtain ⟨symbol, hsymbol, hmismatch⟩ :=
    Clean.of_leads hgood (.good ⟨_, _, hreads, hclashes⟩) hleads
  cases hfound.symm.trans hsymbol
  cases hmismatch

/-- Where two records fit, no types are mismatched that the compilation goes on with. -/
theorem not_mismatched_of_descends {w r : RecordNode}
    (hreads : builder.Reads context writer reader id)
    (hreading : context.reading? writer reader = some (.records w r))
    (hfits : ¬context.Misfit w r) {other : Node × Node}
    (hdescends : context.Descends (writer, reader) other) :
    ¬context.Mismatched other.1 other.2 := by
  obtain ⟨symbol, hsymbol, _⟩ :=
    hbuilt.exists_of_descends hreads (Context.ne_readerUnion hreading) hdescends
  have hself {node : Node} (hsymbol : builder.Reads context node node symbol) :
      ¬context.Mismatched node node := by
    intro hmismatched
    obtain ⟨cause, hcause⟩ := (hbuilt.mismatched_iff hclear hsymbol).1 hmismatched
    rw [hbuilt.symbol] at hcause
    exact hsymbol.self_ne_mismatch hbuilt.sound cause hcause
  obtain ⟨matching, hmatching, hmatched⟩ := Context.fits_iff.1 hfits
  obtain ⟨other, hother, hcases⟩ := hdescends.of_reading hreading
  cases hmatching.symm.trans hother
  rcases hcases with ⟨field, link, hlinked, rfl⟩ | ⟨field, _, rfl⟩ | ⟨field, _, rfl⟩
  · exact hmatched field link hlinked
  · exact hself hsymbol
  · exact hself hsymbol

end Built

end Program

/-! ## Records that are picked -/

namespace Context

variable {context : Context} {w r : RecordNode}

/-- A record of another name, or a type of another kind, is not of the record's type. -/
theorem isOfType_eq_false {candidate : Node × Nat}
    (hnames : ∀ r, context.shape? candidate.1 = some (.named (.record r)) →
      r.heading.fullname ≠ w.heading.fullname) :
    context.isOfType (.named (.record w)) candidate = false := by
  rw [isOfType]
  cases hshape : context.shape? candidate.1 with
  | none => rfl
  | some shape =>
    rw [Option.any_some]
    cases shape with
    | named definition =>
      cases definition with
      | record r =>
        refine Bool.eq_false_iff.2 fun htype => ?_
        exact hnames r hshape (Shape.isOfType_named.1 htype).2.symm
      | _ => rfl
    | _ => rfl

/-- Where no branch is of the record's own type and some fit, one of these is chosen. -/
theorem choice_of_fits {branches : List Node} {candidate : Node × Nat}
    (htypes : ∀ other ∈ branches.zipIdx,
      context.isOfType (.named (.record w)) other = false)
    (hfits : candidate ∈ context.fitting (.named (.record w)) branches.zipIdx) :
    ∃ chosen ∈ context.fitting (.named (.record w)) branches.zipIdx,
      context.choice (.named (.record w)) branches = some chosen := by
  have hnone : branches.zipIdx.find? (context.isOfType (.named (.record w))) = none :=
    List.find?_eq_none.2 fun other hother => Bool.eq_false_iff.1 (htypes other hother)
  rw [choice, pick, hnone, Option.none_or]
  generalize context.fitting (.named (.record w)) branches.zipIdx = fitting at hfits ⊢
  cases hnamed : (fitting.filter (context.sharesName (.named (.record w)))).getLast? with
  | some chosen =>
    exact ⟨chosen, (List.mem_filter.1 (List.mem_of_getLast? hnamed)).1, Option.some_or⟩
  | none =>
    cases fitting with
    | nil => cases hfits
    | cons first rest => exact ⟨first, .head _, rfl⟩

/-- Where no record branch has the record's name and one of them fits, one that fits is chosen. -/
theorem exists_choice {branches : List Node} {branch : Node}
    (hnames : ∀ other ∈ branches, ∀ r, context.shape? other = some (.named (.record r)) →
      r.heading.fullname ≠ w.heading.fullname)
    (hbranch : branch ∈ branches) (hr : context.shape? branch = some (.named (.record r)))
    (hfits : ¬context.Misfit w r) :
    ∃ picked record index, context.choice (.named (.record w)) branches = some (picked, index) ∧
      branches[index]? = some picked ∧ context.shape? picked = some (.named (.record record)) ∧
        ¬context.Misfit w record := by
  obtain ⟨place, hplace⟩ := List.mem_iff_getElem?.1 hbranch
  have hfitting : (branch, place) ∈ context.fitting (.named (.record w)) branches.zipIdx :=
    mem_fitting.2 ⟨List.mem_zipIdx_iff_getElem?.2 hplace, w, r, rfl, recordAt?_eq_some.2 hr, hfits⟩
  obtain ⟨⟨picked, index⟩, hpicked, hchoice⟩ := choice_of_fits (fun other hother =>
    isOfType_eq_false (hnames other.1 (List.fst_mem_of_mem_zipIdx hother))) hfitting
  obtain ⟨hmem, _, record, ⟨⟩, hrecord, hfits⟩ := mem_fitting.1 hpicked
  exact ⟨picked, record, index, hchoice, List.mem_zipIdx_iff_getElem?.1 hmem,
    recordAt?_eq_some.1 hrecord, hfits⟩

/-- A type clashes with a union exactly if it does with the branch that is chosen. -/
theorem clashes_iff_of_choice {writer reader branch : Node} {shape : Shape} {branches : List Node}
    {index : Nat} (hreading : context.reading? writer reader = some (.readerUnion branches))
    (hshape : context.shape? writer = some shape)
    (hchoice : context.choice shape branches = some (branch, index)) :
    context.Clashes writer reader ↔ context.Clashes writer branch := by
  refine ⟨?_, .chosen hreading hshape hchoice⟩
  rintro (hmatched | ⟨hother, hfound, hchosen, hclashes⟩ | ⟨hunion, _, _⟩)
  · rcases hmatched with hother | ⟨hother, _⟩ | ⟨hother, hfound, hnone⟩
    · cases hreading.symm.trans hother
    · cases hreading.symm.trans hother
    · cases hreading.symm.trans hother
      cases hshape.symm.trans hfound
      cases hchoice.symm.trans hnone
  · cases hreading.symm.trans hother
    cases hshape.symm.trans hfound
    cases hchoice.symm.trans hchosen
    exact hclashes
  · exact absurd hreading (hunion _)

/-- Records that do not fit clash. -/
theorem Clashes.of_misfit {writer reader : Node}
    (hreading : context.reading? writer reader = some (.records w r))
    (hmisfit : context.Misfit w r) : context.Clashes writer reader := by
  rcases misfit_iff.1 hmisfit with ⟨field, hmissing⟩ |
    ⟨matching, field, link, hmatching, hlinked, hmismatched⟩
  · exact .mismatched (.missing hreading hmissing)
  · exact .deeper (ne_readerUnion hreading) (.linked hreading hmatching hlinked)
      (.mismatched hmismatched)

/-- Records that fit clash exactly if types do that the compilation goes on with. -/
theorem clashes_iff_of_fits {writer reader : Node}
    (hreading : context.reading? writer reader = some (.records w r))
    (hfits : ¬context.Misfit w r) :
    context.Clashes writer reader ↔ ∃ inner inner',
      context.Descends (writer, reader) (inner, inner') ∧ context.Clashes inner inner' := by
  constructor
  · rintro (hmatched | ⟨hother⟩ | ⟨_, hdescends, hclashes⟩)
    · rcases hmatched with hother | ⟨hother, hmissing⟩ | ⟨hother⟩
      · cases hreading.symm.trans hother
      · cases hreading.symm.trans hother
        exact absurd (.missing hmissing) hfits
      · exact absurd hother (ne_readerUnion hreading _)
    · exact absurd hother (ne_readerUnion hreading _)
    · exact ⟨_, _, hdescends, hclashes⟩
  · rintro ⟨inner, inner', hdescends, hclashes⟩
    exact .deeper (ne_readerUnion hreading) hdescends hclashes

end Context

/-! ## The result -/

namespace SchemaPair

variable {pair : SchemaPair} {config : Config} {program : Program}

/-- Where the schemas contain no references, the program has errors exactly if they clash. -/
theorem hasErrors_iff_clashes (hprogram : pair.program config = .ok program)
    (hwriter : pair.writer.references = []) (hreader : pair.reader.references = []) :
    program.hasErrors = true ↔ (pair.context config).Clashes pair.writerRoot pair.readerRoot := by
  obtain ⟨builder, hbuild, hbuilt, hreads⟩ := built hprogram
  rw [Program.hasErrors_iff_leads]
  exact hbuilt.leads_iff_clashes (hasMatchError_of_adjusts hwriter hreader hbuild) hreads

/-- A branch clashes with the writer's type exactly if the program of the two has errors. -/
theorem hasErrors_iff_clashes_branch (hwriter : pair.writer.references = []) {branch : Node}
    (hbranch : branch.schema.references = [])
    (hprogram : (twoTrees pair.writer branch.schema).program config = .ok program) :
    program.hasErrors = true ↔ (pair.context config).Clashes pair.writerRoot branch := by
  rw [hasErrors_iff_clashes hprogram hwriter hbranch]
  have hconfig : (pair.context config).config =
      ((twoTrees pair.writer branch.schema).context config).config := rfl
  have hroot : (twoTrees pair.writer branch.schema).writerRoot.Twins pair.writerRoot :=
    ⟨rfl, hwriter⟩
  have hnode : (twoTrees pair.writer branch.schema).readerRoot.Twins branch := ⟨rfl, hbranch⟩
  exact ⟨fun h => h.twins hconfig hroot hnode,
    fun h => h.twins hconfig.symm hroot.symm hnode.symm⟩

/-- The program of a record and a union without a record of its name, one of which resolves, has
the errors of the record branch that is picked.  No field of that branch is a mismatch, so the
errors are those below the fields, which are not looked at. -/
theorem hasErrors_of_choice {resolved : Program} {w r : RecordNode} {branches : List Node}
    {branch : Node} (hprogram : pair.program config = .ok program)
    (hwriter : pair.writer.references = []) (hreader : pair.reader.references = [])
    (hw : (pair.context config).shape? pair.writerRoot = some (.named (.record w)))
    (hunion : (pair.context config).shape? pair.readerRoot = some (.union branches))
    (hnames : ∀ other ∈ branches, ∀ r,
      (pair.context config).shape? other = some (.named (.record r)) →
        r.heading.fullname ≠ w.heading.fullname)
    (hbranch : branch ∈ branches)
    (hr : (pair.context config).shape? branch = some (.named (.record r)))
    (hresolved : (twoTrees pair.writer branch.schema).program config = .ok resolved)
    (herrors : resolved.hasErrors = false) :
    ∃ picked record index symbol children,
      (pair.context config).choice (.named (.record w)) branches = some (picked, index) ∧
        branches[index]? = some picked ∧
          (pair.context config).shape? picked = some (.named (.record record)) ∧
            program.symbol? program.root = some (.adjust index symbol) ∧
              program.symbol? symbol = some (.sequence children) ∧
                (∀ child ∈ children, ∀ cause, program.symbol? child ≠ some (.mismatch cause)) ∧
                  (∀ chosen, (twoTrees pair.writer picked.schema).program config = .ok chosen →
                    program.hasErrors = chosen.hasErrors) ∧
                    (program.hasErrors = true ↔ ∃ inner inner',
                      (pair.context config).Descends (pair.writerRoot, picked) (inner, inner') ∧
                        ¬(pair.context config).Mismatched inner inner' ∧
                          (pair.context config).Clashes inner inner') := by
  obtain ⟨builder, hbuild, hbuilt, hreads⟩ := built hprogram
  have hclear := hasMatchError_of_adjusts hwriter hreader hbuild
  have hspans := pair.spans_roots config
  have hplain := references_of_mem_forest hwriter hreader
  have hreferences {other : Node} (hother : other ∈ branches) : other.schema.references = [] :=
    hplain _ (hspans.part (Node.root_mem_forest (.tail _ (.head _))) hunion hother)
  have hrecords {other : Node} {record : RecordNode}
      (hother : (pair.context config).shape? other = some (.named (.record record))) :
      (pair.context config).reading? pair.writerRoot other = some (.records w record) :=
    Context.reading?_eq_some.2 ⟨_, _, hw, hother, rfl⟩
  have hfits : ¬(pair.context config).Misfit w r := by
    intro hmisfit
    have hclashes := (hasErrors_iff_clashes_branch hwriter (hreferences hbranch) hresolved).2
      (.of_misfit (hrecords hr) hmisfit)
    cases herrors.symm.trans hclashes
  obtain ⟨picked, record, index, hchoice, hindex, hrecord, hfits⟩ :=
    Context.exists_choice hnames hbranch hr hfits
  have hpicked : picked ∈ branches := List.mem_of_getElem? hindex
  have hreading : (pair.context config).reading? pair.writerRoot pair.readerRoot =
      some (.readerUnion branches) := Context.reading?_eq_some.2 ⟨_, _, hw, hunion, rfl⟩
  have hid := hbuilt.choice_of_reads hclear hreads hreading hw
  rw [hchoice] at hid
  obtain ⟨symbol, hsymbol, hid⟩ := hid
  have hclashes := (hasErrors_iff_clashes hprogram hwriter hreader).trans
    (Context.clashes_iff_of_choice hreading hw hchoice)
  obtain ⟨hwdefines, hrdefines, hmemo⟩ := hsymbol.of_reading (hrecords hrecord)
  cases hbuilt.records _ _ _ hwdefines hrdefines hmemo with
  | missing hmissing _ => exact absurd (.missing hmissing) hfits
  | @fields matching written defaulted order _ _ _ _ hsequence =>
    have hadjusts := hsymbol.adjusts hw (Context.recordAt?_eq_some.2 hrecord)
      ((hbuilt.symbol _).symm.trans hid) (hnames _ hpicked _ hrecord).symm
    have hmatched := Builder.ne_mismatch_of_hasMatchError (hclear _ _ _ _ hadjusts) hsequence
    simp only [← hbuilt.symbol] at hsequence hmatched
    refine ⟨picked, record, index, symbol, _, hchoice, hindex, hrecord, hid, hsequence, hmatched,
      fun chosen hchosen => ?_, ?_⟩
    · exact Bool.eq_iff_iff.2 (hclashes.trans
        (hasErrors_iff_clashes_branch hwriter (hreferences hpicked) hchosen).symm)
    · rw [hclashes, Context.clashes_iff_of_fits (hrecords hrecord) hfits]
      constructor
      · rintro ⟨inner, inner', hdescends, hinner⟩
        exact ⟨inner, inner', hdescends, hbuilt.not_mismatched_of_descends hclear hsymbol
          (hrecords hrecord) hfits hdescends, hinner⟩
      · rintro ⟨inner, inner', hdescends, _, hinner⟩
        exact ⟨inner, inner', hdescends, hinner⟩

end SchemaPair

namespace Hidden

/-- A record of an array. -/
def lists (name : String) (item : Primitive) : Schema :=
  .record ⟨name, none, []⟩ [⟨"a", .array (.primitive item), none, []⟩]

/-- A record, and a union of one with other items and one with the same. -/
def schemas : SchemaPair :=
  .twoTrees (lists "W" .string) (.union [lists "P" .int, lists "Q" .string])

/-- The second branch has no errors, but the program of the union has some. -/
theorem exists_programs :
    ∃ program resolved, schemas.program {} = .ok program ∧
      (SchemaPair.twoTrees (lists "W" .string) (lists "Q" .string)).program {} = .ok resolved ∧
        resolved.hasErrors = false ∧ program.hasErrors = true := by
  obtain ⟨program, hprogram, herrors⟩ := Reader.exists_ok (schemas.program {})
    (fun program => program.findsMismatch 5 program.root) (by decide +kernel)
  obtain ⟨resolved, hresolved, hclean⟩ := Reader.exists_ok
    ((SchemaPair.twoTrees (lists "W" .string) (lists "Q" .string)).program {})
    (fun program => program.symbols.all fun symbol => !symbol.isMismatch) (by decide +kernel)
  exact ⟨program, resolved, hprogram, hresolved, Program.hasErrors_of_all hclean,
    Program.hasErrors_iff_leads.2 (Program.leads_of_findsMismatch herrors)⟩

theorem fullname_ne {branches : List Node}
    (hunion : (schemas.context {}).shape? schemas.readerRoot = some (.union branches)) :
    ∀ other ∈ branches, ∀ r,
      (schemas.context {}).shape? other = some (.named (.record r)) → r.heading.fullname ≠ "W" := by
  cases hunion
  refine List.forall_mem_cons.2 ⟨?_, List.forall_mem_singleton.2 ?_⟩
  · rintro _ ⟨⟩
    decide
  · rintro _ ⟨⟩
    decide

/-- That a record branch resolves is not enough: the union takes the first branch, the items of
which do not go together. -/
theorem misses_clash :
    ¬∀ (pair : SchemaPair) (config : Config) (program resolved : Program) (w r : RecordNode)
      (branches : List Node) (branch : Node), pair.program config = .ok program →
        pair.writer.references = [] → pair.reader.references = [] →
          (pair.context config).shape? pair.writerRoot = some (.named (.record w)) →
            (pair.context config).shape? pair.readerRoot = some (.union branches) →
              (∀ other ∈ branches, ∀ r,
                (pair.context config).shape? other = some (.named (.record r)) →
                  r.heading.fullname ≠ w.heading.fullname) →
                branch ∈ branches →
                  (pair.context config).shape? branch = some (.named (.record r)) →
                    (SchemaPair.twoTrees pair.writer branch.schema).program config =
                        .ok resolved →
                      resolved.hasErrors = false → program.hasErrors = false := by
  intro hall
  obtain ⟨program, resolved, hprogram, hresolved, hclean, herrors⟩ := exists_programs
  have hnone := hall schemas {} program resolved _ _ _ _ hprogram rfl rfl rfl rfl (fullname_ne rfl)
    (.tail _ (.head _)) rfl hresolved hclean
  cases herrors.symm.trans hnone

/-- The items of the branch that is taken clash, which is not seen at first sight. -/
theorem hasErrors_of_choice_lists :
    ∃ program w branches picked index symbol inner inner', schemas.program {} = .ok program ∧
      (schemas.context {}).choice (.named (.record w)) branches = some (picked, index) ∧
        program.symbol? program.root = some (.adjust index symbol) ∧
          (schemas.context {}).Descends (schemas.writerRoot, picked) (inner, inner') ∧
            ¬(schemas.context {}).Mismatched inner inner' ∧
              (schemas.context {}).Clashes inner inner' := by
  obtain ⟨program, resolved, hprogram, hresolved, hclean, herrors⟩ := exists_programs
  obtain ⟨picked, _, index, symbol, _, hchoice, _, _, hroot, _, _, _, hiff⟩ :=
    SchemaPair.hasErrors_of_choice hprogram rfl rfl rfl rfl (fullname_ne rfl)
      (.tail _ (.head _)) rfl hresolved hclean
  obtain ⟨inner, inner', hdescends, hmatched, hclashes⟩ := hiff.1 herrors
  exact ⟨program, _, _, picked, index, symbol, inner, inner', hprogram, hchoice, hroot, hdescends,
    hmatched, hclashes⟩

end Hidden

end AvroResolution
