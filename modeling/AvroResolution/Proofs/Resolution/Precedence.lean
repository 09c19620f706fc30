import AvroResolution.Proofs.Compilation.BottomUpSteps
import AvroResolution.Proofs.Compilation.Twins
import AvroResolution.Proofs.Resolution.Timing

/-!
# Which branch is taken

Where the two schemas contain no references, every union takes the branch that the rules choose.

* `Context.Mismatched` says that two types do not fit at first sight.  Records fit if no field is
  missing and no two linked fields are mismatched (`Context.misfit_iff`).
* `Builder.AdjustsBack.hasMatchError`: a pair that is picked was complete, so it shows no mismatch
  later.  Hence the rules choose it (`Program.Built.choice_of_reads`).
* `SchemaPair.takes_choices` is the result.
-/

namespace AvroResolution

/-! ## Mismatches at first sight -/

namespace Context

variable {context : Context}

/-- The writer's type cannot be read as the reader's at first sight. -/
inductive Mismatched (context : Context) (writer reader : Node) : Prop
  | types {cause : Mismatch}
      (hreading : context.reading? writer reader = some (.mismatch cause))
  | missing {w r : RecordNode} {field : String}
      (hreading : context.reading? writer reader = some (.records w r))
      (hmissing : Matching.ofFields context.config w.fields r.fields = .error field)
  | unbranched {shape : Shape} {branches : List Node}
      (hreading : context.reading? writer reader = some (.readerUnion branches))
      (hshape : context.shape? writer = some shape)
      (hchoice : context.choice shape branches = none)

/-- No branch is chosen exactly if none can be picked at first sight and no record branch fits. -/
theorem choice_eq_none {shape : Shape} {branches : List Node} :
    context.choice shape branches = none ↔ context.pick shape branches.zipIdx [] = none ∧
      ∀ candidate ∈ branches.zipIdx, ∀ w r, shape = .named (.record w) →
        context.recordAt? candidate = some r → context.Misfit w r := by
  constructor
  · intro hnone
    obtain ⟨hunfit, hpick⟩ := pick_eq_none hnone
    refine ⟨hpick, fun candidate hcandidate w r hw hr => ?_⟩
    by_contra hfits
    have hmem : candidate ∈ context.fitting shape branches.zipIdx :=
      mem_fitting.2 ⟨hcandidate, w, r, hw, hr, hfits⟩
    rw [hunfit] at hmem
    cases hmem
  · rintro ⟨hpick, hmisfits⟩
    have hunfit : context.fitting shape branches.zipIdx = [] := by
      refine List.eq_nil_iff_forall_not_mem.2 fun candidate hmem => ?_
      obtain ⟨hcandidate, w, r, hw, hr, hfits⟩ := mem_fitting.1 hmem
      exact hfits (hmisfits candidate hcandidate w r hw hr)
    rw [choice, hunfit, hpick]

/-- Records do not fit exactly if a field is missing or two linked fields are mismatched. -/
theorem misfit_iff {w r : RecordNode} :
    context.Misfit w r ↔
      (∃ field, Matching.ofFields context.config w.fields r.fields = .error field) ∨
        ∃ matching field link,
          Matching.ofFields context.config w.fields r.fields = .ok matching ∧
            (field, some link) ∈ w.fields.zip matching.links ∧
              context.Mismatched field.type link.field.type := by
  constructor
  · rintro (hmissing | ⟨hmatching, hlinked, hreading⟩ |
      ⟨hmatching, hlinked, hreading, hmissing⟩ |
      ⟨hmatching, hlinked, hreading, hshape, hnone, hmisfits⟩)
    · exact .inl ⟨_, hmissing⟩
    · exact .inr ⟨_, _, _, hmatching, hlinked, .types hreading⟩
    · exact .inr ⟨_, _, _, hmatching, hlinked, .missing hreading hmissing⟩
    · exact .inr ⟨_, _, _, hmatching, hlinked,
        .unbranched hreading hshape (choice_eq_none.2 ⟨hnone, hmisfits⟩)⟩
  · rintro (⟨field, hmissing⟩ | ⟨matching, field, link, hmatching, hlinked,
      hreading | ⟨hreading, hmissing⟩ | ⟨hreading, hshape, hchoice⟩⟩)
    · exact .missing hmissing
    · exact .types hmatching hlinked hreading
    · exact .records hmatching hlinked hreading hmissing
    · obtain ⟨hnone, hmisfits⟩ := choice_eq_none.1 hchoice
      exact .branches hmatching hlinked hreading hshape hnone hmisfits

/-- Records fit exactly if no field is missing and no two linked fields are mismatched. -/
theorem fits_iff {w r : RecordNode} :
    ¬context.Misfit w r ↔
      ∃ matching, Matching.ofFields context.config w.fields r.fields = .ok matching ∧
        ∀ field link, (field, some link) ∈ w.fields.zip matching.links →
          ¬context.Mismatched field.type link.field.type := by
  rw [misfit_iff, not_or]
  constructor
  · rintro ⟨hfound, hmatched⟩
    cases hmatching : Matching.ofFields context.config w.fields r.fields with
    | error field => exact absurd ⟨field, hmatching⟩ hfound
    | ok matching =>
      exact ⟨matching, rfl, fun field link hlinked hmismatched =>
        hmatched ⟨matching, field, link, hmatching, hlinked, hmismatched⟩⟩
  · rintro ⟨matching, hmatching, hmatched⟩
    constructor
    · rintro ⟨field, hmissing⟩
      cases hmatching.symm.trans hmissing
    · rintro ⟨other, field, link, hother, hlinked, hmismatched⟩
      cases hmatching.symm.trans hother
      exact hmatched field link hlinked hmismatched

end Context

/-! ## Picks that are complete -/

/-- A pair of records that is picked shows no mismatch, as it was complete when it was picked. -/
theorem Builder.AdjustsBack.hasMatchError {context : Context} {roots : List Node}
    {builder : Builder} (hback : builder.AdjustsBack context roots)
    (htimely : builder.PicksTimely context) {w r : RecordNode} {id symbol : SymbolId}
    (hadjusts : builder.Adjusts context w r id symbol) :
    builder.hasMatchError symbol = false := by
  refine (htimely w r id symbol hadjusts).resolve_right ?_
  rintro ⟨children, order, hsequence, _, hinside⟩
  obtain ⟨index, hid⟩ := hadjusts.adjusts
  obtain ⟨_, found, hfound, hchildren⟩ := hback id index symbol hid
  cases hsequence.symm.trans hfound
  have hlt : order < id := hchildren order (List.mem_append_right _ (.head _))
  exact Nat.lt_asymm hlt hinside

namespace Program.Built

variable {context : Context} {program : Program} {builder : Builder}
  (hbuilt : program.Built context builder)
  (hclear : ∀ w r id symbol, builder.Adjusts context w r id symbol →
    builder.hasMatchError symbol = false)
include hbuilt hclear

/-- Where the pairs that are picked show no mismatch, they fit. -/
theorem fits_of_adjusts {w r : RecordNode} {id symbol : SymbolId}
    (hadjusts : builder.Adjusts context w r id symbol) : ¬context.Misfit w r := by
  intro hmisfit
  -- The arena is that of the program that starts at the pair.
  have hstart : Program.Built context { program with root := symbol } builder :=
    ⟨hbuilt.symbol, hbuilt.sound, hbuilt.records⟩
  have hshows := hstart.hasMatchError_of_misfit (fun w r id symbol _ => hclear w r id symbol)
    hmisfit hadjusts.writer hadjusts.reader hadjusts.symbol .refl
  rw [hclear w r id symbol hadjusts] at hshows
  cases hshows

/-- A union takes the branch that the rules choose. -/
theorem choice_of_reads {writer reader : Node} {id : SymbolId} {shape : Shape}
    {branches : List Node} (hreads : builder.Reads context writer reader id)
    (hreading : context.reading? writer reader = some (.readerUnion branches))
    (hshape : context.shape? writer = some shape) :
    match context.choice shape branches with
    | some (branch, index) => ∃ symbol, builder.Reads context writer branch symbol ∧
        program.symbol? id = some (.adjust index symbol)
    | none => program.symbol? id = some (.mismatch (.types shape.typeName Kind.union.name)) := by
  rw [hbuilt.symbol]
  cases hreads with
  | adjust hunion hfound hkept hpick hbranch hid =>
    cases hreading.symm.trans hunion
    cases hshape.symm.trans hfound
    rcases hkept.pick_eq_or hpick with hchoice | ⟨w, r, rfl, hr, hnames, hmisfit⟩
    · rw [Context.choice, hchoice]
      exact ⟨_, hbranch, hid⟩
    · exact absurd hmisfit
        (hbuilt.fits_of_adjusts hclear (hbranch.adjusts hshape hr hid hnames))
  | unbranched hunion hfound hkept hpick hid =>
    cases hreading.symm.trans hunion
    cases hshape.symm.trans hfound
    obtain ⟨rfl, hnone⟩ := Context.pick_eq_none hpick
    rw [Context.choice, ← hkept.fitting, Context.fitting, List.filter_nil, hnone]
    exact hid
  | atom h => cases hreading.symm.trans h
  | promotion h => cases hreading.symm.trans h
  | enum h => cases hreading.symm.trans h
  | array h => cases hreading.symm.trans h
  | map h => cases hreading.symm.trans h
  | records h => cases hreading.symm.trans h
  | select h => cases hreading.symm.trans h
  | mismatch h => cases hreading.symm.trans h

/-- The symbol of two types is a mismatch exactly if they are mismatched at first sight. -/
theorem mismatched_iff {writer reader : Node} {id : SymbolId}
    (hreads : builder.Reads context writer reader id) :
    context.Mismatched writer reader ↔ ∃ cause, program.symbol? id = some (.mismatch cause) := by
  have hother {symbol : Symbol} (hid : builder.symbol? id = some symbol)
      (hmismatch : symbol.isMismatch = false) {holds : Prop} :
      (∃ cause, program.symbol? id = some (.mismatch cause)) → holds := by
    rintro ⟨cause, hcause⟩
    rw [hbuilt.symbol] at hcause
    cases hid.symm.trans hcause
    cases hmismatch
  constructor
  · rintro (hreading | ⟨hreading, hmissing⟩ | ⟨hreading, hshape, hchoice⟩)
    · exact ⟨_, (hbuilt.symbol id).trans (hreads.of_reading hreading)⟩
    · obtain ⟨hw, hr, hid⟩ := hreads.of_reading hreading
      rw [hbuilt.symbol]
      exact ((hbuilt.records _ _ _ hw hr hid).hasMatchError_of_missing hmissing).1
    · have hid := hbuilt.choice_of_reads hclear hreads hreading hshape
      rw [hchoice] at hid
      exact ⟨_, hid⟩
  · cases hreads with
    | mismatch hreading _ => exact fun _ => .types hreading
    | records hreading hw hr hid =>
      cases hbuilt.records _ _ _ hw hr hid with
      | missing hmissing _ => exact fun _ => .missing hreading hmissing
      | fields _ _ _ _ hsequence => exact hother hsequence rfl
    | unbranched hreading hshape hkept hpick _ =>
      obtain ⟨rfl, hnone⟩ := Context.pick_eq_none hpick
      refine fun _ => .unbranched hreading hshape ?_
      rw [Context.choice, ← hkept.fitting, Context.fitting, List.filter_nil, hnone]
    | atom _ hid => exact hother hid rfl
    | promotion _ _ hid => exact hother hid rfl
    | enum _ _ _ hid => exact hother hid rfl
    | array _ _ _ _ hid => exact hother hid rfl
    | map _ _ _ _ _ hid => exact hother hid rfl
    | select _ _ _ _ hid => exact hother hid rfl
    | adjust _ _ _ _ _ hid => exact hother hid rfl

omit hclear in
/-- A symbol that takes a branch reads a union. -/
theorem union_of_adjust {writer reader : Node} {id symbol : SymbolId} {index : Nat}
    (hreads : builder.Reads context writer reader id)
    (hid : program.symbol? id = some (.adjust index symbol)) :
    ∃ shape branches, context.shape? writer = some shape ∧
      context.reading? writer reader = some (.readerUnion branches) := by
  rw [hbuilt.symbol] at hid
  have hother {found : Symbol} (hfound : builder.symbol? id = some found)
      (hunion : ∀ index symbol, found ≠ .adjust index symbol) {holds : Prop} : holds :=
    absurd (Option.some.inj (hfound.symm.trans hid)) (hunion index symbol)
  cases hreads with
  | adjust hreading hshape _ _ _ _ => exact ⟨_, _, hshape, hreading⟩
  | unbranched hreading hshape _ _ _ => exact ⟨_, _, hshape, hreading⟩
  | records _ hw hr hmemo =>
    cases hbuilt.records _ _ _ hw hr hmemo with
    | missing _ hmissing => exact hother hmissing (by rintro _ _ ⟨⟩)
    | fields _ _ _ _ hsequence => exact hother hsequence (by rintro _ _ ⟨⟩)
  | atom _ hfound => exact hother hfound (by rintro _ _ ⟨⟩)
  | promotion _ _ hfound => exact hother hfound (by rintro _ _ ⟨⟩)
  | enum _ _ _ hfound => exact hother hfound (by rintro _ _ ⟨⟩)
  | array _ _ _ _ hfound => exact hother hfound (by rintro _ _ ⟨⟩)
  | map _ _ _ _ _ hfound => exact hother hfound (by rintro _ _ ⟨⟩)
  | select _ _ _ _ hfound => exact hother hfound (by rintro _ _ ⟨⟩)
  | mismatch _ hfound => exact hother hfound (by rintro _ _ ⟨⟩)

/-- Where two unions read twins, they take branches at one place. -/
theorem adjust_of_twins {writer writer' reader reader' : Node} {id id' symbol : SymbolId}
    {index : Nat} (hreads : builder.Reads context writer reader id)
    (hreads' : builder.Reads context writer' reader' id') (hwriter : writer.Twins writer')
    (hreader : reader.Twins reader') (hid : program.symbol? id = some (.adjust index symbol)) :
    ∃ symbol', program.symbol? id' = some (.adjust index symbol') := by
  obtain ⟨shape, branches, hshape, hreading⟩ := hbuilt.union_of_adjust hreads hid
  obtain ⟨_, hreading', hrule⟩ := exists_of_rel (hwriter.reading? hreader context context) hreading
  obtain ⟨shape', hshape', hsame⟩ := exists_of_rel (hwriter.shape? context context) hshape
  cases hrule with
  | @readerUnion _ others hbranches =>
    have hrel : Option.Rel BranchTwins (context.choice shape branches)
        (context.choice shape' others) := hsame.choice rfl hbranches
    have hfound := hbuilt.choice_of_reads hclear hreads hreading hshape
    have hfound' := hbuilt.choice_of_reads hclear hreads' hreading' hshape'
    cases hchoice : context.choice shape branches with
    | none =>
      rw [hchoice] at hfound
      cases hid.symm.trans hfound
    | some chosen =>
      rw [hchoice] at hfound
      obtain ⟨_, _, hadjust⟩ := hfound
      cases hid.symm.trans hadjust
      obtain ⟨⟨branch', index'⟩, hchoice', _, hplace⟩ := exists_of_rel hrel hchoice
      obtain rfl : chosen.2 = index' := hplace
      rw [hchoice'] at hfound'
      obtain ⟨symbol', _, hadjust'⟩ := hfound'
      exact ⟨symbol', hadjust'⟩

end Program.Built

/-! ## The result -/

/-- Unions take the branches that the rules choose. -/
structure Program.TakesChoices (context : Context) (roots : List Node) (program : Program)
    (builder : Builder) : Prop where
  /-- A symbol that takes a branch reads a type of the trees as a union of them. -/
  reads : ∀ id index symbol, program.symbol? id = some (.adjust index symbol) →
    ∃ writer ∈ Node.forest roots, ∃ reader ∈ Node.forest roots, ∃ branches,
      builder.Reads context writer reader id ∧
        context.reading? writer reader = some (.readerUnion branches)
  /-- The branch is the one that is chosen, and there is a mismatch of the two types if there is
  none. -/
  choice : ∀ writer reader id shape branches, builder.Reads context writer reader id →
    context.reading? writer reader = some (.readerUnion branches) →
      context.shape? writer = some shape →
        match context.choice shape branches with
        | some (branch, index) => ∃ symbol, builder.Reads context writer branch symbol ∧
            program.symbol? id = some (.adjust index symbol)
        | none => program.symbol? id = some (.mismatch (.types shape.typeName Kind.union.name))
  /-- Records fit if no field is missing and no two linked fields are mismatched. -/
  fits : ∀ w r, ¬context.Misfit w r ↔
    ∃ matching, Matching.ofFields context.config w.fields r.fields = .ok matching ∧
      ∀ field link, (field, some link) ∈ w.fields.zip matching.links →
        ¬context.Mismatched field.type link.field.type
  /-- Two types are mismatched if they are compiled to a mismatch. -/
  mismatched : ∀ writer reader id, builder.Reads context writer reader id →
    (context.Mismatched writer reader ↔ ∃ cause, program.symbol? id = some (.mismatch cause))
  /-- Where the same two types are read, the same branch is taken. -/
  alike : ∀ writer ∈ Node.forest roots, ∀ reader ∈ Node.forest roots,
    ∀ writer' reader' id id' index symbol, writer.schema = writer'.schema →
      reader.schema = reader'.schema → builder.Reads context writer reader id →
        builder.Reads context writer' reader' id' →
          program.symbol? id = some (.adjust index symbol) →
            ∃ symbol', program.symbol? id' = some (.adjust index symbol')

namespace SchemaPair

variable {pair : SchemaPair} {config : Config} {program : Program}

theorem references_of_mem_forest (hwriter : pair.writer.references = [])
    (hreader : pair.reader.references = []) :
    ∀ node ∈ Node.forest pair.roots, node.schema.references = [] := by
  have hroots : ∀ root ∈ pair.roots, root.schema.references = [] := by
    simp only [roots, List.forall_mem_cons, List.not_mem_nil, false_implies, implies_true, and_true]
    cases pair with
    | twoTrees writer reader => exact ⟨hwriter, hreader⟩
    | oneTree schema => exact ⟨hwriter, hwriter⟩
  intro node hnode
  obtain ⟨root, hroot, hmem⟩ := Node.mem_forest.1 hnode
  exact Node.references_of_mem_preorder root (hroots root hroot) node hmem

/-- Where the schemas contain no references, every union refers to what was complete. -/
theorem adjustsBack_build (hwriter : pair.writer.references = [])
    (hreader : pair.reader.references = []) {id : SymbolId} {builder : Builder}
    (hbuild : pair.build config = .ok (id, builder)) :
    builder.AdjustsBack (pair.context config) pair.roots := by
  have hsettles := Compile.settles_resolving (pair.spans_roots config)
    (references_of_mem_forest hwriter hreader) (resolvingDepth pair.writerRoot pair.readerRoot)
    Builder.empty pair.writerRoot pair.readerRoot (Node.root_mem_forest (.head _))
    (Node.root_mem_forest (.tail _ (.head _))) (Builder.opensAbove_empty _ _)
  have hempty : Builder.empty.AdjustsBack (pair.context config) pair.roots := by
    rintro id index symbol ⟨⟩
  obtain ⟨_, _, _, hback, _⟩ := hsettles hempty Builder.sound_empty _ _ hbuild
  exact hback

/-- Where the schemas contain no references, the pairs of records that unions pick show no
mismatch. -/
theorem hasMatchError_of_adjusts (hwriter : pair.writer.references = [])
    (hreader : pair.reader.references = []) {id : SymbolId} {builder : Builder}
    (hbuild : pair.build config = .ok (id, builder)) :
    ∀ w r id symbol, builder.Adjusts (pair.context config) w r id symbol →
      builder.hasMatchError symbol = false := by
  have htimely : builder.PicksTimely (pair.context config) :=
    (trace_build hbuild).picksTimely (Builder.orderly_empty _) (Builder.picksTimely_empty _)
  intro w r id symbol hadjusts
  exact (adjustsBack_build hwriter hreader hbuild).hasMatchError htimely hadjusts

/-- Where the schemas contain no references, every union takes the branch that the rules choose,
wherever it is met. -/
theorem takes_choices (hprogram : pair.program config = .ok program)
    (hwriter : pair.writer.references = []) (hreader : pair.reader.references = []) :
    ∃ builder, pair.build config = .ok (program.root, builder) ∧
      builder.Reads (pair.context config) pair.writerRoot pair.readerRoot program.root ∧
        program.TakesChoices (pair.context config) pair.roots builder := by
  obtain ⟨builder, hbuild, hbuilt, hroot⟩ := built hprogram
  have hclear := hasMatchError_of_adjusts hwriter hreader hbuild
  have hplain := references_of_mem_forest hwriter hreader
  refine ⟨builder, hbuild, hroot, ?_, ?_, fun _ _ => Context.fits_iff, ?_, ?_⟩
  · intro id index symbol hid
    rw [hbuilt.symbol] at hid
    obtain ⟨⟨writer, hw, reader, hr, hreads⟩, _⟩ :=
      adjustsBack_build hwriter hreader hbuild id index symbol hid
    obtain ⟨_, branches, _, hreading⟩ :=
      hbuilt.union_of_adjust hreads ((hbuilt.symbol id).trans hid)
    exact ⟨writer, hw, reader, hr, branches, hreads, hreading⟩
  · intro writer reader id shape branches hreads hreading hshape
    exact hbuilt.choice_of_reads hclear hreads hreading hshape
  · intro writer reader id hreads
    exact hbuilt.mismatched_iff hclear hreads
  · intro writer hw reader hr writer' reader' id id' index symbol hwsame hrsame hreads hreads' hid
    exact hbuilt.adjust_of_twins hclear hreads hreads' ⟨hwsame, hplain _ hw⟩ ⟨hrsame, hplain _ hr⟩
      hid

end SchemaPair

namespace Foos

/-- A record of a number. -/
def foo (name space : String) : Schema :=
  .record ⟨name, some space, []⟩ [⟨"x", .primitive .int, none, []⟩]

/-- A record, and a union of two that it fits, of which the second has its unqualified name. -/
def schemas : SchemaPair :=
  .twoTrees (foo "Foo" "old") (.union [foo "Bar" "new", foo "Foo" "new"])

/-- The program takes the second branch. -/
def takesSecond (program : Program) : Bool :=
  match program.symbol? program.root with
  | some (.adjust 1 _) => true
  | _ => false

/-- The unqualified name comes before the order of the branches. -/
theorem takes_choices_foos :
    ∃ program shape branches branch symbol, schemas.program {} = .ok program ∧
      (schemas.context {}).shape? schemas.writerRoot = some shape ∧
        (schemas.context {}).shape? schemas.readerRoot = some (.union branches) ∧
          (schemas.context {}).choice shape branches = some (branch, 1) ∧
            program.symbol? program.root = some (.adjust 1 symbol) := by
  obtain ⟨program, hprogram, htakes⟩ := Reader.exists_ok (schemas.program {}) takesSecond
    (by decide +kernel)
  obtain ⟨builder, _, hreads, hchoices⟩ := SchemaPair.takes_choices hprogram rfl rfl
  have hfound := hchoices.choice _ _ _ _ _ hreads rfl rfl
  rw [takesSecond] at htakes
  split at htakes
  · rename_i symbol hadjust
    split at hfound
    · rename_i branch index hchoice
      obtain ⟨_, _, hid⟩ := hfound
      obtain ⟨rfl, -⟩ := Symbol.adjust.inj (Option.some.inj (hid.symm.trans hadjust))
      exact ⟨program, _, _, branch, symbol, hprogram, rfl, rfl, hchoice, hadjust⟩
    · cases hfound.symm.trans hadjust
  · cases htakes

end Foos

end AvroResolution
