import AvroResolution.Proofs.Compilation.Reads

/-!
# What resolving compiles

The symbol that is compiled for two nodes reads the one as the other
(`Compile.gives_resolving`), and the program of two trees is the arena of a sound
builder whose records are all compiled (`SchemaPair.built`).

The proof goes construct by construct, with one lemma for each function of the
compiler.  `Compile.resolvingStep_eq` splits a step into the choice of a rule
(`Shape.reading`) and the compilation of that rule (`Compile.ofReading`).
-/

namespace AvroResolution

/-- The sides are no parts of one tree, so every record is known by itself. -/
class Context.Unshared (context : Context) : Prop where
  shared : context.shared = false

theorem Context.key_eq (context : Context) [context.Unshared] (w r : RecordNode) :
    context.key w r = .resolving w.id r.id := by
  rw [key, identify, identify, Unshared.shared]

namespace Compile

variable {context : Context} {resolve : Node → Node → Compile SymbolId} {builder : Builder}

/-! ## One step -/

/-- The symbol of a writer's type that is read as a branch of the reader's
union. -/
def resolveReaderUnion (context : Context) (resolve : Node → Node → Compile SymbolId)
    (writer : Node) (w r : Shape) (branches : List Node) : Compile SymbolId := do
  match ← chooseBranch context resolve w branches with
  | some (branch, index) => do
    let symbol ← resolve writer branch
    push (.adjust index symbol)
  | none => mismatch w r

/-- The symbol of a pair of nodes whose rule is known. -/
def ofReading (context : Context) (resolve : Node → Node → Compile SymbolId)
    (writer reader : Node) (w r : Shape) : Reading → Compile SymbolId
  | .atom type => terminal type.terminal
  | .promotion promotion => do
    let symbol ← terminal (.primitive promotion.source)
    push (.promote symbol promotion)
  | .enum ws rs default? => enumeration (.between context.config ws rs default?)
  | .array wi ri => do
    let item ← resolve wi ri
    blocks .array [item]
  | .map wv rv => do
    let key ← terminal (.primitive .string)
    let value ← resolve wv rv
    blocks .map [key, value]
  | .records wr rr => resolveRecords context resolve wr rr
  | .writerUnion branches => resolveWriterUnion resolve branches reader
  | .readerUnion branches => resolveReaderUnion context resolve writer w r branches
  | .mismatch cause => push (.mismatch cause)

theorem resolvingStep_eq (writer reader : Node) :
    resolvingStep context resolve writer reader = (do
      let w ← context.look writer
      let r ← context.look reader
      ofReading context resolve writer reader w r (w.reading r)) := by
  unfold resolvingStep
  refine bind_congr fun w => bind_congr fun r => ?_
  cases w with
  | primitive wt =>
    cases r with
    | primitive rt =>
      simp only [Shape.reading]
      by_cases h : wt = rt
      · rw [if_pos h, if_pos h]
        rfl
      · rw [if_neg h, if_neg h]
        cases hp : Promotion.between? (.primitive wt) (.primitive rt) with
        | some promotion =>
          obtain ⟨hsource, _⟩ := Shape.kinds_of_between? hp
          cases hsource
          rfl
        | none => rfl
    | _ => rfl
  | named wd =>
    cases r with
    | named rd =>
      cases wd <;> cases rd <;> simp only [Shape.reading] <;> first | rfl | skip
      · split <;> rfl
      · split <;> rfl
    | _ => cases wd <;> rfl
  | array wi => cases r <;> rfl
  | map wv => cases r <;> rfl
  | union branches => cases r <;> rfl

/-! ## Records -/

section

variable (hresolve : ∀ builder writer reader, context.Holds writer → context.Holds reader →
  Gives (Builder.ReadsKey context) builder (resolve writer reader)
    fun id after => after.Reads context writer reader id)
include hresolve

theorem gives_resolveWritten {linked : Field Node × Option ReaderField}
    (hfield : context.Holds linked.1.type)
    (hlink : ∀ reader, linked.2 = some reader → context.Holds reader.field.type) :
    Gives (Builder.ReadsKey context) builder (resolveWritten resolve linked)
      fun written after => Builder.ReadsWritten context after linked written := by
  rcases linked with ⟨field, _ | reader⟩
  · refine .bind (hresolve builder _ _ hfield hfield) ?_
    intro value middle _ hvalue
    refine .bind (gives_push (Builder.lasting_readsKey context) (.skip value)) ?_
    intro symbol after hafter hsymbol
    exact .pure (.dropped (hvalue.grow hafter.toGrows) hsymbol)
  · refine .bind (hresolve builder _ _ hfield (hlink reader rfl)) ?_
    intro symbol middle _ hsymbol
    exact .pure (.linked hsymbol)

omit hresolve in
theorem gives_defaultBytes (field : DefaultedField) :
    Gives (Builder.ReadsKey context) builder (defaultBytes context field)
      fun bytes _ => encodeDefault (context.registry field.reader.field.type.side)
        field.reader.field.type field.default = .ok bytes := by
  intro hsound bytes after hx
  simp only [defaultBytes] at hx
  split at hx
  · cases hx
    exact ⟨hsound, .refl builder, ‹_›⟩
  · cases hx

theorem gives_resolveDefaulted {field : DefaultedField}
    (hfield : context.Holds field.reader.field.type) :
    Gives (Builder.ReadsKey context) builder (resolveDefaulted context resolve field)
      fun symbols after => Builder.ReadsDefault context after field symbols := by
  have hlasting := Builder.lasting_readsKey context
  refine .bind (gives_defaultBytes field) ?_
  intro bytes first _ hbytes
  refine .bind (gives_push hlasting _) ?_
  intro inject second _ hinject
  refine .bind (hresolve second _ _ hfield hfield) ?_
  intro value third hthird hvalue
  refine .bind (gives_push hlasting .injectEnd) ?_
  intro last fourth hfourth hlast
  exact .pure (.intro hbytes (hfourth.symbol _ _ (hthird.symbol _ _ hinject))
    (hvalue.grow hfourth.toGrows) hlast)

omit hresolve in
theorem arrivals_of_linked {writer : List (Field Node)} {matching : Matching}
    {written : List WrittenField} (hlength : matching.links.length = writer.length)
    (h : List.Forall₂ (fun linked field => field.arrival? =
      linked.2.map fun reader => (⟨reader.field.name, reader.index⟩ : Arrival))
      (writer.zip matching.links) written) :
    written.filterMap (·.arrival?) ++
        matching.defaulted.map (fun field =>
          (⟨field.reader.field.name, field.reader.index⟩ : Arrival)) =
      matching.arrivals := by
  have hwritten : written.filterMap (·.arrival?) =
      matching.links.readers.map fun reader => ⟨reader.field.name, reader.index⟩ := by
    rw [Links.readers, List.map_filterMap]
    generalize matching.links = links at hlength h
    induction writer generalizing links written with
    | nil =>
      obtain rfl := List.length_eq_zero_iff.1 hlength
      cases h
      rfl
    | cons field rest ih =>
      cases links with
      | nil => cases hlength
      | cons link others =>
        cases h with
        | cons hfirst hrest =>
          rw [List.filterMap_cons, List.filterMap_cons, hfirst,
            ih others (Nat.succ.inj hlength) hrest]
          rfl
  rw [hwritten, Matching.arrivals, Matching.readers, List.map_append, List.map_map]
  rfl

omit hresolve in
theorem arrivals_of_written {writer : List (Field Node)} {matching : Matching}
    {written : List WrittenField} (hlength : matching.links.length = writer.length)
    (h : List.Forall₂ (Builder.ReadsWritten context builder) (writer.zip matching.links) written) :
    written.filterMap (·.arrival?) ++
        matching.defaulted.map (fun field =>
          (⟨field.reader.field.name, field.reader.index⟩ : Arrival)) =
      matching.arrivals := by
  refine arrivals_of_linked hlength (h.imp fun linked field hreads => ?_)
  cases hreads with
  | linked _ => rfl
  | dropped _ _ => rfl

theorem gives_resolveFields {w r : RecordNode} {matching : Matching} (hw : context.Defines w)
    (hr : context.Defines r)
    (hmatching : Matching.ofFields context.config w.fields r.fields = .ok matching) :
    Gives (Builder.ReadsKey context) builder (resolveFields context resolve w matching)
      fun symbol after => ∀ filled id, Builder.Grows after filled →
        filled.symbol? id = some symbol → filled.ReadsRecord context w r id := by
  have hreader {reader : ReaderField} (hmem : reader ∈ ReaderField.ofFields r.fields) :
      context.Holds reader.field.type :=
    (hr.field (List.mem_of_getElem? (ReaderField.mem_ofFields.1 hmem))).1
  refine .bind (.mapM (fun linked written after =>
    Builder.ReadsWritten context after linked written) _ ?_ ?_) ?_
  · intro _ _ _ _ hafter h
    exact h.grow hafter.toGrows
  · rintro ⟨field, link⟩ hmem middle _
    refine gives_resolveWritten hresolve (hw.field (List.of_mem_zip hmem).1).1 ?_
    rintro reader rfl
    exact hreader (Matching.mem_of_linked hmatching hmem)
  intro written first _ hwritten
  refine .bind (.mapM (fun field symbols after =>
    Builder.ReadsDefault context after field symbols) _ ?_ ?_) ?_
  · intro _ _ _ _ hafter h
    exact h.grow hafter.toGrows
  · intro field hmem middle _
    exact gives_resolveDefaulted hresolve (hreader (Matching.mem_of_defaulted hmatching hmem))
  intro defaulted second hsecond hdefaulted
  refine .bind (gives_push (Builder.lasting_readsKey context) _) ?_
  intro order third hthird horder
  refine .pure ?_
  intro filled id hgrows hid
  rw [arrivals_of_written (Matching.length_links hmatching) hwritten] at horder
  have hthird := hthird.toGrows.trans hgrows
  have hsecond := hsecond.toGrows.trans hthird
  exact .fields hmatching (hwritten.imp fun _ _ h => h.grow hsecond)
    (hdefaulted.imp fun _ _ h => h.grow hthird) (hgrows.symbol _ _ horder) hid

omit hresolve in
theorem resolveRecords_eq (w r : RecordNode) :
    resolveRecords context resolve w r = onFirstSight (context.key w r)
      (match Matching.ofFields context.config w.fields r.fields with
      | .error field =>
        pushFor (context.key w r)
          (.mismatch (.missingField w.heading.fullname r.heading.fullname field))
      | .ok matching =>
        reserveFor (context.key w r) (resolveFields context resolve w matching)) := rfl

variable [context.Unshared]

theorem gives_resolveRecords {w r : RecordNode} (hw : context.Defines w)
    (hr : context.Defines r) :
    Gives (Builder.ReadsKey context) builder (resolveRecords context resolve w r)
      fun id after => after.memo.lookup (.resolving w.id r.id) = some id := by
  have hlasting := Builder.lasting_readsKey context
  rw [resolveRecords_eq, context.key_eq]
  refine gives_onFirstSight hlasting fun hfresh => ?_
  split
  · rename_i field hmissing
    refine gives_pushFor hlasting hfresh ?_
    intro after id hid
    exact ⟨w, r, hw, hr, rfl, .missing hmissing hid⟩
  · rename_i matching hmatching
    refine gives_reserveFor hlasting hfresh fun middle => ?_
    refine (gives_resolveFields hresolve hw hr hmatching).mono ?_
    intro symbol after _ hsymbol filled id hgrows hid
    exact ⟨w, r, hw, hr, rfl, hsymbol filled id hgrows hid⟩

/-! ## Branches -/

omit hresolve [context.Unshared] in
/-- A branch of the writer's own type ends the search, another record may fit, and
any other branch is passed over. -/
theorem branchOfType_cons (writer : Shape) (candidate : Node × Nat) (rest : List (Node × Nat))
    (structural : Option (Node × Nat)) :
    branchOfType context resolve writer (candidate :: rest) structural = (do
      let shape ← context.look candidate.1
      if writer.isOfType shape then
        return some candidate
      else
        match writer, shape with
        | .named (.record w), .named (.record r) => do
          let id ← resolveRecords context resolve w r
          let failed ← hasMatchError id
          branchOfType context resolve writer rest
            (if !failed && (structural.isNone || w.heading.name = r.heading.name)
              then some candidate else structural)
        | _, _ => branchOfType context resolve writer rest structural) := by
  rcases candidate with ⟨branch, index⟩
  rw [branchOfType]
  refine bind_congr fun shape => ?_
  by_cases htype : writer.isOfType shape = true
  · rw [if_pos htype]
    cases writer with
    | named w =>
      cases shape with
      | named r =>
        obtain ⟨hkind, hname⟩ := Shape.isOfType_named.1 htype
        cases w <;> cases r <;> first | exact if_pos hname | exact if_pos ⟨hkind, hname⟩
      | _ => cases w <;> exact if_pos (by simpa [Shape.isOfType] using htype)
    | _ => cases shape <;> exact if_pos (by simpa [Shape.isOfType] using htype)
  · rw [if_neg htype]
    cases writer with
    | named w =>
      cases shape with
      | named r =>
        have hother : ¬(w.kind = r.kind ∧ w.fullname = r.fullname) :=
          fun h => htype (Shape.isOfType_named.2 h)
        cases w <;> cases r <;> first | exact if_neg hother | skip
        refine (if_neg fun hname => hother ⟨rfl, hname⟩).trans ?_
        refine bind_congr fun id => bind_congr fun failed => ?_
        split <;> rfl
      | _ => cases w <;> exact if_neg (by simpa [Shape.isOfType] using htype)
    | _ => cases shape <;> exact if_neg (by simpa [Shape.isOfType] using htype)

omit hresolve in
/-- The branches that are chosen before promotions are considered, where `structural`
is a record that the writer's type fits. -/
def ofTypeOr (context : Context) (writer : Shape) (candidates kept : List (Node × Nat))
    (structural : Option (Node × Nat)) : Option (Node × Nat) :=
  (candidates.find? (context.isOfType writer)).or <|
    (kept.filter (context.sharesName writer)).getLast?.or (structural.or kept.head?)

omit hresolve [context.Unshared] in
/-- A record that fits replaces the one found so far if it has the writer's own
unqualified name. -/
theorem ofTypeOr_keep {writer : Shape} {candidate : Node × Nat}
    {candidates kept : List (Node × Nat)} (structural : Option (Node × Nat))
    (htype : context.isOfType writer candidate = false) :
    ofTypeOr context writer candidates kept
        (if structural.isNone || context.sharesName writer candidate then some candidate
          else structural) =
      ofTypeOr context writer (candidate :: candidates) (candidate :: kept) structural := by
  rw [ofTypeOr, ofTypeOr, List.find?_cons_of_neg (by simp [htype])]
  cases hname : context.sharesName writer candidate with
  | true =>
    rw [List.filter_cons_of_pos hname, List.getLast?_cons]
    cases (kept.filter (context.sharesName writer)).getLast? <;> simp
  | false =>
    rw [List.filter_cons_of_neg (by simp [hname])]
    cases structural <;> simp

theorem gives_branchOfType {writer : Shape}
    (hwriter : ∀ w, writer = .named (.record w) → context.Defines w)
    (candidates : List (Node × Nat)) (hholds : ∀ candidate ∈ candidates, context.Holds candidate.1)
    (structural : Option (Node × Nat)) :
    Gives (Builder.ReadsKey context) builder
      (branchOfType context resolve writer candidates structural)
      fun chosen _ => ∃ kept, context.Sifted writer candidates kept ∧
        chosen = ofTypeOr context writer candidates kept structural := by
  induction candidates generalizing builder structural with
  | nil => exact .pure ⟨[], .nil, by cases structural <;> rfl⟩
  | cons candidate rest ih =>
    rw [branchOfType_cons]
    refine .bind (gives_look context candidate.1) ?_
    intro shape first _ hshape
    have hrest : ∀ candidate ∈ rest, context.Holds candidate.1 :=
      fun candidate h => hholds candidate (.tail _ h)
    have hisOfType : context.isOfType writer candidate = writer.isOfType shape := by
      rw [Context.isOfType, hshape]
      rfl
    split
    · rename_i htype
      refine .pure ⟨_, .fits, ?_⟩
      rw [ofTypeOr, List.find?_cons_of_pos (by rw [hisOfType, htype])]
      rfl
    · rename_i htype
      have hnot : context.isOfType writer candidate = false := by
        rw [hisOfType]
        exact Bool.eq_false_iff.2 htype
      -- A branch that does not fit leaves the choice to the others.
      have hpass {kept : List (Node × Nat)} :
          ofTypeOr context writer rest kept structural =
            ofTypeOr context writer (candidate :: rest) kept structural := by
        rw [ofTypeOr, ofTypeOr, List.find?_cons_of_neg (by simp [hnot])]
      split
      · rename_i w r
        have hw := hwriter w rfl
        have hr := ((hholds candidate (.head _)).record hshape).1
        have hrecord : context.recordAt? candidate = some r := by
          rw [Context.recordAt?, hshape]
        refine .bind (gives_resolveRecords hresolve hw hr) ?_
        intro id second _ hid
        refine .bind (gives_hasMatchError id) ?_
        intro failed third hthird hfailed hsound
        refine (ih hrest _).mono ?_ hsound
        rintro chosen after _ ⟨kept, hkept, rfl⟩
        cases failed with
        | true =>
          have hmisfit := Builder.misfit_of_hasMatchError hsound hw hr (hthird.memo _ _ hid) hfailed
          refine ⟨kept, hkept.pass ?_, hpass⟩
          rintro ⟨_, _, hsame, hsame', hfits⟩
          cases hsame
          rw [hrecord] at hsame'
          cases hsame'
          exact hfits hmisfit
        | false =>
          refine ⟨_, hkept.keep rfl hrecord, ?_⟩
          rw [← ofTypeOr_keep structural hnot, Context.sharesName, hrecord]
          rfl
      · rename_i hnone
        refine (ih hrest _).mono ?_
        rintro chosen after _ ⟨kept, hkept, rfl⟩
        refine ⟨kept, hkept.pass ?_, hpass⟩
        rintro ⟨w, r, rfl, hr, _⟩
        rw [Context.recordAt?, hshape] at hr
        split at hr
        · rename_i found hfound
          cases hfound
          exact hnone w found rfl rfl
        · cases hr

omit hresolve [context.Unshared] in
theorem gives_branchByPromotion (writer : Shape) (candidates : List (Node × Nat)) :
    Gives (Builder.ReadsKey context) builder (branchByPromotion context writer candidates)
      fun chosen _ => chosen = candidates.find? (context.isPromoted writer) := by
  induction candidates generalizing builder with
  | nil => exact .pure rfl
  | cons candidate rest ih =>
    rcases candidate with ⟨branch, index⟩
    rw [branchByPromotion]
    refine .bind (gives_look context branch) ?_
    intro shape first _ hshape
    have hpromoted : context.isPromoted writer (branch, index) =
        (Promotion.between? writer.kind shape.kind).any Promotion.choosesBranch := by
      rw [Context.isPromoted, hshape]
      rfl
    have hpass (h : context.isPromoted writer (branch, index) = false) :
        Gives (Builder.ReadsKey context) first (branchByPromotion context writer rest)
          fun chosen _ => chosen =
            ((branch, index) :: rest).find? (context.isPromoted writer) := by
      rw [List.find?_cons_of_neg (by simp [h])]
      exact ih
    split
    · rename_i promotion hpromotion
      rw [hpromotion, Option.any_some] at hpromoted
      split
      · rename_i hchooses
        exact .pure (List.find?_cons_of_pos (hpromoted.trans hchooses)).symm
      · exact hpass (hpromoted.trans (Bool.eq_false_iff.2 ‹_›))
    · rename_i hnone
      rw [hnone] at hpromoted
      exact hpass hpromoted

theorem gives_chooseBranch {writer : Shape}
    (hwriter : ∀ w, writer = .named (.record w) → context.Defines w) {branches : List Node}
    (hholds : ∀ branch ∈ branches, context.Holds branch) :
    Gives (Builder.ReadsKey context) builder (chooseBranch context resolve writer branches)
      fun chosen _ => ∃ kept, context.Sifted writer branches.zipIdx kept ∧
        chosen = context.pick writer branches.zipIdx kept := by
  have hcandidates : ∀ candidate ∈ branches.zipIdx, context.Holds candidate.1 :=
    fun candidate h => hholds _ (List.fst_mem_of_mem_zipIdx h)
  refine .bind (gives_branchOfType hresolve hwriter _ hcandidates none) ?_
  rintro chosen first _ ⟨kept, hkept, hchosen⟩
  have hpick : context.pick writer branches.zipIdx kept =
      chosen.or (branches.zipIdx.find? (context.isPromoted writer)) := by
    rw [hchosen, ofTypeOr, Context.pick, Option.none_or, Option.or_assoc, Option.or_assoc]
  split
  · exact .pure ⟨kept, hkept, hpick.symm⟩
  · refine (gives_branchByPromotion writer branches.zipIdx).mono ?_
    rintro promoted after _ rfl
    exact ⟨kept, hkept, hpick.symm⟩

/-! ## Pairs of nodes -/

omit [context.Unshared] in
theorem gives_resolveWriterUnion {writer reader : Node} {branches : List Node}
    (hreading : context.reading? writer reader = some (.writerUnion branches))
    (hbranches : ∀ branch ∈ branches, context.Holds branch) (hreader : context.Holds reader) :
    Gives (Builder.ReadsKey context) builder (resolveWriterUnion resolve branches reader)
      fun id after => after.Reads context writer reader id := by
  have hlasting := Builder.lasting_readsKey context
  refine .bind (.mapM (fun branch (chosen : Branch) after =>
    after.Reads context branch reader chosen.symbol) branches ?_ ?_) ?_
  · intro _ _ _ _ hafter h
    exact h.grow hafter.toGrows
  · intro branch hbranch middle _
    refine .bind (hresolve middle branch reader (hbranches branch hbranch) hreader) ?_
    intro symbol after _ hsymbol
    exact .pure hsymbol
  intro alternatives first _ halternatives
  refine .bind (gives_push hlasting _) ?_
  intro alternative second hsecond halternative
  refine (gives_push hlasting _).mono ?_
  intro id third hthird hid
  refine .select hreading halternatives.length_eq.symm ?_ (hthird.symbol _ _ halternative) hid
  intro index branch chosen hbranch hchosen
  obtain ⟨hindex, rfl⟩ := List.getElem?_eq_some_iff.1 hbranch
  obtain ⟨hindex', rfl⟩ := List.getElem?_eq_some_iff.1 hchosen
  exact ((List.forall₂_iff_get.1 halternatives).2 index hindex hindex').grow
    (hsecond.trans hthird).toGrows

theorem gives_resolveReaderUnion {writer reader : Node} {w r : Shape} {branches : List Node}
    (hreading : context.reading? writer reader = some (.readerUnion branches))
    (hwriter : context.Holds writer) (hw : context.shape? writer = some w)
    (hr : r = .union branches) (hbranches : ∀ branch ∈ branches, context.Holds branch) :
    Gives (Builder.ReadsKey context) builder
      (resolveReaderUnion context resolve writer w r branches)
      fun id after => after.Reads context writer reader id := by
  have hlasting := Builder.lasting_readsKey context
  have hrecord : ∀ record, w = .named (.record record) → context.Defines record := by
    rintro record rfl
    exact (hwriter.record hw).1
  refine .bind (gives_chooseBranch hresolve hrecord hbranches) ?_
  rintro chosen first _ ⟨kept, hkept, rfl⟩
  split
  · rename_i branch index hpick
    have hbranch : branch ∈ branches := List.fst_mem_of_mem_zipIdx (hkept.mem_of_pick hpick)
    refine .bind (hresolve first writer branch hwriter (hbranches branch hbranch)) ?_
    intro symbol second _ hsymbol
    refine (gives_push hlasting _).mono ?_
    intro id third hthird hid
    exact .adjust hreading hw hkept hpick (hsymbol.grow hthird.toGrows) hid
  · rename_i hpick
    refine (gives_push hlasting _).mono ?_
    intro id second _ hid
    subst hr
    exact .unbranched hreading hw hkept hpick hid

/-- Every rule compiles to a symbol that reads by it. -/
theorem gives_ofReading {writer reader : Node} {w r : Shape} (hwriter : context.Holds writer)
    (hreader : context.Holds reader) (hw : context.shape? writer = some w)
    (hr : context.shape? reader = some r) :
    Gives (Builder.ReadsKey context) builder
      (ofReading context resolve writer reader w r (w.reading r))
      fun id after => after.Reads context writer reader id := by
  have hlasting := Builder.lasting_readsKey context
  have hreading : context.reading? writer reader = some (w.reading r) :=
    Context.reading?_eq_some.2 ⟨w, r, hw, hr, rfl⟩
  have hrule := w.rule_reading r
  cases hcase : w.reading r with
  | atom type =>
    rw [hcase] at hreading
    exact (gives_terminal hlasting _).mono fun id after _ hid => .atom hreading hid
  | promotion promotion =>
    rw [hcase] at hreading
    refine .bind (gives_terminal hlasting _) ?_
    intro source first _ hsource
    refine (gives_push hlasting _).mono ?_
    intro id second hsecond hid
    exact .promotion hreading (hsecond.symbol _ _ hsource) hid
  | enum ws rs default? =>
    rw [hcase] at hreading
    refine (gives_enumeration hlasting _).mono ?_
    rintro id after _ ⟨ordinal, remap, hordinal, hremap, hid⟩
    exact .enum hreading hordinal hremap hid
  | array wi ri =>
    rw [hcase] at hreading hrule
    cases hrule
    refine .bind (hresolve builder wi ri (hwriter.part hw (.head _)).1
      (hreader.part hr (.head _)).1) ?_
    intro item first _ hitem
    refine (gives_blocks hlasting .array [item]).mono ?_
    rintro id second hsecond ⟨start, items, hstart, hitems, hid⟩
    exact .array hreading (hitem.grow hsecond.toGrows) hstart hitems hid
  | map wv rv =>
    rw [hcase] at hreading hrule
    cases hrule
    refine .bind (gives_terminal hlasting _) ?_
    intro key first _ hkey
    refine .bind (hresolve first wv rv (hwriter.part hw (.head _)).1
      (hreader.part hr (.head _)).1) ?_
    intro value second hsecond hvalue
    refine (gives_blocks hlasting .map [key, value]).mono ?_
    rintro id third hthird ⟨start, entries, hstart, hentries, hid⟩
    exact .map hreading (hvalue.grow hthird.toGrows)
      (hthird.symbol _ _ (hsecond.symbol _ _ hkey)) hstart hentries hid
  | records wr rr =>
    rw [hcase] at hreading hrule
    cases hrule
    have hwr := (hwriter.record hw).1
    have hrr := (hreader.record hr).1
    exact (gives_resolveRecords hresolve hwr hrr).mono
      fun id after _ hid => .records hreading hwr hrr hid
  | writerUnion branches =>
    rw [hcase] at hreading hrule
    cases hrule
    exact gives_resolveWriterUnion hresolve hreading
      (fun branch hbranch => (hwriter.part hw hbranch).1) hreader
  | readerUnion branches =>
    rw [hcase] at hreading hrule
    cases hrule
    exact gives_resolveReaderUnion hresolve hreading hwriter hw rfl
      fun branch hbranch => (hreader.part hr hbranch).1
  | mismatch cause =>
    rw [hcase] at hreading
    exact (gives_push hlasting _).mono fun id after _ hid => .mismatch hreading hid

end

/-- The symbol of two nodes reads the one as the other. -/
theorem gives_resolving (context : Context) [context.Unshared] (depth : Nat) (builder : Builder)
    (writer reader : Node) (hwriter : context.Holds writer) (hreader : context.Holds reader) :
    Gives (Builder.ReadsKey context) builder (resolving context depth writer reader)
      fun id after => after.Reads context writer reader id := by
  induction depth generalizing builder writer reader with
  | zero => exact .throw _
  | succ depth ih =>
    rw [resolving, resolvingStep_eq]
    refine .bind (gives_look context writer) ?_
    intro w first _ hw
    refine .bind (gives_look context reader) ?_
    intro r second _ hr
    exact gives_ofReading ih hwriter hreader hw hr

end Compile

/-! ## Programs -/

/-- The program is the finished arena of a builder whose records are all
compiled. -/
structure Program.Built (context : Context) (program : Program) (builder : Builder) : Prop where
  symbol : ∀ id, program.symbol? id = builder.symbol? id
  sound : builder.Sound (Builder.ReadsKey context)
  records : ∀ w r id, context.Defines w → context.Defines r →
    builder.memo.lookup (.resolving w.id r.id) = some id → builder.ReadsRecord context w r id

theorem Builder.Sound.built {context : Context} {builder : Builder} {root : SymbolId}
    {program : Program} (hsound : builder.Sound (Builder.ReadsKey context))
    (h : builder.finish root = .ok program) : program.Built context builder := by
  refine ⟨(Builder.of_finish h).2.1, hsound, ?_⟩
  intro w r id hw hr hid
  exact (hsound.compiled_of_finish h hid).readsRecord hw hr

namespace SchemaPair

/-- The root of the writer's tree. -/
def writerRoot (pair : SchemaPair) : Node :=
  .root .writer pair.writer

/-- The root of the reader's tree, which may be the writer's tree. -/
def readerRoot : SchemaPair → Node
  | .twoTrees _ reader => .root .reader reader
  | .oneTree schema => .root .writer schema

/-- What the compilation of a pair knows. -/
def context (pair : SchemaPair) (config : Config) : Context :=
  .ofRoots config pair.writerRoot pair.readerRoot

instance (pair : SchemaPair) (config : Config) : (pair.context config).Unshared :=
  ⟨rfl⟩

/-- The arena that the program of a pair is finished from, and the symbol to start
from. -/
def build (pair : SchemaPair) (config : Config) : Except SchemaFault (SymbolId × Builder) :=
  Compile.resolving (pair.context config) (resolvingDepth pair.writerRoot pair.readerRoot)
    pair.writerRoot pair.readerRoot Builder.empty

theorem program_eq (pair : SchemaPair) (config : Config) :
    pair.program config = (do
      let (id, builder) ← pair.build config
      builder.finish id) := by
  cases pair <;> rfl

theorem holds_writerRoot (pair : SchemaPair) (config : Config) :
    (pair.context config).Holds pair.writerRoot :=
  Registry.holds_root _

theorem holds_readerRoot (pair : SchemaPair) (config : Config) :
    (pair.context config).Holds pair.readerRoot := by
  cases pair <;> exact Registry.holds_root _

/-- The program of a pair reads its writer's schema as its reader's. -/
theorem built {pair : SchemaPair} {config : Config} {program : Program}
    (h : pair.program config = .ok program) :
    ∃ builder, pair.build config = .ok (program.root, builder) ∧
      program.Built (pair.context config) builder ∧
      builder.Reads (pair.context config) pair.writerRoot pair.readerRoot program.root := by
  rw [program_eq] at h
  cases hbuild : pair.build config with
  | error fault =>
    rw [hbuild] at h
    cases h
  | ok found =>
    rcases found with ⟨id, builder⟩
    rw [hbuild] at h
    have hfinish : builder.finish id = .ok program := h
    obtain ⟨hsound, _, hreads⟩ := Compile.gives_resolving (pair.context config) _ Builder.empty _ _
      (pair.holds_writerRoot config) (pair.holds_readerRoot config) Builder.sound_empty id builder
      hbuild
    obtain ⟨rfl, _⟩ := Builder.of_finish hfinish
    exact ⟨builder, rfl, hsound.built hfinish, hreads⟩

end SchemaPair

end AvroResolution
