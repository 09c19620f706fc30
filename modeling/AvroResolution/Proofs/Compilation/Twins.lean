import AvroResolution.Proofs.Compilation.RevisedChoice
import AvroResolution.Proofs.Schema.Trees

/-!
# What a compilation makes of twins

Types without references are compiled alike wherever they stand.

* `Reading.Twins`: the rules for twins are the same but for the places of what they go on with
  (`Shape.Twins.reading`, `Node.Twins.reading?`).
* `Matching.Twins`: the fields of twins are matched alike (`RecordNode.Twins.ofFields`).
* `Context.Misfit.twins` and `Shape.Twins.choice`: the same records fit, and the same branch is
  chosen.
* `Context.Descends.twins`: the compilation goes on with twins.
-/

namespace AvroResolution

/-! ## Rules -/

/-- The rules are the same but for the places of what they go on with. -/
inductive Reading.Twins : Reading → Reading → Prop
  | atom (type : Atom) : Twins (.atom type) (.atom type)
  | promotion (widening : Promotion) : Twins (.promotion widening) (.promotion widening)
  | enum (writer reader : List String) (default? : Option String) :
      Twins (.enum writer reader default?) (.enum writer reader default?)
  | array {wi ri wi' ri' : Node} (hw : wi.Twins wi') (hr : ri.Twins ri') :
      Twins (.array wi ri) (.array wi' ri')
  | map {wv rv wv' rv' : Node} (hw : wv.Twins wv') (hr : rv.Twins rv') :
      Twins (.map wv rv) (.map wv' rv')
  | records {w r w' r' : RecordNode} (hw : w.Twins w') (hr : r.Twins r') :
      Twins (.records w r) (.records w' r')
  | writerUnion {branches others : List Node} (h : List.Forall₂ Node.Twins branches others) :
      Twins (.writerUnion branches) (.writerUnion others)
  | readerUnion {branches others : List Node} (h : List.Forall₂ Node.Twins branches others) :
      Twins (.readerUnion branches) (.readerUnion others)
  | mismatch (cause : Mismatch) : Twins (.mismatch cause) (.mismatch cause)

namespace Shape.Twins

variable {w w' r r' : Shape} (hw : w.Twins w') (hr : r.Twins r')
include hw hr

/-- Twins are read by one rule. -/
theorem reading : (w.reading r).Twins (w'.reading r') := by
  have hmismatch : Reading.Twins (.mismatch (.types w.typeName r.typeName))
      (.mismatch (.types w'.typeName r'.typeName)) := by
    rw [hw.typeName, hr.typeName]
    exact .mismatch _
  cases hw with
  | union hbranches => cases hr <;> exact .writerUnion hbranches
  | primitive wt =>
    cases hr with
    | primitive rt =>
      simp only [Shape.reading]
      split
      · exact .atom _
      · split
        · exact .promotion _
        · exact .mismatch _
    | union hbranches => exact .readerUnion hbranches
    | _ => exact hmismatch
  | array hitems =>
    cases hr with
    | array hitems' => exact .array hitems hitems'
    | union hbranches => exact .readerUnion hbranches
    | _ => exact hmismatch
  | map hvalues =>
    cases hr with
    | map hvalues' => exact .map hvalues hvalues'
    | union hbranches => exact .readerUnion hbranches
    | _ => exact hmismatch
  | record hrecord =>
    cases hr with
    | record hrecord' => exact .records hrecord hrecord'
    | union hbranches => exact .readerUnion hbranches
    | _ => exact hmismatch
  | enum wh ws unused? =>
    cases hr with
    | enum rh rs default? =>
      simp only [Shape.reading]
      split
      · exact .enum _ _ _
      · exact .mismatch _
    | union hbranches => exact .readerUnion hbranches
    | _ => exact hmismatch
  | fixed wh ws =>
    cases hr with
    | fixed rh rs =>
      simp only [Shape.reading]
      split
      · exact .atom _
      · exact .mismatch _
    | union hbranches => exact .readerUnion hbranches
    | _ => exact hmismatch

/-- Twins are of one type with the same shapes. -/
theorem isOfType : w.isOfType r = w'.isOfType r' := by
  have hkinds : decide (w.kind = r.kind) = decide (w'.kind = r'.kind) := by
    rw [hw.kind, hr.kind]
  have hnames : decide (w.typeName = r.typeName) = decide (w'.typeName = r'.typeName) := by
    rw [hw.typeName, hr.typeName]
  have hboth := congrArg₂ (· && ·) hkinds hnames
  cases hw <;> cases hr <;> first | exact hkinds | exact hboth

end Shape.Twins

theorem Node.Twins.reading? {writer writer' reader reader' : Node} (hwriter : writer.Twins writer')
    (hreader : reader.Twins reader') (context image : Context) :
    Option.Rel Reading.Twins (context.reading? writer reader) (image.reading? writer' reader') := by
  have hw := hwriter.shape? context image
  have hr := hreader.shape? context image
  rw [Context.reading?, Context.reading?]
  generalize context.shape? writer = w?, image.shape? writer' = w'? at hw ⊢
  generalize context.shape? reader = r?, image.shape? reader' = r'? at hr ⊢
  cases hw with
  | none => exact .none
  | some hw =>
    cases hr with
    | none => exact .none
    | some hr => exact .some (hw.reading hr)

/-! ## Fields -/

/-- Everything is at one place. -/
def Revision.placeless : Revision :=
  ⟨fun node => ⟨.writer, 0, node.schema⟩, (·.default?)⟩

theorem Field.Twins.revise {field other : Field Node} (h : field.Twins other) :
    field.revise .placeless = other.revise .placeless := by
  obtain ⟨hname, htype, hdefault, haliases⟩ := h
  simp only [Field.revise, Revision.placeless, hname, htype.schema, hdefault, haliases]

theorem Node.twins_of_placeless {node other : Node} (h : node.schema.references = [])
    (hsame : Revision.placeless.node node = Revision.placeless.node other) : node.Twins other :=
  ⟨(Node.mk.inj hsame).2.2, h⟩

/-- The fields are matched alike. -/
structure Matching.Twins (w w' : RecordNode) (matching other : Matching) : Prop where
  links : ∀ field link, (field, link) ∈ w.fields.zip matching.links →
    ∃ field' link', (field', link') ∈ w'.fields.zip other.links ∧ field.type.Twins field'.type ∧
      Option.Rel (fun reader reader' : ReaderField => reader.field.type.Twins reader'.field.type)
        link link'
  defaulted : ∀ field ∈ matching.defaulted, ∃ field' ∈ other.defaulted,
    field.reader.field.type.Twins field'.reader.field.type

namespace RecordNode.Twins

variable {w w' r r' : RecordNode} (hw : w.Twins w') (hr : r.Twins r')

theorem map_revise (h : w.Twins w') :
    w.fields.map (Field.revise .placeless) = w'.fields.map (Field.revise .placeless) := by
  have hsame : List.Forall₂ (fun field other : Field Node =>
      field.revise .placeless = other.revise .placeless) w.fields w'.fields :=
    h.fields.imp fun _ _ h => h.revise
  rwa [← List.forall₂_map_right_iff, ← List.forall₂_map_left_iff, List.forall₂_eq_eq_eq] at hsame

theorem references (h : w.Twins w') {field : Field Node} (hfield : field ∈ w.fields) :
    field.type.schema.references = [] := by
  obtain ⟨_, _, hfield⟩ := exists_of_forall₂_left h.fields hfield
  exact hfield.type.references

include hw hr

theorem ofFields_revise (config : Config) :
    (Matching.ofFields config w.fields r.fields).map (Matching.revise .placeless) =
      (Matching.ofFields config w'.fields r'.fields).map (Matching.revise .placeless) := by
  have hkeep {w r : RecordNode} : ∀ field ∈ Matching.unmatched
      (Links.ofFields config w.fields r.fields) w.fields r.fields,
      Revision.placeless.default? field.field = field.field.default? := fun _ _ => rfl
  rw [← Matching.ofFields_revise config hkeep, ← Matching.ofFields_revise config hkeep,
    hw.map_revise, hr.map_revise]

theorem ofFields_error {config : Config} {field : String}
    (h : Matching.ofFields config w.fields r.fields = .error field) :
    Matching.ofFields config w'.fields r'.fields = .error field := by
  have hrevised := hw.ofFields_revise hr config
  rw [h] at hrevised
  cases hfound : Matching.ofFields config w'.fields r'.fields with
  | ok matching =>
    rw [hfound] at hrevised
    cases hrevised
  | error other =>
    rw [hfound] at hrevised
    cases hrevised
    rfl

theorem ofFields {config : Config} {matching : Matching}
    (h : Matching.ofFields config w.fields r.fields = .ok matching) :
    ∃ other, Matching.ofFields config w'.fields r'.fields = .ok other ∧
      matching.Twins w w' other := by
  have hrevised := hw.ofFields_revise hr config
  rw [h] at hrevised
  cases hfound : Matching.ofFields config w'.fields r'.fields with
  | error field =>
    rw [hfound] at hrevised
    cases hrevised
  | ok other =>
    rw [hfound] at hrevised
    have hsame : matching.revise .placeless = other.revise .placeless := Except.ok.inj hrevised
    have hreader {reader : ReaderField} (hmem : reader ∈ ReaderField.ofFields r.fields) :
        reader.field.type.schema.references = [] :=
      hr.references (List.mem_of_getElem? (ReaderField.mem_ofFields.1 hmem))
    refine ⟨other, rfl, fun field link hlinked => ?_, fun field hfield => ?_⟩
    · have hmem := Links.mem_zip_revise .placeless hlinked
      have hlinks : matching.links.revise .placeless = other.links.revise .placeless :=
        congrArg Matching.links hsame
      rw [hw.map_revise, hlinks, Links.revise, List.zip_map] at hmem
      obtain ⟨⟨field', link'⟩, hmem, hboth⟩ := List.mem_map.1 hmem
      obtain ⟨htype, hlink⟩ := Prod.mk.inj hboth
      have htype : field.type.Twins field'.type :=
        Node.twins_of_placeless (hw.references (List.of_mem_zip hlinked).1)
          (congrArg Field.type htype).symm
      refine ⟨field', link', hmem, htype, ?_⟩
      rcases link with _ | reader <;> rcases link' with _ | reader'
      · exact .none
      · cases hlink
      · cases hlink
      · have hsource := hreader (Matching.mem_of_linked h hlinked)
        have htypes := congrArg (fun reader => reader.field.type) (Option.some.inj hlink)
        exact .some (Node.twins_of_placeless hsource htypes.symm)
    · have hmem : field.revise .placeless ∈ other.defaulted.map (.revise .placeless) := by
        have hdefaulted : matching.defaulted.map (.revise .placeless) =
            other.defaulted.map (DefaultedField.revise .placeless) :=
          congrArg Matching.defaulted hsame
        rw [← hdefaulted]
        exact List.mem_map_of_mem hfield
      obtain ⟨field', hfield', hsame⟩ := List.mem_map.1 hmem
      have htypes := congrArg (fun field => field.reader.field.type) hsame
      exact ⟨field', hfield', Node.twins_of_placeless
        (hreader (Matching.mem_of_defaulted h hfield)) htypes.symm⟩

/-- Two fields that are linked have twins that are. -/
theorem linked {config : Config} {matching : Matching} {field : Field Node} {link : ReaderField}
    (h : Matching.ofFields config w.fields r.fields = .ok matching)
    (hlinked : (field, some link) ∈ w.fields.zip matching.links) :
    ∃ matching' field' link', Matching.ofFields config w'.fields r'.fields = .ok matching' ∧
      (field', some link') ∈ w'.fields.zip matching'.links ∧ field.type.Twins field'.type ∧
        link.field.type.Twins link'.field.type := by
  obtain ⟨matching', hmatching', htwins⟩ := hw.ofFields hr h
  obtain ⟨field', _, hlinked', hfield, hlink⟩ := htwins.links field (some link) hlinked
  cases hlink with
  | @some _ link' hlink => exact ⟨matching', field', link', hmatching', hlinked', hfield, hlink⟩

end RecordNode.Twins

/-! ## Branches -/

/-- The branches are at one place of their unions. -/
def BranchTwins (candidate other : Node × Nat) : Prop :=
  candidate.1.Twins other.1 ∧ candidate.2 = other.2

theorem BranchTwins.symm {candidate other : Node × Nat} (h : BranchTwins candidate other) :
    BranchTwins other candidate :=
  ⟨h.1.symm, h.2.symm⟩

theorem branchTwins_zipIdx {branches others : List Node}
    (h : List.Forall₂ Node.Twins branches others) :
    List.Forall₂ BranchTwins branches.zipIdx others.zipIdx :=
  forall₂_zipIdx h 0

namespace BranchTwins

variable {context image : Context} {w w' : Shape} {candidate other : Node × Nat}

theorem recordAt? (h : BranchTwins candidate other) :
    Option.Rel RecordNode.Twins (context.recordAt? candidate) (image.recordAt? other) := by
  have hshape := h.1.shape? context image
  rw [Context.recordAt?, Context.recordAt?]
  generalize context.shape? candidate.1 = shape?, image.shape? other.1 = shape'? at hshape ⊢
  cases hshape with
  | none => exact .none
  | some hshape =>
    cases hshape with
    | record hrecord => exact .some hrecord
    | _ => exact .none

theorem isOfType (hw : w.Twins w') (h : BranchTwins candidate other) :
    context.isOfType w candidate = image.isOfType w' other := by
  have hshape := h.1.shape? context image
  rw [Context.isOfType, Context.isOfType]
  generalize context.shape? candidate.1 = shape?, image.shape? other.1 = shape'? at hshape ⊢
  cases hshape with
  | none => rfl
  | some hshape => exact hw.isOfType hshape

theorem isPromoted (hw : w.Twins w') (h : BranchTwins candidate other) :
    context.isPromoted w candidate = image.isPromoted w' other := by
  have hshape := h.1.shape? context image
  rw [Context.isPromoted, Context.isPromoted]
  generalize context.shape? candidate.1 = shape?, image.shape? other.1 = shape'? at hshape ⊢
  cases hshape with
  | none => rfl
  | some hshape => rw [Option.any_some, Option.any_some, hw.kind, hshape.kind]

theorem sharesName (hw : w.Twins w') (h : BranchTwins candidate other) :
    context.sharesName w candidate = image.sharesName w' other := by
  cases hw with
  | @record record record' hrecord =>
    have hfound : Option.Rel RecordNode.Twins (context.recordAt? candidate)
        (image.recordAt? other) := h.recordAt?
    simp only [Context.sharesName]
    generalize context.recordAt? candidate = found?, image.recordAt? other = found'? at hfound ⊢
    cases hfound with
    | none => rfl
    | some hfound => rw [Option.any_some, Option.any_some, hrecord.heading, hfound.heading]
  | _ => rfl

end BranchTwins

/-- The same branch is picked. -/
theorem Shape.Twins.pick {w w' : Shape} (hw : w.Twins w') (context image : Context)
    {candidates others kept kept' : List (Node × Nat)}
    (hcandidates : List.Forall₂ BranchTwins candidates others)
    (hkept : List.Forall₂ BranchTwins kept kept') :
    Option.Rel BranchTwins (context.pick w candidates kept) (image.pick w' others kept') := by
  rw [Context.pick, Context.pick]
  refine rel_or (rel_find? hcandidates fun _ _ h => h.isOfType hw) ?_
  refine rel_or (rel_getLast? (List.rel_filter (fun _ _ h =>
    Bool.eq_iff_iff.1 (h.sharesName hw)) hkept)) ?_
  exact rel_or (rel_head? hkept) (rel_find? hcandidates fun _ _ h => h.isPromoted hw)

/-! ## Records that fit -/

/-- Records that do not fit have twins that do not.  The induction is on the reason why they do
not. -/
theorem Context.Misfit.twins {context image : Context} (hconfig : image.config = context.config)
    {w r : RecordNode} (hmisfit : context.Misfit w r) {w' r' : RecordNode} (hw : w.Twins w')
    (hr : r.Twins r') : image.Misfit w' r' := by
  induction hmisfit generalizing w' r' with
  | missing hmissing =>
    have hmissing' := hw.ofFields_error hr hmissing
    rw [← hconfig] at hmissing'
    exact .missing hmissing'
  | types hmatching hlinked hreading =>
    obtain ⟨matching', field', link', hmatching', hlinked', hfield, hlink⟩ :=
      hw.linked hr hmatching hlinked
    rw [← hconfig] at hmatching'
    obtain ⟨_, hreading', hrule⟩ :=
      exists_of_rel (hfield.reading? hlink context image) hreading
    cases hrule
    exact .types hmatching' hlinked' hreading'
  | records hmatching hlinked hreading hmissing =>
    obtain ⟨matching', field', link', hmatching', hlinked', hfield, hlink⟩ :=
      hw.linked hr hmatching hlinked
    rw [← hconfig] at hmatching'
    obtain ⟨_, hreading', hrule⟩ :=
      exists_of_rel (hfield.reading? hlink context image) hreading
    cases hrule with
    | records hinner hinner' =>
      have hmissing' := hinner.ofFields_error hinner' hmissing
      rw [← hconfig] at hmissing'
      exact .records hmatching' hlinked' hreading' hmissing'
  | branches hmatching hlinked hreading hshape hnone hmisfits ih =>
    obtain ⟨matching', field', link', hmatching', hlinked', hfield, hlink⟩ :=
      hw.linked hr hmatching hlinked
    rw [← hconfig] at hmatching'
    obtain ⟨_, hreading', hrule⟩ :=
      exists_of_rel (hfield.reading? hlink context image) hreading
    obtain ⟨shape', hshape', htwins⟩ := exists_of_rel (hfield.shape? context image) hshape
    cases hrule with
    | readerUnion hbranches =>
      have hcandidates := branchTwins_zipIdx hbranches
      have hpick := htwins.pick context image hcandidates .nil
      rw [hnone] at hpick
      refine .branches hmatching' hlinked' hreading' hshape' ?_ ?_
      · generalize image.pick _ _ _ = picked at hpick ⊢
        cases hpick
        rfl
      · rintro candidate' hcandidate' inner inner' rfl hinner'
        obtain ⟨candidate, hcandidate, hbranch⟩ := exists_of_forall₂_right hcandidates hcandidate'
        cases htwins with
        | record hinner =>
          obtain ⟨_, hfound, hsame⟩ := exists_of_rel_right hbranch.recordAt? hinner'
          exact ih candidate hcandidate _ _ rfl hfound hinner hsame

namespace Shape.Twins

variable {context image : Context} (hconfig : image.config = context.config) {w w' : Shape}
  (hw : w.Twins w')
include hconfig hw

theorem fits {candidate other : Node × Nat} (h : BranchTwins candidate other)
    (hfits : context.Fits w candidate) : image.Fits w' other := by
  obtain ⟨record, branch, rfl, hbranch, hfits⟩ := hfits
  obtain ⟨branch', hbranch', hsame⟩ := exists_of_rel h.recordAt? hbranch
  cases hw with
  | record hrecord =>
    exact ⟨_, branch', rfl, hbranch', fun hmisfit =>
      hfits (hmisfit.twins hconfig.symm hrecord.symm hsame.symm)⟩

/-- The same branch is chosen. -/
theorem choice {branches others : List Node} (h : List.Forall₂ Node.Twins branches others) :
    Option.Rel BranchTwins (context.choice w branches) (image.choice w' others) := by
  have hcandidates := branchTwins_zipIdx h
  refine hw.pick context image hcandidates ?_
  rw [Context.fitting, Context.fitting]
  refine List.rel_filter (fun candidate other hbranch => ?_) hcandidates
  simp only [decide_eq_true_eq]
  exact ⟨hw.fits hconfig hbranch, hw.symm.fits hconfig.symm hbranch.symm⟩

end Shape.Twins

/-! ## What is gone on with -/

/-- Twins are gone on with at twins, where no branch is chosen. -/
theorem Context.Descends.twins {context image : Context} (hconfig : image.config = context.config)
    {writer reader writer' reader' : Node} {other : Node × Node}
    (hdescends : context.Descends (writer, reader) other) (hw : writer.Twins writer')
    (hr : reader.Twins reader')
    (hunion : ∀ branches, context.reading? writer reader ≠ some (.readerUnion branches)) :
    ∃ other', image.Descends (writer', reader') other' ∧ other.1.Twins other'.1 ∧
      other.2.Twins other'.2 := by
  have hrules := hw.reading? hr context image
  cases hdescends with
  | items hreading =>
    obtain ⟨_, hreading', hrule⟩ := exists_of_rel hrules hreading
    cases hrule with
    | array hwi hri => exact ⟨_, .items hreading', hwi, hri⟩
  | values hreading =>
    obtain ⟨_, hreading', hrule⟩ := exists_of_rel hrules hreading
    cases hrule with
    | map hwv hrv => exact ⟨_, .values hreading', hwv, hrv⟩
  | linked hreading hmatching hlinked =>
    obtain ⟨_, hreading', hrule⟩ := exists_of_rel hrules hreading
    cases hrule with
    | records hrecord hrecord' =>
      obtain ⟨matching', field', link', hmatching', hlinked', hfield, hlink⟩ :=
        hrecord.linked hrecord' hmatching hlinked
      rw [← hconfig] at hmatching'
      exact ⟨_, .linked hreading' hmatching' hlinked', hfield, hlink⟩
  | skipped hreading hmatching hskipped =>
    obtain ⟨_, hreading', hrule⟩ := exists_of_rel hrules hreading
    cases hrule with
    | records hrecord hrecord' =>
      obtain ⟨matching', hmatching', htwins⟩ := hrecord.ofFields hrecord' hmatching
      obtain ⟨field', _, hskipped', hfield, hnone⟩ := htwins.links _ _ hskipped
      cases hnone
      rw [← hconfig] at hmatching'
      exact ⟨_, .skipped hreading' hmatching' hskipped', hfield, hfield⟩
  | filled hreading hmatching hfilled =>
    obtain ⟨_, hreading', hrule⟩ := exists_of_rel hrules hreading
    cases hrule with
    | records hrecord hrecord' =>
      obtain ⟨matching', hmatching', htwins⟩ := hrecord.ofFields hrecord' hmatching
      obtain ⟨field', hfilled', hfield⟩ := htwins.defaulted _ hfilled
      rw [← hconfig] at hmatching'
      exact ⟨_, .filled hreading' hmatching' hfilled', hfield, hfield⟩
  | alternatives hreading hbranch =>
    obtain ⟨_, hreading', hrule⟩ := exists_of_rel hrules hreading
    cases hrule with
    | writerUnion hbranches =>
      obtain ⟨branch', hbranch', htwins⟩ := exists_of_forall₂_left hbranches hbranch
      exact ⟨_, .alternatives hreading' hbranch', htwins, hr⟩
  | branches hreading => exact absurd hreading (hunion _)

end AvroResolution
