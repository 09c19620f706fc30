import AvroResolution.Proofs.Compilation.Revision

/-!
# The choice of a branch in revised trees

The branch of the reader's union that the rules choose depends on the types of the writer and
on the defaults of the reader.  A revision that leaves the reader's tree as it is changes no
choice.

* `Revision.KeepsReader` says that a revision does so.
* `Context.Revises.misfit_iff`: the same records fit.
* `Context.Revises.choice`: the same branch is chosen.
-/

namespace AvroResolution

/-- The revision leaves the reader's tree as it is. -/
structure Revision.KeepsReader (revision : Revision) : Prop where
  side : ∀ node : Node, (revision.node node).side = node.side
  node : ∀ node : Node, node.side = .reader → revision.node node = node
  default? : ∀ field : Field Node, field.type.side = .reader →
    revision.default? field = field.default?

theorem Links.of_mem_zip_revise {revision : Revision} {fields : List (Field Node)}
    {links : Links} {field : Field Node} {link : ReaderField}
    (hlinked : (field, some link) ∈
      (fields.map (Field.revise revision)).zip (links.revise revision)) :
    ∃ source link', (source, some link') ∈ fields.zip links ∧
      field = source.revise revision ∧ link = link'.revise revision := by
  rw [Links.revise, List.zip_map] at hlinked
  obtain ⟨⟨source, link?⟩, hmem, hsame⟩ := List.mem_map.1 hlinked
  injection hsame with hfield hlink
  obtain ⟨link', rfl, rfl⟩ := Option.map_eq_some_iff.1 hlink
  exact ⟨source, link', hmem, hfield.symm, rfl⟩

theorem Shape.record_of_revise {revision : Revision} {shape : Shape} {record : RecordNode}
    (h : shape.revise revision = .named (.record record)) :
    ∃ source, shape = .named (.record source) ∧ record = source.revise revision := by
  cases shape with
  | named definition =>
    cases definition <;> cases h
    exact ⟨_, rfl, rfl⟩
  | _ => cases h

namespace Context.Revises

variable {revision : Revision} {context image : Context} (h : context.Revises revision image)
include h

theorem of_reading? {writer reader : Node} {reading' : Reading}
    (hreading : image.reading? (revision.node writer) (revision.node reader) = some reading') :
    ∃ reading, context.reading? writer reader = some reading ∧
      reading.revise revision = reading' := by
  rw [h.reading?] at hreading
  exact Option.map_eq_some_iff.1 hreading

/-! ## Picking -/

theorem sharesName (writer : Shape) (candidate : Node × Nat) :
    image.sharesName (writer.revise revision) (revision.branch candidate) =
      context.sharesName writer candidate := by
  cases writer with
  | named definition =>
    cases definition with
    | record w =>
      simp only [Shape.revise, Definition.revise, Context.sharesName, h.recordAt?,
        Option.any_map]
      rfl
    | _ => rfl
  | _ => rfl

theorem pick (writer : Shape) (candidates kept : List (Node × Nat)) :
    image.pick (writer.revise revision) (candidates.map revision.branch)
        (kept.map revision.branch) =
      (context.pick writer candidates kept).map revision.branch := by
  have htype : image.isOfType (writer.revise revision) ∘ revision.branch =
      context.isOfType writer := funext (h.isOfType writer)
  have hname : image.sharesName (writer.revise revision) ∘ revision.branch =
      context.sharesName writer := funext (h.sharesName writer)
  have hpromoted : image.isPromoted (writer.revise revision) ∘ revision.branch =
      context.isPromoted writer := funext (h.isPromoted writer)
  rw [Context.pick, Context.pick, List.find?_map, htype, List.filter_map, hname,
    List.getLast?_map, List.head?_map, List.find?_map, hpromoted, Option.map_or, Option.map_or,
    Option.map_or]

end Context.Revises

/-! ## Records that fit -/

namespace Context

/-- A record of one of the trees, and one of the reader's tree. -/
structure Faces (context : Context) (w r : RecordNode) : Prop where
  writer : context.Defines w
  reader : context.Defines r
  side : r.id.side = .reader

namespace Faces

variable {context : Context} {w r inner inner' : RecordNode} {matching : Matching}
  {field : Field Node} {link : ReaderField} (h : context.Faces w r)
  (hmatching : Matching.ofFields context.config w.fields r.fields = .ok matching)
  (hlinked : (field, some link) ∈ w.fields.zip matching.links)
include h hmatching hlinked

theorem fields : context.Holds field.type ∧ context.Holds link.field.type ∧
    link.field.type.side = .reader := by
  have hlink := List.mem_of_getElem?
    (ReaderField.mem_ofFields.1 (Matching.mem_of_linked hmatching hlinked))
  obtain ⟨hholds, hside⟩ := h.reader.field hlink
  exact ⟨(h.writer.field (List.of_mem_zip hlinked).1).1, hholds, hside.trans h.side⟩

theorem records
    (hreading : context.reading? field.type link.field.type = some (.records inner inner')) :
    context.Faces inner inner' := by
  obtain ⟨hfield, hlink, hside⟩ := h.fields hmatching hlinked
  obtain ⟨hinner, hinner'⟩ := holds_of_reading hfield hlink hreading
  exact ⟨hinner, hinner', (side_of_reading hlink hreading).trans hside⟩

theorem branch {branches : List Node} {candidate : Node × Nat}
    (hreading : context.reading? field.type link.field.type = some (.readerUnion branches))
    (hcandidate : candidate ∈ branches.zipIdx)
    (hinner : context.shape? field.type = some (.named (.record inner)))
    (hinner' : context.recordAt? candidate = some inner') : context.Faces inner inner' := by
  obtain ⟨hfield, hlink, hside⟩ := h.fields hmatching hlinked
  have hmem := List.fst_mem_of_mem_zipIdx hcandidate
  have hholds := holds_of_reading hfield hlink hreading candidate.1 hmem
  obtain ⟨hdefines, hsame⟩ := hholds.record (recordAt?_eq_some.1 hinner')
  have hbranch := side_of_reading hlink hreading candidate.1 hmem
  exact ⟨(hfield.record hinner).1, hdefines, hsame.trans (hbranch.trans hside)⟩

end Faces

namespace Revises

variable {revision : Revision} {context image : Context} (h : context.Revises revision image)
  (hkeep : revision.KeepsReader)
include h hkeep

/-- The fields of a reader's record are matched alike. -/
theorem ofFields {w r : RecordNode} (hfaces : context.Faces w r) :
    Matching.ofFields image.config (w.revise revision).fields (r.revise revision).fields =
      (Matching.ofFields context.config w.fields r.fields).map (Matching.revise revision) := by
  rw [h.config]
  refine Matching.ofFields_revise context.config fun field hfield =>
    hkeep.default? _ ?_
  have hmem := List.mem_of_getElem? (ReaderField.mem_ofFields.1 (Matching.mem_unmatched.1 hfield).1)
  exact (hfaces.reader.field hmem).2.trans hfaces.side

theorem ofFields_eq_ok {w r : RecordNode} {matching : Matching} (hfaces : context.Faces w r)
    (hmatching : Matching.ofFields context.config w.fields r.fields = .ok matching) :
    Matching.ofFields image.config (w.revise revision).fields (r.revise revision).fields =
      .ok (matching.revise revision) := by
  rw [h.ofFields hkeep hfaces, hmatching]
  rfl

theorem ofFields_eq_error {w r : RecordNode} {field : String} (hfaces : context.Faces w r) :
    Matching.ofFields image.config (w.revise revision).fields (r.revise revision).fields =
      .error field ↔
        Matching.ofFields context.config w.fields r.fields = .error field := by
  rw [h.ofFields hkeep hfaces]
  cases Matching.ofFields context.config w.fields r.fields with
  | error other => exact Iff.rfl
  | ok matching => exact ⟨nofun, nofun⟩

theorem of_ofFields {w r : RecordNode} {matching' : Matching} (hfaces : context.Faces w r)
    (hmatching : Matching.ofFields image.config (w.revise revision).fields
      (r.revise revision).fields = .ok matching') :
    ∃ matching, Matching.ofFields context.config w.fields r.fields = .ok matching ∧
      matching' = matching.revise revision := by
  rw [h.ofFields hkeep hfaces] at hmatching
  cases hfound : Matching.ofFields context.config w.fields r.fields with
  | error field =>
    rw [hfound] at hmatching
    cases hmatching
  | ok matching =>
    rw [hfound] at hmatching
    cases hmatching
    exact ⟨matching, rfl, rfl⟩

/-- Records that do not fit do not fit when they are revised.  The induction is on the reason
why they do not. -/
theorem misfit {w r : RecordNode} (hfaces : context.Faces w r) (hmisfit : context.Misfit w r) :
    image.Misfit (w.revise revision) (r.revise revision) := by
  have hreads {writer reader : Node} {reading : Reading}
      (hreading : context.reading? writer reader = some reading) :
      image.reading? (revision.node writer) (revision.node reader) =
        some (reading.revise revision) := by
    rw [h.reading?, hreading, Option.map_some]
  induction hmisfit with
  | missing hmissing => exact .missing ((h.ofFields_eq_error hkeep hfaces).2 hmissing)
  | types hmatching hlinked hreading =>
    exact .types (h.ofFields_eq_ok hkeep hfaces hmatching) (Links.mem_zip_revise revision hlinked)
      (hreads hreading)
  | records hmatching hlinked hreading hmissing =>
    have hinner := hfaces.records hmatching hlinked hreading
    exact .records (h.ofFields_eq_ok hkeep hfaces hmatching)
      (Links.mem_zip_revise revision hlinked) (hreads hreading)
      ((h.ofFields_eq_error hkeep hinner).2 hmissing)
  | @branches w r matching field link shape branches hmatching hlinked hreading hshape hnone _
      ih =>
    refine .branches (h.ofFields_eq_ok hkeep hfaces hmatching)
      (Links.mem_zip_revise revision hlinked) (hreads hreading)
      ((h.shape? field.type).trans (congrArg _ hshape)) ?_ ?_
    · have hpick := h.pick shape branches.zipIdx []
      rw [hnone] at hpick
      rw [Revision.zipIdx_branches]
      exact hpick
    · intro candidate hcandidate inner inner' hinner hinner'
      rw [Revision.zipIdx_branches] at hcandidate
      obtain ⟨source, hsource, rfl⟩ := List.mem_map.1 hcandidate
      rw [h.recordAt?] at hinner'
      obtain ⟨found', hfound', rfl⟩ := Option.map_eq_some_iff.1 hinner'
      obtain ⟨found, rfl, rfl⟩ := Shape.record_of_revise hinner
      exact ih source hsource found found' rfl hfound'
        (hfaces.branch hmatching hlinked hreading hsource hshape hfound')

/-- Revised records that do not fit do not fit as they were. -/
theorem of_misfit {w r : RecordNode} (hfaces : context.Faces w r)
    (hmisfit : image.Misfit (w.revise revision) (r.revise revision)) : context.Misfit w r := by
  generalize hw : w.revise revision = w' at hmisfit
  generalize hr : r.revise revision = r' at hmisfit
  induction hmisfit generalizing w r with
  | missing hmissing =>
    subst hw hr
    exact .missing ((h.ofFields_eq_error hkeep hfaces).1 hmissing)
  | types hmatching' hlinked' hreading' =>
    subst hw hr
    obtain ⟨matching, hmatching, rfl⟩ := h.of_ofFields hkeep hfaces hmatching'
    obtain ⟨field, link, hlinked, rfl, rfl⟩ := Links.of_mem_zip_revise hlinked'
    obtain ⟨reading, hreading, hrevised⟩ := h.of_reading? hreading'
    cases reading <;> cases hrevised
    exact .types hmatching hlinked hreading
  | records hmatching' hlinked' hreading' hmissing' =>
    subst hw hr
    obtain ⟨matching, hmatching, rfl⟩ := h.of_ofFields hkeep hfaces hmatching'
    obtain ⟨field, link, hlinked, rfl, rfl⟩ := Links.of_mem_zip_revise hlinked'
    obtain ⟨reading, hreading, hrevised⟩ := h.of_reading? hreading'
    cases reading <;> cases hrevised
    have hinner := hfaces.records hmatching hlinked hreading
    exact .records hmatching hlinked hreading ((h.ofFields_eq_error hkeep hinner).1 hmissing')
  | branches hmatching' hlinked' hreading' hshape' hnone' _ ih =>
    subst hw hr
    obtain ⟨matching, hmatching, rfl⟩ := h.of_ofFields hkeep hfaces hmatching'
    obtain ⟨field, link, hlinked, rfl, rfl⟩ := Links.of_mem_zip_revise hlinked'
    obtain ⟨reading, hreading, hrevised⟩ := h.of_reading? hreading'
    obtain ⟨shape, hshape, rfl⟩ :=
      Option.map_eq_some_iff.1 ((h.shape? field.type).symm.trans hshape')
    cases reading with
    | readerUnion branches =>
      cases hrevised
      rw [Revision.zipIdx_branches] at hnone' ih
      have hpick := h.pick shape branches.zipIdx []
      rw [List.map_nil, hnone'] at hpick
      refine .branches hmatching hlinked hreading hshape (Option.map_eq_none_iff.1 hpick.symm) ?_
      intro candidate hcandidate inner inner' hinner hinner'
      subst hinner
      exact ih _ (List.mem_map_of_mem hcandidate) _ _ rfl (by rw [h.recordAt?, hinner']; rfl)
        (hfaces.branch hmatching hlinked hreading hcandidate hshape hinner') rfl rfl
    | _ => cases hrevised

/-- The same records fit. -/
theorem misfit_iff {w r : RecordNode} (hfaces : context.Faces w r) :
    image.Misfit (w.revise revision) (r.revise revision) ↔ context.Misfit w r :=
  ⟨h.of_misfit hkeep hfaces, h.misfit hkeep hfaces⟩

/-- The same branch is chosen. -/
theorem choice {writer reader : Node} {shape : Shape} {branches : List Node}
    (hwriter : context.Holds writer) (hreader : context.Holds reader)
    (hside : reader.side = .reader) (hshape : context.shape? writer = some shape)
    (hreading : context.reading? writer reader = some (.readerUnion branches)) :
    image.choice (shape.revise revision) (branches.map revision.node) =
      (context.choice shape branches).map revision.branch := by
  have hfits : ∀ candidate ∈ branches.zipIdx,
      (image.Fits (shape.revise revision) (revision.branch candidate) ↔
        context.Fits shape candidate) := by
    intro candidate hcandidate
    have hmem := List.fst_mem_of_mem_zipIdx hcandidate
    have hholds := holds_of_reading hwriter hreader hreading candidate.1 hmem
    have hbranch := (side_of_reading hreader hreading candidate.1 hmem).trans hside
    have hfaces {w r : RecordNode} (hw : shape = .named (.record w))
        (hr : context.recordAt? candidate = some r) : context.Faces w r := by
      subst hw
      obtain ⟨hdefines, hsame⟩ := hholds.record (recordAt?_eq_some.1 hr)
      exact ⟨(hwriter.record hshape).1, hdefines, hsame.trans hbranch⟩
    constructor
    · rintro ⟨w', r', hw', hr', hfits⟩
      rw [h.recordAt?] at hr'
      obtain ⟨r, hr, rfl⟩ := Option.map_eq_some_iff.1 hr'
      obtain ⟨w, hw, rfl⟩ := Shape.record_of_revise hw'
      exact ⟨w, r, hw, hr, fun hmisfit =>
        hfits ((h.misfit_iff hkeep (hfaces hw hr)).2 hmisfit)⟩
    · rintro ⟨w, r, hw, hr, hfits⟩
      refine ⟨_, _, by rw [hw]; rfl, by rw [h.recordAt?, hr]; rfl, fun hmisfit => hfits ?_⟩
      exact (h.misfit_iff hkeep (hfaces hw hr)).1 hmisfit
  have hfitting : image.fitting (shape.revise revision) (branches.zipIdx.map revision.branch) =
      (context.fitting shape branches.zipIdx).map revision.branch := by
    rw [Context.fitting, Context.fitting, List.filter_map]
    refine congrArg (List.map revision.branch) (List.filter_congr fun candidate hcandidate => ?_)
    exact decide_eq_decide.2 (hfits candidate hcandidate)
  rw [Context.choice, Context.choice, Revision.zipIdx_branches, hfitting, h.pick]

end Revises

end Context

end AvroResolution
