import AvroResolution.Proofs.Compilation.Itself
import AvroResolution.Proofs.Resolution.Undefaulted

/-!
# Unions whose branches are apart

Data of the writer that is dropped is compiled as data that is read as its own type, so that
the branches of a union are compared with each other.

* `Schema.apart` says that no branch of a union can be taken for another one.
* `Context.OwnPair` are the pairs of nodes of the writer's tree that are then met.
  `Context.OwnPair.descends` is the step from a pair to the pairs below.
* `Context.fillsReaderOnly_of_apart`: no field of the writer's tree is filled from its default,
  whatever the reader is.
-/

namespace AvroResolution

/-! ## Branches that are apart -/

/-- Whether data of the one type may be read as the other one at first sight: they are of one
type, or both are records. -/
def Shape.resembles (shape other : Shape) : Bool :=
  shape.isOfType other || (shape.kind = .record && other.kind = .record)

theorem Shape.resembles_comm (shape other : Shape) :
    shape.resembles other = other.resembles shape := by
  rw [resembles, resembles, isOfType_comm, Bool.and_comm]

namespace Registry

/-- If the shape is a union, no branch is a union and no two branches resemble each other. -/
def branchesApart (registry : Registry) : Shape → Bool
  | .union branches =>
    let shapes := branches.filterMap registry.shape?
    shapes.all (fun shape => shape.kind ≠ .union) &&
      decide (shapes.Pairwise fun shape later => shape.resembles later = false)
  | _ => true

/-- Whether the names of fields and the branches of unions are apart. -/
def apart (registry : Registry) (shape : Shape) : Bool :=
  shape.fieldsDistinct && registry.branchesApart shape

end Registry

/-- Whether all types of a schema are apart. -/
def Schema.apart (schema : Schema) : Bool :=
  let root := Node.root .writer schema
  root.everyShape (Registry.ofRoot root).apart

namespace Registry

variable {registry : Registry} {branches : List Node} {shape found : Shape}
  (h : registry.branchesApart (.union branches) = true)
include h

theorem kind_ne_union_of_apart {branch : Node} (hbranch : branch ∈ branches)
    (hshape : registry.shape? branch = some shape) : shape.kind ≠ .union := by
  simp only [branchesApart, Bool.and_eq_true] at h
  have hmem : shape ∈ branches.filterMap registry.shape? :=
    List.mem_filterMap.2 ⟨branch, hbranch, hshape⟩
  exact of_decide_eq_true (List.all_eq_true.1 h.1 shape hmem)

/-- Branches that resemble each other are one. -/
theorem eq_of_resembles {branch other : Node} (hbranch : branch ∈ branches)
    (hother : other ∈ branches) (hshape : registry.shape? branch = some shape)
    (hfound : registry.shape? other = some found) (hresembles : shape.resembles found = true) :
    branch = other := by
  simp only [branchesApart, Bool.and_eq_true, decide_eq_true_eq] at h
  have hpairs := List.pairwise_iff_getElem.1 (List.pairwise_filterMap.1 h.2)
  obtain ⟨first, hfirst, rfl⟩ := List.mem_iff_getElem.1 hbranch
  obtain ⟨second, hsecond, rfl⟩ := List.mem_iff_getElem.1 hother
  rcases Nat.lt_trichotomy first second with hlt | rfl | hlt
  · have hnot := hpairs first second hfirst hsecond hlt shape hshape found hfound
    rw [hresembles] at hnot
    cases hnot
  · rfl
  · have hnot := hpairs second first hsecond hfirst hlt found hfound shape hshape
    rw [Shape.resembles_comm, hresembles] at hnot
    cases hnot

end Registry

/-! ## Pairs of one tree -/

theorem Shape.eq_primitive {shape : Shape} {type : Primitive} (h : shape.kind = .primitive type) :
    shape = .primitive type := by
  cases shape with
  | primitive other => exact congrArg Shape.primitive (Kind.primitive.inj h)
  | named definition => cases definition <;> cases h
  | _ => cases h

/-- The fields of a record whose names are apart are linked to themselves. -/
theorem Matching.linked_self {config : Config} {fields : List (Field Node)} {matching : Matching}
    (hdistinct : (fields.map (·.name)).Nodup)
    (hmatching : Matching.ofFields config fields fields = .ok matching) :
    matching.defaulted = [] ∧ ∀ field link?, (field, link?) ∈ fields.zip matching.links →
      ∃ index, link? = some ⟨index, field⟩ := by
  cases hmatching.symm.trans (ofFields_of_names config rfl hdistinct)
  refine ⟨rfl, fun field link? hmem => ?_⟩
  obtain ⟨index, hlt, hget⟩ := List.mem_iff_getElem.1 hmem
  simp only [List.getElem_zip, List.getElem_map, ReaderField.ofFields, List.getElem_zipIdx] at hget
  cases hget
  exact ⟨_, rfl⟩

namespace Context

/-- A pair that is met where a node is read as itself. -/
inductive OwnPair (context : Context) : Node × Node → Prop
  | itself (node : Node) : OwnPair context (node, node)
  | branch {branch union : Node} {branches : List Node}
      (hunion : context.shape? union = some (.union branches)) (hbranch : branch ∈ branches) :
      OwnPair context (branch, union)
  | primitives {writer reader : Node} {wt rt : Primitive}
      (hwriter : context.shape? writer = some (.primitive wt))
      (hreader : context.shape? reader = some (.primitive rt)) : OwnPair context (writer, reader)

namespace OwnPair

variable {context : Context} {root : Node} {pair other : Node × Node}

theorem eq_of_records {w r : RecordNode} (h : context.OwnPair pair)
    (hreading : context.reading? pair.1 pair.2 = some (.records w r)) : w = r := by
  obtain ⟨_, _, hw, hr, hrule⟩ := rule_of_reading? hreading
  cases hrule
  cases h with
  | itself node => cases hw.symm.trans hr; rfl
  | branch hunion => cases hunion.symm.trans hr
  | primitives hwriter => cases hwriter.symm.trans hw

variable (hspans : context.Spans [root])
  (htests : root.everyShape (Registry.ofRoot root).apart = true)
include hspans htests

/-- A branch that is considered is the branch that is read, or is reached by a promotion. -/
theorem of_considers {branch union : Node} {branches : List Node} {candidate : Node × Nat}
    {shape : Shape} (hnode : union ∈ Node.forest [root])
    (hunion : context.shape? union = some (.union branches)) (hbranch : branch ∈ branches)
    (hcandidate : candidate.1 ∈ branches) (hshape : context.shape? branch = some shape)
    (hconsiders : context.Considers shape candidate) :
    context.OwnPair (branch, candidate.1) := by
  have hapart := hspans.of_everyShape htests hnode hunion
  simp only [Registry.apart, Bool.and_eq_true] at hapart
  have hsame {found : Shape} (hfound : context.shape? candidate.1 = some found)
      (hresembles : shape.resembles found = true) : context.OwnPair (branch, candidate.1) := by
    rw [hspans.shape?_eq (hspans.part hnode hunion hbranch)] at hshape
    rw [hspans.shape?_eq (hspans.part hnode hunion hcandidate)] at hfound
    rw [← Registry.eq_of_resembles hapart.2 hbranch hcandidate hshape hfound hresembles]
    exact .itself branch
  rcases hconsiders with htype | ⟨w, r, rfl, hr⟩ | hpromoted
  · obtain ⟨found, hfound, htype⟩ := (Option.any_eq_true _ _).1 htype
    exact hsame hfound (by rw [Shape.resembles, htype, Bool.true_or])
  · exact hsame (recordAt?_eq_some.1 hr) (by rw [Shape.resembles]; exact Bool.or_true _)
  · obtain ⟨found, hfound, hpromotion⟩ := (Option.any_eq_true _ _).1 hpromoted
    obtain ⟨promotion, hbetween, _⟩ := (Option.any_eq_true _ _).1 hpromotion
    obtain ⟨hw, hr⟩ := Shape.kinds_of_between? hbetween
    obtain rfl := Shape.eq_primitive hw
    obtain rfl := Shape.eq_primitive hr
    exact .primitives hshape hfound

/-- What is met below an own pair are own pairs. -/
theorem descends (hfirst : pair.1 ∈ Node.forest [root]) (hsecond : pair.2 ∈ Node.forest [root])
    (h : context.OwnPair pair) (hdescends : context.Descends pair other) :
    context.OwnPair other := by
  cases h with
  | itself node =>
    have hfields {w r : RecordNode} (hreading : context.reading? node node = some (.records w r)) :
        w = r ∧ (w.fields.map (·.name)).Nodup := by
      obtain ⟨_, _, hw, hr, hrule⟩ := rule_of_reading? hreading
      cases hrule
      cases hw.symm.trans hr
      have hapart := hspans.of_everyShape htests hfirst hw
      simp only [Registry.apart, Bool.and_eq_true] at hapart
      exact ⟨rfl, of_decide_eq_true hapart.1⟩
    cases hdescends with
    | items hreading =>
      obtain ⟨_, _, hw, hr, hrule⟩ := rule_of_reading? hreading
      cases hrule
      cases hw.symm.trans hr
      exact .itself _
    | values hreading =>
      obtain ⟨_, _, hw, hr, hrule⟩ := rule_of_reading? hreading
      cases hrule
      cases hw.symm.trans hr
      exact .itself _
    | linked hreading hmatching hlinked =>
      obtain ⟨rfl, hdistinct⟩ := hfields hreading
      obtain ⟨index, hsame⟩ := (Matching.linked_self hdistinct hmatching).2 _ _ hlinked
      cases hsame
      exact .itself _
    | skipped => exact .itself _
    | filled => exact .itself _
    | alternatives hreading hbranch =>
      obtain ⟨_, _, hw, hr, hrule⟩ := rule_of_reading? hreading
      cases hrule
      exact .branch hw hbranch
    | branches hreading =>
      obtain ⟨_, _, hw, hr, hrule⟩ := rule_of_reading? hreading
      cases hrule with
      | readerUnion _ hnot => exact absurd (Option.some.inj (hw.symm.trans hr)) (hnot _)
  | @branch branch union branches hunion hbranch =>
    cases hdescends with
    | items hreading | values hreading | linked hreading | skipped hreading | filled hreading =>
      obtain ⟨_, _, _, hr, hrule⟩ := rule_of_reading? hreading
      cases hrule
      cases hunion.symm.trans hr
    | alternatives hreading =>
      obtain ⟨_, _, hw, _, hrule⟩ := rule_of_reading? hreading
      cases hrule
      have hapart := hspans.of_everyShape htests hsecond hunion
      simp only [Registry.apart, Bool.and_eq_true] at hapart
      rw [hspans.shape?_eq hfirst] at hw
      exact absurd rfl (Registry.kind_ne_union_of_apart hapart.2 hbranch hw)
    | branches hreading hshape hsplit _ hconsiders =>
      obtain ⟨_, _, _, hr, hrule⟩ := rule_of_reading? hreading
      cases hrule
      cases hunion.symm.trans hr
      refine of_considers hspans htests hsecond hunion hbranch ?_ hshape hconsiders
      refine List.fst_mem_of_mem_zipIdx (?_ : _ ∈ branches.zipIdx)
      rw [hsplit]
      exact List.mem_append_right _ (.head _)
  | primitives hwriter hreader =>
    cases hdescends with
    | items hreading | values hreading | linked hreading | skipped hreading | filled hreading
    | alternatives hreading =>
      obtain ⟨_, _, hw, _, hrule⟩ := rule_of_reading? hreading
      cases hrule
      cases hwriter.symm.trans hw
    | branches hreading =>
      obtain ⟨_, _, _, hr, hrule⟩ := rule_of_reading? hreading
      cases hrule
      cases hreader.symm.trans hr

end OwnPair

/-! ## Pairs of two trees -/

/-- What a compilation goes on with are nodes of the trees.  What takes the place of the reader
is on the reader's side, unless data is dropped. -/
theorem Descends.mem_forest {context : Context} {roots : List Node} {pair other : Node × Node}
    (hspans : context.Spans roots) (hfirst : pair.1 ∈ Node.forest roots)
    (hsecond : pair.2 ∈ Node.forest roots) (h : context.Descends pair other) :
    other.1 ∈ Node.forest roots ∧ other.2 ∈ Node.forest roots ∧
      (other.1.side = pair.1.side ∨ other.1.side = pair.2.side) ∧
        (other.2.side = pair.2.side ∨ other.1 = other.2) := by
  have hpart {node part : Node} {shape : Shape} (hnode : node ∈ Node.forest roots)
      (hshape : context.shape? node = some shape) (hmem : part ∈ shape.parts) :
      part ∈ Node.forest roots ∧ part.side = node.side :=
    ⟨hspans.part hnode hshape hmem, ((hspans.holds hnode).part hshape hmem).2⟩
  have hreader {fields : List (Field Node)} {reader : ReaderField}
      (hreader : reader ∈ ReaderField.ofFields fields) : reader.field ∈ fields :=
    List.mem_of_getElem? (ReaderField.mem_ofFields.1 hreader)
  cases h with
  | items hreading | values hreading =>
    obtain ⟨_, _, hw, hr, hrule⟩ := rule_of_reading? hreading
    cases hrule
    obtain ⟨hmem, hside⟩ := hpart hfirst hw (.head _)
    obtain ⟨hmem', hside'⟩ := hpart hsecond hr (.head _)
    exact ⟨hmem, hmem', .inl hside, .inl hside'⟩
  | linked hreading hmatching hlinked =>
    obtain ⟨_, _, hw, hr, hrule⟩ := rule_of_reading? hreading
    cases hrule
    have hfield := (List.of_mem_zip hlinked).1
    have hlink := hreader (Matching.mem_of_linked hmatching hlinked)
    obtain ⟨hmem, hside⟩ := hpart hfirst hw (List.mem_map_of_mem hfield)
    obtain ⟨hmem', hside'⟩ := hpart hsecond hr (List.mem_map_of_mem hlink)
    exact ⟨hmem, hmem', .inl hside, .inl hside'⟩
  | skipped hreading hmatching hskipped =>
    obtain ⟨_, _, hw, _, hrule⟩ := rule_of_reading? hreading
    cases hrule
    obtain ⟨hmem, hside⟩ := hpart hfirst hw (List.mem_map_of_mem (List.of_mem_zip hskipped).1)
    exact ⟨hmem, hmem, .inl hside, .inr rfl⟩
  | filled hreading hmatching hfilled =>
    obtain ⟨_, _, _, hr, hrule⟩ := rule_of_reading? hreading
    cases hrule
    have hfield := hreader (Matching.mem_of_defaulted hmatching hfilled)
    obtain ⟨hmem, hside⟩ := hpart hsecond hr (List.mem_map_of_mem hfield)
    exact ⟨hmem, hmem, .inr hside, .inl hside⟩
  | alternatives hreading hbranch =>
    obtain ⟨_, _, hw, _, hrule⟩ := rule_of_reading? hreading
    cases hrule
    obtain ⟨hmem, hside⟩ := hpart hfirst hw hbranch
    exact ⟨hmem, hsecond, .inl hside, .inl rfl⟩
  | @branches _ _ _ branches before after candidate hreading _ hsplit =>
    obtain ⟨_, _, _, hr, hrule⟩ := rule_of_reading? hreading
    cases hrule
    have hcandidate : candidate ∈ branches.zipIdx := by
      rw [hsplit]
      exact List.mem_append_right _ (.head _)
    obtain ⟨hmem, hside⟩ := hpart hsecond hr (List.fst_mem_of_mem_zipIdx hcandidate)
    exact ⟨hfirst, hmem, .inl rfl, .inl hside⟩

section

variable {config : Config} {writer reader : Schema} {pair other : Node × Node}

/-- Both nodes are of the two trees, and where the second one is of the writer's tree the two are
an own pair. -/
def OwnSkips (config : Config) (writer reader : Schema) (pair : Node × Node) : Prop :=
  pair.1 ∈ Node.forest [.root .writer writer, .root .reader reader] ∧
    pair.2 ∈ Node.forest [.root .writer writer, .root .reader reader] ∧
      (pair.2.side = .writer →
        pair.1.side = .writer ∧ (ofTrees config writer reader).OwnPair pair)

theorem spans_ofTrees (config : Config) (writer reader : Schema) :
    (ofTrees config writer reader).Spans [.root .writer writer, .root .reader reader] :=
  (SchemaPair.twoTrees writer reader).spans_roots config

theorem mem_forest_writer {node : Node}
    (hnode : node ∈ Node.forest [.root .writer writer, .root .reader reader])
    (hside : node.side = .writer) : node ∈ Node.forest [.root .writer writer] := by
  obtain ⟨root, hroot, hmem⟩ := Node.mem_forest.1 hnode
  have hsame := Node.side_of_mem_preorder root node hmem
  rcases List.mem_cons.1 hroot with rfl | hroot
  · exact Node.mem_forest_singleton.2 hmem
  · obtain rfl := List.mem_singleton.1 hroot
    cases hside.symm.trans hsame

theorem OwnSkips.descends (hapart : writer.apart = true)
    (h : OwnSkips config writer reader pair)
    (hdescends : (ofTrees config writer reader).Descends pair other) :
    OwnSkips config writer reader other := by
  obtain ⟨hfirst, hsecond, hown⟩ := h
  obtain ⟨hfirst', hsecond', hside, hside'⟩ :=
    hdescends.mem_forest (spans_ofTrees config writer reader) hfirst hsecond
  refine ⟨hfirst', hsecond', fun hwriter => ?_⟩
  cases hpair : pair.2.side with
  | writer =>
    obtain ⟨hpair', hown⟩ := hown hpair
    refine ⟨by rcases hside with h | h <;> rw [h] <;> assumption, ?_⟩
    exact hown.descends (fun root hroot => spans_ofTrees config writer reader root (by
      rw [List.mem_singleton.1 hroot]; exact .head _)) hapart (mem_forest_writer hfirst hpair')
      (mem_forest_writer hsecond hpair) hdescends
  | reader =>
    rcases hside' with hside' | hsame
    · cases hwriter.symm.trans (hside'.trans hpair)
    · obtain ⟨first, second⟩ := other
      obtain rfl : first = second := hsame
      exact ⟨hwriter, .itself first⟩

theorem Meets.ownSkips (hapart : writer.apart = true)
    (h : (ofTrees config writer reader).Meets (.root .writer writer, .root .reader reader) pair) :
    OwnSkips config writer reader pair := by
  induction h with
  | refl =>
    exact ⟨Node.root_mem_forest (.head _), Node.root_mem_forest (.tail _ (.head _)), nofun⟩
  | tail _ hdescends ih => exact ih.descends hapart hdescends

/-- No field of a writer whose types are apart is filled from its default. -/
theorem fillsReaderOnly_of_apart (hapart : writer.apart = true) :
    (ofTrees config writer reader).FillsReaderOnly
      (.root .writer writer, .root .reader reader) := by
  intro pair w r hmeets hreading field hfield
  obtain ⟨_, hsecond, hown⟩ := hmeets.ownSkips hapart
  obtain ⟨_, _, _, hr, hrule⟩ := rule_of_reading? hreading
  cases hrule
  have hlink :=
    List.mem_of_getElem? (ReaderField.mem_ofFields.1 (Matching.mem_unmatched.1 hfield).1)
  have hside := (((spans_ofTrees config writer reader).holds hsecond).part hr
    (List.mem_map_of_mem hlink)).2
  cases hpair : pair.2.side with
  | reader => exact hside.trans hpair
  | writer =>
    rw [(hown hpair).2.eq_of_records hreading, Matching.unmatched_self] at hfield
    cases hfield

end

end Context

end AvroResolution
