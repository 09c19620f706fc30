import AvroResolution.Proofs.Schema.Form

/-!
# Schemas with one JSON form

The form determines a schema up to two things.  A reference may be spelled like a primitive
type, and a logical type may be covered by others directly above it.

* `Schema.merged` leaves no logical type in a tree that does not show in its form.
  `Schema.form_merged`: the form stays the same.
* `Schema.collapsed` goes further and leaves only the outermost of several logical types
  directly above each other.
* `Schema.SparePrimitives` says that no reference is spelled like a primitive type.
* `Schema.merged_eq_of_text_eq`: among such schemas the text determines what is merged.
-/

namespace AvroResolution

open Literal (lastValue?)

namespace Schema

/-! ## Logical types that show -/

/-- A core below a logical type, with a decimal between them if that shows. -/
def marked (core : Schema) (decimal? : Option (Nat × Nat)) : LogicalType → Schema
  | .decimal precision scale => .logical core (.decimal precision scale)
  | outermost =>
    match decimal? with
    | some (precision, scale) => .logical (.logical core (.decimal precision scale)) outermost
    | none => .logical core outermost

mutual

/-- The schema without the logical types that do not show in its form. -/
def merged : Schema → Schema
  | .primitive type => .primitive type
  | .record heading fields => .record heading (mergedFields fields)
  | .enum heading symbols default? => .enum heading symbols default?
  | .fixed heading size => .fixed heading size
  | .array items => .array (merged items)
  | .map values => .map (merged values)
  | .union branches => .union (mergedBranches branches)
  | .reference name => .reference name
  | .logical base logicalType => (merged base).core.marked base.decimal? logicalType

/-- The fields of a record with their types merged. -/
def mergedFields : List (Field Schema) → List (Field Schema)
  | [] => []
  | ⟨name, type, default?, aliases⟩ :: rest =>
    ⟨name, merged type, default?, aliases⟩ :: mergedFields rest

/-- The branches of a union merged. -/
def mergedBranches : List Schema → List Schema
  | [] => []
  | branch :: rest => merged branch :: mergedBranches rest

end

mutual

/-- The schema with one logical type, the outermost, in place of several directly above each
other. -/
def collapsed : Schema → Schema
  | .primitive type => .primitive type
  | .record heading fields => .record heading (collapsedFields fields)
  | .enum heading symbols default? => .enum heading symbols default?
  | .fixed heading size => .fixed heading size
  | .array items => .array (collapsed items)
  | .map values => .map (collapsed values)
  | .union branches => .union (collapsedBranches branches)
  | .reference name => .reference name
  | .logical base logicalType => .logical (collapsed base).core logicalType

/-- The fields of a record with their types collapsed. -/
def collapsedFields : List (Field Schema) → List (Field Schema)
  | [] => []
  | ⟨name, type, default?, aliases⟩ :: rest =>
    ⟨name, collapsed type, default?, aliases⟩ :: collapsedFields rest

/-- The branches of a union collapsed. -/
def collapsedBranches : List Schema → List Schema
  | [] => []
  | branch :: rest => collapsed branch :: collapsedBranches rest

end

theorem core_core (schema : Schema) : schema.core.core = schema.core :=
  core_eq_self schema.outermost?_core

section

variable (core : Schema) (marked? : Option (Nat × Nat)) (outermost : LogicalType)

theorem core_marked : (core.marked marked? outermost).core = core.core := by
  cases outermost <;> rcases marked? with _ | ⟨precision, scale⟩ <;> rfl

theorem outermost?_marked : (core.marked marked? outermost).outermost? = some outermost := by
  cases outermost <;> rcases marked? with _ | ⟨precision, scale⟩ <;> rfl

theorem collapsed_marked :
    (core.marked marked? outermost).collapsed = .logical core.collapsed.core outermost := by
  cases outermost with
  | decimal => rfl
  | _ =>
    rcases marked? with _ | ⟨precision, scale⟩
    · rfl
    · exact congrArg (logical · _) (core_core core.collapsed)

variable {core}

theorem decimal?_marked (h : core.outermost? = none) (base : Schema)
    (hdecimal : base.decimal? = marked?) :
    (core.marked marked? outermost).decimal? = decimal? (.logical base outermost) := by
  have hcore := decimal?_eq_none h
  cases outermost with
  | decimal precision scale => rfl
  | _ =>
    rcases marked? with _ | ⟨precision, scale⟩
    · exact hcore.trans hdecimal.symm
    · exact hdecimal.symm

end

theorem core_merged : ∀ schema : Schema, schema.merged.core = schema.core.merged := by
  refine core_comm (fun base logicalType => ?_) fun schema h => ?_
  · rw [merged, core_marked, core_core]
  · cases schema with
    | logical => cases h
    | _ => rfl

theorem outermost?_merged (schema : Schema) : schema.merged.outermost? = schema.outermost? := by
  cases schema with
  | logical base logicalType => exact outermost?_marked ..
  | _ => rfl

theorem decimal?_merged (schema : Schema) : schema.merged.decimal? = schema.decimal? := by
  cases schema with
  | logical base logicalType => exact decimal?_marked _ _ base.merged.outermost?_core base rfl
  | _ => rfl

/-- What shows and the merged core determine what is merged. -/
theorem merged_eq_of_core {schema other : Schema} (houter : schema.outermost? = other.outermost?)
    (hdecimal : schema.decimal? = other.decimal?)
    (hcore : schema.core.merged = other.core.merged) : schema.merged = other.merged := by
  cases schema with
  | logical base logicalType =>
    cases other with
    | logical base' logicalType' =>
      obtain rfl := Option.some.inj houter
      have hbase : base.merged.core = base'.merged.core := by
        rw [core_merged, core_merged]
        exact hcore
      rw [merged, merged, hbase]
      cases logicalType with
      | decimal precision scale => rfl
      | _ => exact congrArg (marked _ · _) hdecimal
    | _ => cases houter
  | _ =>
    cases other with
    | logical => cases houter
    | _ => exact hcore

/-! ## The form of what is merged -/

mutual

/-- Merging leaves the form as it is. -/
theorem form_merged : ∀ schema : Schema, schema.merged.form = schema.form
  | .primitive _ => rfl
  | .enum _ _ _ => rfl
  | .fixed _ _ => rfl
  | .reference _ => rfl
  | .record heading fields => by rw [merged, form, form, fieldForms_mergedFields fields]
  | .array items => by rw [merged, form, form, form_merged items]
  | .map values => by rw [merged, form, form, form_merged values]
  | .union branches => by rw [merged, form, form, branchForms_mergedBranches branches]
  | .logical base logicalType => by
    have hkeys : ∀ key, base.merged.key? key = base.key? key := fun key => by
      rw [key?, key?, form_merged base]
    have hbase := key?_eq_iff.1 hkeys
    refine form_eq_of_key?_eq (by rw [outermost?_merged]; exact Option.some_ne_none _) ?_
    refine key?_eq_iff.2 ⟨outermost?_merged _, decimal?_merged _, fun key hkey => ?_⟩
    rw [merged, core_marked, core_core, hbase.2.2 key hkey]
    rfl

theorem fieldForms_mergedFields : ∀ fields : List (Field Schema),
    fieldForms (mergedFields fields) = fieldForms fields
  | [] => rfl
  | ⟨_, type, _, _⟩ :: rest => by
    rw [mergedFields, fieldForms, fieldForms, form_merged type, fieldForms_mergedFields rest]

theorem branchForms_mergedBranches : ∀ branches : List Schema,
    branchForms (mergedBranches branches) = branchForms branches
  | [] => rfl
  | branch :: rest => by
    rw [mergedBranches, branchForms, branchForms, form_merged branch,
      branchForms_mergedBranches rest]

end

theorem core_collapsed_core (schema : Schema) : schema.core.collapsed = schema.collapsed.core := by
  induction schema using core_induction with
  | logical base logicalType ih => rw [core, ih, collapsed, core, core_core]
  | bare schema h =>
    cases schema with
    | logical => cases h
    | _ => rfl

mutual

/-- What is merged collapses to the same. -/
theorem collapsed_merged : ∀ schema : Schema, schema.merged.collapsed = schema.collapsed
  | .primitive _ => rfl
  | .enum _ _ _ => rfl
  | .fixed _ _ => rfl
  | .reference _ => rfl
  | .record heading fields => by
    rw [merged, collapsed, collapsed, collapsedFields_mergedFields fields]
  | .array items => by rw [merged, collapsed, collapsed, collapsed_merged items]
  | .map values => by rw [merged, collapsed, collapsed, collapsed_merged values]
  | .union branches => by
    rw [merged, collapsed, collapsed, collapsedBranches_mergedBranches branches]
  | .logical base logicalType => by
    rw [merged, collapsed_marked, core_collapsed_core, core_core, collapsed_merged base, collapsed]

theorem collapsedFields_mergedFields : ∀ fields : List (Field Schema),
    collapsedFields (mergedFields fields) = collapsedFields fields
  | [] => rfl
  | ⟨_, type, _, _⟩ :: rest => by
    rw [mergedFields, collapsedFields, collapsedFields, collapsed_merged type,
      collapsedFields_mergedFields rest]

theorem collapsedBranches_mergedBranches : ∀ branches : List Schema,
    collapsedBranches (mergedBranches branches) = collapsedBranches branches
  | [] => rfl
  | branch :: rest => by
    rw [mergedBranches, collapsedBranches, collapsedBranches, collapsed_merged branch,
      collapsedBranches_mergedBranches rest]

end

/-! ## References -/

mutual

/-- The names that the references of a schema spell. -/
def references : Schema → List String
  | .record _ fields => fieldReferences fields
  | .array items => references items
  | .map values => references values
  | .union branches => branchReferences branches
  | .reference name => [name]
  | .logical base _ => references base
  | _ => []

/-- The names that the references in the fields of a record spell. -/
def fieldReferences : List (Field Schema) → List String
  | [] => []
  | ⟨_, type, _, _⟩ :: rest => references type ++ fieldReferences rest

/-- The names that the references in the branches of a union spell. -/
def branchReferences : List Schema → List String
  | [] => []
  | branch :: rest => references branch ++ branchReferences rest

end

/-- None of the names is that of a primitive type. -/
def SparePrimitives (names : List String) : Prop :=
  ∀ type ∈ Primitive.all, type.name ∉ names

instance (names : List String) : Decidable (SparePrimitives names) :=
  inferInstanceAs (Decidable (∀ type ∈ Primitive.all, type.name ∉ names))

theorem SparePrimitives.of_append {names others : List String}
    (h : SparePrimitives (names ++ others)) : SparePrimitives names ∧ SparePrimitives others :=
  ⟨fun type htype hname => h type htype (List.mem_append_left _ hname),
    fun type htype hname => h type htype (List.mem_append_right _ hname)⟩

theorem references_core (schema : Schema) : schema.core.references = schema.references :=
  apply_core references (fun _ _ => rfl) schema

/-! ## The form determines what is merged -/

theorem name_inj {type other : Primitive} (h : type.name = other.name) : type = other := by
  revert h
  cases type <;> cases other <;> decide

theorem mem_primitives (type : Primitive) : type ∈ Primitive.all := by
  cases type <;> decide

/-- A heading is known by its keys. -/
theorem heading_eq {heading other : Heading} {kind kind' : Kind}
    (h : ∀ key ∈ ["name", "namespace", "aliases"],
      lastValue? key (heading.entries kind) = lastValue? key (other.entries kind')) :
    heading = other := by
  rcases heading with ⟨name, space?, aliases⟩
  rcases other with ⟨name', space?', aliases'⟩
  have hname := h "name" (by decide)
  have hspace := h "namespace" (by decide)
  have haliases := h "aliases" (by decide)
  simp only [lastValue?_heading] at hname hspace haliases
  have hsame : name = name' := by simpa using hname
  have hsame' : space? = space?' :=
    Option.map_injective (fun _ _ h => Literal.string.inj h) (by simpa using hspace)
  have hsame'' : aliases = aliases' := Literal.aliases_inj (by simpa using haliases)
  rw [hsame, hsame', hsame'']

/-- A form without keys is that of a primitive type, of a reference or of a union. -/
theorem cases_of_unkeyed {schema other : Schema} {value : Literal}
    (hother : other.outermost? = none)
    (hschema : ∀ key, schema.key? key = if key = "type" then some value else none)
    (h : ∀ key ∉ markKeys, schema.key? key = other.key? key) :
    (∃ type, other = .primitive type ∧ value = .string type.name) ∨
      (∃ name, other = .reference name ∧ value = .string name) ∨
      ∃ branches, other = .union branches ∧ value = .array (branchForms branches) := by
  have hkeys : ∀ key ∉ markKeys,
      other.key? key = if key = "type" then some value else none := fun key hkey => by
    rw [← h key hkey, hschema]
  have htype := hkeys "type" (by decide)
  cases other with
  | primitive type => exact .inl ⟨type, rfl, by simpa using htype.symm⟩
  | reference name => exact .inr (.inl ⟨name, rfl, by simpa using htype.symm⟩)
  | union branches => exact .inr (.inr ⟨branches, rfl, by simpa using htype.symm⟩)
  | record => exact absurd (hkeys "fields" (by decide)) (by simp)
  | enum => exact absurd (hkeys "symbols" (by decide)) (by simp)
  | fixed => exact absurd (hkeys "size" (by decide)) (by simp)
  | array => exact absurd (hkeys "items" (by decide)) (by simp)
  | map => exact absurd (hkeys "values" (by decide)) (by simp)
  | logical => cases hother

/-- The fields of a record are known by their forms, but for their types, of which the forms
are known. -/
theorem field_eq {name name' : String} {type type' : Schema} {default? default?' : Option Literal}
    {aliases aliases' : List String} {rest others : List (Field Schema)}
    (h : fieldForms (⟨name, type, default?, aliases⟩ :: rest) =
      fieldForms (⟨name', type', default?', aliases'⟩ :: others)) :
    name = name' ∧ type.form = type'.form ∧ default? = default?' ∧ aliases = aliases' ∧
      fieldForms rest = fieldForms others := by
  rw [fieldForms, fieldForms, List.cons.injEq, Literal.ofEntries_inj] at h
  obtain ⟨hkeys, hrest⟩ := h
  have hname := hkeys "name"
  have htype := hkeys "type"
  have hdefault := hkeys "default"
  have haliases := hkeys "aliases"
  simp only [Literal.lastValue?_append] at hname htype hdefault haliases
  exact ⟨by simpa [lastValue?] using hname, by simpa [lastValue?] using htype,
    by simpa [lastValue?] using hdefault,
    Literal.aliases_inj (by simpa [lastValue?] using haliases), hrest⟩

/-- Schemas with one form are merged to the same if schemas with the core of the first one
are. -/
theorem merged_eq_of_keys {schema other : Schema} (hform : schema.form = other.form)
    (hcore : (∀ key ∉ markKeys, schema.core.key? key = other.core.key? key) →
      schema.core.merged = other.core.merged) : schema.merged = other.merged := by
  have hkeys : ∀ key, schema.key? key = other.key? key := fun key => by rw [key?, key?, hform]
  obtain ⟨houter, hdecimal, hkeys⟩ := key?_eq_iff.1 hkeys
  exact merged_eq_of_core houter hdecimal (hcore hkeys)

theorem SparePrimitives.ne_name {name : String} (h : SparePrimitives [name]) (type : Primitive) :
    type.name ≠ name := fun hname =>
  h type (mem_primitives type) (List.mem_singleton.2 hname)

mutual

/-- The keys of a form, but for those of logical types, determine the merged core.  The
induction is on the first schema. -/
theorem merged_core_eq : ∀ (schema : Schema) {other : Schema}, other.outermost? = none →
    SparePrimitives schema.references → SparePrimitives other.references →
    (∀ key ∉ markKeys, schema.core.key? key = other.key? key) →
      schema.core.merged = other.merged
  | .logical base _, _, hother, hspare, hspare', h =>
    merged_core_eq base hother hspare hspare' h
  | .primitive type, _, hother, _, hspare', h => by
    rcases cases_of_unkeyed hother (key?_primitive type) h with
      ⟨type', rfl, hname⟩ | ⟨name, rfl, hname⟩ | ⟨branches, rfl, hname⟩
    · rw [name_inj (Literal.string.inj hname)]
      rfl
    · exact absurd (Literal.string.inj hname) (hspare'.ne_name type)
    · cases hname
  | .reference name, _, hother, hspare, _, h => by
    rcases cases_of_unkeyed hother (key?_reference name) h with
      ⟨type, rfl, hname⟩ | ⟨name', rfl, hname⟩ | ⟨branches, rfl, hname⟩
    · exact absurd (Literal.string.inj hname).symm (hspare.ne_name type)
    · rw [Literal.string.inj hname]
      rfl
    · cases hname
  | .union branches, _, hother, hspare, hspare', h => by
    rcases cases_of_unkeyed hother (key?_union branches) h with
      ⟨type, rfl, hforms⟩ | ⟨name, rfl, hforms⟩ | ⟨branches', rfl, hforms⟩
    · cases hforms
    · cases hforms
    · exact congrArg Schema.union
        (mergedBranches_eq branches hspare hspare' (Literal.array.inj hforms))
  | .record heading fields, other, hother, hspare, hspare', h => by
    have hfields := h "fields" (by decide)
    cases other with
    | record heading' fields' =>
      have hheading : heading = heading' := heading_eq fun key hkey => by
        have hne : key ≠ "fields" := by revert key; decide
        simpa [core, hne] using h key (by revert key; decide)
      rw [hheading]
      exact congrArg (Schema.record heading')
        (mergedFields_eq fields hspare hspare' (by simpa [core] using hfields))
    | logical => cases hother
    | _ => simp [core, lastValue?_heading] at hfields
  | .enum heading symbols default?, other, hother, _, _, h => by
    have hsymbols := h "symbols" (by decide)
    cases other with
    | enum heading' symbols' default?' =>
      have hheading : heading = heading' := heading_eq fun key hkey => by
        have hne : key ≠ "default" ∧ key ≠ "symbols" := by revert key; decide
        simpa [core, hne] using h key (by revert key; decide)
      have hdefault : default? = default?' :=
        Option.map_injective (fun _ _ h => Literal.string.inj h)
          (by simpa [core] using h "default" (by decide))
      have hsame : symbols = symbols' := Literal.ofStrings_inj (by simpa [core] using hsymbols)
      rw [hheading, hdefault, hsame]
      rfl
    | logical => cases hother
    | _ => simp [core, lastValue?_heading] at hsymbols
  | .fixed heading size, other, hother, _, _, h => by
    have hsize := h "size" (by decide)
    cases other with
    | fixed heading' size' =>
      have hheading : heading = heading' := heading_eq fun key hkey => by
        have hne : key ≠ "size" := by revert key; decide
        simpa [core, hne] using h key (by revert key; decide)
      rw [hheading, show size = size' by simpa [core] using hsize]
      rfl
    | logical => cases hother
    | _ => simp [core, lastValue?_heading] at hsize
  | .array items, other, hother, hspare, hspare', h => by
    have hitems := h "items" (by decide)
    cases other with
    | array items' =>
      refine congrArg Schema.array (merged_eq_of_keys (by simpa [core] using hitems) ?_)
      exact merged_core_eq items items'.outermost?_core hspare
        (items'.references_core ▸ hspare')
    | logical => cases hother
    | _ => simp [core, lastValue?_heading] at hitems
  | .map values, other, hother, hspare, hspare', h => by
    have hvalues := h "values" (by decide)
    cases other with
    | map values' =>
      refine congrArg Schema.map (merged_eq_of_keys (by simpa [core] using hvalues) ?_)
      exact merged_core_eq values values'.outermost?_core hspare
        (values'.references_core ▸ hspare')
    | logical => cases hother
    | _ => simp [core, lastValue?_heading] at hvalues

theorem mergedFields_eq : ∀ (fields : List (Field Schema)) {others : List (Field Schema)},
    SparePrimitives (fieldReferences fields) → SparePrimitives (fieldReferences others) →
    fieldForms fields = fieldForms others → mergedFields fields = mergedFields others
  | [], [], _, _, _ => rfl
  | [], ⟨_, _, _, _⟩ :: _, _, _, h => by cases h
  | ⟨_, _, _, _⟩ :: _, [], _, _, h => by cases h
  | ⟨name, type, default?, aliases⟩ :: rest, ⟨name', type', default?', aliases'⟩ :: others,
      hspare, hspare', h => by
    obtain ⟨htype, hrest⟩ := SparePrimitives.of_append hspare
    obtain ⟨htype', hrest'⟩ := SparePrimitives.of_append hspare'
    obtain ⟨rfl, hform, rfl, rfl, hforms⟩ := field_eq h
    have hmerged := merged_eq_of_keys hform
      (merged_core_eq type type'.outermost?_core htype (type'.references_core ▸ htype'))
    rw [mergedFields, mergedFields, hmerged, mergedFields_eq rest hrest hrest' hforms]

theorem mergedBranches_eq : ∀ (branches : List Schema) {others : List Schema},
    SparePrimitives (branchReferences branches) → SparePrimitives (branchReferences others) →
    branchForms branches = branchForms others → mergedBranches branches = mergedBranches others
  | [], [], _, _, _ => rfl
  | [], _ :: _, _, _, h => by cases h
  | _ :: _, [], _, _, h => by cases h
  | branch :: rest, branch' :: others, hspare, hspare', h => by
    obtain ⟨hbranch, hrest⟩ := SparePrimitives.of_append hspare
    obtain ⟨hbranch', hrest'⟩ := SparePrimitives.of_append hspare'
    obtain ⟨hform, hforms⟩ := List.cons.inj h
    have hmerged := merged_eq_of_keys hform
      (merged_core_eq branch branch'.outermost?_core hbranch (branch'.references_core ▸ hbranch'))
    rw [mergedBranches, mergedBranches, hmerged, mergedBranches_eq rest hrest hrest' hforms]

end

/-- The text of a schema determines what is merged. -/
theorem merged_eq_of_text_eq {schema other : Schema} (hspare : SparePrimitives schema.references)
    (hspare' : SparePrimitives other.references) (h : schema.text = other.text) :
    schema.merged = other.merged :=
  merged_eq_of_keys (Literal.text_inj h)
    (merged_core_eq schema other.outermost?_core hspare (other.references_core ▸ hspare'))

end Schema

end AvroResolution
