import AvroResolution.Proofs.Schema.Merged

/-!
# What the text of a schema tells apart

The text of a schema is the key under which its programs are kept.  It shows everything but
two things.  A reference that is spelled like a primitive type reads as that type, and of
logical types directly above each other only the name of the outermost shows, with the
precision and the scale of the outermost decimal.

* `Schema.withPrimitives` puts the primitive types in place of the references that are
  spelled like them.
* `Schema.merged_logical` says what merging leaves of logical types above each other.
* `Schema.text_eq_iff`: two schemas have one text exactly when they become the same after
  both.
-/

namespace AvroResolution

/-- The primitive type with a given name. -/
def Primitive.ofName? (name : String) : Option Primitive :=
  all.find? (·.name = name)

theorem Primitive.ofName?_name (type : Primitive) : ofName? type.name = some type := by
  cases type <;> decide

theorem Primitive.name_of_ofName? {name : String} {type : Primitive}
    (h : ofName? name = some type) : type.name = name := by
  simpa using List.find?_some h

namespace Schema

/-! ## References that are spelled like primitive types -/

/-- The type that a spelling refers to: the primitive type of that name if there is one, and
a definition otherwise. -/
def ofSpelling (name : String) : Schema :=
  match Primitive.ofName? name with
  | some type => .primitive type
  | none => .reference name

mutual

/-- The schema with the primitive type in place of each reference that is spelled like it. -/
def withPrimitives : Schema → Schema
  | .primitive type => .primitive type
  | .record heading fields => .record heading (fieldsWithPrimitives fields)
  | .enum heading symbols default? => .enum heading symbols default?
  | .fixed heading size => .fixed heading size
  | .array items => .array (withPrimitives items)
  | .map values => .map (withPrimitives values)
  | .union branches => .union (branchesWithPrimitives branches)
  | .reference name => ofSpelling name
  | .logical base logicalType => .logical (withPrimitives base) logicalType

/-- The fields of a record with the primitive types in their types. -/
def fieldsWithPrimitives : List (Field Schema) → List (Field Schema)
  | [] => []
  | ⟨name, type, default?, aliases⟩ :: rest =>
    ⟨name, withPrimitives type, default?, aliases⟩ :: fieldsWithPrimitives rest

/-- The branches of a union with the primitive types in them. -/
def branchesWithPrimitives : List Schema → List Schema
  | [] => []
  | branch :: rest => withPrimitives branch :: branchesWithPrimitives rest

end

theorem form_ofSpelling (name : String) : (ofSpelling name).form = .string name := by
  unfold ofSpelling
  split
  next type h => rw [form, Primitive.name_of_ofName? h]
  next => rfl

mutual

/-- A reference that is spelled like a primitive type has the form of that type. -/
theorem form_withPrimitives : ∀ schema : Schema, schema.withPrimitives.form = schema.form
  | .primitive _ => rfl
  | .enum _ _ _ => rfl
  | .fixed _ _ => rfl
  | .reference name => form_ofSpelling name
  | .record heading fields => by
    rw [withPrimitives, form, form, fieldForms_withPrimitives fields]
  | .array items => by rw [withPrimitives, form, form, form_withPrimitives items]
  | .map values => by rw [withPrimitives, form, form, form_withPrimitives values]
  | .union branches => by
    rw [withPrimitives, form, form, branchForms_withPrimitives branches]
  | .logical base logicalType => by rw [withPrimitives, form, form, form_withPrimitives base]

theorem fieldForms_withPrimitives : ∀ fields : List (Field Schema),
    fieldForms (fieldsWithPrimitives fields) = fieldForms fields
  | [] => rfl
  | ⟨_, type, _, _⟩ :: rest => by
    rw [fieldsWithPrimitives, fieldForms, fieldForms, form_withPrimitives type,
      fieldForms_withPrimitives rest]

theorem branchForms_withPrimitives : ∀ branches : List Schema,
    branchForms (branchesWithPrimitives branches) = branchForms branches
  | [] => rfl
  | branch :: rest => by
    rw [branchesWithPrimitives, branchForms, branchForms, form_withPrimitives branch,
      branchForms_withPrimitives rest]

end

theorem SparePrimitives.append {names others : List String} (h : SparePrimitives names)
    (hothers : SparePrimitives others) : SparePrimitives (names ++ others) := by
  intro type htype hname
  rcases List.mem_append.1 hname with hname | hname
  · exact h type htype hname
  · exact hothers type htype hname

theorem sparePrimitives_ofSpelling (name : String) :
    SparePrimitives (ofSpelling name).references := by
  intro type _ hname
  unfold ofSpelling at hname
  split at hname
  next => cases hname
  next hnone =>
    obtain rfl := List.mem_singleton.1 hname
    rw [Primitive.ofName?_name] at hnone
    cases hnone

mutual

/-- Afterwards no reference is spelled like a primitive type. -/
theorem sparePrimitives_withPrimitives : ∀ schema : Schema,
    SparePrimitives schema.withPrimitives.references
  | .primitive _ | .enum _ _ _ | .fixed _ _ => fun _ _ hname => by cases hname
  | .reference name => sparePrimitives_ofSpelling name
  | .record _ fields => sparePrimitives_fields fields
  | .array items => sparePrimitives_withPrimitives items
  | .map values => sparePrimitives_withPrimitives values
  | .union branches => sparePrimitives_branches branches
  | .logical base _ => sparePrimitives_withPrimitives base

theorem sparePrimitives_fields : ∀ fields : List (Field Schema),
    SparePrimitives (fieldReferences (fieldsWithPrimitives fields))
  | [] => fun _ _ hname => by cases hname
  | ⟨_, type, _, _⟩ :: rest =>
    (sparePrimitives_withPrimitives type).append (sparePrimitives_fields rest)

theorem sparePrimitives_branches : ∀ branches : List Schema,
    SparePrimitives (branchReferences (branchesWithPrimitives branches))
  | [] => fun _ _ hname => by cases hname
  | branch :: rest =>
    (sparePrimitives_withPrimitives branch).append (sparePrimitives_branches rest)

end

/-! ## Separation -/

/-- Of logical types above each other the outermost one is left, on the type below them all,
and the outermost decimal among them. -/
theorem merged_logical (base : Schema) (logicalType : LogicalType) :
    (logical base logicalType).merged =
      base.core.merged.marked (decimal? (.logical base logicalType)) logicalType := by
  rw [merged, core_merged]
  cases logicalType <;> rfl

/-- The form and the text of a schema determine each other. -/
theorem text_eq_iff_form_eq {schema other : Schema} :
    schema.text = other.text ↔ schema.form = other.form :=
  ⟨Literal.text_inj, fun h => congrArg Literal.text h⟩

/-- Two schemas have one text exactly when they are the same but for references that are
spelled like primitive types and for logical types that do not show. -/
theorem text_eq_iff {schema other : Schema} :
    schema.text = other.text ↔ schema.withPrimitives.merged = other.withPrimitives.merged := by
  constructor
  · intro h
    refine merged_eq_of_text_eq (sparePrimitives_withPrimitives schema)
      (sparePrimitives_withPrimitives other) (text_eq_iff_form_eq.2 ?_)
    rw [form_withPrimitives, form_withPrimitives]
    exact text_eq_iff_form_eq.1 h
  · intro h
    rw [text_eq_iff_form_eq]
    calc schema.form
        = schema.withPrimitives.merged.form := by rw [form_merged, form_withPrimitives]
      _ = other.withPrimitives.merged.form := by rw [h]
      _ = other.form := by rw [form_merged, form_withPrimitives]

end Schema

end AvroResolution
