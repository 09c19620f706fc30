import AvroResolution.Proofs.Literal.Text
import AvroResolution.Proofs.Literal.Entries
import AvroResolution.Schema.Form

/-!
# What shows in the JSON form of a schema

A logical type adds its keys to the form of its base.  Of several logical types directly
above each other only the outermost one shows, with the precision and the scale of the
outermost decimal among them.

* `Schema.key?` is the value of a key of the form, given by one lemma for each kind of type.
* `Schema.core` is the type below all logical types, `Schema.outermost?` and
  `Schema.decimal?` are what shows of those.
* `Schema.key?_eq_iff`: two schemas have the same keys exactly when the same shows of their
  logical types and their cores have the same keys.
-/

namespace AvroResolution

open Literal (lastValue?)

/-! ## Keys of lists of entries -/

namespace Literal

@[simp]
theorem lastValue?_aliasEntries (key : String) (aliases : List String) :
    lastValue? key (aliasEntries aliases) =
      if key = "aliases" ∧ aliases ≠ [] then some (ofStrings aliases) else none := by
  cases aliases with
  | nil => simp [aliasEntries, lastValue?]
  | cons first rest =>
    by_cases h : key = "aliases" <;> simp [aliasEntries, lastValue?, h]

@[simp]
theorem lastValue?_toList {α : Type} (key other : String) (value? : Option α)
    (f : α → Literal) :
    lastValue? key (value?.map fun value => (other, f value)).toList =
      if key = other then value?.map f else none := by
  cases value? with
  | none => simp [lastValue?]
  | some value => by_cases h : key = other <;> simp [lastValue?, h]

@[simp]
theorem lastValue?_toList_self (key other : String) (value? : Option Literal) :
    lastValue? key (value?.map fun value => (other, value)).toList =
      if key = other then value? else none := by
  rw [lastValue?_toList key other value? fun value => value, Option.map_id']

theorem ofStrings_inj {strings others : List String} (h : ofStrings strings = ofStrings others) :
    strings = others :=
  (List.map_injective_iff.2 fun _ _ h => string.inj h) (array.inj h)

/-- Aliases are known by their key, which is left out when there are none. -/
theorem aliases_inj {aliases others : List String}
    (h : (if aliases = [] then none else some (ofStrings aliases)) =
      if others = [] then none else some (ofStrings others)) : aliases = others := by
  cases aliases with
  | nil =>
    cases others with
    | nil => rfl
    | cons => cases h
  | cons =>
    cases others with
    | nil => cases h
    | cons => exact ofStrings_inj (Option.some.inj h)

/-- The entries to which a logical type adds its keys. -/
def keyed : Literal → List (String × Literal)
  | .object entries => entries
  | other => [("type", other)]

theorem lastValue?_keyed_ofEntries (key : String) (entries : List (String × Literal)) :
    lastValue? key (ofEntries entries).keyed = lastValue? key entries := by
  rw [ofEntries_eq, keyed, lastValue?_of_pairwise (pairwise_sorted entries), entry?_sorted]

end Literal

theorem LogicalType.annotate_eq (logicalType : LogicalType) (base : Literal) :
    logicalType.annotate base = .ofEntries (base.keyed ++ logicalType.entries) := by
  cases base <;> rfl

/-- A logical type is known by its name, unless it is a decimal. -/
theorem LogicalType.eq_or_decimal {logicalType other : LogicalType}
    (h : logicalType.name = other.name) : logicalType = other ∨
      ∃ precision scale precision' scale', logicalType = .decimal precision scale ∧
        other = .decimal precision' scale' := by
  cases logicalType <;> cases other <;> simp_all [LogicalType.name]

namespace Schema

/-! ## Keys of the form -/

/-- The value of a key of the form.  A form without keys is under the key `type`, where a
logical type puts it. -/
def key? (schema : Schema) (key : String) : Option Literal :=
  lastValue? key schema.form.keyed

theorem key?_logical (base : Schema) (logicalType : LogicalType) (key : String) :
    key? (.logical base logicalType) key =
      (lastValue? key logicalType.entries).or (base.key? key) := by
  rw [key?, form, LogicalType.annotate_eq, Literal.lastValue?_keyed_ofEntries,
    Literal.lastValue?_append]
  rfl

/-! ## Logical types above each other -/

/-- The type below all logical types. -/
def core : Schema → Schema
  | .logical base _ => base.core
  | schema => schema

/-- The outermost logical type. -/
def outermost? : Schema → Option LogicalType
  | .logical _ logicalType => some logicalType
  | _ => none

/-- The precision and the scale of the outermost decimal among the logical types above the
core. -/
def decimal? : Schema → Option (Nat × Nat)
  | .logical _ (.decimal precision scale) => some (precision, scale)
  | .logical base _ => base.decimal?
  | _ => none

/-- What passes from a type to the logical types on it holds of every type. -/
theorem core_induction {motive : Schema → Prop}
    (logical : ∀ base logicalType, motive base → motive (.logical base logicalType))
    (bare : ∀ schema, schema.outermost? = none → motive schema) (schema : Schema) :
    motive schema := by
  induction schema using core.induct with
  | case1 base logicalType ih => exact logical base logicalType ih
  | case2 schema h =>
    refine bare schema ?_
    cases schema with
    | logical base logicalType => exact absurd rfl (h base logicalType)
    | _ => rfl

theorem core_eq_self {schema : Schema} (h : schema.outermost? = none) : schema.core = schema := by
  cases schema with
  | logical => cases h
  | _ => rfl

theorem outermost?_core (schema : Schema) : schema.core.outermost? = none := by
  induction schema using core_induction with
  | logical base _ ih => exact ih
  | bare schema h => rw [core_eq_self h, h]

/-- A change that passes through logical types and makes none changes the core. -/
theorem core_comm {f : Schema → Schema}
    (hlogical : ∀ base logicalType, (f (.logical base logicalType)).core = (f base).core)
    (hbare : ∀ schema : Schema, schema.outermost? = none → (f schema).outermost? = none)
    (schema : Schema) : (f schema).core = f schema.core := by
  induction schema using core_induction with
  | logical base logicalType ih => exact (hlogical base logicalType).trans ih
  | bare schema h => rw [core_eq_self h, core_eq_self (hbare schema h)]

/-- What takes no notice of a logical type is the same for the core. -/
theorem apply_core {α : Type} (f : Schema → α)
    (h : ∀ base logicalType, f (.logical base logicalType) = f base) (schema : Schema) :
    f schema.core = f schema := by
  induction schema using core_induction with
  | logical base logicalType ih => exact ih.trans (h base logicalType).symm
  | bare schema hbare => rw [core_eq_self hbare]

theorem decimal?_eq_none {schema : Schema} (h : schema.outermost? = none) :
    schema.decimal? = none := by
  cases schema with
  | logical => cases h
  | _ => rfl

/-- A decimal that is outermost is the outermost decimal. -/
theorem decimal?_of_outermost? {schema : Schema} {precision scale : Nat}
    (h : schema.outermost? = some (.decimal precision scale)) :
    schema.decimal? = some (precision, scale) := by
  cases schema <;> cases h
  rfl

/-! ## The keys of each type -/

/-- The keys that a logical type may add. -/
def markKeys : List String :=
  ["logicalType", "precision", "scale"]

theorem lastValue?_of_not_mem {key : String} (h : key ∉ markKeys) (logicalType : LogicalType) :
    lastValue? key logicalType.entries = none := by
  simp only [markKeys, List.mem_cons, List.not_mem_nil, or_false, not_or] at h
  cases logicalType <;> simp [LogicalType.entries, lastValue?, h]

section

variable (heading : Heading) (kind : Kind) (key : String)

theorem lastValue?_heading : lastValue? key (heading.entries kind) =
    if key = "type" then some (.string kind.name)
    else if key = "namespace" then heading.space?.map .string
    else if key = "name" then some (.string heading.name)
    else if key = "aliases" ∧ heading.aliases ≠ [] then some (.ofStrings heading.aliases)
    else none := by
  simp only [Heading.entries, Literal.lastValue?_append, Literal.lastValue?_aliasEntries,
    Literal.lastValue?_toList, lastValue?, Option.none_or]
  by_cases htype : key = "type"
  · simp [htype]
  by_cases hspace : key = "namespace"
  · simp [hspace]
  by_cases hname : key = "name"
  · simp [hname]
  simp [htype, hspace, hname]

end

@[simp]
theorem key?_primitive (type : Primitive) (key : String) :
    key? (.primitive type) key = if key = "type" then some (.string type.name) else none := by
  simp [key?, form, Literal.keyed, lastValue?]

@[simp]
theorem key?_reference (name key : String) :
    key? (.reference name) key = if key = "type" then some (.string name) else none := by
  simp [key?, form, Literal.keyed, lastValue?]

@[simp]
theorem key?_union (branches : List Schema) (key : String) : key? (.union branches) key =
    if key = "type" then some (.array (branchForms branches)) else none := by
  simp [key?, form, Literal.keyed, lastValue?]

@[simp]
theorem key?_array (items : Schema) (key : String) : key? (.array items) key =
    if key = "type" then some (.string "array")
    else if key = "items" then some items.form else none := by
  rw [key?, form, Literal.lastValue?_keyed_ofEntries]
  by_cases h : key = "type" <;> simp [lastValue?, h, Kind.name]

@[simp]
theorem key?_map (values : Schema) (key : String) : key? (.map values) key =
    if key = "values" then some values.form
    else if key = "type" then some (.string "map") else none := by
  rw [key?, form, Literal.lastValue?_keyed_ofEntries]
  by_cases h : key = "values" <;> simp [lastValue?, h, Kind.name]

@[simp]
theorem key?_record (heading : Heading) (fields : List (Field Schema)) (key : String) :
    key? (.record heading fields) key =
      if key = "fields" then some (.array (fieldForms fields))
      else lastValue? key (heading.entries .record) := by
  rw [key?, form, Literal.lastValue?_keyed_ofEntries, Literal.lastValue?_append]
  by_cases h : key = "fields" <;> simp [lastValue?, h]

@[simp]
theorem key?_fixed (heading : Heading) (size : Nat) (key : String) :
    key? (.fixed heading size) key =
      if key = "size" then some (.integer size)
      else lastValue? key (heading.entries .fixed) := by
  rw [key?, form, Literal.lastValue?_keyed_ofEntries, Literal.lastValue?_append]
  by_cases h : key = "size" <;> simp [lastValue?, h]

@[simp]
theorem key?_enum (heading : Heading) (symbols : List String) (default? : Option String)
    (key : String) : key? (.enum heading symbols default?) key =
      if key = "default" then default?.map .string
      else if key = "symbols" then some (.ofStrings symbols)
      else lastValue? key (heading.entries .enum) := by
  rw [key?, form, Literal.lastValue?_keyed_ofEntries, Literal.lastValue?_append,
    Literal.lastValue?_append, Literal.lastValue?_toList]
  by_cases hdefault : key = "default"
  · simp [hdefault, lastValue?, lastValue?_heading]
  · by_cases hsymbols : key = "symbols" <;> simp [hdefault, hsymbols, lastValue?]

/-- Without a logical type there is none of its keys. -/
theorem key?_mark {schema : Schema} (h : schema.outermost? = none) {key : String}
    (hkey : key ∈ markKeys) : schema.key? key = none := by
  simp only [markKeys, List.mem_cons, List.not_mem_nil, or_false] at hkey
  cases schema with
  | logical => cases h
  | _ => rcases hkey with rfl | rfl | rfl <;> simp [lastValue?_heading]

theorem key?_logicalType (schema : Schema) :
    schema.key? "logicalType" = schema.outermost?.map fun type => .string type.name := by
  cases schema with
  | logical base logicalType =>
    rw [key?_logical]
    cases logicalType <;> simp [LogicalType.entries, lastValue?, outermost?]
  | _ => exact key?_mark rfl (by decide)

theorem key?_precision (schema : Schema) :
    schema.key? "precision" = schema.decimal?.map fun decimal => .integer decimal.1 := by
  induction schema using core_induction with
  | logical base logicalType ih =>
    rw [key?_logical, ih]
    cases logicalType <;> simp [LogicalType.entries, lastValue?, decimal?]
  | bare schema h =>
    rw [decimal?_eq_none h]
    exact key?_mark h (by decide)

theorem key?_scale (schema : Schema) :
    schema.key? "scale" = schema.decimal?.map fun decimal => .integer decimal.2 := by
  induction schema using core_induction with
  | logical base logicalType ih =>
    rw [key?_logical, ih]
    cases logicalType <;> simp [LogicalType.entries, lastValue?, decimal?]
  | bare schema h =>
    rw [decimal?_eq_none h]
    exact key?_mark h (by decide)

theorem key?_core {key : String} (h : key ∉ markKeys) (schema : Schema) :
    schema.key? key = schema.core.key? key := by
  refine (apply_core (key? · key) (fun base logicalType => ?_) schema).symm
  rw [key?_logical, lastValue?_of_not_mem h, Option.none_or]

theorem decimal?_eq_of_key? {schema other : Schema}
    (h : ∀ key, schema.key? key = other.key? key) : schema.decimal? = other.decimal? := by
  have hprecision := h "precision"
  have hscale := h "scale"
  rw [key?_precision, key?_precision] at hprecision
  rw [key?_scale, key?_scale] at hscale
  cases hdecimal : schema.decimal? <;> cases hdecimal' : other.decimal? <;>
    simp_all [Prod.ext_iff]

theorem outermost?_eq_of_key? {schema other : Schema}
    (h : ∀ key, schema.key? key = other.key? key) : schema.outermost? = other.outermost? := by
  have hname := h "logicalType"
  have hdecimal := decimal?_eq_of_key? h
  rw [key?_logicalType, key?_logicalType] at hname
  cases houter : schema.outermost? with
  | none =>
    rw [houter] at hname
    exact (Option.map_eq_none_iff.1 hname.symm).symm
  | some logicalType =>
    rw [houter] at hname
    obtain ⟨logicalType', houter', hname'⟩ := Option.map_eq_some_iff.1 hname.symm
    rw [houter']
    rcases LogicalType.eq_or_decimal (Literal.string.inj hname') with
      rfl | ⟨precision, scale, precision', scale', rfl, rfl⟩
    · rfl
    · -- Two decimals outermost: each is the outermost decimal of its schema.
      rw [decimal?_of_outermost? houter, decimal?_of_outermost? houter', Option.some.injEq,
        Prod.mk.injEq] at hdecimal
      rw [hdecimal.1, hdecimal.2]

/-- All that shows of the logical types above a core is the outermost one and the outermost
decimal. -/
theorem key?_eq_iff {schema other : Schema} :
    (∀ key, schema.key? key = other.key? key) ↔
      schema.outermost? = other.outermost? ∧ schema.decimal? = other.decimal? ∧
        ∀ key ∉ markKeys, schema.core.key? key = other.core.key? key := by
  refine ⟨fun h => ⟨outermost?_eq_of_key? h, decimal?_eq_of_key? h, fun key hkey => ?_⟩, ?_⟩
  · rw [← key?_core hkey, ← key?_core hkey, h]
  · rintro ⟨houter, hdecimal, hcore⟩ key
    by_cases hkey : key ∈ markKeys
    · simp only [markKeys, List.mem_cons, List.not_mem_nil, or_false] at hkey
      rcases hkey with rfl | rfl | rfl
      · rw [key?_logicalType, key?_logicalType, houter]
      · rw [key?_precision, key?_precision, hdecimal]
      · rw [key?_scale, key?_scale, hdecimal]
    · rw [key?_core hkey schema, key?_core hkey other, hcore key hkey]

/-- Schemas with logical types have one form if they agree in every key. -/
theorem form_eq_of_key?_eq {schema other : Schema} (h : schema.outermost? ≠ none)
    (hkeys : ∀ key, schema.key? key = other.key? key) : schema.form = other.form := by
  have hother : other.outermost? ≠ none := outermost?_eq_of_key? hkeys ▸ h
  cases schema with
  | logical base logicalType =>
    cases other with
    | logical base' logicalType' =>
      rw [form, form, LogicalType.annotate_eq, LogicalType.annotate_eq, Literal.ofEntries_inj]
      intro key
      have hkey := hkeys key
      rwa [key?, key?, form, form, LogicalType.annotate_eq, LogicalType.annotate_eq,
        Literal.lastValue?_keyed_ofEntries, Literal.lastValue?_keyed_ofEntries] at hkey
    | _ => exact absurd rfl hother
  | _ => exact absurd rfl h

end Schema

end AvroResolution
