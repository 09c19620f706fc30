import AvroResolution.Compilation.Matching
import AvroResolution.Program
import Mathlib.Data.List.Induction
import Mathlib.Data.List.Nodup

/-!
# Laws of matching fields

Which reader field reads which writer field, and which reader fields are read at
all.

* `Links.getElem?_byName`: of the reader fields with the name of a writer field,
  the last one reads it.
* `Links.source`, `Links.named` and `Links.eq_of_index_eq` describe the links as a
  whole: each one goes by name or by alias, a field goes by alias only if the
  writer lacks its name, and no reader field reads two writer fields.
* `Matching.mem_readers`: the reader fields that a matching provides are those
  that are not `Shadowed` by a later field of the same name.
  `Matching.nodup_readers`: it provides each of them once.
-/

namespace AvroResolution

/-! ## Fields and their positions -/

namespace ReaderField

theorem mem_ofFields {fields : List (Field Node)} {reader : ReaderField} :
    reader ∈ ofFields fields ↔ fields[reader.index]? = some reader.field := by
  rcases reader with ⟨index, field⟩
  simp only [ofFields, List.mem_map, Prod.exists, ReaderField.mk.injEq]
  constructor
  · rintro ⟨_, _, h, rfl, rfl⟩
    exact List.mem_zipIdx_iff_getElem?.1 h
  · intro h
    exact ⟨field, index, List.mem_zipIdx_iff_getElem?.2 h, rfl, rfl⟩

theorem map_index_ofFields (fields : List (Field Node)) :
    (ofFields fields).map (·.index) = List.range fields.length := by
  rw [List.range_eq_range', ← List.zipIdx_map_snd 0 fields, ofFields, List.map_map]
  rfl

theorem sorted_ofFields (fields : List (Field Node)) :
    (ofFields fields).Pairwise (·.index < ·.index) := by
  have h : ((ofFields fields).map (·.index)).Pairwise (· < ·) := by
    rw [map_index_ofFields]
    exact List.pairwise_lt_range
  exact List.pairwise_map.1 h

theorem eq_of_index_eq {fields : List (Field Node)} {reader other : ReaderField}
    (h : reader ∈ ofFields fields) (h' : other ∈ ofFields fields)
    (hindex : reader.index = other.index) : reader = other := by
  rcases reader with ⟨index, field⟩
  rcases other with ⟨index', field'⟩
  obtain rfl : index = index' := hindex
  rw [mem_ofFields] at h h'
  rw [h] at h'
  cases h'
  rfl

theorem index_lt {fields : List (Field Node)} {reader : ReaderField}
    (h : reader ∈ ofFields fields) : reader.index < fields.length :=
  (List.getElem?_eq_some_iff.1 (mem_ofFields.1 h)).1

end ReaderField

theorem lt_of_fieldIndex? {fields : List (Field Node)} {name : String} {index : Nat}
    (h : fieldIndex? fields name = some index) : index < fields.length :=
  (List.findIdx?_eq_some_iff_getElem.1 h).1

theorem fieldIndex?_eq_some {fields : List (Field Node)} {name : String} {index : Nat}
    (h : fieldIndex? fields name = some index) :
    ∃ field, fields[index]? = some field ∧ field.name = name := by
  obtain ⟨hlt, hname, _⟩ := List.findIdx?_eq_some_iff_getElem.1 h
  exact ⟨fields[index], List.getElem?_eq_getElem hlt, by simpa using hname⟩

/-- A later reader field has the same name, and the writer has a field of that
name. -/
def Shadowed (writer reader : List (Field Node)) (field : ReaderField) : Prop :=
  (fieldIndex? writer field.field.name).isSome ∧
    ∃ later ∈ ReaderField.ofFields reader,
      later.field.name = field.field.name ∧ field.index < later.index

theorem not_shadowed_of_none {writer reader : List (Field Node)} {field : ReaderField}
    (h : fieldIndex? writer field.field.name = none) : ¬Shadowed writer reader field := by
  rintro ⟨hsome, _⟩
  rw [h] at hsome
  cases hsome

namespace Links

variable {config : Config} {writer reader : List (Field Node)} {links : Links}

/-! ## Links by name -/

/-- Links by name only. -/
def byName (writer : List (Field Node)) (readers : List ReaderField) : Links :=
  readers.foldl (linkByName writer) (List.replicate writer.length none)

theorem length_byName (writer : List (Field Node)) (readers : List ReaderField) :
    (byName writer readers).length = writer.length := by
  induction readers using List.reverseRecOn with
  | nil => exact List.length_replicate
  | append_singleton readers reader ih =>
    rw [byName, List.foldl_append, List.foldl_cons, List.foldl_nil, linkByName, ← byName]
    split
    · rw [List.length_set, ih]
    · exact ih

/-- The last reader field of a name is linked to the writer field of that name.
The induction adds reader fields at the end. -/
theorem getElem?_byName (readers : List ReaderField) {index : Nat}
    (hindex : index < writer.length) :
    (byName writer readers)[index]? =
      some (readers.filter fun reader =>
        fieldIndex? writer reader.field.name = some index).getLast? := by
  induction readers using List.reverseRecOn with
  | nil => simp [byName, hindex]
  | append_singleton readers reader ih =>
    have hlength := length_byName writer readers
    rw [byName, List.foldl_append, List.foldl_cons, List.foldl_nil, linkByName, ← byName,
      List.filter_append]
    cases hname : fieldIndex? writer reader.field.name with
    | none => simpa [hname] using ih
    | some other =>
      by_cases hother : other = index
      · subst hother
        simp [hname, hlength, hindex]
      · simpa [hname, hother, List.getElem?_set_ne] using ih

theorem name_eq_of_fieldIndex? {name other : String} {index : Nat}
    (h : fieldIndex? writer name = some index) (h' : fieldIndex? writer other = some index) :
    name = other := by
  obtain ⟨field, hfield, rfl⟩ := fieldIndex?_eq_some h
  obtain ⟨field', hfield', rfl⟩ := fieldIndex?_eq_some h'
  rw [hfield] at hfield'
  cases hfield'
  rfl

/-- The field that is linked to a writer field by name is not shadowed. -/
theorem of_getElem?_byName {index : Nat} {field : ReaderField}
    (h : (byName writer (ReaderField.ofFields reader))[index]? = some (some field)) :
    field ∈ ReaderField.ofFields reader ∧ fieldIndex? writer field.field.name = some index ∧
      ¬Shadowed writer reader field := by
  have hindex : index < writer.length := by
    rw [← length_byName writer (ReaderField.ofFields reader)]
    exact (List.getElem?_eq_some_iff.1 h).1
  rw [getElem?_byName _ hindex, Option.some.injEq] at h
  have hmem := List.mem_of_getLast? h
  rw [List.mem_filter, decide_eq_true_eq] at hmem
  refine ⟨hmem.1, hmem.2, ?_⟩
  rintro ⟨_, later, hlater, hname, hlt⟩
  obtain ⟨front, hfilter⟩ := List.getLast?_eq_some_iff.1 h
  have hlater' : later ∈ front ++ [field] := by
    rw [← hfilter, List.mem_filter, decide_eq_true_eq, hname]
    exact ⟨hlater, hmem.2⟩
  have hsorted := (ReaderField.sorted_ofFields reader).filter
    fun field => decide (fieldIndex? writer field.field.name = some index)
  rw [hfilter, List.pairwise_append] at hsorted
  rcases List.mem_append.1 hlater' with hfront | hlast
  · have := hsorted.2.2 later hfront field (.head _)
    omega
  · rw [List.mem_singleton.1 hlast] at hlt
    exact Nat.lt_irrefl _ hlt

theorem getElem?_byName_of_not_shadowed {index : Nat} {field : ReaderField}
    (hfield : field ∈ ReaderField.ofFields reader)
    (hname : fieldIndex? writer field.field.name = some index)
    (hfree : ¬Shadowed writer reader field) :
    (byName writer (ReaderField.ofFields reader))[index]? = some (some field) := by
  have hget := getElem?_byName (ReaderField.ofFields reader) (lt_of_fieldIndex? hname)
  cases hlast : ((ReaderField.ofFields reader).filter
      fun field => decide (fieldIndex? writer field.field.name = some index)).getLast? with
  | none =>
    rw [List.getLast?_eq_none_iff, List.filter_eq_nil_iff] at hlast
    exact absurd (by simpa using hname) (hlast field hfield)
  | some last =>
    rw [hlast] at hget
    obtain ⟨hmem, hname', hfree'⟩ := of_getElem?_byName hget
    have hsame := name_eq_of_fieldIndex? hname hname'
    have hle : ¬field.index < last.index := fun hlt =>
      hfree ⟨by rw [hname]; rfl, last, hmem, hsame.symm, hlt⟩
    have hge : ¬last.index < field.index := fun hlt =>
      hfree' ⟨by rw [hname']; rfl, field, hfield, hsame, hlt⟩
    rwa [ReaderField.eq_of_index_eq hfield hmem (by omega)]

/-! ## Links by alias -/

/-- An alias of a reader field whose name the writer lacks names a writer
field. -/
def Aliased (writer : List (Field Node)) (field : ReaderField) (index : Nat) : Prop :=
  fieldIndex? writer field.field.name = none ∧
    ∃ name ∈ field.field.aliases, fieldIndex? writer name = some index

theorem of_claim? {field : ReaderField} {index : Nat}
    (h : links.claim? writer field = some index) :
    (∃ name ∈ field.field.aliases, fieldIndex? writer name = some index) ∧
      links[index]?.join = none := by
  obtain ⟨name, halias, hsome⟩ := List.exists_of_findSome?_eq_some h
  split at hsome
  · rename_i found hfound
    split at hsome
    · cases hsome
      exact ⟨⟨name, halias, hfound⟩, by simpa using ‹links[index]?.join.isNone = true›⟩
    · cases hsome
  · cases hsome

/-- A link by alias goes to a writer field that was free. -/
theorem linkByAlias_cases (writer : List (Field Node)) (links : Links) (field : ReaderField) :
    linkByAlias writer links field = links ∨
      ∃ index, Aliased writer field index ∧ links[index]?.join = none ∧
        linkByAlias writer links field = links.set index (some field) := by
  rw [linkByAlias]
  cases hname : fieldIndex? writer field.field.name with
  | some _ => exact .inl rfl
  | none =>
    cases hclaim : links.claim? writer field with
    | none => exact .inl rfl
    | some index =>
      obtain ⟨halias, hfree⟩ := of_claim? hclaim
      exact .inr ⟨index, ⟨hname, halias⟩, hfree, rfl⟩

theorem length_linkByAlias (writer : List (Field Node)) (links : Links) (field : ReaderField) :
    (linkByAlias writer links field).length = links.length := by
  rcases linkByAlias_cases writer links field with h | ⟨index, _, _, h⟩
  · rw [h]
  · rw [h, List.length_set]

/-- Links by alias after the links that there are. -/
def addAliases (writer : List (Field Node)) (links : Links) (readers : List ReaderField) : Links :=
  readers.foldl (linkByAlias writer) links

theorem addAliases_concat (writer : List (Field Node)) (links : Links)
    (readers : List ReaderField) (field : ReaderField) :
    addAliases writer links (readers ++ [field]) =
      linkByAlias writer (addAliases writer links readers) field := by
  rw [addAliases, List.foldl_append, List.foldl_cons, List.foldl_nil, addAliases]

theorem length_addAliases (writer : List (Field Node)) (links : Links)
    (readers : List ReaderField) : (addAliases writer links readers).length = links.length := by
  induction readers using List.reverseRecOn with
  | nil => rfl
  | append_singleton readers field ih =>
    rw [addAliases_concat, length_linkByAlias, ih]

/-- A link that is there stays. -/
theorem addAliases_keeps (readers : List ReaderField) {index : Nat} {field : ReaderField}
    (h : links[index]? = some (some field)) :
    (addAliases writer links readers)[index]? = some (some field) := by
  induction readers using List.reverseRecOn with
  | nil => exact h
  | append_singleton readers other ih =>
    rw [addAliases_concat]
    rcases linkByAlias_cases writer (addAliases writer links readers) other with
      hstep | ⟨taken, _, hfree, hstep⟩
    · rw [hstep, ih]
    · have hne : taken ≠ index := by
        rintro rfl
        rw [ih] at hfree
        cases hfree
      rw [hstep, List.getElem?_set_ne hne, ih]

/-- A new link goes by alias. -/
theorem addAliases_source (readers : List ReaderField) {index : Nat} {field : ReaderField}
    (h : (addAliases writer links readers)[index]? = some (some field)) :
    links[index]? = some (some field) ∨ field ∈ readers ∧ Aliased writer field index := by
  induction readers using List.reverseRecOn with
  | nil => exact .inl h
  | append_singleton readers other ih =>
    have hearlier : (addAliases writer links readers)[index]? = some (some field) →
        links[index]? = some (some field) ∨
          field ∈ readers ++ [other] ∧ Aliased writer field index := by
      intro h
      rcases ih h with h | ⟨hmem, halias⟩
      · exact .inl h
      · exact .inr ⟨List.mem_append_left _ hmem, halias⟩
    rw [addAliases_concat] at h
    rcases linkByAlias_cases writer (addAliases writer links readers) other with
      hstep | ⟨taken, halias, _, hstep⟩
    · rw [hstep] at h
      exact hearlier h
    · rw [hstep] at h
      by_cases hne : taken = index
      · subst hne
        rw [List.getElem?_set_self'] at h
        cases hold : (addAliases writer links readers)[taken]? with
        | none => simp [hold] at h
        | some _ =>
          obtain rfl : other = field := by simpa [hold] using h
          exact .inr ⟨List.mem_append_right _ (.head _), halias⟩
      · rw [List.getElem?_set_ne hne] at h
        exact hearlier h

/-! ## All links -/

theorem ofFields_eq (config : Config) (writer reader : List (Field Node)) :
    ofFields config writer reader =
      if config.fieldAliases then
        addAliases writer (byName writer (ReaderField.ofFields reader))
          (ReaderField.ofFields reader)
      else byName writer (ReaderField.ofFields reader) := rfl

theorem length_ofFields (config : Config) (writer reader : List (Field Node)) :
    (ofFields config writer reader).length = writer.length := by
  rw [ofFields_eq]
  split
  · rw [length_addAliases, length_byName]
  · exact length_byName _ _

/-- A link goes by name, or by alias when aliases are allowed. -/
theorem source {index : Nat} {field : ReaderField}
    (h : (ofFields config writer reader)[index]? = some (some field)) :
    field ∈ ReaderField.ofFields reader ∧
      (fieldIndex? writer field.field.name = some index ∧ ¬Shadowed writer reader field ∨
        config.fieldAliases ∧ Aliased writer field index) := by
  rw [ofFields_eq] at h
  split at h
  · rcases addAliases_source _ h with h | ⟨hmem, halias⟩
    · obtain ⟨hmem, hname, hfree⟩ := of_getElem?_byName h
      exact ⟨hmem, .inl ⟨hname, hfree⟩⟩
    · exact ⟨hmem, .inr ⟨‹_›, halias⟩⟩
  · obtain ⟨hmem, hname, hfree⟩ := of_getElem?_byName h
    exact ⟨hmem, .inl ⟨hname, hfree⟩⟩

/-- A reader field whose name the writer has is linked by name, unless it is
shadowed. -/
theorem named {index : Nat} {field : ReaderField} (hfield : field ∈ ReaderField.ofFields reader)
    (hname : fieldIndex? writer field.field.name = some index)
    (hfree : ¬Shadowed writer reader field) :
    (ofFields config writer reader)[index]? = some (some field) := by
  have h := getElem?_byName_of_not_shadowed hfield hname hfree
  rw [ofFields_eq]
  split
  · exact addAliases_keeps _ h
  · exact h

/-- The induction adds reader fields at the end, so a new link is to a field that
comes after all that were linked by alias. -/
theorem addAliases_injective (readers : List ReaderField)
    (hsorted : readers.Pairwise (·.index < ·.index))
    (hmem : ∀ field ∈ readers, field ∈ ReaderField.ofFields reader)
    {index other : Nat} {field field' : ReaderField}
    (h : (addAliases writer (byName writer (ReaderField.ofFields reader)) readers)[index]? =
      some (some field))
    (h' : (addAliases writer (byName writer (ReaderField.ofFields reader)) readers)[other]? =
      some (some field'))
    (hindex : field.index = field'.index) : index = other := by
  induction readers using List.reverseRecOn generalizing index other field field' with
  | nil =>
    obtain ⟨hfield, hname, _⟩ := of_getElem?_byName h
    obtain ⟨hfield', hname', _⟩ := of_getElem?_byName h'
    obtain rfl := ReaderField.eq_of_index_eq hfield hfield' hindex
    rw [hname] at hname'
    exact Option.some.inj hname'
  | append_singleton readers last ih =>
    rw [List.pairwise_append] at hsorted
    have hmem' : ∀ field ∈ readers, field ∈ ReaderField.ofFields reader :=
      fun field h => hmem field (List.mem_append_left _ h)
    have hlast := hmem last (List.mem_append_right _ (.head _))
    -- Before the last step no writer field is linked to the last reader field.
    have hfresh : ∀ (index : Nat) (field : ReaderField),
        (addAliases writer (byName writer (ReaderField.ofFields reader)) readers)[index]? =
          some (some field) →
        fieldIndex? writer last.field.name = none → field.index ≠ last.index := by
      intro index field hget hnone hsame
      rcases addAliases_source _ hget with hget | ⟨hearlier, _⟩
      · obtain ⟨hfield, hname, _⟩ := of_getElem?_byName hget
        obtain rfl := ReaderField.eq_of_index_eq hfield hlast hsame
        rw [hnone] at hname
        cases hname
      · have := hsorted.2.2 field hearlier last (.head _)
        omega
    rw [addAliases_concat] at h h'
    rcases linkByAlias_cases writer
        (addAliases writer (byName writer (ReaderField.ofFields reader)) readers) last with
      hstep | ⟨taken, halias, _, hstep⟩
    · rw [hstep] at h h'
      exact ih hsorted.1 hmem' h h' hindex
    · rw [hstep, List.getElem?_set] at h h'
      by_cases hi : taken = index <;> by_cases hj : taken = other
      · rw [← hi, ← hj]
      · rw [if_neg hj] at h'
        rw [if_pos hi] at h
        split at h
        · cases h
          exact absurd hindex.symm (hfresh other field' h' halias.1)
        · cases h
      · rw [if_neg hi] at h
        rw [if_pos hj] at h'
        split at h'
        · cases h'
          exact absurd hindex (hfresh index field h halias.1)
        · cases h'
      · rw [if_neg hi] at h
        rw [if_neg hj] at h'
        exact ih hsorted.1 hmem' h h' hindex

/-- No reader field reads two writer fields. -/
theorem eq_of_index_eq {index other : Nat} {field field' : ReaderField}
    (h : (ofFields config writer reader)[index]? = some (some field))
    (h' : (ofFields config writer reader)[other]? = some (some field'))
    (hindex : field.index = field'.index) : index = other := by
  rw [ofFields_eq] at h h'
  split at h
  · rw [if_pos ‹_›] at h'
    exact addAliases_injective _ (ReaderField.sorted_ofFields reader) (fun _ h => h) h h' hindex
  · rw [if_neg ‹_›] at h'
    exact addAliases_injective [] .nil (fun _ h => absurd h List.not_mem_nil) h h' hindex

/-- The reader fields that are linked. -/
def readers (links : Links) : List ReaderField :=
  links.filterMap id

theorem mem_readers {field : ReaderField} :
    field ∈ links.readers ↔ ∃ index : Nat, links[index]? = some (some field) := by
  rw [readers, List.mem_filterMap]
  constructor
  · rintro ⟨_, hmem, rfl⟩
    exact List.mem_iff_getElem?.1 hmem
  · rintro ⟨index, h⟩
    exact ⟨some field, List.mem_iff_getElem?.2 ⟨index, h⟩, rfl⟩

theorem reads_iff {index : Nat} :
    links.reads index = true ↔ ∃ field ∈ links.readers, field.index = index := by
  simp only [reads, readers, List.any_eq_true, List.mem_filterMap, id]
  constructor
  · rintro ⟨link, hlink, hindex⟩
    split at hindex
    · rename_i field
      exact ⟨field, ⟨some field, hlink, rfl⟩, by simpa using hindex⟩
    · cases hindex
  · rintro ⟨field, ⟨_, hlink, rfl⟩, hindex⟩
    exact ⟨some field, hlink, by simpa using hindex⟩

theorem nodup_readers (config : Config) (writer reader : List (Field Node)) :
    ((ofFields config writer reader).readers.map (·.index)).Nodup := by
  rw [List.Nodup, List.pairwise_map, readers, List.pairwise_filterMap,
    List.pairwise_iff_getElem]
  intro i j hi hj hlt field hfield field' hfield' hindex
  have h : (ofFields config writer reader)[i]? = some (some field) := by
    rw [List.getElem?_eq_getElem hi, Option.some.injEq]
    exact hfield
  have h' : (ofFields config writer reader)[j]? = some (some field') := by
    rw [List.getElem?_eq_getElem hj, Option.some.injEq]
    exact hfield'
  exact absurd (eq_of_index_eq h h' hindex) (by omega)

end Links

/-! ## Matchings -/

namespace Matching

variable {config : Config} {writer reader : List (Field Node)} {matching : Matching}

/-- The reader fields that a matching provides, in the order of their arrival. -/
def readers (matching : Matching) : List ReaderField :=
  matching.links.readers ++ matching.defaulted.map (·.reader)

theorem of_defaults :
    ∀ {fields : List ReaderField} {defaulted : List DefaultedField},
      defaults fields = .ok defaulted →
        defaulted.map (·.reader) = fields ∧
          ∀ field ∈ defaulted, field.reader.field.default? = some field.default
  | [], _, h => by
    cases h
    exact ⟨rfl, fun _ h => absurd h List.not_mem_nil⟩
  | first :: rest, defaulted, h => by
    rw [defaults] at h
    split at h
    · cases h
    · rename_i literal hliteral
      cases hrest : defaults rest with
      | error name =>
        rw [hrest] at h
        cases h
      | ok others =>
        rw [hrest] at h
        cases h
        obtain ⟨hmap, hdefault⟩ := of_defaults hrest
        refine ⟨by rw [List.map_cons, hmap], ?_⟩
        intro field hfield
        rcases List.mem_cons.1 hfield with rfl | hfield
        · exact hliteral
        · exact hdefault field hfield

theorem of_ofFields (h : ofFields config writer reader = .ok matching) :
    matching.links = Links.ofFields config writer reader ∧
      matching.defaulted.map (·.reader) =
        unmatched (Links.ofFields config writer reader) writer reader ∧
      ∀ field ∈ matching.defaulted, field.reader.field.default? = some field.default := by
  rw [ofFields] at h
  cases hdefaults : defaults (unmatched (Links.ofFields config writer reader) writer reader) with
  | error name =>
    rw [hdefaults] at h
    cases h
  | ok defaulted =>
    rw [hdefaults] at h
    cases h
    exact ⟨rfl, of_defaults hdefaults⟩

theorem length_links (h : ofFields config writer reader = .ok matching) :
    matching.links.length = writer.length := by
  rw [(of_ofFields h).1, Links.length_ofFields]

theorem readers_eq (h : ofFields config writer reader = .ok matching) :
    matching.readers = (Links.ofFields config writer reader).readers ++
      unmatched (Links.ofFields config writer reader) writer reader := by
  obtain ⟨hlinks, hdefaulted, _⟩ := of_ofFields h
  rw [readers, hlinks, hdefaulted]

theorem mem_unmatched {field : ReaderField} :
    field ∈ unmatched (Links.ofFields config writer reader) writer reader ↔
      field ∈ ReaderField.ofFields reader ∧ fieldIndex? writer field.field.name = none ∧
        field ∉ (Links.ofFields config writer reader).readers := by
  have hreads (hmem : field ∈ ReaderField.ofFields reader) :
      (Links.ofFields config writer reader).reads field.index = true ↔
        field ∈ (Links.ofFields config writer reader).readers := by
    rw [Links.reads_iff]
    constructor
    · rintro ⟨other, hother, hindex⟩
      obtain ⟨index, hget⟩ := Links.mem_readers.1 hother
      rwa [← ReaderField.eq_of_index_eq (Links.source hget).1 hmem hindex]
    · intro h
      exact ⟨field, h, rfl⟩
  rw [unmatched, List.mem_filter, Bool.and_eq_true, Option.isNone_iff_eq_none,
    Bool.not_eq_true', ← Bool.not_eq_true]
  constructor
  · rintro ⟨hmem, hname, hunread⟩
    exact ⟨hmem, hname, fun h => hunread ((hreads hmem).2 h)⟩
  · rintro ⟨hmem, hname, hunread⟩
    exact ⟨hmem, hname, fun h => hunread ((hreads hmem).1 h)⟩

/-- A matching provides the reader fields that are not shadowed. -/
theorem mem_readers (h : ofFields config writer reader = .ok matching) {field : ReaderField} :
    field ∈ matching.readers ↔
      field ∈ ReaderField.ofFields reader ∧ ¬Shadowed writer reader field := by
  rw [readers_eq h, List.mem_append, mem_unmatched]
  constructor
  · rintro (hlinked | ⟨hmem, hname, _⟩)
    · obtain ⟨index, hget⟩ := Links.mem_readers.1 hlinked
      obtain ⟨hmem, ⟨_, hfree⟩ | ⟨_, hname, _⟩⟩ := Links.source hget
      · exact ⟨hmem, hfree⟩
      · exact ⟨hmem, not_shadowed_of_none hname⟩
    · exact ⟨hmem, not_shadowed_of_none hname⟩
  · rintro ⟨hmem, hfree⟩
    cases hname : fieldIndex? writer field.field.name with
    | some index => exact .inl (Links.mem_readers.2 ⟨index, Links.named hmem hname hfree⟩)
    | none =>
      by_cases hlinked : field ∈ (Links.ofFields config writer reader).readers
      · exact .inl hlinked
      · exact .inr ⟨hmem, rfl, hlinked⟩

theorem mem_of_linked (h : ofFields config writer reader = .ok matching) {field : Field Node}
    {link : ReaderField} (hlinked : (field, some link) ∈ writer.zip matching.links) :
    link ∈ ReaderField.ofFields reader := by
  obtain ⟨index, hget⟩ := List.mem_iff_getElem?.1 (List.of_mem_zip hlinked).2
  rw [(of_ofFields h).1] at hget
  exact (Links.source hget).1

theorem mem_of_defaulted (h : ofFields config writer reader = .ok matching)
    {field : DefaultedField} (hfield : field ∈ matching.defaulted) :
    field.reader ∈ ReaderField.ofFields reader := by
  have hmem : field.reader ∈ matching.defaulted.map (·.reader) := List.mem_map_of_mem hfield
  rw [(of_ofFields h).2.1] at hmem
  exact (mem_unmatched.1 hmem).1

/-- A matching provides no reader field twice. -/
theorem nodup_readers (h : ofFields config writer reader = .ok matching) :
    (matching.readers.map (·.index)).Nodup := by
  rw [readers_eq h, List.map_append, List.nodup_append']
  refine ⟨Links.nodup_readers config writer reader, ?_, ?_⟩
  · have hall : ((ReaderField.ofFields reader).map (·.index)).Nodup := by
      rw [ReaderField.map_index_ofFields]
      exact List.nodup_range
    exact hall.sublist (List.filter_sublist.map _)
  · intro index hlinked hunmatched
    obtain ⟨field, hfield, rfl⟩ := List.mem_map.1 hlinked
    obtain ⟨other, hother, hindex⟩ := List.mem_map.1 hunmatched
    obtain ⟨hmem, _, hunread⟩ := mem_unmatched.1 hother
    obtain ⟨position, hget⟩ := Links.mem_readers.1 hfield
    obtain rfl := ReaderField.eq_of_index_eq hmem (Links.source hget).1 hindex
    exact hunread hfield

/-- The last field of the reader's record is provided, as nothing shadows it. -/
theorem last_mem_readers (h : ofFields config writer reader = .ok matching) {last : ReaderField}
    (hlast : last ∈ ReaderField.ofFields reader) (hindex : last.index + 1 = reader.length) :
    last ∈ matching.readers := by
  refine (mem_readers h).2 ⟨hlast, ?_⟩
  rintro ⟨_, later, hlater, _, hlt⟩
  have := ReaderField.index_lt hlater
  omega

/-- Nothing shadows a field whose name is its own. -/
theorem not_shadowed_of_nodup (hnames : (reader.map (·.name)).Nodup) {field : ReaderField}
    (hfield : field ∈ ReaderField.ofFields reader) : ¬Shadowed writer reader field := by
  rintro ⟨_, later, hlater, hname, hlt⟩
  have hget := ReaderField.mem_ofFields.1 hfield
  have hget' := ReaderField.mem_ofFields.1 hlater
  have hsame : (reader.map (·.name))[field.index]? = (reader.map (·.name))[later.index]? := by
    rw [List.getElem?_map, List.getElem?_map, hget, hget', Option.map_some, Option.map_some,
      hname]
  have hindex := (List.getElem?_inj (by simpa using ReaderField.index_lt hfield) hnames).1 hsame
  omega

/-- Fields with names of their own are all provided. -/
theorem mem_readers_of_nodup (h : ofFields config writer reader = .ok matching)
    (hnames : (reader.map (·.name)).Nodup) {field : ReaderField}
    (hfield : field ∈ ReaderField.ofFields reader) : field ∈ matching.readers :=
  (mem_readers h).2 ⟨hfield, not_shadowed_of_nodup hnames hfield⟩

/-- No record lacks its own fields. -/
theorem unmatched_self (config : Config) (fields : List (Field Node)) :
    unmatched (Links.ofFields config fields fields) fields fields = [] := by
  rw [List.eq_nil_iff_forall_not_mem]
  intro field hfield
  obtain ⟨hmem, hname, _⟩ := mem_unmatched.1 hfield
  have hget := List.mem_of_getElem? (ReaderField.mem_ofFields.1 hmem)
  rw [fieldIndex?, List.findIdx?_eq_none_iff] at hname
  have := hname field.field hget
  simp at this

/-- Every record matches itself. -/
theorem exists_ofFields_self (config : Config) (fields : List (Field Node)) :
    ∃ matching, ofFields config fields fields = .ok matching :=
  ⟨_, by rw [ofFields, unmatched_self]; rfl⟩

/-- A field is found by its name where no other has that name. -/
theorem fieldIndex?_of_nodup (hnodup : (writer.map (·.name)).Nodup) {index : Nat}
    {field : Field Node} (hfield : writer[index]? = some field) :
    fieldIndex? writer field.name = some index := by
  obtain ⟨hlt, rfl⟩ := List.getElem?_eq_some_iff.1 hfield
  refine List.findIdx?_eq_some_iff_getElem.2 ⟨hlt, by simp, ?_⟩
  intro earlier hearlier
  simp only [decide_eq_true_eq]
  intro hname
  have hsame : (writer.map (·.name))[earlier]? = (writer.map (·.name))[index]? := by
    simp [hname, hlt, Nat.lt_trans hearlier hlt]
  have hindex := (List.getElem?_inj (by simp; omega) hnodup).1 hsame
  omega

/-- Fields of the same names, each of which is there once, are linked in their order. -/
theorem ofFields_of_names (config : Config) (hnames : writer.map (·.name) = reader.map (·.name))
    (hnodup : (writer.map (·.name)).Nodup) :
    ofFields config writer reader = .ok ⟨(ReaderField.ofFields reader).map some, []⟩ := by
  have hnodup' : (reader.map (·.name)).Nodup := hnames ▸ hnodup
  have hlength : writer.length = reader.length := by simpa using congrArg List.length hnames
  have hindex {field : ReaderField} (hfield : field ∈ ReaderField.ofFields reader) :
      fieldIndex? writer field.field.name = some field.index := by
    have hget := ReaderField.mem_ofFields.1 hfield
    have hname := congrArg (fun names : List String => names[field.index]?) hnames
    simp only [List.getElem?_map, hget, Option.map_some] at hname
    obtain ⟨source, hsource, hname⟩ := Option.map_eq_some_iff.1 hname
    rw [← hname]
    exact fieldIndex?_of_nodup hnodup hsource
  have hlinks : Links.ofFields config writer reader = (ReaderField.ofFields reader).map some := by
    refine List.ext_getElem? fun index => ?_
    by_cases hlt : index < reader.length
    · have hfield : (⟨index, reader[index]⟩ : ReaderField) ∈ ReaderField.ofFields reader :=
        ReaderField.mem_ofFields.2 (List.getElem?_eq_getElem hlt)
      rw [Links.named hfield (hindex hfield) (not_shadowed_of_nodup hnodup' hfield)]
      simp [ReaderField.ofFields, hlt]
    · rw [List.getElem?_eq_none (by rw [Links.length_ofFields]; omega),
        List.getElem?_eq_none (by simp [ReaderField.ofFields]; omega)]
  have hnone : unmatched (Links.ofFields config writer reader) writer reader = [] := by
    rw [List.eq_nil_iff_forall_not_mem]
    intro field hfield
    obtain ⟨hmem, hname, _⟩ := mem_unmatched.1 hfield
    rw [hindex hmem] at hname
    cases hname
  rw [ofFields, hnone, hlinks]
  rfl

/-- The place at which the value of a linked or defaulted field arrives. -/
def arrivals (matching : Matching) : List Arrival :=
  matching.readers.map fun reader => ⟨reader.field.name, reader.index⟩

theorem map_index_arrivals (matching : Matching) :
    matching.arrivals.map (·.index) = matching.readers.map (·.index) := by
  rw [arrivals, List.map_map]
  rfl

end Matching

end AvroResolution
