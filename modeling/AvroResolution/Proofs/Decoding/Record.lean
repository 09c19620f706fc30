import AvroResolution.Decoding.Record
import Mathlib.Data.List.Perm.Subperm

/-!
# Laws of putting fields in order

Fields that arrive once each, as many as there are slots, fill their record: each
slot gets one of them (`placeFields_of_lt`).  Otherwise some field has a place
beyond the end of its record, and that is the only way to fail
(`of_placeFields_error`).
-/

namespace AvroResolution

variable {arrivals : List Arrival} {values : List Value}

/-! ## Slots -/

theorem placeArrivals_of_lt :
    ∀ (pairs : List (Arrival × Value)) (slots : List FieldSlot),
      (∀ pair ∈ pairs, pair.1.index < slots.length) → (pairs.map (·.1.index)).Nodup →
        ∃ filled, placeArrivals pairs slots = .ok filled ∧ filled.length = slots.length ∧
          (∀ pair ∈ pairs, filled[pair.1.index]? = some (some (pair.1.name, pair.2))) ∧
          ∀ index, index ∉ pairs.map (·.1.index) → filled[index]? = slots[index]?
  | [], slots, _, _ => ⟨slots, rfl, rfl, fun _ h => absurd h List.not_mem_nil, fun _ _ => rfl⟩
  | (arrival, value) :: rest, slots, hlt, hnodup => by
    rw [List.map_cons, List.nodup_cons] at hnodup
    have hfirst := hlt _ (.head _)
    obtain ⟨filled, hplace, hlength, harrived, hother⟩ := placeArrivals_of_lt rest
      (slots.set arrival.index (some (arrival.name, value)))
      (fun pair h => by rw [List.length_set]; exact hlt pair (.tail _ h)) hnodup.2
    refine ⟨filled, by rw [placeArrivals, if_pos hfirst, hplace],
      by rw [hlength, List.length_set], ?_, ?_⟩
    · intro pair h
      rcases List.mem_cons.1 h with rfl | h
      · rw [hother _ hnodup.1, List.getElem?_set_self hfirst]
      · exact harrived pair h
    · intro index h
      rw [List.map_cons, List.mem_cons, not_or] at h
      rw [hother index h.2, List.getElem?_set_ne (fun heq => h.1 heq.symm)]

theorem of_placeArrivals_error :
    ∀ {pairs : List (Arrival × Value)} {slots : List FieldSlot} {fault : ProgramFault},
      placeArrivals pairs slots = .error fault →
        ∃ pair ∈ pairs, slots.length ≤ pair.1.index ∧
          fault = .readerIndex pair.1.name pair.1.index
  | [], _, _, h => by cases h
  | (arrival, value) :: rest, slots, fault, h => by
    rw [placeArrivals] at h
    split at h
    · obtain ⟨pair, hpair, hle, rfl⟩ := of_placeArrivals_error h
      exact ⟨pair, .tail _ hpair, by rwa [List.length_set] at hle, rfl⟩
    · cases h
      exact ⟨_, .head _, Nat.le_of_not_lt ‹_›, rfl⟩

theorem of_placeArrivals_ok :
    ∀ {pairs : List (Arrival × Value)} {slots filled : List FieldSlot},
      placeArrivals pairs slots = .ok filled → ∀ pair ∈ pairs, pair.1.index < slots.length
  | [], _, _, _, _, hpair => absurd hpair List.not_mem_nil
  | (arrival, value) :: rest, slots, filled, h, pair, hpair => by
    rw [placeArrivals] at h
    split at h
    · rcases List.mem_cons.1 hpair with rfl | hpair
      · assumption
      · have hlt := of_placeArrivals_ok h pair hpair
        rwa [List.length_set] at hlt
    · cases h

theorem filledSlots_map_some (fields : List (String × Value)) :
    filledSlots (fields.map some) = .ok fields := by
  induction fields with
  | nil => rfl
  | cons field rest ih => rw [List.map_cons, filledSlots, ih]; rfl

theorem exists_map_some :
    ∀ {slots : List FieldSlot}, (∀ slot ∈ slots, slot.isSome) →
      ∃ fields : List (String × Value), slots = fields.map some
  | [], _ => ⟨[], rfl⟩
  | none :: _, h => absurd (h none (.head _)) (by simp)
  | some field :: rest, h => by
    obtain ⟨fields, rfl⟩ := exists_map_some fun slot hslot => h slot (.tail _ hslot)
    exact ⟨field :: fields, rfl⟩

/-! ## Records -/

theorem mem_of_nodup_of_lt {indices : List Nat} (hnodup : indices.Nodup)
    (hlt : ∀ index ∈ indices, index < indices.length) {index : Nat}
    (h : index < indices.length) : index ∈ indices := by
  have hsubperm : indices.Subperm (List.range indices.length) :=
    List.subperm_of_subset hnodup fun index h => List.mem_range.2 (hlt index h)
  exact (hsubperm.perm_of_length_le (by simp)).mem_iff.2 (List.mem_range.2 h)

theorem map_index_zip (hlength : arrivals.length = values.length) :
    (arrivals.zip values).map (·.1.index) = arrivals.map (·.index) := by
  calc (arrivals.zip values).map (·.1.index)
      = ((arrivals.zip values).map Prod.fst).map (·.index) := by rw [List.map_map]; rfl
    _ = arrivals.map (·.index) := by rw [List.map_fst_zip (Nat.le_of_eq hlength)]

theorem lt_of_placeArrivals_ok (hlength : arrivals.length = values.length)
    {filled : List FieldSlot}
    (h : placeArrivals (arrivals.zip values) (List.replicate arrivals.length none) = .ok filled) :
    ∀ arrival ∈ arrivals, arrival.index < arrivals.length := by
  intro arrival harrival
  have hmem : arrival.index ∈ (arrivals.zip values).map (·.1.index) := by
    rw [map_index_zip hlength]
    exact List.mem_map_of_mem harrival
  obtain ⟨pair, hpair, hindex⟩ := List.mem_map.1 hmem
  have hlt := of_placeArrivals_ok h pair hpair
  rwa [hindex, List.length_replicate] at hlt

/-- Fields with places of their own inside the record fill it. -/
theorem placeFields_of_lt (hlength : arrivals.length = values.length)
    (hnodup : (arrivals.map (·.index)).Nodup)
    (hlt : ∀ arrival ∈ arrivals, arrival.index < arrivals.length) :
    ∃ fields, placeFields arrivals values = .ok (.record fields) ∧
      fields.length = arrivals.length ∧
      ∀ pair ∈ arrivals.zip values, fields[pair.1.index]? = some (pair.1.name, pair.2) := by
  obtain ⟨filled, hplace, hfilled, harrived, _⟩ := placeArrivals_of_lt
    (arrivals.zip values) (List.replicate arrivals.length none)
    (fun pair h => by rw [List.length_replicate]; exact hlt _ (List.of_mem_zip h).1)
    (by rwa [map_index_zip hlength])
  rw [List.length_replicate] at hfilled
  have hsome : ∀ slot ∈ filled, slot.isSome := by
    intro slot hslot
    obtain ⟨index, hindex, rfl⟩ := List.mem_iff_getElem.1 hslot
    have hmem : index ∈ (arrivals.zip values).map (·.1.index) := by
      rw [map_index_zip hlength]
      refine mem_of_nodup_of_lt hnodup ?_ (by rwa [List.length_map, ← hfilled])
      intro index h
      obtain ⟨arrival, harrival, rfl⟩ := List.mem_map.1 h
      rw [List.length_map]
      exact hlt arrival harrival
    obtain ⟨pair, hpair, rfl⟩ := List.mem_map.1 hmem
    have hget := harrived pair hpair
    rw [List.getElem?_eq_getElem hindex, Option.some.injEq] at hget
    rw [hget]
    rfl
  obtain ⟨fields, rfl⟩ := exists_map_some hsome
  refine ⟨fields, ?_, by rwa [List.length_map] at hfilled, ?_⟩
  · rw [placeFields, if_pos hlength, hplace]
    dsimp only [bind, Except.bind]
    rw [filledSlots_map_some]
    rfl
  · intro pair hpair
    have hget := harrived pair hpair
    rw [List.getElem?_map, Option.map_eq_some_iff] at hget
    obtain ⟨field, hfield, hsame⟩ := hget
    rw [hfield, Option.some.inj hsame]

theorem of_placeFields_ok {value : Value} (h : placeFields arrivals values = .ok value) :
    arrivals.length = values.length ∧ ∀ arrival ∈ arrivals, arrival.index < arrivals.length := by
  rw [placeFields] at h
  split at h
  · rename_i hlength
    refine ⟨hlength, ?_⟩
    cases hplace : placeArrivals (arrivals.zip values) (List.replicate arrivals.length none) with
    | error fault =>
      rw [hplace] at h
      cases h
    | ok filled => exact lt_of_placeArrivals_ok hlength hplace
  · cases h

/-- The only way to fail is a field whose place is beyond the end. -/
theorem of_placeFields_error {fault : ProgramFault} (hlength : arrivals.length = values.length)
    (hnodup : (arrivals.map (·.index)).Nodup) (h : placeFields arrivals values = .error fault) :
    ∃ arrival ∈ arrivals, arrivals.length ≤ arrival.index ∧
      fault = .readerIndex arrival.name arrival.index := by
  cases hplace : placeArrivals (arrivals.zip values) (List.replicate arrivals.length none) with
  | error cause =>
    obtain ⟨pair, hpair, hle, rfl⟩ := of_placeArrivals_error hplace
    rw [placeFields, if_pos hlength, hplace] at h
    cases h
    exact ⟨pair.1, (List.of_mem_zip hpair).1, by rwa [List.length_replicate] at hle, rfl⟩
  | ok filled =>
    obtain ⟨fields, hok, _⟩ :=
      placeFields_of_lt hlength hnodup (lt_of_placeArrivals_ok hlength hplace)
    rw [hok] at h
    cases h

end AvroResolution
