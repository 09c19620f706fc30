import Mathlib.Data.List.Forall2

/-!
# Two lists side by side

What `List.Forall₂` says of single members, and when two lists have equal images.
-/

namespace AvroResolution

variable {α β : Type} {related : α → β → Prop} {items : List α} {others : List β}

/-- The members at one place are related. -/
theorem related_of_getElem? (h : List.Forall₂ related items others) {index : Nat} {item : α}
    {other : β} (hitem : items[index]? = some item) (hother : others[index]? = some other) :
    related item other := by
  obtain ⟨hindex, rfl⟩ := List.getElem?_eq_some_iff.1 hitem
  obtain ⟨hindex', rfl⟩ := List.getElem?_eq_some_iff.1 hother
  exact (List.forall₂_iff_get.1 h).2 index hindex hindex'

/-- At every place there are related members, or none at all. -/
theorem rel_getElem? (h : List.Forall₂ related items others) (index : Nat) :
    Option.Rel related items[index]? others[index]? := by
  induction h generalizing index with
  | nil => exact .none
  | cons hfirst _ ih =>
    cases index with
    | zero => exact .some hfirst
    | succ index => exact ih index

/-- Every member of the second list is related to one of the first. -/
theorem exists_of_forall₂_right (h : List.Forall₂ related items others) {other : β}
    (hother : other ∈ others) : ∃ item ∈ items, related item other := by
  obtain ⟨index, hindex', rfl⟩ := List.mem_iff_getElem.1 hother
  have hindex : index < items.length := by rwa [h.length_eq]
  exact ⟨items[index], List.getElem_mem hindex,
    related_of_getElem? h (List.getElem?_eq_getElem hindex) (List.getElem?_eq_getElem hindex')⟩

/-- Every member of the first list is related to one of the second. -/
theorem exists_of_forall₂_left (h : List.Forall₂ related items others) {item : α}
    (hitem : item ∈ items) : ∃ other ∈ others, related item other :=
  exists_of_forall₂_right h.flip hitem

/-- The first members are related. -/
theorem rel_head? (h : List.Forall₂ related items others) :
    Option.Rel related items.head? others.head? := by
  cases h with
  | nil => exact .none
  | cons hfirst _ => exact .some hfirst

/-- The last members are related. -/
theorem rel_getLast? (h : List.Forall₂ related items others) :
    Option.Rel related items.getLast? others.getLast? := by
  rw [List.getLast?_eq_head?_reverse, List.getLast?_eq_head?_reverse]
  exact rel_head? (List.forall₂_reverse_iff.2 h)

/-- The first members that pass tests are related, if related members pass alike. -/
theorem rel_find? {p : α → Bool} {q : β → Bool} (h : List.Forall₂ related items others)
    (hpasses : ∀ item other, related item other → p item = q other) :
    Option.Rel related (items.find? p) (others.find? q) := by
  rw [← List.head?_filter, ← List.head?_filter]
  exact rel_head? (List.rel_filter (fun item other hrelated =>
    Bool.eq_iff_iff.1 (hpasses item other hrelated)) h)

/-- The first members that pass tests stand at one place, if related members pass alike. -/
theorem findIdx?_eq_of_forall₂ {p : α → Bool} {q : β → Bool}
    (h : List.Forall₂ related items others)
    (hpasses : ∀ item other, related item other → p item = q other) :
    items.findIdx? p = others.findIdx? q := by
  induction h with
  | nil => rfl
  | cons hfirst _ ih => rw [List.findIdx?_cons, List.findIdx?_cons, hpasses _ _ hfirst, ih]

theorem forall₂_set {item : α} {other : β} (h : List.Forall₂ related items others)
    (hnew : related item other) (index : Nat) :
    List.Forall₂ related (items.set index item) (others.set index other) := by
  induction h generalizing index with
  | nil => exact .nil
  | cons hfirst hrest ih =>
    cases index with
    | zero => exact .cons hnew hrest
    | succ index => exact .cons hfirst (ih index)

theorem forall₂_zipIdx (h : List.Forall₂ related items others) (start : Nat) :
    List.Forall₂ (fun item other => related item.1 other.1 ∧ item.2 = other.2)
      (items.zipIdx start) (others.zipIdx start) := by
  induction h generalizing start with
  | nil => exact .nil
  | cons hfirst _ ih =>
    rw [List.zipIdx_cons, List.zipIdx_cons]
    exact .cons ⟨hfirst, rfl⟩ (ih (start + 1))

theorem exists_of_rel {found : Option α} {found' : Option β} {value : α}
    (h : Option.Rel related found found') (hvalue : found = some value) :
    ∃ value', found' = some value' ∧ related value value' := by
  subst hvalue
  cases h with
  | some h => exact ⟨_, rfl, h⟩

theorem exists_of_rel_right {found : Option α} {found' : Option β} {value' : β}
    (h : Option.Rel related found found') (hvalue : found' = some value') :
    ∃ value, found = some value ∧ related value value' := by
  subst hvalue
  cases h with
  | some h => exact ⟨_, rfl, h⟩

theorem rel_or {first second : Option α} {first' second' : Option β}
    (h : Option.Rel related first first') (h' : Option.Rel related second second') :
    Option.Rel related (first.or second) (first'.or second') := by
  cases h with
  | none => exact h'
  | some h => exact .some h

/-- Two lists with one image under `f` have one under `g`, if members with one image under
`f` do. -/
theorem map_eq_map_of {γ : Type} {f : α → β} {g : α → γ} {items others : List α}
    (hf : items.map f = others.map f)
    (h : ∀ item ∈ items, ∀ other ∈ others, f item = f other → g item = g other) :
    items.map g = others.map g := by
  induction items generalizing others with
  | nil =>
    cases others with
    | nil => rfl
    | cons other others => cases hf
  | cons item items ih =>
    cases others with
    | nil => cases hf
    | cons other others =>
      obtain ⟨hhead, htail⟩ := List.cons.inj hf
      rw [List.map_cons, List.map_cons, h item (.head _) other (.head _) hhead,
        ih htail fun _ hitem _ hother => h _ (.tail _ hitem) _ (.tail _ hother)]

end AvroResolution
