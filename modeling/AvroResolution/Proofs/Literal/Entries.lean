import AvroResolution.Literal
import Mathlib.Data.List.Nodup

/-!
# The entries of an object

`Literal.ofEntries` keeps one entry for each key, in the order of the keys.  Which entry that
is, `Literal.lastValue?` says of the entries that were given.

* `Literal.pairwise_insertEntry` and `Literal.pairwise_sorted`: the keys are in order.
* `Literal.entry?_insertEntry` and `Literal.entry?_sorted`: the value of a key.
* `Literal.ofEntries_inj`: two objects are the same exactly when every key has the same
  value in both.
-/

namespace AvroResolution

namespace Literal

variable {α : Type}

/-! ## The order of the keys -/

theorem mem_insertEntry {key : String} {value : α} {entries : List (String × α)}
    {entry : String × α} (h : entry ∈ insertEntry key value entries) :
    entry = (key, value) ∨ entry ∈ entries := by
  induction entries with
  | nil => exact .inl (List.mem_singleton.1 h)
  | cons first rest ih =>
    rcases first with ⟨other, kept⟩
    rw [insertEntry] at h
    split at h
    · exact List.mem_cons.1 h
    · split at h
      · exact (List.mem_cons.1 h).imp_right (.tail _)
      · rcases List.mem_cons.1 h with rfl | h
        · exact .inr (.head _)
        · exact (ih h).imp_right (.tail _)

theorem pairwise_insertEntry {entries : List (String × α)}
    (h : entries.Pairwise (·.1 < ·.1)) (key : String) (value : α) :
    (insertEntry key value entries).Pairwise (·.1 < ·.1) := by
  induction h with
  | nil => exact List.pairwise_singleton _ _
  | @cons first rest hfirst hrest ih =>
    rcases first with ⟨other, kept⟩
    rw [insertEntry]
    split
    · rename_i hless
      refine .cons (fun entry hentry => ?_) (.cons hfirst hrest)
      rcases List.mem_cons.1 hentry with rfl | hentry
      · exact hless
      · exact String.lt_trans hless (hfirst entry hentry)
    · split
      · rename_i hsame
        subst hsame
        exact .cons hfirst hrest
      · rename_i hless hne
        refine .cons (fun entry hentry => ?_) ih
        rcases mem_insertEntry hentry with rfl | hentry
        · refine Decidable.byContradiction fun hnot => hne ?_
          exact String.le_antisymm (String.not_lt.1 hnot) (String.not_lt.1 hless)
        · exact hfirst entry hentry

/-- The entries of the object that is built from some entries. -/
def sorted (entries : List (String × Literal)) : List (String × Literal) :=
  entries.foldl (fun sorted entry => insertEntry entry.1 entry.2 sorted) []

theorem ofEntries_eq (entries : List (String × Literal)) :
    ofEntries entries = .object (sorted entries) := rfl

/-- An object is built with its keys in order. -/
theorem pairwise_sorted (entries : List (String × Literal)) :
    (sorted entries).Pairwise (·.1 < ·.1) := by
  rw [sorted]
  generalize hstart : ([] : List (String × Literal)) = start
  have hpairwise : start.Pairwise (·.1 < ·.1) := hstart ▸ .nil
  clear hstart
  induction entries generalizing start with
  | nil => exact hpairwise
  | cons entry rest ih => exact ih _ (pairwise_insertEntry hpairwise entry.1 entry.2)

/-! ## The value of a key -/

/-- The value of the last entry with a key. -/
def lastValue? (key : String) : List (String × α) → Option α
  | [] => none
  | (other, value) :: rest => (lastValue? key rest).or (if key = other then some value else none)

theorem lastValue?_append (key : String) (entries others : List (String × α)) :
    lastValue? key (entries ++ others) = (lastValue? key others).or (lastValue? key entries) := by
  induction entries with
  | nil => simp [lastValue?]
  | cons entry rest ih =>
    rw [List.cons_append, lastValue?, lastValue?, ih, Option.or_assoc]

theorem entry?_cons (key other : String) (value : α) (rest : List (String × α)) :
    entry? key ((other, value) :: rest) = if key = other then some value else entry? key rest :=
  rfl

theorem entry?_map {β : Type} (f : α → β) (key : String) (entries : List (String × α)) :
    entry? key (entries.map fun entry => (entry.1, f entry.2)) =
      Option.map f ( entry? key entries) := by
  induction entries with
  | nil => rfl
  | cons entry rest ih =>
    rcases entry with ⟨other, value⟩
    rw [List.map_cons, entry?_cons, entry?_cons, ih]
    split <;> rfl

theorem entry?_insertEntry (key other : String) (value : α) (entries : List (String × α)) :
    entry? key (insertEntry other value entries) =
      if key = other then some value else entry? key entries := by
  induction entries with
  | nil => rfl
  | cons first rest ih =>
    rcases first with ⟨name, kept⟩
    rw [insertEntry]
    split
    · rfl
    · split
      · rename_i hsame
        subst hsame
        by_cases hkey : key = other
        · simp [entry?_cons, hkey]
        · simp [entry?_cons, hkey]
      · rename_i hne
        rw [entry?_cons, ih, entry?_cons]
        by_cases hkey : key = other
        · rw [if_pos hkey, if_pos hkey, if_neg (hkey ▸ hne)]
        · rw [if_neg hkey, if_neg hkey]

/-- In an object the last of several entries with one key counts. -/
theorem entry?_sorted (key : String) (entries : List (String × Literal)) :
    entry? key (sorted entries) = lastValue? key entries := by
  have hfold (start : List (String × Literal)) :
      entry? key (entries.foldl (fun sorted entry => insertEntry entry.1 entry.2 sorted) start) =
        (lastValue? key entries).or ( entry? key start) := by
    induction entries generalizing start with
    | nil => rfl
    | cons entry rest ih =>
      rw [List.foldl_cons, ih, entry?_insertEntry, lastValue?, Option.or_assoc]
      split <;> rfl
  rw [sorted, hfold, entry?, Option.or_none]

theorem entry?_eq_none {key : String} {entries : List (String × α)}
    (h : ∀ entry ∈ entries, key < entry.1) : entry? key entries = none := by
  induction entries with
  | nil => rfl
  | cons first rest ih =>
    rcases first with ⟨name, kept⟩
    have hne : key ≠ name := by
      rintro rfl
      exact String.lt_irrefl _ (h _ (.head _))
    rw [entry?_cons, if_neg hne, ih fun entry hentry => h entry (.tail _ hentry)]

/-- Where the keys are in order, no key comes twice. -/
theorem lastValue?_of_pairwise {entries : List (String × α)} (h : entries.Pairwise (·.1 < ·.1))
    (key : String) : lastValue? key entries = entry? key entries := by
  induction h with
  | nil => rfl
  | @cons first rest hfirst hrest ih =>
    rcases first with ⟨name, kept⟩
    rw [lastValue?, entry?, ih]
    by_cases hkey : key = name
    · subst hkey
      rw [entry?_eq_none hfirst, if_pos rfl]
      rfl
    · rw [if_neg hkey, if_neg hkey, Option.or_none]

/-- Entries in the order of their keys are known by the values of the keys. -/
theorem eq_of_values {entries others : List (String × α)} (h : entries.Pairwise (·.1 < ·.1))
    (hothers : others.Pairwise (·.1 < ·.1))
    (hvalues : ∀ key, entry? key entries = entry? key others) : entries = others := by
  induction h generalizing others with
  | nil =>
    cases others with
    | nil => rfl
    | cons other others =>
      rcases other with ⟨name, value⟩
      have hvalue := hvalues name
      rw [entry?_cons, if_pos rfl] at hvalue
      cases hvalue
  | @cons first rest hfirst hrest ih =>
    cases hothers with
    | nil =>
      rcases first with ⟨name, value⟩
      have hvalue := hvalues name
      rw [entry?_cons, if_pos rfl] at hvalue
      cases hvalue
    | @cons other others hother hothers =>
      rcases first with ⟨name, value⟩
      rcases other with ⟨name', value'⟩
      -- A key before all the others is missing from the other list.
      have hname : name = name' := by
        refine String.le_antisymm (String.not_lt.1 fun hless => ?_)
          (String.not_lt.1 fun hless => ?_)
        · have hvalue := hvalues name'
          rw [entry?_eq_none (List.forall_mem_cons.2 ⟨hless, fun entry hentry =>
            String.lt_trans hless (hfirst entry hentry)⟩), entry?, if_pos rfl] at hvalue
          cases hvalue
        · have hvalue := hvalues name
          have hnone : entry? name ((name', value') :: others) = none :=
            entry?_eq_none (List.forall_mem_cons.2
              ⟨hless, fun entry hentry => String.lt_trans hless (hother entry hentry)⟩)
          rw [hnone, entry?, if_pos rfl] at hvalue
          cases hvalue
      subst hname
      have hvalue := hvalues name
      rw [entry?_cons, entry?_cons, if_pos rfl, if_pos rfl] at hvalue
      obtain rfl := Option.some.inj hvalue
      refine congrArg _ (ih hothers fun key => ?_)
      by_cases hkey : key = name
      · rw [hkey, entry?_eq_none hfirst, entry?_eq_none hother]
      · have hrest := hvalues key
        rwa [entry?_cons, entry?_cons, if_neg hkey, if_neg hkey] at hrest

/-- Two objects are the same exactly when every key has the same value in both. -/
theorem ofEntries_inj {entries others : List (String × Literal)} :
    ofEntries entries = ofEntries others ↔
      ∀ key, lastValue? key entries = lastValue? key others := by
  rw [ofEntries_eq, ofEntries_eq, object.injEq]
  refine ⟨fun h key => ?_, fun h => ?_⟩
  · rw [← entry?_sorted, h, entry?_sorted]
  · refine eq_of_values (pairwise_sorted entries) (pairwise_sorted others) fun key => ?_
    rw [entry?_sorted, h, entry?_sorted]

end Literal

end AvroResolution
