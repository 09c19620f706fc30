import AvroResolution.Proofs.Compilation.Trace
import Mathlib.Data.List.Perm.Basic

/-!
# The journal of an arena

The journal of a builder is its log from the beginning.  `Builder.replay` does again what a
journal says, and `Builder.Lawful.journal` says that this is logged.

* `Builder.Lawful`: every event of a journal is one that the builder allows at that time.  Only an
  empty slot is filled, and only a new key is bound.
* `Builder.Event.WritesOnce` is the law that slots and keys have in common, and
  `WritesOnce.iff_mem`, `WritesOnce.nodup` say what it means for a journal.
* `Program.Recorded` says what a journal tells about the program that is finished at its end
  (`Builder.Lawful.recorded`).
-/

namespace AvroResolution

namespace Builder

/-! ## Events -/

namespace Event

/-- The slot that an event adds. -/
def added? : Event → Option SymbolId
  | .push id _ => some id
  | .reserve id => some id
  | _ => none

/-- The slot that an event adds with a symbol in it. -/
def pushed? : Event → Option SymbolId
  | .push id _ => some id
  | _ => none

/-- The slot that an event adds empty. -/
def reserved? : Event → Option SymbolId
  | .reserve id => some id
  | _ => none

/-- The slot that an event fills. -/
def filled? : Event → Option SymbolId
  | .fill id _ => some id
  | _ => none

/-- The slot that an event puts a symbol into. -/
def written? : Event → Option (SymbolId × Symbol)
  | .push id symbol => some (id, symbol)
  | .fill id symbol => some (id, symbol)
  | _ => none

/-- The key that an event binds. -/
def bound? : Event → Option (MemoKey × SymbolId)
  | .bound key id => some (key, id)
  | _ => none

end Event

/-- The slot that was just added, if nothing was done since. -/
def latest? (builder : Builder) : Option SymbolId :=
  builder.log.head?.bind Event.added?

/-- Whether the builder may see the event: slots are added at the end, only an empty slot is
filled, only a new key is bound, to the slot that was just added, and a record that is met again
has the symbol that is remembered. -/
def Event.Allowed (builder : Builder) : Event → Prop
  | .push id _ => id = builder.slots.size
  | .reserve id => id = builder.slots.size
  | .fill id _ => id < builder.slots.size ∧ builder.symbol? id = none
  | .bound key id => builder.memo.lookup key = none ∧ builder.latest? = some id
  | .met key id => builder.memo.lookup key = some id

/-- The builder after an event. -/
def enter (builder : Builder) : Event → Builder
  | .push _ symbol => builder.pushSlot (some symbol)
  | .reserve _ => builder.pushSlot none
  | .fill id symbol => builder.fillSlot id symbol
  | .bound key id => builder.remember key id
  | .met key id => builder.meet key id

/-- All that was done to a builder, from the beginning. -/
def journal (builder : Builder) : List Event :=
  builder.log.reverse

/-- The builder after a journal. -/
def replay (builder : Builder) (events : List Event) : Builder :=
  events.foldl enter builder

/-- Every event is allowed when it comes. -/
def Lawful : Builder → List Event → Prop
  | _, [] => True
  | builder, event :: rest => event.Allowed builder ∧ (builder.enter event).Lawful rest

variable {builder : Builder} {events : List Event}

theorem Event.Allowed.journal {event : Event} (h : event.Allowed builder) :
    (builder.enter event).journal = builder.journal ++ [event] := by
  cases event with
  | push id symbol =>
    obtain rfl : id = builder.slots.size := h
    exact List.reverse_cons
  | reserve id =>
    obtain rfl : id = builder.slots.size := h
    exact List.reverse_cons
  | _ => exact List.reverse_cons

/-- What is done again is logged. -/
theorem Lawful.journal (h : builder.Lawful events) :
    (builder.replay events).journal = builder.journal ++ events := by
  induction events generalizing builder with
  | nil => exact (List.append_nil _).symm
  | cons event rest ih =>
    have hrest := ih h.2
    rw [h.1.journal, List.append_assoc] at hrest
    exact hrest

theorem replay_append (builder : Builder) (events later : List Event) :
    builder.replay (events ++ later) = (builder.replay events).replay later :=
  List.foldl_append

theorem lawful_append {later : List Event} :
    builder.Lawful (events ++ later) ↔
      builder.Lawful events ∧ (builder.replay events).Lawful later := by
  induction events generalizing builder with
  | nil => exact (and_iff_right trivial).symm
  | cons event rest ih =>
    rw [List.cons_append, Lawful, Lawful, ih, and_assoc]
    rfl

theorem lawful_singleton {event : Event} : builder.Lawful [event] ↔ event.Allowed builder :=
  and_iff_left trivial

/-! ## What is written once -/

namespace Event

/-- What a builder holds under a key changes only where an event writes it, and an event that is
allowed writes only what is not held yet. -/
structure WritesOnce {κ ν : Type} (held : Builder → κ → Option ν)
    (write? : Event → Option (κ × ν)) : Prop where
  enter : ∀ (builder : Builder) (event : Event), event.Allowed builder → ∀ key value,
    held (builder.enter event) key = some value ↔
      held builder key = some value ∨ write? event = some (key, value)
  new : ∀ (builder : Builder) (event : Event), event.Allowed builder → ∀ key value,
    write? event = some (key, value) → held builder key = none

namespace WritesOnce

variable {κ ν : Type} {held : Builder → κ → Option ν} {write? : Event → Option (κ × ν)}

/-- What is held in the end was held before or is written by the journal. -/
theorem iff_mem (h : WritesOnce held write?) (hlawful : builder.Lawful events) {key : κ}
    {value : ν} :
    held (builder.replay events) key = some value ↔
      held builder key = some value ∨ (key, value) ∈ events.filterMap write? := by
  induction events generalizing builder with
  | nil => exact (or_iff_left List.not_mem_nil).symm
  | cons event rest ih =>
    have hrest := ih hlawful.2
    rw [h.enter builder event hlawful.1, or_assoc] at hrest
    refine hrest.trans (or_congr_right ?_)
    simp only [List.mem_filterMap, List.mem_cons, exists_eq_or_imp]

/-- What a journal writes is not held before. -/
theorem new_of_mem (h : WritesOnce held write?) (hlawful : builder.Lawful events) {key : κ}
    {value : ν} (hmem : (key, value) ∈ events.filterMap write?) : held builder key = none := by
  induction events generalizing builder with
  | nil => cases hmem
  | cons event rest ih =>
    obtain ⟨written, hwritten, hwrite⟩ := List.mem_filterMap.1 hmem
    rcases List.mem_cons.1 hwritten with rfl | hlater
    · exact h.new builder written hlawful.1 key value hwrite
    · have hnone := ih hlawful.2 (List.mem_filterMap.2 ⟨written, hlater, hwrite⟩)
      cases hheld : held builder key with
      | none => rfl
      | some found =>
        rw [(h.enter builder event hlawful.1 key found).2 (.inl hheld)] at hnone
        cases hnone

/-- A journal writes under every key once at most. -/
theorem nodup (h : WritesOnce held write?) (hlawful : builder.Lawful events) :
    ((events.filterMap write?).map Prod.fst).Nodup := by
  induction events generalizing builder with
  | nil => exact .nil
  | cons event rest ih =>
    have hrest := ih hlawful.2
    cases hwrite : write? event with
    | none => rwa [List.filterMap_cons_none hwrite]
    | some entry =>
      rcases entry with ⟨key, value⟩
      rw [List.filterMap_cons_some hwrite, List.map_cons, List.nodup_cons]
      refine ⟨?_, hrest⟩
      intro hlater
      obtain ⟨⟨_, other⟩, hmem, rfl⟩ := List.mem_map.1 hlater
      have hnone := h.new_of_mem hlawful.2 hmem
      rw [(h.enter builder event hlawful.1 _ value).2 (.inr hwrite)] at hnone
      cases hnone

end WritesOnce

end Event

theorem symbol?_pushSlot_eq_some {slot : Option Symbol} {id : SymbolId} {symbol : Symbol} :
    (builder.pushSlot slot).symbol? id = some symbol ↔
      builder.symbol? id = some symbol ∨ id = builder.slots.size ∧ slot = some symbol := by
  by_cases hid : id = builder.slots.size
  · rw [hid, symbol?_pushSlot_self, symbol?_of_size_le (Nat.le_refl _)]
    simp
  · rw [symbol?_pushSlot_of_ne slot hid]
    simp [hid]

theorem symbol?_fillSlot_eq_some {filled : SymbolId} (hlt : filled < builder.slots.size)
    (hnone : builder.symbol? filled = none) {symbol : Symbol} {id : SymbolId} {found : Symbol} :
    (builder.fillSlot filled symbol).symbol? id = some found ↔
      builder.symbol? id = some found ∨ id = filled ∧ symbol = found := by
  by_cases hid : id = filled
  · rw [hid, symbol?_fillSlot_self hlt, hnone]
    simp
  · rw [symbol?_fillSlot_of_ne symbol hid]
    simp [hid]

theorem lookup_remember_eq_some {key : MemoKey} (hfresh : builder.memo.lookup key = none)
    {id : SymbolId} {other : MemoKey} {found : SymbolId} :
    (builder.remember key id).memo.lookup other = some found ↔
      builder.memo.lookup other = some found ∨ other = key ∧ id = found := by
  by_cases hkey : other = key
  · rw [hkey, lookup_remember_self, hfresh]
    simp
  · rw [lookup_remember_of_ne id hkey]
    simp [hkey]

/-- No symbol is put into a slot that has one. -/
theorem writesOnce_slots : Event.WritesOnce symbol? Event.written? := by
  constructor
  · intro builder event hallowed id symbol
    cases event with
    | push added pushed =>
      obtain rfl : added = builder.slots.size := hallowed
      rw [enter, symbol?_pushSlot_eq_some]
      simp [Event.written?, eq_comm]
    | reserve added =>
      rw [enter, symbol?_pushSlot_eq_some]
      simp [Event.written?]
    | fill filled symbol =>
      rw [enter, symbol?_fillSlot_eq_some hallowed.1 hallowed.2]
      simp [Event.written?, eq_comm]
    | bound _ _ => exact (or_iff_left nofun).symm
    | met _ _ => exact (or_iff_left nofun).symm
  · intro builder event hallowed id symbol hwrite
    cases event with
    | push added pushed =>
      cases hwrite
      exact symbol?_of_size_le (Nat.le_of_eq (Eq.symm hallowed))
    | fill filled symbol =>
      cases hwrite
      exact hallowed.2
    | _ => cases hwrite

/-- No key is bound again. -/
theorem writesOnce_memo :
    Event.WritesOnce (fun builder key => builder.memo.lookup key) Event.bound? := by
  constructor
  · intro builder event hallowed key id
    cases event with
    | bound bound symbol =>
      rw [enter, lookup_remember_eq_some hallowed.1]
      simp [Event.bound?, eq_comm]
    | _ => exact (or_iff_left nofun).symm
  · intro builder event hallowed key id hwrite
    cases event with
    | bound bound symbol =>
      cases hwrite
      exact hallowed.1
    | _ => cases hwrite

/-! ## Slots and records -/

/-- Slots are added one after the other. -/
theorem Lawful.range (h : builder.Lawful events) :
    List.range (builder.replay events).slots.size =
      List.range builder.slots.size ++ events.filterMap Event.added? := by
  induction events generalizing builder with
  | nil => exact (List.append_nil _).symm
  | cons event rest ih =>
    have hrest := ih h.2
    have hadd (slot : Option Symbol) : List.range (builder.pushSlot slot).slots.size =
        List.range builder.slots.size ++ [builder.slots.size] := by
      rw [size_pushSlot, List.range_succ]
    cases event with
    | push added symbol =>
      obtain rfl : added = builder.slots.size := h.1
      rw [enter, hadd, List.append_assoc] at hrest
      exact hrest
    | reserve added =>
      obtain rfl : added = builder.slots.size := h.1
      rw [enter, hadd, List.append_assoc] at hrest
      exact hrest
    | fill filled symbol =>
      rw [enter, size_fillSlot] at hrest
      exact hrest
    | bound _ _ => exact hrest
    | met _ _ => exact hrest

/-- Keys are bound in the order of their slots.  The slot that was just added may be bound yet. -/
theorem Lawful.sublist_bound (h : builder.Lawful events) :
    ((events.filterMap Event.bound?).map Prod.snd).Sublist
      (builder.latest?.toList ++ events.filterMap Event.added?) := by
  induction events generalizing builder with
  | nil => exact List.nil_sublist _
  | cons event rest ih =>
    have hrest := ih h.2
    cases event with
    | push added symbol =>
      obtain rfl : added = builder.slots.size := h.1
      exact hrest.trans (List.sublist_append_right _ _)
    | reserve added =>
      obtain rfl : added = builder.slots.size := h.1
      exact hrest.trans (List.sublist_append_right _ _)
    | fill _ _ => exact hrest.trans (List.sublist_append_right _ _)
    | met _ _ => exact hrest.trans (List.sublist_append_right _ _)
    | bound key id =>
      rw [h.1.2]
      exact hrest.cons_cons id

/-- A record that is met again has the symbol that is remembered in the end. -/
theorem Lawful.lookup_of_met (h : builder.Lawful events) {key : MemoKey} {id : SymbolId}
    (hmet : .met key id ∈ events) : (builder.replay events).memo.lookup key = some id := by
  obtain ⟨before, later, rfl⟩ := List.append_of_mem hmet
  obtain ⟨_, hallowed, hlater⟩ := lawful_append.1 h
  rw [replay_append]
  exact (writesOnce_memo.iff_mem hlater).2 (.inl hallowed)

/-- The slots that a journal adds have a symbol at once or are reserved. -/
theorem perm_added (events : List Event) :
    (events.filterMap Event.added?).Perm
      (events.filterMap Event.pushed? ++ events.filterMap Event.reserved?) := by
  induction events with
  | nil => exact .nil
  | cons event rest ih =>
    cases event with
    | push id symbol => exact ih.cons id
    | reserve id => exact (ih.cons id).trans List.perm_middle.symm
    | _ => exact ih

/-- The slots that a journal writes have a symbol at once or are filled. -/
theorem perm_written (events : List Event) :
    ((events.filterMap Event.written?).map Prod.fst).Perm
      (events.filterMap Event.pushed? ++ events.filterMap Event.filled?) := by
  induction events with
  | nil => exact .nil
  | cons event rest ih =>
    cases event with
    | push id symbol => exact ih.cons id
    | fill id symbol => exact (ih.cons id).trans List.perm_middle.symm
    | _ => exact ih

end Builder

/-! ## Finished programs -/

open Builder (Event)

/-- What the journal of a finished program tells. -/
structure Program.Recorded (program : Program) (events : List Event) : Prop where
  /-- The slots are added one after the other. -/
  added : events.filterMap Event.added? = List.range program.length
  /-- A symbol is put into every slot once. -/
  written : ((events.filterMap Event.written?).map Prod.fst).Perm (List.range program.length)
  /-- The slots that are reserved are filled, each of them once, and no others. -/
  filled : (events.filterMap Event.filled?).Perm (events.filterMap Event.reserved?)
  /-- The symbol that is put into a slot stays there. -/
  symbol : ∀ id symbol, (id, symbol) ∈ events.filterMap Event.written? →
    program.symbol? id = some symbol
  /-- A key is bound once at most. -/
  keys : ((events.filterMap Event.bound?).map Prod.fst).Nodup
  /-- A symbol is bound to one key at most. -/
  ids : ((events.filterMap Event.bound?).map Prod.snd).Nodup
  /-- A record that is met again has the symbol that its key is bound to. -/
  met : ∀ key id, .met key id ∈ events → .bound key id ∈ events

namespace Builder

variable {builder : Builder} {events : List Event}

theorem mem_bound {key : MemoKey} {id : SymbolId} :
    (key, id) ∈ events.filterMap Event.bound? ↔ .bound key id ∈ events := by
  rw [List.mem_filterMap]
  constructor
  · rintro ⟨event, hevent, hbound⟩
    cases event <;> cases hbound
    exact hevent
  · exact fun hevent => ⟨_, hevent, rfl⟩

/-- What is remembered in the end is what the journal binds. -/
theorem Lawful.lookup_iff (h : Builder.empty.Lawful events) {key : MemoKey} {id : SymbolId} :
    (Builder.empty.replay events).memo.lookup key = some id ↔ .bound key id ∈ events := by
  rw [← mem_bound]
  exact (writesOnce_memo.iff_mem h).trans (or_iff_right nofun)

/-- The slots hold in the end what the journal writes. -/
theorem Lawful.symbol?_iff (h : Builder.empty.Lawful events) {id : SymbolId} {symbol : Symbol} :
    (Builder.empty.replay events).symbol? id = some symbol ↔
      (id, symbol) ∈ events.filterMap Event.written? :=
  (writesOnce_slots.iff_mem h).trans (or_iff_right nofun)

/-- The journal of a finished program writes its symbols. -/
theorem Lawful.recorded (h : Builder.empty.Lawful events)
    (hreplay : Builder.empty.replay events = builder) {root : SymbolId} {program : Program}
    (hfinish : builder.finish root = .ok program) : program.Recorded events := by
  subst hreplay
  obtain ⟨_, hsymbol, hlength⟩ := of_finish hfinish
  have hwritten {id : SymbolId} {symbol : Symbol} :
      program.symbol? id = some symbol ↔ (id, symbol) ∈ events.filterMap Event.written? := by
    rw [hsymbol]
    exact h.symbol?_iff
  have hadded : events.filterMap Event.added? = List.range program.length := by
    rw [hlength]
    exact h.range.symm
  have hperm : ((events.filterMap Event.written?).map Prod.fst).Perm
      (List.range program.length) := by
    rw [List.perm_ext_iff_of_nodup (writesOnce_slots.nodup h) List.nodup_range]
    intro id
    rw [List.mem_range, Program.length]
    constructor
    · intro hid
      obtain ⟨⟨_, symbol⟩, hmem, rfl⟩ := List.mem_map.1 hid
      exact (Array.getElem?_eq_some_iff.1 (hwritten.2 hmem)).1
    · intro hid
      exact List.mem_map.2 ⟨_, hwritten.1 (Array.getElem?_eq_getElem hid), rfl⟩
  refine ⟨hadded, hperm, ?_, fun id symbol => hwritten.2, writesOnce_memo.nodup h, ?_, ?_⟩
  · -- What is not pushed is reserved on the one side and filled on the other.
    have hpushed := perm_added events
    rw [hadded] at hpushed
    exact (List.perm_append_left_iff _).1 ((perm_written events).symm.trans (hperm.trans hpushed))
  · have hbound := h.sublist_bound
    rw [hadded] at hbound
    exact List.nodup_range.sublist hbound
  · intro key id hmet
    exact h.lookup_iff.1 (h.lookup_of_met hmet)

end Builder

end AvroResolution
