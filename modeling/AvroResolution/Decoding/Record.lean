import AvroResolution.Decoding.Fault

/-!
# Putting fields in order

The fields of a record arrive in the writer's order.  `placeFields` puts their
values at the positions that the reader's record gives them.
-/

namespace AvroResolution

/-- A field of a decoded record, or a position that has none yet. -/
abbrev FieldSlot := Option (String × Value)

/-- Puts each value into the slot of its field. -/
def placeArrivals : List (Arrival × Value) → List FieldSlot → Except ProgramFault (List FieldSlot)
  | [], slots => .ok slots
  | (arrival, value) :: rest, slots =>
    if arrival.index < slots.length then
      placeArrivals rest (slots.set arrival.index (some (arrival.name, value)))
    else
      .error (.readerIndex arrival.name arrival.index)

/-- The fields in the slots, if every slot has one. -/
def filledSlots : List FieldSlot → Except ProgramFault (List (String × Value))
  | [] => .ok []
  | none :: _ => .error .unfilledField
  | some field :: rest => (filledSlots rest).map (field :: ·)

/-- The record whose values arrived in the given order. -/
def placeFields (arrivals : List Arrival) (values : List Value) : Except ProgramFault Value :=
  if arrivals.length = values.length then do
    let slots ← placeArrivals (arrivals.zip values) (List.replicate arrivals.length none)
    let fields ← filledSlots slots
    return .record fields
  else
    .error (.fieldCount arrivals.length values.length)

end AvroResolution
