import AvroResolution.Proofs.Decoding.Run

/-!
# Types of scalars

What kind of value a terminal, an enum and a promotion give.

`Value.OfPrimitive` are the values of a primitive type.  A terminal gives values
of its own type, and a promotion turns values of its source type into values of
its target type; of such values it can only refuse bytes that are no text.
-/

namespace AvroResolution

/-- The value is of the primitive type. -/
inductive Value.OfPrimitive : Primitive → Value → Prop
  | null : OfPrimitive .null .null
  | boolean (value : Bool) : OfPrimitive .boolean (.boolean value)
  | int (value : Int32) : OfPrimitive .int (.int value)
  | long (value : Int64) : OfPrimitive .long (.long value)
  | float (value : Binary32) : OfPrimitive .float (.float value)
  | double (value : Binary64) : OfPrimitive .double (.double value)
  | bytes (value : List UInt8) : OfPrimitive .bytes (.bytes value)
  | string (value : String) : OfPrimitive .string (.string value)

/-! ## Promotions -/

theorem Promotion.ofPrimitive_of_apply {promotion : Promotion} {value result : Value}
    (h : promotion.apply value = .ok result) : Value.OfPrimitive promotion.target result := by
  unfold Promotion.apply at h
  split at h
  case h_8 =>
    split at h
    · cases h
      exact .string _
    · cases h
  case h_9 => cases h
  all_goals
    cases h
    constructor

theorem Promotion.ofData_of_apply {promotion : Promotion} {value : Value} {fault : DecodeFault}
    (hvalue : Value.OfPrimitive promotion.source value)
    (h : promotion.apply value = .error fault) : fault.ofData := by
  cases promotion <;> cases hvalue <;> try cases h
  rename_i content
  rw [Promotion.apply] at h
  split at h
  · cases h
  · cases h
    exact trivial

/-- Promoting fails for bytes that are no string, or for a value of another type. -/
theorem Promotion.fault_of_apply {promotion : Promotion} {value : Value} {fault : DecodeFault}
    (h : promotion.apply value = .error fault) :
    (∃ cause, fault = .data (.notText cause)) ∨ fault = .unpromotable value promotion := by
  unfold Promotion.apply at h
  split at h
  case h_8 =>
    split at h
    · cases h
    · cases h
      exact .inl ⟨_, rfl⟩
  all_goals
    cases h
    try exact .inr rfl

theorem Promotion.not_ofWire_of_apply {promotion : Promotion} {value : Value}
    {fault : DecodeFault} (h : promotion.apply value = .error fault) : ¬fault.ofWire := by
  obtain ⟨cause, rfl⟩ | rfl := Promotion.fault_of_apply h
  · exact id
  · exact id

namespace Reader

/-! ## Terminals -/

theorem ensures_take (count : Nat) :
    Ensures (fun content => content.length = count) DecodeFault.ofData (take count) := by
  refine .intro ?_ fun _ _ _ h => (scalar_take count).faults.of_error h
  intro input content rest h
  rw [take] at h
  split at h
  · rename_i hle
    cases h
    rw [input.length_eq] at hle
    exact List.length_take_of_le hle
  · cases h

theorem ensures_readTerminal (type : Primitive) :
    Ensures (Value.OfPrimitive type) DecodeFault.ofData
      (Program.readTerminal (.primitive type)) := by
  cases type with
  | null => exact .pure .null
  | boolean => exact .bind scalar_boolean.faults fun value _ => .pure (.boolean value)
  | int => exact .bind scalar_int.faults fun value _ => .pure (.int value)
  | long => exact .bind scalar_long.faults fun value _ => .pure (.long value)
  | float => exact .bind scalar_float.faults fun value _ => .pure (.float value)
  | double => exact .bind scalar_double.faults fun value _ => .pure (.double value)
  | bytes => exact .bind scalar_bytes.faults fun value _ => .pure (.bytes value)
  | string => exact .bind scalar_string.faults fun value _ => .pure (.string value)

theorem ensures_readFixed (size : Nat) :
    Ensures (fun value => ∃ content, value = .fixed content ∧ content.length = size)
      DecodeFault.ofData (Program.readTerminal (.fixed size)) :=
  .bind (ensures_take size) fun content hlength => .pure ⟨content, rfl, hlength⟩

/-- A promoted scalar is of the type that it is promoted to. -/
theorem ensures_promoted (promotion : Promotion) :
    Ensures (Value.OfPrimitive promotion.target) DecodeFault.ofData (do
      let value ← Program.readTerminal (.primitive promotion.source)
      Reader.ofExcept (fun fault => fault) (promotion.apply value)) := by
  refine .bind (ensures_readTerminal promotion.source) ?_
  intro value hvalue
  exact .ofExcept (fun _ h => Promotion.ofPrimitive_of_apply h)
    fun _ h => Promotion.ofData_of_apply hvalue h

/-! ## Enums -/

/-- An enum value has a symbol of the reader and its ordinal. -/
theorem ensures_readEnum (adjustment : EnumAdjustment) :
    Ensures
      (fun value => ∃ (index : Nat) (symbol : String),
        value = .enum (Int32.ofNat index) symbol ∧ adjustment.symbols[index]? = some symbol)
      DecodeFault.ofData (Program.readEnum adjustment) := by
  refine .bind scalar_int.faults fun ordinal _ => ?_
  split
  · exact .throw trivial
  · dsimp only
    split
    · exact .throw trivial
    · split
      · exact .throw trivial
      · exact .pure ⟨_, _, rfl, ‹_›⟩

theorem ensures_true {α : Type} (x : Reader α) : Ensures (fun _ => True) (fun _ => True) x :=
  .intro (fun _ _ _ _ => trivial) fun _ _ _ _ => trivial

end Reader

end AvroResolution
