import AvroResolution.Number.Binary

/-!
# Decoded values

A `Value` has the shape of the reader's schema.  The fields of a record are in
the reader's order, the entries of a map in the order in which they were read.
-/

namespace AvroResolution

/-- A decoded value. -/
inductive Value where
  | null
  | boolean (value : Bool)
  | int (value : Int32)
  | long (value : Int64)
  | float (value : Binary32)
  | double (value : Binary64)
  | bytes (value : List UInt8)
  | string (value : String)
  | record (fields : List (String × Value))
  | enum (index : Int32) (symbol : String)
  | array (items : List Value)
  | map (entries : List (String × Value))
  | union (index : Int32) (value : Value)
  | fixed (value : List UInt8)

namespace Value

instance : Inhabited Value := ⟨.null⟩

/-- The first field of a record that has the given name. -/
def field? (value : Value) (name : String) : Option Value :=
  match value with
  | .record fields => fields.lookup name
  | _ => none

end Value

end AvroResolution
