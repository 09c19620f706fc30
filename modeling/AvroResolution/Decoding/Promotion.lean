import AvroResolution.Decoding.Fault

/-!
# Promoting a value

`Promotion.apply` turns a value of the promotion's source type into one of its
target type.  Integers become the nearest floating-point number in one rounding,
strings become their UTF-8 encoding, and bytes must be UTF-8 to become a string.
-/

namespace AvroResolution

/-- A value of the source type as a value of the target type. -/
def Promotion.apply (promotion : Promotion) (value : Value) : Except DecodeFault Value :=
  match promotion, value with
  | .intToLong, .int n => .ok (.long (Int64.ofInt n.toInt))
  | .intToFloat, .int n => .ok (.float (Binary32.ofInt n.toInt))
  | .intToDouble, .int n => .ok (.double (Binary64.ofInt n.toInt))
  | .longToFloat, .long n => .ok (.float (Binary32.ofInt n.toInt))
  | .longToDouble, .long n => .ok (.double (Binary64.ofInt n.toInt))
  | .floatToDouble, .float x => .ok (.double x.toBinary64)
  | .stringToBytes, .string s => .ok (.bytes (encodeUtf8 s))
  | .bytesToString, .bytes content =>
    match decodeUtf8 content with
    | .ok s => .ok (.string s)
    | .error fault => .error (.data (.notText fault))
  | promotion, value => .error (.unpromotable value promotion)

end AvroResolution
