/-!
# Compiler settings
-/

namespace AvroResolution

/-- What the compiler may do to make a pair of schemas fit. -/
structure Config where
  /-- Read enum symbols that the reader lacks as the reader's default symbol. -/
  enumDefaults : Bool := true
  /-- Let a reader field read a writer field named by one of its aliases. -/
  fieldAliases : Bool := true
deriving DecidableEq, Repr

end AvroResolution
