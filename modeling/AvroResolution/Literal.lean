import AvroResolution.Number.Binary

/-!
# JSON literals

A field default is a JSON literal.  Integers and floating-point numbers are
different literals, and every floating-point literal is finite.

* `Literal.ofEntries` builds an object with its keys in order, each once.
* `Literal.entry?` is the value of a key.
* `Literal.same` compares two literals, floating-point numbers by value.
-/

namespace AvroResolution

/-- A JSON value.  The entries of an object are in the order of their keys. -/
inductive Literal where
  | null
  | boolean (value : Bool)
  | integer (value : Int)
  | float (value : Binary64) (finite : value.isFinite = true)
  | string (value : String)
  | array (elements : List Literal)
  | object (entries : List (String × Literal))

namespace Literal

instance : Inhabited Literal := ⟨.null⟩

/-! ## Objects -/

/-- Puts an entry in its place by key, over an entry of the same key. -/
def insertEntry {α : Type} (key : String) (value : α) :
    List (String × α) → List (String × α)
  | [] => [(key, value)]
  | (other, kept) :: rest =>
    if key < other then
      (key, value) :: (other, kept) :: rest
    else if key = other then
      (key, value) :: rest
    else
      (other, kept) :: insertEntry key value rest

/-- The object with the given entries.  Of two entries with one key the later
one counts. -/
def ofEntries (entries : List (String × Literal)) : Literal :=
  .object (entries.foldl (fun sorted entry => insertEntry entry.1 entry.2 sorted) [])

/-- The value under a key. -/
def entry? {α : Type} (key : String) : List (String × α) → Option α
  | [] => none
  | (other, value) :: rest => if key = other then some value else entry? key rest

/-! ## Equality -/

mutual

/-- Equality of literals.  Floating-point numbers are compared by value, so the
two zeros are equal, and an integer equals no floating-point number. -/
def same : Literal → Literal → Bool
  | .null, .null => true
  | .boolean x, .boolean y => x = y
  | .integer x, .integer y => x = y
  | .float x _, .float y _ => x.sameValue y
  | .string x, .string y => x = y
  | .array xs, .array ys => sameElements xs ys
  | .object xs, .object ys => sameEntries xs ys
  | _, _ => false

/-- Equality element by element. -/
def sameElements : List Literal → List Literal → Bool
  | [], [] => true
  | x :: xs, y :: ys => same x y && sameElements xs ys
  | _, _ => false

/-- Equality entry by entry, keys included. -/
def sameEntries : List (String × Literal) → List (String × Literal) → Bool
  | [], [] => true
  | (k, x) :: xs, (l, y) :: ys => k = l && same x y && sameEntries xs ys
  | _, _ => false

end

instance : BEq Literal := ⟨same⟩

end Literal

end AvroResolution
