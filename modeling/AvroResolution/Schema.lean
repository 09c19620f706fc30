import AvroResolution.Literal

/-!
# Schemas

A schema is a tree.  A type that contains itself does so through a
`Schema.reference`, which spells the name of a definition elsewhere in the same
tree.  Nothing about names is checked here: they may be empty, dotted or
defined twice.

* `Primitive`, `Kind` are the tags of scalar types and of all types.
* `Heading` is what records, enums and fixed types have in common.
* `Schema` is the type itself, `Field` a field of a record.
* `Schema.kind?`, `Schema.name?`, `Schema.fullname?` and `Schema.typeName`
  describe the outermost type.
-/

namespace AvroResolution

/-! ## Kinds -/

/-- The types without parts. -/
inductive Primitive where
  | null
  | boolean
  | int
  | long
  | float
  | double
  | bytes
  | string
deriving DecidableEq, Repr

namespace Primitive

def all : List Primitive :=
  [.null, .boolean, .int, .long, .float, .double, .bytes, .string]

/-- The name of the type in a schema. -/
def name : Primitive → String
  | .null => "null"
  | .boolean => "boolean"
  | .int => "int"
  | .long => "long"
  | .float => "float"
  | .double => "double"
  | .bytes => "bytes"
  | .string => "string"

end Primitive

/-- The tag of a type. -/
inductive Kind where
  | primitive (type : Primitive)
  | record
  | enum
  | array
  | map
  | union
  | fixed
deriving DecidableEq, Repr

namespace Kind

def all : List Kind :=
  Primitive.all.map .primitive ++ [.record, .enum, .array, .map, .union, .fixed]

/-- The name of the type in a schema. -/
def name : Kind → String
  | .primitive type => type.name
  | .record => "record"
  | .enum => "enum"
  | .array => "array"
  | .map => "map"
  | .union => "union"
  | .fixed => "fixed"

/-- The kind with a given name. -/
def ofName? (name : String) : Option Kind :=
  all.find? (·.name = name)

end Kind

/-! ## Names -/

/-- The part of a name after its last point, or all of it. -/
def lastSegment (name : String) : String :=
  String.ofList (name.toList.reverse.takeWhile (· ≠ '.')).reverse

/-- What a definition says about its own name. -/
structure Heading where
  name : String
  space? : Option String
  aliases : List String
deriving DecidableEq, Repr

/-- The name qualified by the namespace.  An empty namespace qualifies
nothing. -/
def Heading.fullname (heading : Heading) : String :=
  match heading.space? with
  | none => heading.name
  | some space => if space = "" then heading.name else space ++ "." ++ heading.name

/-! ## Types -/

/-- A logical type, which annotates a type and does not change how it is read. -/
inductive LogicalType where
  | decimal (precision scale : Nat)
  | uuid
  | date
  | timeMillis
  | timeMicros
  | timestampMillis
  | timestampMicros
  | duration
deriving DecidableEq, Repr

/-- The name of a logical type in a schema. -/
def LogicalType.name : LogicalType → String
  | .decimal _ _ => "decimal"
  | .uuid => "uuid"
  | .date => "date"
  | .timeMillis => "time-millis"
  | .timeMicros => "time-micros"
  | .timestampMillis => "timestamp-millis"
  | .timestampMicros => "timestamp-micros"
  | .duration => "duration"

/-- A field of a record, whose type is given as a `σ`. -/
structure Field (σ : Type) where
  name : String
  type : σ
  default? : Option Literal
  aliases : List String

/-- A type. -/
inductive Schema where
  | primitive (type : Primitive)
  | record (heading : Heading) (fields : List (Field Schema))
  | enum (heading : Heading) (symbols : List String) (default? : Option String)
  | fixed (heading : Heading) (size : Nat)
  | array (items : Schema)
  | map (values : Schema)
  | union (branches : List Schema)
  /-- The definition of the given name elsewhere in the tree. -/
  | reference (name : String)
  | logical (base : Schema) (logicalType : LogicalType)

namespace Schema

instance : Inhabited Schema := ⟨.primitive .null⟩

/-! ## The outermost type -/

/-- The tag of a type.  References and logical types have none of their own. -/
def kind? : Schema → Option Kind
  | .primitive type => some (.primitive type)
  | .record _ _ => some .record
  | .enum _ _ _ => some .enum
  | .fixed _ _ => some .fixed
  | .array _ => some .array
  | .map _ => some .map
  | .union _ => some .union
  | .reference _ => none
  | .logical _ _ => none

def isPrimitive : Schema → Bool
  | .primitive _ => true
  | _ => false

/-- The unqualified name of a named type. -/
def name? : Schema → Option String
  | .record heading _ => some heading.name
  | .enum heading _ _ => some heading.name
  | .fixed heading _ => some heading.name
  | .reference name => some (lastSegment name)
  | .logical base _ => base.name?
  | _ => none

/-- The qualified name of a named type; a reference keeps its spelling. -/
def fullname? : Schema → Option String
  | .record heading _ => some heading.fullname
  | .enum heading _ _ => some heading.fullname
  | .fixed heading _ => some heading.fullname
  | .reference name => some name
  | .logical base _ => base.fullname?
  | _ => none

/-- The name a message calls a type by: the qualified name of a named type, and
the kind of any other. -/
def typeName : Schema → String
  | .primitive type => type.name
  | .record heading _ => heading.fullname
  | .enum heading _ _ => heading.fullname
  | .fixed heading _ => heading.fullname
  | .array _ => Kind.array.name
  | .map _ => Kind.map.name
  | .union _ => Kind.union.name
  | .reference name => name
  | .logical base _ => base.typeName

/-- The position of the first field or enum symbol with the given name. -/
def memberIndex? (schema : Schema) (name : String) : Option Nat :=
  match schema with
  | .record _ fields => fields.findIdx? (·.name = name)
  | .enum _ symbols _ => symbols.idxOf? name
  | _ => none

/-! ## Equality -/

/-- Equality of two defaults, either of which may be missing. -/
def sameDefault : Option Literal → Option Literal → Bool
  | none, none => true
  | some x, some y => x.same y
  | _, _ => false

mutual

/-- Equality of schemas as trees.  Defaults are compared by `Literal.same`. -/
def same : Schema → Schema → Bool
  | .primitive p, .primitive q => p = q
  | .record h xs, .record k ys => h = k && sameFields xs ys
  | .enum h xs x, .enum k ys y => h = k && xs = ys && x = y
  | .fixed h m, .fixed k n => h = k && m = n
  | .array x, .array y => same x y
  | .map x, .map y => same x y
  | .union xs, .union ys => sameBranches xs ys
  | .reference x, .reference y => x = y
  | .logical x a, .logical y b => same x y && a = b
  | _, _ => false

/-- Equality field by field. -/
def sameFields : List (Field Schema) → List (Field Schema) → Bool
  | [], [] => true
  | ⟨m, s, x, as⟩ :: xs, ⟨n, t, y, bs⟩ :: ys =>
    m = n && same s t && sameDefault x y && as = bs && sameFields xs ys
  | _, _ => false

/-- Equality branch by branch. -/
def sameBranches : List Schema → List Schema → Bool
  | [], [] => true
  | x :: xs, y :: ys => same x y && sameBranches xs ys
  | _, _ => false

end

instance : BEq Schema := ⟨same⟩

end Schema

end AvroResolution
