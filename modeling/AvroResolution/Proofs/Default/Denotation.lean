import AvroResolution.Proofs.Decoding.Exact
import AvroResolution.Proofs.Literal.Entries
import AvroResolution.Proofs.Lists
import Mathlib.Logic.Relation

/-!
# What a default denotes

A JSON literal denotes a value of a type, whatever its encoding.

* `Primitive.Denotes` and `Registry.Denotes` are the rules.  A union takes the value as one
  of its first branch, a record the fields that the object leaves out from their defaults.
* `Registry.Denotes.unique`: a literal denotes one value at most.
* `Registry.Involves` says which literals a literal takes to be written, defaults included.
* `Registry.Writes.denotes_of_bounded`: what the encoder writes stands for the value that the
  literal denotes, if all literals that it takes are `Literal.bounded`.
  `Registry.Writes.denotes` asks this of all defaults of the tree.
-/

namespace AvroResolution

/-! ## The rules -/

/-- The number that a literal stands for. -/
def Literal.number? : Literal → Option Binary64
  | .integer n => some (.ofInt n)
  | .float x _ => some x
  | _ => none

/-- The bytes are the code points of the text. -/
def IsLatin1 (text : String) (content : List UInt8) : Prop :=
  text.toList.map Char.toNat = content.map UInt8.toNat

/-- The literal denotes the value as one of the primitive type. -/
inductive Primitive.Denotes : Primitive → Literal → Value → Prop
  | null : Denotes .null .null .null
  | boolean (value : Bool) : Denotes .boolean (.boolean value) (.boolean value)
  | int {n : Int} (hlower : -2147483648 ≤ n) (hupper : n ≤ 2147483647) :
      Denotes .int (.integer n) (.int (Int32.ofInt n))
  | long {n : Int} (hlower : -9223372036854775808 ≤ n) (hupper : n ≤ 9223372036854775807) :
      Denotes .long (.integer n) (.long (Int64.ofInt n))
  | float {literal : Literal} {x : Binary64} (hnumber : literal.number? = some x) :
      Denotes .float literal (.float x.toBinary32)
  | double {literal : Literal} {x : Binary64} (hnumber : literal.number? = some x) :
      Denotes .double literal (.double x)
  | bytes {text : String} {content : List UInt8} (hcontent : IsLatin1 text content) :
      Denotes .bytes (.string text) (.bytes content)
  | string (text : String) : Denotes .string (.string text) (.string text)

/-- The literal denotes the value as one of the node.  Elements, entries and fields are
given in rows, each with the literal and the value that it denotes; the entries of a map are
in the order of their keys. -/
inductive Registry.Denotes (registry : Registry) : Node → Literal → Value → Prop
  | primitive {node : Node} {type : Primitive} {literal : Literal} {value : Value}
      (hshape : registry.shape? node = some (.primitive type))
      (hvalue : type.Denotes literal value) : Denotes registry node literal value
  | enum {node : Node} {heading : Heading} {symbols : List String} {default? : Option String}
      {symbol : String} {ordinal : Nat}
      (hshape : registry.shape? node = some (.named (.enum heading symbols default?)))
      (hordinal : symbols.idxOf? symbol = some ordinal) :
      Denotes registry node (.string symbol) (.enum (Int32.ofNat ordinal) symbol)
  | fixed {node : Node} {heading : Heading} {size : Nat} {text : String} {content : List UInt8}
      (hshape : registry.shape? node = some (.named (.fixed heading size)))
      (hcontent : IsLatin1 text content) :
      Denotes registry node (.string text) (.fixed (resize size content))
  | record {node : Node} {record : RecordNode} {entries : List (String × Literal)}
      {rows : List (Field Node × Literal × Value)}
      (hshape : registry.shape? node = some (.named (.record record)))
      (hfields : rows.map (·.1) = record.fields)
      (hliterals : ∀ row ∈ rows, row.1.literal? entries = some row.2.1)
      (hrows : ∀ row ∈ rows, Denotes registry row.1.type row.2.1 row.2.2) :
      Denotes registry node (.object entries) (.record (rows.map fun row => (row.1.name, row.2.2)))
  | array {node items : Node} {rows : List (Literal × Value)}
      (hshape : registry.shape? node = some (.array items))
      (hrows : ∀ row ∈ rows, Denotes registry items row.1 row.2) :
      Denotes registry node (.array (rows.map (·.1))) (.array (rows.map (·.2)))
  | map {node values : Node} {rows : List (String × Literal × Value)}
      (hshape : registry.shape? node = some (.map values))
      (hkeys : rows.Pairwise (·.1 < ·.1))
      (hrows : ∀ row ∈ rows, Denotes registry values row.2.1 row.2.2) :
      Denotes registry node (.object (rows.map fun row => (row.1, row.2.1)))
        (.map (rows.map fun row => (row.1, row.2.2)))
  | union {node first : Node} {others : List Node} {literal : Literal} {value : Value}
      (hshape : registry.shape? node = some (.union (first :: others)))
      (hvalue : Denotes registry first literal value) :
      Denotes registry node literal (.union 0 value)

/-- The place of a union's first branch, or of the first of equal symbols. -/
def Shape.FirstPlace : Shape → Nat → Prop
  | .union _, place => place = 0
  | .named (.enum _ symbols _), place => symbols[place]?.bind symbols.idxOf? = some place
  | _, _ => True

/-! ## One value at most -/

theorem IsLatin1.unique {text : String} {content other : List UInt8} (h : IsLatin1 text content)
    (hother : IsLatin1 text other) : content = other :=
  List.map_injective_iff.2 (fun _ _ => UInt8.toNat_inj.1) (h.symm.trans hother)

theorem Primitive.Denotes.unique {type : Primitive} {literal : Literal} {value other : Value}
    (h : type.Denotes literal value) (hother : type.Denotes literal other) : value = other := by
  cases h with
  | float hnumber =>
    cases hother with
    | float hnumber' => cases hnumber.symm.trans hnumber'; rfl
  | double hnumber =>
    cases hother with
    | double hnumber' => cases hnumber.symm.trans hnumber'; rfl
  | bytes hcontent =>
    cases hother with
    | bytes hcontent' => rw [hcontent.unique hcontent']
  | _ => cases hother; rfl

namespace Registry

variable {registry : Registry} {node : Node} {literal : Literal} {value : Value}

/-- The rule by which a literal denotes a value, by the shape of the node. -/
theorem Denotes.of_shape? (h : registry.Denotes node literal value) {shape : Shape}
    (hshape : registry.shape? node = some shape) :
    match shape with
    | .primitive type => type.Denotes literal value
    | .named (.enum _ symbols _) => ∃ symbol ordinal, literal = .string symbol ∧
        symbols.idxOf? symbol = some ordinal ∧ value = .enum (Int32.ofNat ordinal) symbol
    | .named (.fixed _ size) => ∃ text content, literal = .string text ∧
        IsLatin1 text content ∧ value = .fixed (resize size content)
    | .named (.record source) => ∃ entries, ∃ rows : List (Field Node × Literal × Value),
        literal = .object entries ∧ rows.map (·.1) = source.fields ∧
          (∀ row ∈ rows, row.1.literal? entries = some row.2.1 ∧
            registry.Denotes row.1.type row.2.1 row.2.2) ∧
          value = .record (rows.map fun row => (row.1.name, row.2.2))
    | .array items => ∃ rows : List (Literal × Value), literal = .array (rows.map (·.1)) ∧
        (∀ row ∈ rows, registry.Denotes items row.1 row.2) ∧ value = .array (rows.map (·.2))
    | .map values => ∃ rows : List (String × Literal × Value),
        literal = .object (rows.map fun row => (row.1, row.2.1)) ∧
          (∀ row ∈ rows, registry.Denotes values row.2.1 row.2.2) ∧
          value = .map (rows.map fun row => (row.1, row.2.2))
    | .union branches => ∃ first others content, branches = first :: others ∧
        registry.Denotes first literal content ∧ value = .union 0 content := by
  cases h with
  | primitive hfound hvalue =>
    cases hshape.symm.trans hfound
    exact hvalue
  | enum hfound hordinal =>
    cases hshape.symm.trans hfound
    exact ⟨_, _, rfl, hordinal, rfl⟩
  | fixed hfound hcontent =>
    cases hshape.symm.trans hfound
    exact ⟨_, _, rfl, hcontent, rfl⟩
  | record hfound hfields hliterals hrows =>
    cases hshape.symm.trans hfound
    exact ⟨_, _, rfl, hfields, fun row hrow => ⟨hliterals row hrow, hrows row hrow⟩, rfl⟩
  | array hfound hrows =>
    cases hshape.symm.trans hfound
    exact ⟨_, rfl, hrows, rfl⟩
  | map hfound _ hrows =>
    cases hshape.symm.trans hfound
    exact ⟨_, rfl, hrows, rfl⟩
  | union hfound hvalue =>
    cases hshape.symm.trans hfound
    exact ⟨_, _, _, rfl, hvalue, rfl⟩

/-- A literal denotes one value of a node at most.  The induction is on the rules, which
are those of the node's shape. -/
theorem Denotes.unique (h : registry.Denotes node literal value) {other : Value}
    (hother : registry.Denotes node literal other) : value = other := by
  induction h generalizing other with
  | primitive hshape hvalue => exact hvalue.unique (hother.of_shape? hshape)
  | enum hshape hordinal =>
    obtain ⟨_, _, hsymbol, hordinal', rfl⟩ := hother.of_shape? hshape
    cases hsymbol
    cases hordinal.symm.trans hordinal'
    rfl
  | fixed hshape hcontent =>
    obtain ⟨_, _, htext, hcontent', rfl⟩ := hother.of_shape? hshape
    cases htext
    rw [hcontent.unique hcontent']
  | record hshape hfields hliterals _ ih =>
    obtain ⟨_, rows, hentries, hfields', hrows, rfl⟩ := hother.of_shape? hshape
    cases hentries
    refine congrArg Value.record (map_eq_map_of (hfields.trans hfields'.symm) ?_)
    intro row hrow row' hrow' hfield
    obtain ⟨hliteral, hdenotes⟩ := hrows row' hrow'
    rw [← hfield] at hliteral hdenotes
    have hsame := hliterals row hrow
    rw [hliteral, Option.some_inj] at hsame
    rw [hfield, ih row hrow (hsame ▸ hdenotes)]
  | array hshape _ ih =>
    obtain ⟨rows, helements, hrows, rfl⟩ := hother.of_shape? hshape
    refine congrArg Value.array (map_eq_map_of (Literal.array.inj helements) ?_)
    intro row hrow row' hrow' hliteral
    exact ih row hrow (hliteral ▸ hrows row' hrow')
  | map hshape _ _ ih =>
    obtain ⟨rows, hentries, hrows, rfl⟩ := hother.of_shape? hshape
    refine congrArg Value.map (map_eq_map_of (Literal.object.inj hentries) ?_)
    intro row hrow row' hrow' hentry
    obtain ⟨hkey, hliteral⟩ := Prod.mk.inj hentry
    rw [hkey, ih row hrow (hliteral ▸ hrows row' hrow')]
  | union hshape _ ih =>
    obtain ⟨_, _, content, hbranches, hvalue, rfl⟩ := hother.of_shape? hshape
    cases hbranches
    rw [ih hvalue]

end Registry

/-! ## Literals that can be read back -/

namespace Literal

mutual

/-- No array in a literal has more than `zeroWidthLimit` elements, and the entries of an
object are in the order of their keys. -/
def replayable : Literal → Bool
  | .array elements => elements.length ≤ zeroWidthLimit && replayableElements elements
  | .object entries => entries.Pairwise (·.1 < ·.1) && replayableEntries entries
  | _ => true

/-- Every element of an array can be read back. -/
def replayableElements : List Literal → Bool
  | [] => true
  | element :: rest => replayable element && replayableElements rest

/-- Every value of an object can be read back. -/
def replayableEntries : List (String × Literal) → Bool
  | [] => true
  | (_, value) :: rest => replayable value && replayableEntries rest

end

theorem replayableElements_iff {elements : List Literal} :
    replayableElements elements = true ↔ ∀ element ∈ elements, element.replayable = true := by
  induction elements with
  | nil => simp [replayableElements]
  | cons element rest ih => simp [replayableElements, ih]

theorem replayableEntries_iff {entries : List (String × Literal)} :
    replayableEntries entries = true ↔ ∀ entry ∈ entries, entry.2.replayable = true := by
  induction entries with
  | nil => simp [replayableEntries]
  | cons entry rest ih =>
    rcases entry with ⟨key, value⟩
    simp [replayableEntries, ih]

/-- The literal can be read back, if its parts can: no length is too large, and the entries of an
object are in the order of their keys. -/
def bounded : Literal → Bool
  | .string s => (encodeUtf8 s).length < maxLength
  | .array elements => elements.length ≤ zeroWidthLimit
  | .object entries => entries.length < maxLength &&
      entries.all (fun entry => (encodeUtf8 entry.1).length < maxLength) &&
        entries.Pairwise (·.1 < ·.1)
  | _ => true

theorem bounded_of_replayable {literal : Literal} (haddressable : literal.addressable = true)
    (hreplayable : literal.replayable = true) : literal.bounded = true := by
  cases literal with
  | string => exact haddressable
  | array elements =>
    rw [replayable, Bool.and_eq_true] at hreplayable
    exact hreplayable.1
  | object entries =>
    rw [replayable, Bool.and_eq_true] at hreplayable
    rw [addressable, Bool.and_eq_true, addressableEntries_iff] at haddressable
    rw [bounded, Bool.and_eq_true, Bool.and_eq_true, List.all_eq_true]
    refine ⟨⟨haddressable.1, fun entry hentry => ?_⟩, hreplayable.1⟩
    exact decide_eq_true (haddressable.2 entry hentry).1
  | _ => rfl

end Literal

/-- To write a literal at a node takes another literal to be written at another node: the same
one at the first branch of a union, or an element, an entry, or what a field is written from. -/
inductive Registry.Involves (registry : Registry) : Node × Literal → Node × Literal → Prop
  | first {node first : Node} {others : List Node} {literal : Literal}
      (hshape : registry.shape? node = some (.union (first :: others))) :
      Involves registry (node, literal) (first, literal)
  | element {node items : Node} {elements : List Literal} {element : Literal}
      (hshape : registry.shape? node = some (.array items)) (helement : element ∈ elements) :
      Involves registry (node, .array elements) (items, element)
  | value {node values : Node} {entries : List (String × Literal)} {entry : String × Literal}
      (hshape : registry.shape? node = some (.map values)) (hentry : entry ∈ entries) :
      Involves registry (node, .object entries) (values, entry.2)
  | field {node : Node} {record : RecordNode} {entries : List (String × Literal)}
      {field : Field Node} {literal : Literal}
      (hshape : registry.shape? node = some (.named (.record record)))
      (hfield : field ∈ record.fields) (hliteral : field.literal? entries = some literal) :
      Involves registry (node, .object entries) (field.type, literal)

namespace Shape

/-- If the shape is a record, the defaults of its fields can be read back. -/
def defaultsReplayable : Shape → Bool
  | .named (.record record) =>
    record.fields.all fun field => field.default?.all Literal.replayable
  | _ => true

/-- If the shape is an enum, the ordinals of its symbols fit in the 32 bits in which they are
written. -/
def ordinalsFit : Shape → Bool
  | .named (.enum _ symbols _) => symbols.length ≤ 2147483648
  | _ => true

end Shape

/-! ## Scalars -/

theorem isLatin1_of_latin1Bytes {kind : Kind} {text : String} {content : List UInt8}
    (h : latin1Bytes kind (.string text) = .ok content) : IsLatin1 text content := by
  rw [latin1Bytes] at h
  rw [IsLatin1]
  generalize text.toList = characters at h
  induction characters generalizing content with
  | nil =>
    cases h
    rfl
  | cons character rest ih =>
    rw [List.mapM_cons] at h
    obtain ⟨byte, hbyte, h⟩ := bind_eq_ok.1 h
    obtain ⟨others, hothers, h⟩ := bind_eq_ok.1 h
    cases h
    split at hbyte
    · rename_i hlt
      cases hbyte
      rw [List.map_cons, List.map_cons, ih hothers, UInt8.toNat_ofNat', Nat.mod_eq_of_lt hlt]
    · cases hbyte

theorem number?_of_numberLiteral {type : Primitive} {literal : Literal} {x : Binary64}
    (h : numberLiteral type literal = .ok x) : literal.number? = some x := by
  cases literal <;> cases h <;> rfl

theorem of_integerLiteral {type : Primitive} {least greatest n : Int} {literal : Literal}
    (h : integerLiteral type least greatest literal = .ok n) :
    literal = .integer n ∧ least ≤ n ∧ n ≤ greatest := by
  cases literal with
  | integer m =>
    rw [integerLiteral] at h
    split at h
    · rename_i hrange
      cases h
      exact ⟨rfl, hrange⟩
    · cases h
  | _ => cases h

/-- The encoding of a scalar stands for what the literal denotes. -/
theorem Primitive.denotes_of_encodePrimitive {type : Primitive} {literal : Literal}
    {bytes : List UInt8} (hbounded : literal.bounded = true)
    (h : encodePrimitive type literal = .ok bytes) :
    ∃ value step, type.Denotes literal value ∧ type.Represents value step ∧
      bytes = step.encode := by
  cases type with
  | null =>
    cases literal <;> cases h
    exact ⟨_, _, .null, .null, rfl⟩
  | boolean =>
    cases literal <;> cases h
    exact ⟨_, _, .boolean _, .boolean _, rfl⟩
  | int =>
    obtain ⟨n, hn, h⟩ := bind_eq_ok.1 h
    cases h
    obtain ⟨rfl, hlower, hupper⟩ := of_integerLiteral hn
    exact ⟨_, _, .int hlower hupper, .int _, rfl⟩
  | long =>
    obtain ⟨n, hn, h⟩ := bind_eq_ok.1 h
    cases h
    obtain ⟨rfl, hlower, hupper⟩ := of_integerLiteral hn
    exact ⟨_, _, .long hlower hupper, .long _, rfl⟩
  | float =>
    obtain ⟨x, hx, h⟩ := bind_eq_ok.1 h
    cases h
    exact ⟨_, _, .float (number?_of_numberLiteral hx), .float _, rfl⟩
  | double =>
    obtain ⟨x, hx, h⟩ := bind_eq_ok.1 h
    cases h
    exact ⟨_, _, .double (number?_of_numberLiteral hx), .double _, rfl⟩
  | bytes =>
    obtain ⟨content, hcontent, h⟩ := bind_eq_ok.1 h
    cases h
    cases literal with
    | string text =>
      have hlength : content.length < maxLength :=
        Nat.lt_of_le_of_lt (length_le_of_latin1Bytes hcontent) (of_decide_eq_true hbounded)
      exact ⟨_, _, .bytes (isLatin1_of_latin1Bytes hcontent), .bytes hlength, rfl⟩
    | _ => cases hcontent
  | string =>
    cases literal with
    | string text =>
      cases h
      exact ⟨_, _, .string text, .string (of_decide_eq_true hbounded), rfl⟩
    | _ => cases h

/-! ## The encoder -/

namespace Registry

variable {root node : Node} {literal : Literal} {bytes : List UInt8}

theorem denotes_enum {heading : Heading} {symbols : List String} {default? : Option String}
    (hshape : (ofRoot root).shape? node = some (.named (.enum heading symbols default?)))
    (hfits : symbols.length ≤ 2147483648) (h : encodeEnum heading symbols literal = .ok bytes) :
    ∃ value, (ofRoot root).Denotes node literal value ∧
      (ofRoot root).Represents Shape.FirstPlace node value bytes := by
  cases literal with
  | string symbol =>
    rw [encodeEnum] at h
    split at h
    · rename_i ordinal hordinal
      cases h
      have hsymbol : symbols[ordinal]? = some symbol := by
        obtain ⟨hlt, hsymbol, _⟩ := List.idxOf?_eq_some_iff.1 hordinal
        rw [List.getElem?_eq_getElem hlt, hsymbol]
      have hlt : ordinal < symbols.length := (List.getElem?_eq_some_iff.1 hsymbol).1
      refine ⟨_, .enum hshape hordinal, .enum hshape hsymbol (by omega) ?_⟩
      rw [Shape.FirstPlace, hsymbol, Option.bind_some, hordinal]
    · cases h
  | _ => cases h

theorem denotes_record {registry : Registry} {record : RecordNode}
    {entries : List (String × Literal)} {rows : List (Field Node × Literal × List UInt8)}
    (hshape : registry.shape? node = some (.named (.record record)))
    (hfields : rows.map (·.1) = record.fields)
    (hliterals : ∀ row ∈ rows, row.1.literal? entries = some row.2.1)
    (hrows : ∀ row ∈ rows, ∃ value, registry.Denotes row.1.type row.2.1 value ∧
      registry.Represents Shape.FirstPlace row.1.type value row.2.2) :
    ∃ value, registry.Denotes node (.object entries) value ∧
      registry.Represents Shape.FirstPlace node value (rows.flatMap (·.2.2)) := by
  choose! value hvalue using hrows
  have hdenotes := @Denotes.record registry node record entries
    (rows.map fun row => (row.1, row.2.1, value row)) hshape (by rwa [List.map_map])
    (List.forall_mem_map.2 hliterals) (List.forall_mem_map.2 fun row hrow => (hvalue row hrow).1)
  have hrepresents := @Represents.record registry Shape.FirstPlace node record
    (rows.map fun row => (row.1, value row, row.2.2)) hshape (by rwa [List.map_map])
    (List.forall_mem_map.2 fun row hrow => (hvalue row hrow).2)
  rw [List.map_map] at hdenotes
  rw [List.map_map, List.flatMap_map] at hrepresents
  exact ⟨_, hdenotes, hrepresents⟩

theorem denotes_array {registry : Registry} {items : Node} {rows : List (Literal × List UInt8)}
    (hshape : registry.shape? node = some (.array items)) (hlength : rows.length < maxLength)
    (hlimit : rows.length ≤ zeroWidthLimit)
    (hrows : ∀ row ∈ rows, ∃ value, registry.Denotes items row.1 value ∧
      registry.Represents Shape.FirstPlace items value row.2) :
    ∃ value, registry.Denotes node (.array (rows.map (·.1))) value ∧
      registry.Represents Shape.FirstPlace node value
        (encodeBlock rows.length (rows.flatMap (·.2))) := by
  choose! value hvalue using hrows
  have hdenotes := @Denotes.array registry node items
    (rows.map fun row => (row.1, value row)) hshape
    (List.forall_mem_map.2 fun row hrow => (hvalue row hrow).1)
  have hrepresents := @Represents.array registry Shape.FirstPlace node items
    (rows.map fun row => (value row, row.2)) hshape
    (by rwa [List.length_map]) (Nat.le_trans List.countP_le_length (by rwa [List.length_map]))
    (List.forall_mem_map.2 fun row hrow => (hvalue row hrow).2)
  rw [List.map_map, List.map_map] at hdenotes
  rw [List.map_map, List.flatMap_map, List.length_map] at hrepresents
  exact ⟨_, hdenotes, hrepresents⟩

theorem denotes_map {registry : Registry} {values : Node}
    {rows : List (String × Literal × List UInt8)}
    (hshape : registry.shape? node = some (.map values)) (hlength : rows.length < maxLength)
    (hkeys : ∀ row ∈ rows, (encodeUtf8 row.1).length < maxLength)
    (hordered : rows.Pairwise (·.1 < ·.1))
    (hrows : ∀ row ∈ rows, ∃ value, registry.Denotes values row.2.1 value ∧
      registry.Represents Shape.FirstPlace values value row.2.2) :
    ∃ value, registry.Denotes node (.object (rows.map fun row => (row.1, row.2.1))) value ∧
      registry.Represents Shape.FirstPlace node value (encodeBlock rows.length
        (rows.flatMap fun row => (Step.string row.1).encode ++ row.2.2)) := by
  choose! value hvalue using hrows
  have hdenotes := @Denotes.map registry node values
    (rows.map fun row => (row.1, row.2.1, value row)) hshape (List.pairwise_map.2 hordered)
    (List.forall_mem_map.2 fun row hrow => (hvalue row hrow).1)
  have hrepresents := @Represents.map registry Shape.FirstPlace node values
    (rows.map fun row => (row.1, value row, row.2.2)) hshape
    (by rwa [List.length_map]) (List.forall_mem_map.2 hkeys)
    (List.forall_mem_map.2 fun row hrow => (hvalue row hrow).2)
  rw [List.map_map, List.map_map] at hdenotes
  rw [List.map_map, List.flatMap_map, List.length_map] at hrepresents
  exact ⟨_, hdenotes, hrepresents⟩

/-- What is written stands for a value that the literal denotes, if all literals that it takes
are bounded. -/
theorem Writes.denotes_of_bounded (hfits : root.everyShape Shape.ordinalsFit = true)
    (h : (ofRoot root).Writes node literal bytes) (hnode : node ∈ root.preorder)
    (hbounded : ∀ place, Relation.ReflTransGen (ofRoot root).Involves (node, literal) place →
      place.2.bounded = true) :
    ∃ value, (ofRoot root).Denotes node literal value ∧
      (ofRoot root).Represents Shape.FirstPlace node value bytes := by
  have hpart {node part : Node} (hnode : node ∈ root.preorder) {shape : Shape}
      (hshape : (ofRoot root).shape? node = some shape) (hmem : part ∈ shape.parts) :
      part ∈ root.preorder := look_part hnode (look_of_shape? hshape) hmem
  induction h with
  | primitive hshape hbytes =>
    obtain ⟨value, step, hvalue, hstep, rfl⟩ :=
      Primitive.denotes_of_encodePrimitive (hbounded _ .refl) hbytes
    exact ⟨value, .primitive hshape hvalue, .primitive hshape hstep⟩
  | enum hshape hbytes =>
    exact denotes_enum hshape (of_decide_eq_true (of_everyShape hfits hnode hshape)) hbytes
  | @fixed node literal heading size bytes hshape hbytes =>
    obtain ⟨content, hcontent, hbytes⟩ := bind_eq_ok.1 hbytes
    cases hbytes
    cases literal with
    | string text =>
      exact ⟨_, .fixed hshape (isLatin1_of_latin1Bytes hcontent),
        .fixed hshape (length_resize size content)⟩
    | _ => cases hcontent
  | @record node record entries rows hshape hfields hliterals _ ih =>
    refine denotes_record hshape hfields hliterals fun row hrow => ?_
    have hfield : row.1 ∈ record.fields := hfields ▸ List.mem_map_of_mem hrow
    refine ih row hrow (hpart hnode hshape (List.mem_map_of_mem hfield)) fun place hplace => ?_
    exact hbounded place (.head (.field hshape hfield (hliterals row hrow)) hplace)
  | @array node items rows hshape _ ih =>
    have hlimit : rows.length ≤ zeroWidthLimit := by simpa [Literal.bounded] using hbounded _ .refl
    refine denotes_array hshape (Nat.lt_of_le_of_lt hlimit (by decide)) hlimit fun row hrow => ?_
    refine ih row hrow (hpart hnode hshape (.head _)) fun place hplace => ?_
    exact hbounded place (.head (.element hshape (List.mem_map_of_mem hrow)) hplace)
  | @map node values rows hshape _ ih =>
    have hown := hbounded _ .refl
    rw [Literal.bounded, Bool.and_eq_true, Bool.and_eq_true, decide_eq_true_eq, decide_eq_true_eq,
      List.all_eq_true, List.length_map, List.forall_mem_map, List.pairwise_map] at hown
    obtain ⟨⟨hlength, hkeys⟩, hordered⟩ := hown
    refine denotes_map hshape hlength (fun row hrow => of_decide_eq_true (hkeys row hrow)) hordered
      fun row hrow => ?_
    refine ih row hrow (hpart hnode hshape (.head _)) fun place hplace => ?_
    have hentry := List.mem_map_of_mem (f := fun row => (row.1, row.2.1)) hrow
    exact hbounded place (.head (.value hshape hentry) hplace)
  | union hshape _ ih =>
    obtain ⟨value, hvalue, hrepresents⟩ := ih (hpart hnode hshape (.head _)) fun place hplace =>
      hbounded place (.head (.first hshape) hplace)
    exact ⟨_, .union hshape hvalue, .union hshape rfl (by decide) rfl hrepresents⟩

/-- Where all defaults of the tree can be read back, so can the literals that a literal takes. -/
theorem bounded_of_involves (haddressable : (ofRoot root).addressable = true)
    (hdefaults : root.everyShape Shape.defaultsReplayable = true) (hnode : node ∈ root.preorder)
    (hliteral : literal.addressable = true) (hreplayable : literal.replayable = true)
    {place : Node × Literal}
    (h : Relation.ReflTransGen (ofRoot root).Involves (node, literal) place) :
    place.2.bounded = true := by
  suffices hplace : place.1 ∈ root.preorder ∧ place.2.addressable = true ∧
      place.2.replayable = true from Literal.bounded_of_replayable hplace.2.1 hplace.2.2
  induction h with
  | refl => exact ⟨hnode, hliteral, hreplayable⟩
  | @tail before after _ hinvolves ih =>
    obtain ⟨hnode, hliteral, hreplayable⟩ := ih
    cases hinvolves with
    | first hshape =>
      exact ⟨look_part hnode (look_of_shape? hshape) (.head _), hliteral, hreplayable⟩
    | element hshape helement =>
      rw [Literal.addressable, Bool.and_eq_true, Literal.addressableElements_iff] at hliteral
      rw [Literal.replayable, Bool.and_eq_true, Literal.replayableElements_iff] at hreplayable
      exact ⟨look_part hnode (look_of_shape? hshape) (.head _), hliteral.2 _ helement,
        hreplayable.2 _ helement⟩
    | value hshape hentry =>
      rw [Literal.addressable, Bool.and_eq_true, Literal.addressableEntries_iff] at hliteral
      rw [Literal.replayable, Bool.and_eq_true, Literal.replayableEntries_iff] at hreplayable
      exact ⟨look_part hnode (look_of_shape? hshape) (.head _), (hliteral.2 _ hentry).2,
        hreplayable.2 _ hentry⟩
    | @field node record entries field literal hshape hfield hfound =>
      have hrecord := (Holds.record ⟨root, rfl, hnode⟩ (look_of_shape? hshape)).1
      refine ⟨look_part hnode (look_of_shape? hshape) (List.mem_map_of_mem hfield),
        addressable_field haddressable hrecord hfield hliteral hfound, ?_⟩
      rcases Field.entry_or_default hfound with hentry | hdefault
      · rw [Literal.replayable, Bool.and_eq_true, Literal.replayableEntries_iff] at hreplayable
        exact hreplayable.2 _ hentry
      · have hall := List.all_eq_true.1 (of_everyShape hdefaults hnode hshape) field hfield
        rwa [hdefault, Option.all_some] at hall

/-- What is written stands for a value that the literal denotes. -/
theorem Writes.denotes (haddressable : (ofRoot root).addressable = true)
    (hdefaults : root.everyShape Shape.defaultsReplayable = true)
    (hfits : root.everyShape Shape.ordinalsFit = true)
    (h : (ofRoot root).Writes node literal bytes) (hnode : node ∈ root.preorder)
    (hliteral : literal.addressable = true) (hreplayable : literal.replayable = true) :
    ∃ value, (ofRoot root).Denotes node literal value ∧
      (ofRoot root).Represents Shape.FirstPlace node value bytes :=
  h.denotes_of_bounded hfits hnode fun _ hplace =>
    bounded_of_involves haddressable hdefaults hnode hliteral hreplayable hplace

end Registry

end AvroResolution
