import AvroResolution.Proofs.Decoding.Fields
import AvroResolution.Proofs.Decoding.Typing
import Mathlib.Algebra.Group.Nat.Defs

/-!
# Decoded values are values of the reader's schema

`Registry.Conforms` says what the values of a node are, where names are those of
the registry.  Whatever a compiled program reads is a value of the reader's root
(`SchemaPair.conforms_of_decode`), be it read, promoted, remapped, wrapped or
filled from a default, and whether or not the schemas fit.  Two parts of one tree
are no such pair (`SharedTree.not_conforms_of_decode`).

Values keep the places of enum symbols and union branches in 32 bits, so the
reader's enums and unions must not have more members than that
(`Node.Indexed`).
-/

namespace AvroResolution

/-! ## Values of a schema -/

/-- The value is a value of the node, where names are those of the registry. -/
inductive Registry.Conforms (registry : Registry) : Node → Value → Prop
  | primitive {node : Node} {type : Primitive} {value : Value}
      (hshape : registry.shape? node = some (.primitive type))
      (hvalue : Value.OfPrimitive type value) : Conforms registry node value
  | fixed {node : Node} {heading : Heading} {size : Nat} {content : List UInt8}
      (hshape : registry.shape? node = some (.named (.fixed heading size)))
      (hsize : content.length = size) : Conforms registry node (.fixed content)
  | enum {node : Node} {heading : Heading} {symbols : List String} {default? : Option String}
      {index : Int32} {symbol : String}
      (hshape : registry.shape? node = some (.named (.enum heading symbols default?)))
      (hindex : 0 ≤ index.toInt) (hsymbol : symbols[index.toInt.toNat]? = some symbol) :
      Conforms registry node (.enum index symbol)
  | array {node items : Node} {values : List Value}
      (hshape : registry.shape? node = some (.array items))
      (hvalues : ∀ value ∈ values, Conforms registry items value) :
      Conforms registry node (.array values)
  | map {node content : Node} {entries : List (String × Value)}
      (hshape : registry.shape? node = some (.map content))
      (hentries : ∀ entry ∈ entries, Conforms registry content entry.2) :
      Conforms registry node (.map entries)
  | record {node : Node} {record : RecordNode} {fields : List (String × Value)}
      (hshape : registry.shape? node = some (.named (.record record)))
      (hnames : fields.map Prod.fst = record.fields.map (·.name))
      (hfields : ∀ (index : Nat) (field : Field Node) (entry : String × Value),
        record.fields[index]? = some field → fields[index]? = some entry →
          Conforms registry field.type entry.2) :
      Conforms registry node (.record fields)
  | union {node branch : Node} {branches : List Node} {index : Int32} {value : Value}
      (hshape : registry.shape? node = some (.union branches))
      (hindex : 0 ≤ index.toInt) (hbranch : branches[index.toInt.toNat]? = some branch)
      (hvalue : Conforms registry branch value) :
      Conforms registry node (.union index value)

namespace Value

/-- The bytes of a fixed. -/
def fixed? : Value → Option (List UInt8)
  | .fixed content => some content
  | _ => none

theorem eq_of_fixed? {value : Value} {content : List UInt8}
    (h : value.fixed? = some content) : value = .fixed content := by
  cases value with
  | fixed => exact congrArg fixed (Option.some.inj h)
  | _ => cases h

theorem exists_of_field? {value content : Value} {name : String}
    (h : value.field? name = some content) :
    ∃ fields, value = .record fields ∧ fields.lookup name = some content := by
  cases value with
  | record fields => exact ⟨fields, rfl, h⟩
  | _ => cases h

end Value

/-- Where entries have the names of fields in order, the first entry of a name belongs to the first
field of that name. -/
theorem exists_index_of_lookup {entries : List (String × Value)} {fields : List (Field Node)}
    {name : String} {field : Field Node} {value : Value}
    (hnames : entries.map Prod.fst = fields.map (·.name))
    (hfield : fields.find? (·.name == name) = some field)
    (hvalue : entries.lookup name = some value) :
    ∃ index : Nat, fields[index]? = some field ∧ entries[index]? = some (name, value) := by
  induction entries generalizing fields with
  | nil => cases hvalue
  | cons entry entries ih =>
    cases fields with
    | nil => cases hfield
    | cons head fields =>
      rw [List.map_cons, List.map_cons, List.cons.injEq] at hnames
      rw [List.find?_cons, ← hnames.1] at hfield
      rw [List.lookup_cons] at hvalue
      by_cases hname : entry.1 = name
      · subst hname
        rw [beq_self_eq_true] at hfield hvalue
        cases hfield
        cases hvalue
        exact ⟨0, rfl, rfl⟩
      · rw [beq_false_of_ne hname] at hfield
        rw [beq_false_of_ne (Ne.symm hname)] at hvalue
        obtain ⟨index, hindex, hentry⟩ := ih hnames.2 hfield hvalue
        exact ⟨index + 1, hindex, hentry⟩

namespace Registry.Conforms

variable {registry : Registry} {node : Node} {value : Value}

/-- What a name finds in a record is a value of the type of the first field of that name. -/
theorem field? (h : registry.Conforms node value) {record : RecordNode}
    (hshape : registry.shape? node = some (.named (.record record))) {name : String}
    {field : Field Node} (hfield : record.fields.find? (·.name == name) = some field)
    {content : Value} (hcontent : value.field? name = some content) :
    registry.Conforms field.type content := by
  obtain ⟨fields, rfl, hlookup⟩ := Value.exists_of_field? hcontent
  cases h with
  | primitive h => cases hshape.symm.trans h
  | record h hnames hfields =>
    cases hshape.symm.trans h
    obtain ⟨index, hindex, hentry⟩ := exists_index_of_lookup hnames hfield hlookup
    exact hfields index field _ hindex hentry

/-- A fixed has the bytes that its type declares. -/
theorem length_of_fixed (h : registry.Conforms node value) {heading : Heading} {size : Nat}
    (hshape : registry.shape? node = some (.named (.fixed heading size))) {content : List UInt8}
    (hcontent : value.fixed? = some content) : content.length = size := by
  obtain rfl := Value.eq_of_fixed? hcontent
  cases h with
  | primitive h => cases hshape.symm.trans h
  | fixed h hsize =>
    cases hshape.symm.trans h
    exact hsize

end Registry.Conforms

/-- The number of symbols of an enum or of branches of a union. -/
def Schema.memberCount : Schema → Nat
  | .enum _ symbols _ => symbols.length
  | .union branches => branches.length
  | _ => 0

/-- The members of every enum and union in the tree have places of 32 bits. -/
def Node.Indexed (root : Node) : Prop :=
  ∀ node ∈ root.preorder, node.schema.memberCount < 2 ^ 31

theorem toInt_ofNat_of_lt {index bound : Nat} (hlt : index < bound) (hbound : bound < 2 ^ 31) :
    (Int32.ofNat index).toInt = index :=
  Int32.toInt_ofNat_of_lt (by omega)

theorem Node.length_ofBranches (side : Side) (ordinal : Nat) (branches : List Schema) :
    (Node.ofBranches side ordinal branches).length = branches.length := by
  induction branches generalizing ordinal with
  | nil => rfl
  | cons branch rest ih => rw [ofBranches, List.length_cons, ih, List.length_cons]

namespace Registry

variable {root node : Node} {value : Value}

theorem length_symbols_lt {heading : Heading} {symbols : List String} {default? : Option String}
    (hindexed : root.Indexed) (hnode : node ∈ root.preorder)
    (hshape : (ofRoot root).shape? node = some (.named (.enum heading symbols default?))) :
    symbols.length < 2 ^ 31 := by
  obtain ⟨⟨side, ordinal, schema⟩, hsource, hown⟩ := look_source hnode (look_of_shape? hshape)
  have hlt := hindexed _ hsource
  cases schema <;> cases hown
  exact hlt

theorem length_branches_lt {branches : List Node} (hindexed : root.Indexed)
    (hnode : node ∈ root.preorder) (hshape : (ofRoot root).shape? node = some (.union branches)) :
    branches.length < 2 ^ 31 := by
  obtain ⟨⟨side, ordinal, schema⟩, hsource, hown⟩ := look_source hnode (look_of_shape? hshape)
  have hlt := hindexed _ hsource
  cases schema <;> cases hown
  rw [Node.length_ofBranches]
  exact hlt

theorem conforms_enum {heading : Heading} {symbols : List String} {default? : Option String}
    {index : Nat} {symbol : String} (hindexed : root.Indexed) (hnode : node ∈ root.preorder)
    (hshape : (ofRoot root).shape? node = some (.named (.enum heading symbols default?)))
    (hsymbol : symbols[index]? = some symbol) :
    (ofRoot root).Conforms node (.enum (Int32.ofNat index) symbol) := by
  have hlt := (List.getElem?_eq_some_iff.1 hsymbol).1
  have hindex := toInt_ofNat_of_lt hlt (length_symbols_lt hindexed hnode hshape)
  refine .enum hshape ?_ ?_
  · omega
  · rw [hindex, Int.toNat_natCast]
    exact hsymbol

theorem conforms_union {branches : List Node} {branch : Node} {index : Nat}
    (hindexed : root.Indexed) (hnode : node ∈ root.preorder)
    (hshape : (ofRoot root).shape? node = some (.union branches))
    (hbranch : branches[index]? = some branch) (hvalue : (ofRoot root).Conforms branch value) :
    (ofRoot root).Conforms node (.union (Int32.ofNat index) value) := by
  have hlt := (List.getElem?_eq_some_iff.1 hbranch).1
  have hindex := toInt_ofNat_of_lt hlt (length_branches_lt hindexed hnode hshape)
  refine .union hshape ?_ ?_ hvalue
  · omega
  · rw [hindex, Int.toNat_natCast]
    exact hbranch

theorem conforms_record {record : RecordNode} {fields : List (String × Value)}
    (hshape : (ofRoot root).shape? node = some (.named (.record record)))
    (hlength : fields.length = record.fields.length)
    (hfields : ∀ (index : Nat) (field : Field Node), record.fields[index]? = some field →
      ∃ value, fields[index]? = some (field.name, value) ∧
        (ofRoot root).Conforms field.type value) :
    (ofRoot root).Conforms node (.record fields) := by
  refine .record hshape ?_ ?_
  · refine List.ext_getElem? fun index => ?_
    rw [List.getElem?_map, List.getElem?_map]
    cases hfield : record.fields[index]? with
    | some field =>
      obtain ⟨value, hvalue, _⟩ := hfields index field hfield
      rw [hvalue]
      rfl
    | none =>
      rw [List.getElem?_eq_none_iff] at hfield
      rw [List.getElem?_eq_none_iff.2 (by omega)]
      rfl
  · intro index field entry hfield hentry
    obtain ⟨value, hvalue, hconforms⟩ := hfields index field hfield
    rw [hvalue] at hentry
    cases hentry
    exact hconforms

end Registry

/-! ## Values of a run -/

namespace Program

variable {context : Context} {program : Program} {builder : Builder} {root : Node}

/-- Whatever a compiled symbol reads is a value of the reader's node.  The induction is
on the depth of the run; one case for each rule. -/
theorem Built.conforms (hbuilt : program.Built context builder)
    (hregistry : context.registry root.side = .ofRoot root) (hindexed : root.Indexed)
    (depth : Nat) {writer reader : Node} {id : SymbolId}
    (hreads : builder.Reads context writer reader id) (hreader : reader ∈ root.preorder) :
    Reader.Ensures ((Registry.ofRoot root).Conforms reader) (fun _ => True)
      (program.runWithin depth id) := by
  induction depth using Nat.strongRecOn generalizing writer reader id with
  | ind depth ih =>
    have hlook {r : Shape} (hr : context.shape? reader = some r) :
        (Registry.ofRoot root).shape? reader = some r := by
      rw [← hregistry, ← Node.side_of_mem_preorder root reader hreader]
      exact hr
    have hpart {r : Shape} {part : Node} (hr : context.shape? reader = some r)
        (hmem : part ∈ r.parts) : part ∈ root.preorder :=
      Registry.look_part hreader (Registry.look_of_shape? (hlook hr)) hmem
    have hruns := hbuilt.runs hreads depth
    generalize program.runWithin depth id = x at hruns ⊢
    cases hruns with
    | endless => exact .throw trivial
    | missing => exact .throw trivial
    | unbranched => exact .throw trivial
    | mismatch => exact .throw trivial
    | atom hreading =>
      obtain ⟨w, r, _, hr, hrule⟩ := Context.rule_of_reading? hreading
      cases hrule with
      | primitive type =>
        exact (Reader.ensures_readTerminal type).mono
          (fun _ hvalue => .primitive (hlook hr) hvalue) fun _ _ => trivial
      | fixed size _ =>
        refine (Reader.ensures_readFixed size).mono ?_ fun _ _ => trivial
        rintro _ ⟨content, rfl, hsize⟩
        exact .fixed (hlook hr) hsize
    | promotion hreading =>
      obtain ⟨w, r, _, hr, hrule⟩ := Context.rule_of_reading? hreading
      cases hrule with
      | promotion _ _ htarget =>
        subst htarget
        exact (Reader.ensures_promoted _).mono
          (fun _ hvalue => .primitive (hlook hr) hvalue) fun _ _ => trivial
    | enum hreading =>
      obtain ⟨w, r, _, hr, hrule⟩ := Context.rule_of_reading? hreading
      cases hrule with
      | enum ws rs _ default? _ =>
        refine (Reader.ensures_readEnum _).mono ?_ fun _ _ => trivial
        rintro _ ⟨index, symbol, rfl, hsymbol⟩
        exact Registry.conforms_enum hindexed hreader (hlook hr) hsymbol
    | array hreading hless _ hitem _ =>
      obtain ⟨w, r, _, hr, hrule⟩ := Context.rule_of_reading? hreading
      cases hrule with
      | array wi ri =>
        refine (Reader.Ensures.readArray (fun _ _ => trivial)
          (ih _ hless hitem (hpart hr (.head _)))).mono ?_ fun _ _ => trivial
        rintro _ ⟨items, rfl, hitems⟩
        exact .array (hlook hr) hitems
    | map hreading hless _ hvalue _ =>
      obtain ⟨w, r, _, hr, hrule⟩ := Context.rule_of_reading? hreading
      cases hrule with
      | map wv rv =>
        refine (Reader.Ensures.readMap (fun _ _ => trivial)
          (ih _ hless hvalue (hpart hr (.head _)))).mono ?_ fun _ _ => trivial
        rintro _ ⟨entries, rfl, hentries⟩
        exact .map (hlook hr) hentries
    | @records w r matching _ _ less hreading hless _ _ hmatching hwritten hdefaulted =>
      obtain ⟨_, _, _, hr, hrule⟩ := Context.rule_of_reading? hreading
      cases hrule
      have hfield {link : ReaderField} (hlink : link ∈ ReaderField.ofFields r.fields) :
          link.field.type ∈ root.preorder :=
        hpart hr (List.mem_map_of_mem (List.mem_of_getElem? (ReaderField.mem_ofFields.1 hlink)))
      let typed (link : ReaderField) (value : Value) : Prop :=
        (Registry.ofRoot root).Conforms link.field.type value
      have hwrittenParts := ensuresParts_written typed (fun _ => True)
        (fun _ _ _ hlinked hsymbol _ =>
          ih less hless hsymbol (hfield (Matching.mem_of_linked hmatching hlinked)))
        (fun _ _ _ _ _ => Reader.ensures_true _) (Matching.length_links hmatching) hwritten
      have hdefaultedParts := ensuresParts_defaulted typed (fun _ => True)
        (by
          rintro field hmem _ ⟨_, hvalue, _⟩
          exact .readWhole
            (ih less hless hvalue (hfield (Matching.mem_of_defaulted hmatching hmem)))
            fun _ _ _ _ => trivial) hdefaulted
      refine (Reader.Ensures.readRecord hmatching
        (List.rel_append hwrittenParts hdefaultedParts) fun _ _ _ => trivial).mono ?_ fun _ h => h
      rintro _ ⟨fields, rfl, hlength, hfields⟩
      exact Registry.conforms_record (hlook hr) hlength hfields
    | @select branches _ _ _ hless _ hlength hbranches _ =>
      refine .bind (Reader.ensures_true _) fun index _ => ?_
      have hindex : index.val < branches.length := by
        rw [← hlength]
        exact index.isLt
      exact ih _ hless (hbranches index _ _ (List.getElem?_eq_getElem hindex)
        (List.getElem?_eq_getElem index.isLt)) hreader
    | adjust hreading hless _ _ hkept hpick hbranch _ _ =>
      obtain ⟨w, r, _, hr, hrule⟩ := Context.rule_of_reading? hreading
      cases hrule with
      | readerUnion branches _ =>
        have hindex := List.mem_zipIdx_iff_getElem?.1 (hkept.mem_of_pick hpick)
        refine .bind (ih _ hless hbranch (hpart hr (List.mem_of_getElem? hindex))) ?_
        intro value hvalue
        exact .pure (Registry.conforms_union hindexed hreader (hlook hr) hindex hvalue)

end Program

namespace SchemaPair

variable {pair : SchemaPair} {config : Config} {program : Program}

theorem registry_readerRoot (pair : SchemaPair) (config : Config) :
    (pair.context config).registry pair.readerRoot.side = .ofRoot pair.readerRoot := by
  cases pair <;> rfl

/-- A decoded value is a value of the reader's schema, with the reader's own named
types. -/
theorem conforms_of_decode (hprogram : pair.program config = .ok program)
    (hindexed : pair.readerRoot.Indexed) {input rest : Input} {value : Value}
    (hdecode : program.decode input = .ok value rest) :
    (Registry.ofRoot pair.readerRoot).Conforms pair.readerRoot value := by
  obtain ⟨builder, _, hbuilt, hreads⟩ := built hprogram
  exact (hbuilt.conforms (pair.registry_readerRoot config) hindexed _ hreads
    pair.readerRoot.self_mem_preorder).of_ok hdecode

/-- Accounts of an old and a new version: a field is widened, one is dropped, one is
remapped, one has become a union and one is new. -/
def accounts : SchemaPair :=
  .twoTrees
    (.record ⟨"Account", none, []⟩
      [⟨"id", .primitive .int, none, []⟩,
        ⟨"note", .primitive .string, none, []⟩,
        ⟨"state", .enum ⟨"State", none, []⟩ ["open", "closed"] none, none, []⟩,
        ⟨"owner", .primitive .string, none, []⟩])
    (.record ⟨"Account", none, []⟩
      [⟨"level", .primitive .int, some (.integer 3), []⟩,
        ⟨"owner", .union [.primitive .null, .primitive .string], none, []⟩,
        ⟨"state", .enum ⟨"State", none, []⟩ ["open", "other"] (some "other"), none, []⟩,
        ⟨"id", .primitive .long, none, []⟩])

theorem conforms_of_decode_accounts :
    ∃ program value rest, accounts.program {} = .ok program ∧ accounts.readerRoot.Indexed ∧
      program.decode (.ofList [2, 2, 97, 2, 2, 98]) = .ok value rest ∧
        (Registry.ofRoot accounts.readerRoot).Conforms accounts.readerRoot value := by
  obtain ⟨program, hprogram, h⟩ := Reader.exists_ok (accounts.program {})
    (fun program => Reader.isValue (program.decode (.ofList [2, 2, 97, 2, 2, 98])))
    (by decide +kernel)
  obtain ⟨value, rest, hdecode⟩ := Reader.exists_value h
  have hindexed : accounts.readerRoot.Indexed := by
    unfold Node.Indexed
    decide +kernel
  exact ⟨program, value, rest, hprogram, hindexed, hdecode,
    conforms_of_decode hprogram hindexed hdecode⟩

end SchemaPair

namespace SharedTree

/-- Data of a part are read as the order that the part belongs to.  A label has a code and a mark.
The order and the part by itself know other types by these names: they have three bytes together,
but two and one in the order, one and two in the part. -/
def markedOrders : SharedTree :=
  ⟨.record ⟨"Order", none, []⟩
      [⟨"code", .fixed ⟨"Code", none, []⟩ 2, some (.string "xx"), []⟩,
        ⟨"mark", .fixed ⟨"Mark", none, []⟩ 1, some (.string "x"), []⟩,
        ⟨"part", .record ⟨"Part", none, []⟩
            [⟨"label", .record ⟨"Label", none, []⟩
                [⟨"code", .reference "Code", none, []⟩, ⟨"mark", .reference "Mark", none, []⟩,
                  ⟨"check", .fixed ⟨"Code", some "short", []⟩ 1, none, []⟩,
                  ⟨"seal", .fixed ⟨"Mark", some "long", []⟩ 2, none, []⟩], none, []⟩],
          some (.object [("label", .object [("check", .string "d"), ("code", .string "ab"),
            ("mark", .string "c"), ("seal", .string "ef")])]), []⟩],
    ⟨3, by decide +kernel⟩, ⟨0, by decide +kernel⟩⟩

/-- The bytes of the code on the label of an order's part. -/
def labelCode? (order : Value) : Option (List UInt8) :=
  (((order.field? "part").bind (·.field? "label")).bind (·.field? "code")).bind (·.fixed?)

/-- Where the schemas of `conforms_of_decode` are parts of one tree, a value may be one by the
writer's names.  The label is compiled with the names of the part, and the default of the order's
part is read by it to its end, with a code of one byte. -/
theorem not_conforms_of_decode :
    ∃ program value rest, markedOrders.program {} = .ok program ∧
      markedOrders.readerRoot.Indexed ∧
        program.decode (.ofList [1, 2, 3, 4, 5, 6]) = .ok value rest ∧
          ¬(Registry.ofRoot markedOrders.readerRoot).Conforms markedOrders.readerRoot value := by
  obtain ⟨program, hprogram, h⟩ := Reader.exists_ok (markedOrders.program {})
    (fun program => Reader.isValueWith (fun value _ => labelCode? value == some [97])
      (program.decode (.ofList [1, 2, 3, 4, 5, 6]))) (by decide +kernel)
  obtain ⟨value, rest, hdecode, hcode⟩ := Reader.exists_valueWith h
  have hindexed : markedOrders.readerRoot.Indexed := by
    unfold Node.Indexed
    decide +kernel
  refine ⟨program, value, rest, hprogram, hindexed, hdecode, fun hconforms => ?_⟩
  obtain ⟨code, hcode, hbytes⟩ := Option.bind_eq_some_iff.1 (eq_of_beq hcode)
  obtain ⟨label, hlabel, hcode⟩ := Option.bind_eq_some_iff.1 hcode
  obtain ⟨part, hpart, hlabel⟩ := Option.bind_eq_some_iff.1 hlabel
  have hpartConforms := hconforms.field? rfl rfl hpart
  have hlabelConforms := hpartConforms.field? rfl rfl hlabel
  have hcodeConforms := hlabelConforms.field? rfl rfl hcode
  cases hcodeConforms.length_of_fixed rfl hbytes

end SharedTree

end AvroResolution
