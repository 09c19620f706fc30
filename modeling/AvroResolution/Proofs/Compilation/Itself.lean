import AvroResolution.Proofs.Compilation.Progress
import AvroResolution.Proofs.Compilation.Resolving
import AvroResolution.Proofs.Compilation.Validating
import AvroResolution.Proofs.Schema.Mirror

/-!
# What a schema compiles to that is read as itself

The symbol that reads a node as the same node has the form of the node's own grammar,
apart from unions, where every branch is looked for among all branches.

* `Context.Mirrors` says that a tree is there on both sides.
* `Builder.ReadsItself` lists the forms that the symbol may have, and
  `Program.Built.itself` says that it has one of them, if the fields of each record have
  names of their own.
* `Registry.OwnPlace`: among the branches of a union, or the symbols of an enum, one is found
  at its own place.  `Builder.Reads.own_branch` says so of the symbol that reads a branch.
-/

namespace AvroResolution

/-! ## Shapes -/

namespace Shape

variable {target : Side}

theorem isOfType_comm (w r : Shape) : w.isOfType r = r.isOfType w := by
  have hkinds : decide (w.kind = r.kind) = decide (r.kind = w.kind) :=
    decide_eq_decide.2 eq_comm
  cases w with
  | named w =>
    cases r with
    | named r =>
      rw [Bool.eq_iff_iff, isOfType_named, isOfType_named]
      exact and_congr eq_comm eq_comm
    | _ => exact hkinds
  | _ => cases r <;> exact hkinds

theorem isOfType_self (shape : Shape) : shape.isOfType shape = true := by
  cases shape with
  | named definition => exact isOfType_named.2 ⟨rfl, rfl⟩
  | _ => simp [isOfType]

theorem isOfType_onSide (w r : Shape) : w.isOfType (r.onSide target) = w.isOfType r := by
  cases r with
  | named definition => cases definition <;> cases w <;> rfl
  | _ => cases w <;> rfl

/-- The rules for a shape and the same shape on the side `target`. -/
inductive RuleItself (target : Side) : Shape → Reading → Prop
  | primitive (type : Primitive) : RuleItself target (.primitive type) (.atom (.primitive type))
  | fixed (heading : Heading) (size : Nat) :
      RuleItself target (.named (.fixed heading size)) (.atom (.fixed size))
  | enum (heading : Heading) (symbols : List String) (default? : Option String) :
      RuleItself target (.named (.enum heading symbols default?)) (.enum symbols symbols default?)
  | record (record : RecordNode) :
      RuleItself target (.named (.record record)) (.records record (record.onSide target))
  | array (items : Node) : RuleItself target (.array items) (.array items (items.onSide target))
  | map (values : Node) : RuleItself target (.map values) (.map values (values.onSide target))
  | union (branches : List Node) : RuleItself target (.union branches) (.writerUnion branches)

theorem ruleItself (shape : Shape) :
    RuleItself target shape (shape.reading (shape.onSide target)) := by
  cases shape with
  | primitive type =>
    rw [onSide, reading, if_pos rfl]
    exact .primitive type
  | named definition =>
    cases definition with
    | record record => exact .record record
    | enum heading symbols default? =>
      rw [onSide, Definition.onSide, reading, if_pos rfl]
      exact .enum heading symbols default?
    | fixed heading size =>
      rw [onSide, Definition.onSide, reading, if_pos ⟨rfl, rfl⟩]
      exact .fixed heading size
  | array items => exact .array items
  | map values => exact .map values
  | union branches => exact .union branches

theorem reading_union {shape : Shape} (h : shape.kind ≠ .union) (branches : List Node) :
    shape.reading (.union branches) = .readerUnion branches := by
  cases shape with
  | named definition => cases definition <;> rfl
  | union => exact absurd rfl h
  | _ => rfl

/-- If the shape is a record, its fields have names of their own. -/
def fieldsDistinct : Shape → Bool
  | .named (.record record) => decide (record.fields.map (·.name)).Nodup
  | _ => true

end Shape

namespace Context

/-! ## A tree that is there twice -/

theorem Spans.shape?_eq {context : Context} {root node : Node} (hspans : context.Spans [root])
    (hnode : node ∈ Node.forest [root]) :
    context.shape? node = (Registry.ofRoot root).shape? node := by
  rw [Context.shape?, hspans.registry_eq (.head _) (Node.mem_forest_singleton.1 hnode)]

/-- What all types of the tree pass, every node passes. -/
theorem Spans.of_everyShape {context : Context} {root node : Node} {shape : Shape}
    (hspans : context.Spans [root]) {test : Shape → Bool} (h : root.everyShape test = true)
    (hnode : node ∈ Node.forest [root]) (hshape : context.shape? node = some shape) :
    test shape = true := by
  rw [hspans.shape?_eq hnode] at hshape
  exact Registry.of_everyShape h (Node.mem_forest_singleton.1 hnode) hshape

/-- The tree of `root` is one of the two trees, and on the side `target` it is there once
more.  The two may be the same. -/
structure Mirrors (context : Context) (root : Node) (target : Side) : Prop where
  spans : context.Spans [root]
  image : context.registry target = .ofRoot (root.onSide target)

namespace Mirrors

variable {context : Context} {root node : Node} {target : Side} {shape : Shape}
  (hmirrors : context.Mirrors root target)
include hmirrors

theorem shape?_onSide (hnode : node ∈ Node.forest [root]) :
    context.shape? (node.onSide target) = (context.shape? node).map (Shape.onSide target) := by
  have himage : context.registry (node.onSide target).side =
      (Registry.ofRoot root).onSide target := by
    rw [← Registry.ofRoot_onSide]
    exact hmirrors.image
  rw [hmirrors.spans.shape?_eq hnode, shape?, himage, Registry.shape?_onSide]

theorem of_reading (hnode : node ∈ Node.forest [root]) {reading : Reading}
    (hreading : context.reading? node (node.onSide target) = some reading) :
    ∃ shape, context.shape? node = some shape ∧ shape.RuleItself target reading := by
  obtain ⟨shape, image, hshape, himage, rfl⟩ := reading?_eq_some.1 hreading
  rw [hmirrors.shape?_onSide hnode, hshape, Option.map_some, Option.some_inj] at himage
  subst himage
  exact ⟨shape, hshape, shape.ruleItself⟩

end Mirrors

end Context

namespace Builder

variable {context : Context} {builder : Builder} {target : Side} {root node : Node}
  {id : SymbolId}

/-! ## Forms of symbols -/

/-- The forms of a symbol that reads a node as the same node on the side `target`. -/
inductive ReadsItself (context : Context) (builder : Builder) (target : Side) (node : Node)
    (id : SymbolId) : Prop
  | primitive {type : Primitive} (hshape : context.shape? node = some (.primitive type))
      (hid : builder.symbol? id = some (.terminal (.primitive type))) :
      ReadsItself context builder target node id
  | fixed {heading : Heading} {size : Nat}
      (hshape : context.shape? node = some (.named (.fixed heading size)))
      (hid : builder.symbol? id = some (.terminal (.fixed size))) :
      ReadsItself context builder target node id
  | enum {ordinal remap : SymbolId} {heading : Heading} {symbols : List String}
      {default? : Option String}
      (hshape : context.shape? node = some (.named (.enum heading symbols default?)))
      (hordinal : builder.symbol? ordinal = some (.terminal .enum))
      (hremap : builder.symbol? remap =
        some (.remap (.between context.config symbols symbols default?)))
      (hid : builder.symbol? id = some (.sequence [ordinal, remap])) :
      ReadsItself context builder target node id
  | array {items : Node} {start body item : SymbolId}
      (hshape : context.shape? node = some (.array items))
      (hitem : builder.Reads context items (items.onSide target) item)
      (hstart : builder.symbol? start = some (.terminal (.start .array)))
      (hbody : builder.symbol? body = some (.repetition .array [item]))
      (hid : builder.symbol? id = some (.sequence [start, body])) :
      ReadsItself context builder target node id
  | map {values : Node} {start body key value : SymbolId}
      (hshape : context.shape? node = some (.map values))
      (hvalue : builder.Reads context values (values.onSide target) value)
      (hkey : builder.symbol? key = some (.terminal (.primitive .string)))
      (hstart : builder.symbol? start = some (.terminal (.start .map)))
      (hbody : builder.symbol? body = some (.repetition .map [key, value]))
      (hid : builder.symbol? id = some (.sequence [start, body])) :
      ReadsItself context builder target node id
  | record {record : RecordNode} {symbols : List SymbolId} {order : SymbolId}
      (hshape : context.shape? node = some (.named (.record record)))
      (hfields : List.Forall₂ (fun (field : Field Node) symbol =>
        builder.Reads context field.type (field.type.onSide target) symbol) record.fields symbols)
      (horder : builder.symbol? order = some (.reorder (ownArrivals record.fields)))
      (hid : builder.symbol? id = some (.sequence (symbols ++ [order]))) :
      ReadsItself context builder target node id
  | union {branches : List Node} {alternatives : List Branch} {alternative : SymbolId}
      (hshape : context.shape? node = some (.union branches))
      (hlength : alternatives.length = branches.length)
      (hbranches : ∀ (index : Nat) (branch : Node) (chosen : Branch),
        branches[index]? = some branch → alternatives[index]? = some chosen →
          builder.Reads context branch (node.onSide target) chosen.symbol)
      (halternative : builder.symbol? alternative = some (.alternative alternatives))
      (hid : builder.symbol? id = some (.select alternative)) :
      ReadsItself context builder target node id

/-- The fields of a record that is read as itself are read as themselves. -/
theorem readsFields_itself {fields : List (Field Node)} {written : List Compile.WrittenField}
    (h : List.Forall₂ (ReadsWritten context builder)
      (fields.zip ((ReaderField.ofFields (fields.map (Field.onSide target))).map some)) written) :
    List.Forall₂ (fun (field : Field Node) symbol =>
      builder.Reads context field.type (field.type.onSide target) symbol) fields
        (written.map (·.symbol)) := by
  have hzip : fields.zip ((ReaderField.ofFields (fields.map (Field.onSide target))).map some) =
      fields.zipIdx.map fun place => (place.1, some ⟨place.2, place.1.onSide target⟩) := by
    refine List.ext_getElem? fun index => ?_
    by_cases hlt : index < fields.length
    · simp [ReaderField.ofFields, hlt]
    · simp [ReaderField.ofFields, hlt]
  rw [hzip, List.forall₂_map_left_iff] at h
  have hsymbols : List.Forall₂ (fun (field : Field Node) symbol =>
      builder.Reads context field.type (field.type.onSide target) symbol)
        (fields.zipIdx.map Prod.fst) (written.map (·.symbol)) := by
    refine List.forall₂_map_left_iff.2 (List.forall₂_map_right_iff.2 (h.imp ?_))
    rintro ⟨field, index⟩ part hpart
    cases hpart with
    | linked hsymbol => exact hsymbol
  rwa [List.zipIdx_map_fst] at hsymbols

/-- The symbol of a record that is read as itself reads each field as itself. -/
theorem ReadsRecord.itself {record : RecordNode}
    (hnames : (record.fields.map (·.name)).Nodup)
    (h : builder.ReadsRecord context record (record.onSide target) id) :
    ∃ symbols order, List.Forall₂ (fun (field : Field Node) symbol =>
        builder.Reads context field.type (field.type.onSide target) symbol) record.fields symbols ∧
      builder.symbol? order = some (.reorder (ownArrivals record.fields)) ∧
        builder.symbol? id = some (.sequence (symbols ++ [order])) := by
  have hmatching : Matching.ofFields context.config record.fields (record.onSide target).fields =
      .ok ⟨(ReaderField.ofFields (record.onSide target).fields).map some, []⟩ :=
    Matching.ofFields_of_names _ (by simp [RecordNode.onSide, Field.onSide]) hnames
  cases h with
  | missing hmissing => cases hmatching.symm.trans hmissing
  | @fields _ written _ order hmatched hwritten hdefaulted horder hid =>
    cases hmatching.symm.trans hmatched
    cases hdefaulted
    rw [List.flatten_nil, List.append_nil] at hid
    refine ⟨written.map (·.symbol), order, readsFields_itself hwritten, ?_, hid⟩
    rw [horder]
    simp [Matching.arrivals, Matching.readers, Links.readers, ownArrivals,
      ReaderField.ofFields, RecordNode.onSide, Field.onSide, List.zipIdx_map, Function.comp_def]

end Builder

namespace Program.Built

variable {context : Context} {program : Program} {builder : Builder} {target : Side}
  {root node : Node} {id : SymbolId}

/-- A symbol that reads a node as itself has the form of the node's own grammar. -/
theorem itself (hbuilt : program.Built context builder) (hmirrors : context.Mirrors root target)
    (hdistinct : root.everyShape Shape.fieldsDistinct = true)
    (hnode : node ∈ Node.forest [root]) (h : builder.Reads context node (node.onSide target) id) :
    builder.ReadsItself context target node id := by
  cases h with
  | atom hreading hid =>
    obtain ⟨shape, hshape, hrule⟩ := hmirrors.of_reading hnode hreading
    cases hrule with
    | primitive => exact .primitive hshape hid
    | fixed => exact .fixed hshape hid
  | enum hreading hordinal hremap hid =>
    obtain ⟨shape, hshape, hrule⟩ := hmirrors.of_reading hnode hreading
    cases hrule
    exact .enum hshape hordinal hremap hid
  | array hreading hitem hstart hbody hid =>
    obtain ⟨shape, hshape, hrule⟩ := hmirrors.of_reading hnode hreading
    cases hrule
    exact .array hshape hitem hstart hbody hid
  | map hreading hvalue hkey hstart hbody hid =>
    obtain ⟨shape, hshape, hrule⟩ := hmirrors.of_reading hnode hreading
    cases hrule
    exact .map hshape hvalue hkey hstart hbody hid
  | records hreading hw hr hid =>
    obtain ⟨shape, hshape, hrule⟩ := hmirrors.of_reading hnode hreading
    cases hrule
    have hnames := hmirrors.spans.of_everyShape hdistinct hnode hshape
    obtain ⟨symbols, order, hfields, horder, hid⟩ :=
      (hbuilt.records _ _ _ hw hr hid).itself (of_decide_eq_true hnames)
    exact .record hshape hfields horder hid
  | select hreading hlength hbranches halternative hid =>
    obtain ⟨shape, hshape, hrule⟩ := hmirrors.of_reading hnode hreading
    cases hrule
    exact .union hshape hlength hbranches halternative hid
  | promotion hreading =>
    obtain ⟨_, _, hrule⟩ := hmirrors.of_reading hnode hreading
    cases hrule
  | adjust hreading =>
    obtain ⟨_, _, hrule⟩ := hmirrors.of_reading hnode hreading
    cases hrule
  | unbranched hreading =>
    obtain ⟨_, _, hrule⟩ := hmirrors.of_reading hnode hreading
    cases hrule
  | mismatch hreading =>
    obtain ⟨_, _, hrule⟩ := hmirrors.of_reading hnode hreading
    cases hrule

end Program.Built

/-! ## Places that are found again -/

/-- A branch has an own place if it is no union and no earlier branch is of its type, a
symbol if no earlier symbol is equal to it. -/
def Registry.OwnPlace (registry : Registry) : Shape → Nat → Prop
  | .union branches, place => ∀ branch shape, branches[place]? = some branch →
      registry.shape? branch = some shape → shape.kind ≠ .union ∧
        ∀ earlier < place, ∀ other found, branches[earlier]? = some other →
          registry.shape? other = some found → shape.isOfType found = false
  | .named (.enum _ symbols _), place => symbols[place]?.bind symbols.idxOf? = some place
  | _, _ => True

namespace Builder

variable {context : Context} {builder : Builder} {target : Side} {root node branch : Node}
  {symbol : SymbolId}

/-- What is read has a shape. -/
theorem Reads.exists_shape {writer reader : Node} (h : builder.Reads context writer reader symbol) :
    ∃ shape, context.shape? writer = some shape := by
  have hshape {reading : Reading} (hreading : context.reading? writer reader = some reading) :
      ∃ shape, context.shape? writer = some shape := by
    obtain ⟨shape, _, hshape, _⟩ := Context.reading?_eq_some.1 hreading
    exact ⟨shape, hshape⟩
  cases h with
  | atom hreading => exact hshape hreading
  | promotion hreading => exact hshape hreading
  | enum hreading => exact hshape hreading
  | array hreading => exact hshape hreading
  | map hreading => exact hshape hreading
  | records hreading => exact hshape hreading
  | select hreading => exact hshape hreading
  | adjust hreading => exact hshape hreading
  | unbranched hreading => exact hshape hreading
  | mismatch hreading => exact hshape hreading

/-- A branch of a union that has an own place is found there among the same branches. -/
theorem Reads.own_branch (hmirrors : context.Mirrors root target)
    (hnode : node ∈ Node.forest [root]) {branches : List Node}
    (hunion : context.shape? node = some (.union branches)) {index : Nat}
    (hbranch : branches[index]? = some branch)
    (hplace : (Registry.ofRoot root).OwnPlace (.union branches) index)
    (h : builder.Reads context branch (node.onSide target) symbol) :
    ∃ own, builder.symbol? symbol = some (.adjust index own) ∧
      builder.Reads context branch (branch.onSide target) own := by
  have hpart {part : Node} (hpart : part ∈ branches) : part ∈ Node.forest [root] :=
    hmirrors.spans.part hnode hunion hpart
  have hregistry {part : Node} (hmem : part ∈ branches) :
      context.shape? part = (Registry.ofRoot root).shape? part :=
    hmirrors.spans.shape?_eq (hpart hmem)
  obtain ⟨shape, hshape⟩ := h.exists_shape
  obtain ⟨hkind, hfirst⟩ :=
    hplace branch shape hbranch (hregistry (List.mem_of_getElem? hbranch) ▸ hshape)
  have himage : context.shape? (node.onSide target) =
      some (.union (branches.map (Node.onSide target))) := by
    rw [hmirrors.shape?_onSide hnode, hunion]
    rfl
  have hreading : context.reading? branch (node.onSide target) =
      some (.readerUnion (branches.map (Node.onSide target))) :=
    Context.reading?_eq_some.2 ⟨shape, _, hshape, himage, shape.reading_union hkind _⟩
  have htype {part : Node} (hmem : part ∈ branches) (place : Nat) :
      context.isOfType shape (part.onSide target, place) =
        (context.shape? part).any shape.isOfType := by
    rw [Context.isOfType, hmirrors.shape?_onSide (hpart hmem), Option.any_map]
    congr 1
    funext found
    exact shape.isOfType_onSide found
  have hfind : (branches.map (Node.onSide target)).zipIdx.find? (context.isOfType shape) =
      some (branch.onSide target, index) := by
    obtain ⟨hlt, rfl⟩ := List.getElem?_eq_some_iff.1 hbranch
    refine List.find?_eq_some_iff_getElem.2 ⟨?_, index, by simpa using hlt, by simp, ?_⟩
    · rw [htype (List.getElem_mem hlt), hshape]
      exact shape.isOfType_self
    · intro earlier hearlier
      have hbefore : earlier < branches.length := Nat.lt_trans hearlier hlt
      rw [List.getElem_zipIdx, List.getElem_map, htype (List.getElem_mem hbefore)]
      cases hother : context.shape? branches[earlier] with
      | none => rfl
      | some found =>
        rw [hregistry (List.getElem_mem hbefore)] at hother
        rw [Option.any_some,
          hfirst earlier hearlier _ found (List.getElem?_eq_getElem hbefore) hother]
        rfl
  obtain ⟨found, kept, hfound, _, hpicked⟩ := h.of_reading hreading
  cases hshape.symm.trans hfound
  rw [Context.pick, hfind, Option.some_or] at hpicked
  obtain ⟨own, hown, hsymbol⟩ := hpicked
  exact ⟨own, hsymbol, hown⟩

end Builder

end AvroResolution
