import AvroResolution.Compilation.Validating
import AvroResolution.Proofs.Compilation.Builder
import AvroResolution.Proofs.Decoding.Plain

/-!
# What a schema's own grammar compiles

* `Builder.Validates` says that a symbol reads a node as data of its own schema.  A
  record is read by the symbol remembered for it, and `Builder.ValidatesRecord` says
  what that symbol holds.
* `Compile.gives_validating`: the symbol compiled for a node validates it, with one
  lemma for each function of the compiler.
* `Program.Validated` is the arena of a finished program.
-/

namespace AvroResolution

namespace Builder

/-- The symbol reads data of the node's own schema. -/
inductive Validates (context : Context) (builder : Builder) : Node → SymbolId → Prop
  | primitive {node : Node} {id : SymbolId} {type : Primitive}
      (hshape : context.shape? node = some (.primitive type))
      (hid : builder.symbol? id = some (.terminal (.primitive type))) :
      Validates context builder node id
  | fixed {node : Node} {id : SymbolId} {heading : Heading} {size : Nat}
      (hshape : context.shape? node = some (.named (.fixed heading size)))
      (hid : builder.symbol? id = some (.terminal (.fixed size))) :
      Validates context builder node id
  | enum {node : Node} {id ordinal remap : SymbolId} {heading : Heading} {symbols : List String}
      {default? : Option String}
      (hshape : context.shape? node = some (.named (.enum heading symbols default?)))
      (hordinal : builder.symbol? ordinal = some (.terminal .enum))
      (hremap : builder.symbol? remap = some (.remap (.keep symbols)))
      (hid : builder.symbol? id = some (.sequence [ordinal, remap])) :
      Validates context builder node id
  | array {node items : Node} {id start body item : SymbolId}
      (hshape : context.shape? node = some (.array items))
      (hitem : Validates context builder items item)
      (hstart : builder.symbol? start = some (.terminal (.start .array)))
      (hbody : builder.symbol? body = some (.repetition .array [item]))
      (hid : builder.symbol? id = some (.sequence [start, body])) :
      Validates context builder node id
  | map {node values : Node} {id start body key value : SymbolId}
      (hshape : context.shape? node = some (.map values))
      (hvalue : Validates context builder values value)
      (hstart : builder.symbol? start = some (.terminal (.start .map)))
      (hbody : builder.symbol? body = some (.repetition .map [key, value]))
      (hid : builder.symbol? id = some (.sequence [start, body])) :
      Validates context builder node id
  | record {node : Node} {id : SymbolId} {record : RecordNode}
      (hshape : context.shape? node = some (.named (.record record)))
      (hrecord : context.Defines record)
      (hid : builder.memo.lookup (.validating record.id) = some id) :
      Validates context builder node id
  | union {node : Node} {id index alternative : SymbolId} {branches : List Node}
      {alternatives : List Branch}
      (hshape : context.shape? node = some (.union branches))
      (hlength : alternatives.length = branches.length)
      (hbranches : ∀ (index : Nat) (branch : Node) (chosen : Branch),
        branches[index]? = some branch → alternatives[index]? = some chosen →
          Validates context builder branch chosen.symbol)
      (hindex : builder.symbol? index = some (.terminal .union))
      (halternative : builder.symbol? alternative = some (.alternative alternatives))
      (hid : builder.symbol? id = some (.sequence [index, alternative])) :
      Validates context builder node id

/-- The places of a record's fields in the order in which they are read. -/
def ownArrivals (fields : List (Field Node)) : List Arrival :=
  fields.zipIdx.map fun (field, index) => ⟨field.name, index⟩

/-- The symbol reads data of the record. -/
inductive ValidatesRecord (context : Context) (builder : Builder) (record : RecordNode)
    (id : SymbolId) : Prop
  | intro {symbols : List SymbolId} {order : SymbolId}
      (hfields : List.Forall₂ (fun (field : Field Node) symbol =>
        builder.Validates context field.type symbol) record.fields symbols)
      (horder : builder.symbol? order = some (.reorder (ownArrivals record.fields)))
      (hid : builder.symbol? id = some (.sequence (symbols ++ [order])))

/-- What the symbol of a remembered record is compiled for. -/
def ValidatesKey (context : Context) (builder : Builder) (key : MemoKey) (id : SymbolId) : Prop :=
  ∀ record, context.Defines record → key = .validating record.id →
    builder.ValidatesRecord context record id

/-! ## Growing -/

variable {context : Context} {builder after : Builder}

theorem Validates.grow (hgrows : builder.Grows after) {node : Node} {id : SymbolId}
    (h : builder.Validates context node id) : after.Validates context node id := by
  induction h with
  | primitive hshape hid => exact .primitive hshape (hgrows.symbol _ _ hid)
  | fixed hshape hid => exact .fixed hshape (hgrows.symbol _ _ hid)
  | enum hshape hordinal hremap hid =>
    exact .enum hshape (hgrows.symbol _ _ hordinal) (hgrows.symbol _ _ hremap)
      (hgrows.symbol _ _ hid)
  | array hshape _ hstart hbody hid ih =>
    exact .array hshape ih (hgrows.symbol _ _ hstart) (hgrows.symbol _ _ hbody)
      (hgrows.symbol _ _ hid)
  | map hshape _ hstart hbody hid ih =>
    exact .map hshape ih (hgrows.symbol _ _ hstart) (hgrows.symbol _ _ hbody)
      (hgrows.symbol _ _ hid)
  | record hshape hrecord hid => exact .record hshape hrecord (hgrows.memo _ _ hid)
  | union hshape hlength _ hindex halternative hid ih =>
    exact .union hshape hlength ih (hgrows.symbol _ _ hindex)
      (hgrows.symbol _ _ halternative) (hgrows.symbol _ _ hid)

theorem ValidatesRecord.grow (hgrows : builder.Grows after) {record : RecordNode} {id : SymbolId}
    (h : builder.ValidatesRecord context record id) : after.ValidatesRecord context record id := by
  cases h with
  | intro hfields horder hid =>
    exact .intro (hfields.imp fun _ _ h => h.grow hgrows) (hgrows.symbol _ _ horder)
      (hgrows.symbol _ _ hid)

theorem lasting_validatesKey (context : Context) : Lasting (ValidatesKey context) :=
  fun _ _ _ _ hgrows h record hrecord hkey => (h record hrecord hkey).grow hgrows

end Builder

namespace Compile

variable {context : Context} {validate : Node → Compile SymbolId} {builder : Builder}

/-! ## One step -/

section

variable (hvalidate : ∀ builder node, context.Holds node →
  Gives (Builder.ValidatesKey context) builder (validate node)
    fun id after => after.Validates context node id)
include hvalidate

theorem gives_validateFields {record : RecordNode} (hrecord : context.Defines record) :
    Gives (Builder.ValidatesKey context) builder
      (do
        let fields ← record.fields.mapM fun field => validate field.type
        let order ← push (.reorder (Builder.ownArrivals record.fields))
        return .sequence (fields ++ [order]))
      fun symbol after => ∀ filled id, Builder.Grows after filled →
        filled.symbol? id = some symbol → filled.ValidatesRecord context record id := by
  refine .bind (.mapM (fun (field : Field Node) symbol after =>
    after.Validates context field.type symbol) _ ?_ ?_) ?_
  · intro _ _ _ _ hafter h
    exact h.grow hafter.toGrows
  · intro field hfield middle _
    exact hvalidate middle field.type (hrecord.field hfield).1
  intro symbols first _ hsymbols
  refine .bind (gives_push (Builder.lasting_validatesKey context) _) ?_
  intro order second hsecond horder
  refine .pure ?_
  intro filled id hgrows hid
  exact .intro (hsymbols.imp fun _ _ h => h.grow (hsecond.toGrows.trans hgrows))
    (hgrows.symbol _ _ horder) hid

omit hvalidate in
theorem validateRecord_eq (record : RecordNode) :
    validateRecord validate record = onFirstSight (.validating record.id)
      (reserveFor (.validating record.id) (do
        let fields ← record.fields.mapM fun field => validate field.type
        let order ← push (.reorder (Builder.ownArrivals record.fields))
        return .sequence (fields ++ [order]))) := by
  rw [validateRecord, onFirstSight, reserveFor]
  simp only [bind_assoc, pure_bind]
  rfl

theorem gives_validateRecord {record : RecordNode} (hrecord : context.Defines record) :
    Gives (Builder.ValidatesKey context) builder (validateRecord validate record)
      fun id after => after.memo.lookup (.validating record.id) = some id := by
  rw [validateRecord_eq]
  refine gives_onFirstSight (Builder.lasting_validatesKey context) fun hfresh => ?_
  refine gives_reserveFor (Builder.lasting_validatesKey context) hfresh fun middle => ?_
  refine (gives_validateFields hvalidate hrecord).mono ?_
  intro symbol after _ hsymbol filled id hgrows hid other hother hkey
  injection hkey with hsame
  obtain rfl := hrecord.eq hother hsame
  exact hsymbol filled id hgrows hid

theorem gives_validateUnion {node : Node} {branches : List Node}
    (hshape : context.shape? node = some (.union branches))
    (hbranches : ∀ branch ∈ branches, context.Holds branch) :
    Gives (Builder.ValidatesKey context) builder (validateUnion validate branches)
      fun id after => after.Validates context node id := by
  have hlasting := Builder.lasting_validatesKey context
  refine .bind (.mapM (fun branch (chosen : Branch) after =>
    after.Validates context branch chosen.symbol) branches ?_ ?_) ?_
  · intro _ _ _ _ hafter h
    exact h.grow hafter.toGrows
  · intro branch hbranch middle _
    refine .bind (hvalidate middle branch (hbranches branch hbranch)) ?_
    intro symbol after _ hsymbol
    exact .pure hsymbol
  intro alternatives first _ halternatives
  refine .bind (gives_terminal hlasting .union) ?_
  intro index second hsecond hindex
  refine .bind (gives_push hlasting (.alternative alternatives)) ?_
  intro alternative third hthird halternative
  refine (gives_push hlasting _).mono ?_
  intro id fourth hfourth hid
  refine .union hshape halternatives.length_eq.symm ?_
    (hfourth.symbol _ _ (hthird.symbol _ _ hindex)) (hfourth.symbol _ _ halternative) hid
  intro index branch chosen hbranch hchosen
  exact (related_of_getElem? halternatives hbranch hchosen).grow
    (hsecond.trans (hthird.trans hfourth)).toGrows

/-- Every shape compiles to a symbol that validates it. -/
theorem gives_validatingStep {node : Node} (hnode : context.Holds node) :
    Gives (Builder.ValidatesKey context) builder (validatingStep context validate node)
      fun id after => after.Validates context node id := by
  have hlasting := Builder.lasting_validatesKey context
  refine .bind (gives_look context node) ?_
  intro shape first _ hshape
  cases shape with
  | primitive type =>
    exact (gives_terminal hlasting _).mono fun id after _ hid => .primitive hshape hid
  | named definition =>
    cases definition with
    | fixed heading size =>
      exact (gives_terminal hlasting _).mono fun id after _ hid => .fixed hshape hid
    | enum heading symbols default? =>
      refine (gives_enumeration hlasting _).mono ?_
      rintro id after _ ⟨ordinal, remap, hordinal, hremap, hid⟩
      exact .enum hshape hordinal hremap hid
    | record record =>
      have hrecord := (hnode.record hshape).1
      exact (gives_validateRecord hvalidate hrecord).mono
        fun id after _ hid => .record hshape hrecord hid
  | array items =>
    refine .bind (hvalidate first items (hnode.part hshape (.head _)).1) ?_
    intro item second _ hitem
    refine (gives_blocks hlasting .array [item]).mono ?_
    rintro id third hthird ⟨start, body, hstart, hbody, hid⟩
    exact .array hshape (hitem.grow hthird.toGrows) hstart hbody hid
  | map values =>
    refine .bind (gives_terminal hlasting _) ?_
    intro key second _ _
    refine .bind (hvalidate second values (hnode.part hshape (.head _)).1) ?_
    intro value third _ hvalue
    refine (gives_blocks hlasting .map [key, value]).mono ?_
    rintro id fourth hfourth ⟨start, body, hstart, hbody, hid⟩
    exact .map hshape (hvalue.grow hfourth.toGrows) hstart hbody hid
  | union branches =>
    exact gives_validateUnion hvalidate hshape fun branch hbranch =>
      (hnode.part hshape hbranch).1

end

/-- The symbol of a node validates it. -/
theorem gives_validating (context : Context) (depth : Nat) (builder : Builder) (node : Node)
    (hnode : context.Holds node) :
    Gives (Builder.ValidatesKey context) builder (validating context depth node)
      fun id after => after.Validates context node id := by
  induction depth generalizing builder node with
  | zero => exact .throw _
  | succ depth ih => exact gives_validatingStep ih hnode

end Compile

/-! ## Programs -/

/-- The program is the finished arena of a builder whose records are all compiled, and
it starts from a symbol that validates the root. -/
structure Program.Validated (context : Context) (root : Node) (program : Program)
    (builder : Builder) : Prop where
  symbol : ∀ id, program.symbol? id = builder.symbol? id
  records : ∀ record id, context.Defines record →
    builder.memo.lookup (.validating record.id) = some id →
      builder.ValidatesRecord context record id
  root : builder.Validates context root program.root

/-- What the compilation of a schema's own grammar knows. -/
def Schema.ownContext (schema : Schema) : Context :=
  .ofRoots {} (.root .writer schema) (.root .writer schema)

theorem Schema.registry_ownContext (schema : Schema) (side : Side) :
    schema.ownContext.registry side = .ofRoot (.root .writer schema) := by
  cases side <;> rfl

/-- The program of a schema's own grammar reads data of the schema. -/
theorem Program.validated {schema : Schema} {program : Program}
    (h : Program.validating schema = .ok program) :
    ∃ builder, program.Validated schema.ownContext (.root .writer schema) builder := by
  have hprogram : Program.validating schema = (do
      let found ← Compile.validating schema.ownContext
        (validatingDepth (.root .writer schema)) (.root .writer schema) Builder.empty
      found.2.finish found.1) := rfl
  rw [hprogram] at h
  cases hbuild : Compile.validating schema.ownContext
      (validatingDepth (.root .writer schema)) (.root .writer schema) Builder.empty with
  | error fault =>
    rw [hbuild] at h
    cases h
  | ok found =>
    rcases found with ⟨id, builder⟩
    rw [hbuild] at h
    have hfinish : builder.finish id = .ok program := h
    have hholds : schema.ownContext.Holds (.root .writer schema) := Registry.holds_root _
    obtain ⟨hsound, _, hroot⟩ := Compile.gives_validating schema.ownContext _ Builder.empty _
      hholds Builder.sound_empty id builder hbuild
    obtain ⟨rfl, hsymbol, _⟩ := Builder.of_finish hfinish
    refine ⟨builder, hsymbol, ?_, hroot⟩
    intro record id hrecord hid
    exact hsound.compiled_of_finish hfinish hid record hrecord rfl

end AvroResolution
