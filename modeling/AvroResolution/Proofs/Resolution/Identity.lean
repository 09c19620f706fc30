import AvroResolution.Proofs.Compilation.Itself
import AvroResolution.Proofs.Resolution.Direct
import AvroResolution.Proofs.Resolution.Totality
import AvroResolution.Proofs.Resolution.Wire

/-!
# A schema read as itself is read plainly

The program that reads a schema as itself does what the schema's own grammar does, if the
branches of every union can be told apart (`SchemaPair.decode_itself`).

* `Registry.unambiguous` is the condition on the types of a schema.
* `Program.Built.resembles_plain`: a run of a symbol that reads a node as itself compares
  with the plain reader of the node.  A union takes three steps where the plain reader
  takes one.
* `Program.Clean`: nothing that such a symbol leads to is a mismatch.
-/

namespace AvroResolution

/-! ## Schemas whose unions can be told apart -/

/-- If the shape is an enum, no symbol is there twice. -/
def Shape.symbolsDistinct : Shape → Bool
  | .named (.enum _ symbols _) => decide symbols.Nodup
  | _ => true

/-- If the shape is a union, no branch is a union and no two branches are of one type. -/
def Registry.branchesDistinct (registry : Registry) : Shape → Bool
  | .union branches =>
    let shapes := branches.filterMap registry.shape?
    shapes.all (fun shape => shape.kind ≠ .union) &&
      decide (shapes.Pairwise fun shape later => shape.isOfType later = false)
  | _ => true

/-- Whether the names of fields and of symbols and the branches of unions can be told
apart. -/
def Registry.unambiguous (registry : Registry) (shape : Shape) : Bool :=
  shape.fieldsDistinct && shape.symbolsDistinct && registry.branchesDistinct shape

/-- Whether all types of a schema are unambiguous. -/
def Schema.unambiguous (schema : Schema) : Bool :=
  let root := Node.root .writer schema
  root.everyShape (Registry.ofRoot root).unambiguous

/-- Earlier branches are not of the type of a later one. -/
theorem Registry.isOfType_eq_false {registry : Registry} {branches : List Node}
    (h : registry.branchesDistinct (.union branches) = true) {earlier index : Nat}
    (hlt : earlier < index) {other branch : Node} {found shape : Shape}
    (hother : branches[earlier]? = some other) (hbranch : branches[index]? = some branch)
    (hfound : registry.shape? other = some found) (hshape : registry.shape? branch = some shape) :
    shape.isOfType found = false := by
  simp only [branchesDistinct, Bool.and_eq_true, decide_eq_true_eq] at h
  obtain ⟨hearlier, rfl⟩ := List.getElem?_eq_some_iff.1 hother
  obtain ⟨hindex, rfl⟩ := List.getElem?_eq_some_iff.1 hbranch
  have hpairs := List.pairwise_iff_getElem.1 (List.pairwise_filterMap.1 h.2) earlier index
    hearlier hindex hlt
  rw [Shape.isOfType_comm]
  exact hpairs found hfound shape hshape

theorem Registry.kind_ne_union {registry : Registry} {branches : List Node}
    (h : registry.branchesDistinct (.union branches) = true) {branch : Node}
    (hbranch : branch ∈ branches) {shape : Shape} (hshape : registry.shape? branch = some shape) :
    shape.kind ≠ .union := by
  simp only [branchesDistinct, Bool.and_eq_true] at h
  have hmem : shape ∈ branches.filterMap registry.shape? :=
    List.mem_filterMap.2 ⟨branch, hbranch, hshape⟩
  exact of_decide_eq_true (List.all_eq_true.1 h.1 shape hmem)

/-- Every branch has an own place. -/
theorem Registry.ownPlace_of_distinct {registry : Registry} {branches : List Node}
    (h : registry.branchesDistinct (.union branches) = true) (index : Nat) :
    registry.OwnPlace (.union branches) index := by
  intro branch shape hbranch hshape
  refine ⟨kind_ne_union h (List.mem_of_getElem? hbranch) hshape, ?_⟩
  intro earlier hearlier other found hother hfound
  exact isOfType_eq_false h hearlier hother hbranch hfound hshape

/-- Symbols that differ keep their places. -/
theorem EnumAdjustment.between_self (config : Config) {symbols : List String}
    (h : symbols.Nodup) (default? : Option String) :
    EnumAdjustment.between config symbols symbols default? = .keep symbols := by
  rw [between, keep]
  congr 1
  refine List.ext_getElem? fun index => ?_
  by_cases hlt : index < symbols.length
  · simp [hlt, idxOf?_eq, h.idxOf_getElem]
  · simp [hlt]

namespace Program

variable {context : Context} {program : Program} {builder : Builder} {target : Side}
  {root node : Node} {id : SymbolId} {rel : (α : Type) → Reader α → Reader α → Prop}
  {read : Node → Reader Value}

/-! ## Clean symbols -/

/-- Nothing that leads from the symbol to a good one is a mismatch. -/
inductive Clean (program : Program) (good : SymbolId → Prop) : SymbolId → Prop
  | good {id : SymbolId} (h : good id) : Clean program good id
  | step {id : SymbolId} {symbol : Symbol} (hid : program.symbol? id = some symbol)
      (hmismatch : symbol.isMismatch = false)
      (hchildren : ∀ child ∈ symbol.children, Clean program good child) : Clean program good id

theorem Clean.leaf {good : SymbolId → Prop} {symbol : Symbol}
    (hid : program.symbol? id = some symbol) (hmismatch : symbol.isMismatch = false)
    (hchildren : symbol.children = []) : program.Clean good id :=
  .step hid hmismatch (by rw [hchildren]; exact List.forall_mem_nil _)

/-- Good symbols lead to no mismatch if what lies between them is clean. -/
theorem Clean.of_leads {good : SymbolId → Prop}
    (hgood : ∀ id, good id → ∃ symbol, program.symbol? id = some symbol ∧
      symbol.isMismatch = false ∧ ∀ child ∈ symbol.children, program.Clean good child)
    {last : SymbolId} (h : program.Clean good id) (hleads : program.Leads id last) :
    ∃ symbol, program.symbol? last = some symbol ∧ symbol.isMismatch = false := by
  have hsymbol {id : SymbolId} (h : program.Clean good id) :
      ∃ symbol, program.symbol? id = some symbol ∧ symbol.isMismatch = false ∧
        ∀ child ∈ symbol.children, program.Clean good child := by
    cases h with
    | good h => exact hgood id h
    | step hid hmismatch hchildren => exact ⟨_, hid, hmismatch, hchildren⟩
  have hlast : program.Clean good last := by
    induction hleads with
    | refl => exact h
    | tail _ hchild ih =>
      obtain ⟨symbol, hid, _, hchildren⟩ := hsymbol ih
      rw [childrenOf, hid] at hchild
      exact hchildren _ hchild
  obtain ⟨symbol, hid, hmismatch, _⟩ := hsymbol hlast
  exact ⟨symbol, hid, hmismatch⟩

theorem hasErrors_eq_false (h : ∀ id, program.Leads program.root id →
    ∃ symbol, program.symbol? id = some symbol ∧ symbol.isMismatch = false) :
    program.hasErrors = false := by
  rw [hasErrors, Bool.not_eq_false', List.isEmpty_iff, List.eq_nil_iff_forall_not_mem]
  intro cause hcause
  obtain ⟨id, hid, hmismatch⟩ := List.mem_filterMap.1 hcause
  obtain ⟨symbol, hsymbol, hclean⟩ := h id (mem_reachable.1 hid).2
  rw [hsymbol, Option.bind_some] at hmismatch
  cases symbol with
  | mismatch => cases hclean
  | _ => cases hmismatch

/-! ## Runs -/

section

variable (hbuilt : program.Built context builder) (hmirrors : context.Mirrors root target)
  (htests : root.everyShape (Registry.ofRoot root).unambiguous = true)
include hbuilt hmirrors htests

theorem Built.readsItself (hnode : node ∈ Node.forest [root])
    (h : builder.Reads context node (node.onSide target) id) :
    builder.ReadsItself context target node id := by
  refine hbuilt.itself hmirrors (Node.everyShape_mono htests fun shape hshape => ?_) hnode h
  simp only [Registry.unambiguous, Bool.and_eq_true] at hshape
  exact hshape.1.1

omit hbuilt in
/-- Every branch of a union is found at its own place. -/
theorem Built.adjusts_itself (hnode : node ∈ Node.forest [root]) {branches : List Node}
    (hunion : context.shape? node = some (.union branches)) {index : Nat} {branch : Node}
    {symbol : SymbolId} (hbranch : branches[index]? = some branch)
    (h : builder.Reads context branch (node.onSide target) symbol) :
    ∃ own, builder.symbol? symbol = some (.adjust index own) ∧
      builder.Reads context branch (branch.onSide target) own := by
  have hdistinct := hmirrors.spans.of_everyShape htests hnode hunion
  simp only [Registry.unambiguous, Bool.and_eq_true] at hdistinct
  exact h.own_branch hmirrors hnode hunion hbranch (Registry.ownPlace_of_distinct hdistinct.2 index)

/-- A run of a symbol that reads a node as itself compares with the plain reader of the
node, given the comparison below it.  A run that is too short for a union gives up. -/
theorem Built.resembles_plain (hrel : Reader.Congruence rel) {depth : Nat}
    (hendless : depth < 3 → ∀ reader, rel Value (throw .endless) reader)
    (hread : ∀ less < depth, depth ≤ less + 3 → ∀ part ∈ Node.forest [root], ∀ symbol,
      builder.Reads context part (part.onSide target) symbol →
        rel Value (program.runWithin less symbol) (read part))
    (hnode : node ∈ Node.forest [root]) (h : builder.Reads context node (node.onSide target) id) :
    rel Value (program.runWithin depth id) ((Registry.ofRoot root).plainStep read node) := by
  have hlook {shape : Shape} (hshape : context.shape? node = some shape) :
      (Registry.ofRoot root).shape? node = some shape := by
    rwa [← hmirrors.spans.shape?_eq hnode]
  cases depth with
  | zero => exact hendless (by omega) _
  | succ depth =>
    rw [runWithin]
    cases hbuilt.readsItself hmirrors htests hnode h with
    | primitive hshape hid =>
      rw [← hbuilt.symbol] at hid
      rw [runStep_terminal hid, Registry.plainStep_primitive (hlook hshape)]
      exact hrel.refl _
    | fixed hshape hid =>
      rw [← hbuilt.symbol] at hid
      rw [runStep_terminal hid, Registry.plainStep_fixed (hlook hshape)]
      exact hrel.refl _
    | enum hshape hordinal hremap hid =>
      rw [← hbuilt.symbol] at hid hordinal hremap
      have htest := hmirrors.spans.of_everyShape htests hnode hshape
      simp only [Registry.unambiguous, Bool.and_eq_true] at htest
      rw [runStep_enum hid hordinal hremap, Registry.plainStep_enum (hlook hshape),
        EnumAdjustment.between_self _ (of_decide_eq_true htest.1.2)]
      exact hrel.refl _
    | array hshape hitem hstart hbody hid =>
      rw [← hbuilt.symbol] at hid hstart hbody
      rw [runStep_array hid hstart hbody, Registry.plainStep_array (hlook hshape)]
      have hpart := hmirrors.spans.part hnode hshape (.head _)
      exact hrel.array (hread depth (by omega) (by omega) _ hpart _ hitem)
    | map hshape hvalue _ hstart hbody hid =>
      rw [← hbuilt.symbol] at hid hstart hbody
      rw [runStep_map hid hstart hbody, Registry.plainStep_map (hlook hshape)]
      have hpart := hmirrors.spans.part hnode hshape (.head _)
      exact hrel.map (hread depth (by omega) (by omega) _ hpart _ hvalue)
    | @record record symbols order hshape hfields horder hid =>
      rw [← hbuilt.symbol] at hid horder
      rw [Registry.plainStep_record (hlook hshape)]
      refine runStep_ownRecord hrel hid horder ?_ ?_
      · intro child hchild
        obtain ⟨field, _, hfield⟩ := exists_of_forall₂_right hfields hchild
        exact hbuilt.standsAlone hfield
      · refine List.forall₂_iff_get.2 ⟨hfields.length_eq, fun index hindex hindex' => ?_⟩
        have hpart : (record.fields.get ⟨index, hindex⟩).type ∈ Node.forest [root] :=
          hmirrors.spans.part hnode hshape (List.mem_map_of_mem (List.get_mem _ _))
        exact hread depth (by omega) (by omega) _ hpart _
          ((List.forall₂_iff_get.1 hfields).2 index hindex hindex')
    | @union branches alternatives alternative hshape hlength hbranches halternative hid =>
      rw [← hbuilt.symbol] at hid halternative
      rw [runStep_select hid, Registry.plainStep_union (hlook hshape)]
      cases depth with
      | zero => exact hendless (by omega) _
      | succ depth =>
        rw [runWithin, runStep_alternative halternative]
        refine hrel.branchIndex hlength fun index hindex hindex' => ?_
        have hbranch := List.getElem?_eq_getElem hindex'
        obtain ⟨own, hadjust, hown⟩ := Built.adjusts_itself hmirrors htests hnode hshape hbranch
          (hbranches index _ _ hbranch (List.getElem?_eq_getElem hindex))
        rw [← hbuilt.symbol] at hadjust
        cases depth with
        | zero => exact hendless (by omega) _
        | succ depth =>
          have hpart := hmirrors.spans.part hnode hshape (List.getElem_mem hindex')
          have hrun : program.runWithin (depth + 1) alternatives[index].symbol = (do
              let value ← program.runWithin depth own
              return .union (Int32.ofNat index) value) := runStep_adjust hadjust
          rw [List.get_eq_getElem, hrun]
          exact hrel.bind (hread depth (by omega) (by omega) _ hpart _ hown) fun _ => hrel.refl _

/-- A run gives the answer of the plain reader that may go as deep, unless it gives up. -/
theorem Built.run_approximates_plain {depth more : Nat} (hle : depth ≤ more)
    (hnode : node ∈ Node.forest [root]) (h : builder.Reads context node (node.onSide target) id) :
    Reader.Approximates (program.runWithin depth id)
      ((Registry.ofRoot root).plainWithin more node) := by
  induction depth using Nat.strongRecOn generalizing more node id with
  | ind depth ih =>
    rcases Nat.eq_zero_or_pos depth with rfl | hpos
    · exact .throw_left (by simp) _
    obtain ⟨more, rfl⟩ : ∃ less, more = less + 1 := ⟨more - 1, by omega⟩
    refine hbuilt.resembles_plain hmirrors htests (.simulates _)
      (fun _ _ => .throw_left (by simp) _) ?_ hnode h
    intro less hless _ part hpart symbol hsymbol
    exact ih less hless (by omega) hpart hsymbol

/-- The plain reader gives the answer of a run that goes three times as deep, unless it
gives up. -/
theorem Built.plain_approximates_run {less depth : Nat} (hle : 3 * less ≤ depth)
    (hnode : node ∈ Node.forest [root]) (h : builder.Reads context node (node.onSide target) id) :
    Reader.Approximates ((Registry.ofRoot root).plainWithin less node)
      (program.runWithin depth id) := by
  induction less generalizing depth node id with
  | zero => exact .throw_left (by simp) _
  | succ less ih =>
    refine hbuilt.resembles_plain hmirrors htests (Reader.Congruence.simulates _).flip
      (fun hdepth => absurd hdepth (by omega)) ?_ hnode h
    intro more _ hnear part hpart symbol hsymbol
    exact ih (by omega) hpart hsymbol

/-! ## Mismatches -/

/-- A symbol that reads a node as itself is no mismatch, and leads to symbols that read
nodes as themselves without a mismatch in between. -/
theorem Built.clean_itself
    (h : ∃ node ∈ Node.forest [root], builder.Reads context node (node.onSide target) id) :
    ∃ symbol, program.symbol? id = some symbol ∧ symbol.isMismatch = false ∧
      ∀ child ∈ symbol.children, program.Clean (fun id =>
        ∃ node ∈ Node.forest [root], builder.Reads context node (node.onSide target) id) child := by
  obtain ⟨node, hnode, h⟩ := h
  have hpart {shape : Shape} (hshape : context.shape? node = some shape) {part : Node}
      {symbol : SymbolId} (hmem : part ∈ shape.parts)
      (hsymbol : builder.Reads context part (part.onSide target) symbol) :
      program.Clean (fun id => ∃ node ∈ Node.forest [root],
        builder.Reads context node (node.onSide target) id) symbol :=
    .good ⟨part, hmirrors.spans.part hnode hshape hmem, hsymbol⟩
  cases hbuilt.readsItself hmirrors htests hnode h with
  | primitive hshape hid =>
    rw [← hbuilt.symbol] at hid
    exact ⟨_, hid, rfl, List.forall_mem_nil _⟩
  | fixed hshape hid =>
    rw [← hbuilt.symbol] at hid
    exact ⟨_, hid, rfl, List.forall_mem_nil _⟩
  | enum hshape hordinal hremap hid =>
    rw [← hbuilt.symbol] at hid hordinal hremap
    exact ⟨_, hid, rfl, List.forall_mem_cons.2 ⟨.leaf hordinal rfl rfl,
      List.forall_mem_singleton.2 (.leaf hremap rfl rfl)⟩⟩
  | array hshape hitem hstart hbody hid =>
    rw [← hbuilt.symbol] at hid hstart hbody
    have hitems := Clean.step hbody rfl (List.forall_mem_singleton.2 (hpart hshape (.head _) hitem))
    exact ⟨_, hid, rfl, List.forall_mem_cons.2 ⟨.leaf hstart rfl rfl,
      List.forall_mem_singleton.2 hitems⟩⟩
  | map hshape hvalue hkey hstart hbody hid =>
    rw [← hbuilt.symbol] at hid hkey hstart hbody
    have hentries := Clean.step hbody rfl (List.forall_mem_cons.2
      ⟨.leaf hkey rfl rfl, List.forall_mem_singleton.2 (hpart hshape (.head _) hvalue)⟩)
    exact ⟨_, hid, rfl, List.forall_mem_cons.2 ⟨.leaf hstart rfl rfl,
      List.forall_mem_singleton.2 hentries⟩⟩
  | record hshape hfields horder hid =>
    rw [← hbuilt.symbol] at hid horder
    refine ⟨_, hid, rfl, List.forall_mem_append.2 ⟨fun child hchild => ?_,
      List.forall_mem_singleton.2 (.leaf horder rfl rfl)⟩⟩
    obtain ⟨field, hfield, hsymbol⟩ := exists_of_forall₂_right hfields hchild
    exact hpart hshape (List.mem_map_of_mem hfield) hsymbol
  | @union branches alternatives alternative hshape hlength hbranches halternative hid =>
    rw [← hbuilt.symbol] at hid halternative
    refine ⟨_, hid, rfl, List.forall_mem_singleton.2 (.step halternative rfl ?_)⟩
    intro child hchild
    obtain ⟨chosen, hchosen, rfl⟩ := List.mem_map.1 hchild
    obtain ⟨index, hindex, rfl⟩ := List.mem_iff_getElem.1 hchosen
    have hbranch := List.getElem?_eq_getElem (hlength ▸ hindex)
    obtain ⟨own, hadjust, hown⟩ := Built.adjusts_itself hmirrors htests hnode hshape hbranch
      (hbranches index _ _ hbranch (List.getElem?_eq_getElem hindex))
    rw [← hbuilt.symbol] at hadjust
    exact .step hadjust rfl
      (List.forall_mem_singleton.2 (hpart hshape (List.mem_of_getElem? hbranch) hown))

/-- Where a node is read as itself, so are the nodes below it. -/
theorem Built.part_itself (hnode : node ∈ Node.forest [root])
    (h : builder.Reads context node (node.onSide target) id) {shape : Shape}
    (hshape : context.shape? node = some shape) {part : Node} (hpart : part ∈ shape.parts) :
    ∃ symbol, builder.Reads context part (part.onSide target) symbol := by
  cases hbuilt.readsItself hmirrors htests hnode h with
  | primitive hfound =>
    cases hshape.symm.trans hfound
    cases hpart
  | fixed hfound =>
    cases hshape.symm.trans hfound
    cases hpart
  | enum hfound =>
    cases hshape.symm.trans hfound
    cases hpart
  | array hfound hitem =>
    cases hshape.symm.trans hfound
    obtain rfl := List.mem_singleton.1 hpart
    exact ⟨_, hitem⟩
  | map hfound hvalue =>
    cases hshape.symm.trans hfound
    obtain rfl := List.mem_singleton.1 hpart
    exact ⟨_, hvalue⟩
  | record hfound hfields =>
    cases hshape.symm.trans hfound
    obtain ⟨field, hfield, rfl⟩ := List.mem_map.1 hpart
    obtain ⟨symbol, _, hsymbol⟩ := exists_of_forall₂_right hfields.flip hfield
    exact ⟨symbol, hsymbol⟩
  | @union branches alternatives _ hfound hlength hbranches =>
    cases hshape.symm.trans hfound
    obtain ⟨index, hindex, rfl⟩ := List.mem_iff_getElem.1 hpart
    have hbranch := List.getElem?_eq_getElem hindex
    obtain ⟨own, _, hown⟩ := Built.adjusts_itself hmirrors htests hnode hfound hbranch
      (hbranches index _ _ hbranch (List.getElem?_eq_getElem (hlength ▸ hindex)))
    exact ⟨own, hown⟩

end

end Program

/-! ## Pairs of one schema -/

namespace SchemaPair

variable {pair : SchemaPair} {config : Config} {program : Program} {schema : Schema}

/-- A schema and itself, as one tree or as two. -/
theorem mirrors_itself (hpair : pair = .oneTree schema ∨ pair = .twoTrees schema schema)
    (config : Config) : ∃ target,
      (pair.context config).Mirrors (.root .writer schema) target ∧
        pair.writerRoot = .root .writer schema ∧
          pair.readerRoot = (Node.root .writer schema).onSide target := by
  have hspans {context : Context} (h : context.registry .writer = .ofRoot (.root .writer schema)) :
      context.Spans [.root .writer schema] := by
    intro root hroot
    obtain rfl := List.mem_singleton.1 hroot
    exact h
  rcases hpair with rfl | rfl
  · exact ⟨.writer, ⟨hspans rfl, rfl⟩, rfl, rfl⟩
  · exact ⟨.reader, ⟨hspans rfl, rfl⟩, rfl, rfl⟩

/-- A schema that can be read as itself has a grammar of its own. -/
theorem exists_validating_itself {context : Context} {builder : Builder} {target : Side}
    (hbuilt : program.Built context builder)
    (hmirrors : context.Mirrors (.root .writer schema) target)
    (hunambiguous : schema.unambiguous = true)
    (hreads : builder.Reads context (.root .writer schema)
      ((Node.root .writer schema).onSide target) program.root) :
    ∃ own, Program.validating schema = .ok own := by
  have hshape {node : Node} (hnode : node ∈ Node.forest [.root .writer schema]) :
      schema.ownContext.shape? node = context.shape? node := by
    rw [schema.spans_root.shape?_eq hnode, hmirrors.spans.shape?_eq hnode]
  have hregion : schema.ownContext.Region [.root .writer schema] fun node =>
      node ∈ Node.forest [.root .writer schema] ∧
        ∃ id, builder.Reads context node (node.onSide target) id := by
    refine ⟨fun _ h => h.1, ?_⟩
    rintro node shape part ⟨hnode, id, hid⟩ hlook hpart
    rw [hshape hnode] at hlook
    exact ⟨hmirrors.spans.part hnode hlook hpart,
      hbuilt.part_itself hmirrors hunambiguous hnode hid hlook hpart⟩
  cases hown : Program.validating schema with
  | ok own => exact ⟨own, rfl⟩
  | error fault =>
    have hroot := Node.root_mem_forest (List.mem_singleton_self (Node.root .writer schema))
    cases Schema.fault_of_validating hregion ⟨hroot, _, hreads⟩ hown with
    | intro hnode hlook =>
      obtain ⟨hnode, id, hid⟩ := hnode
      obtain ⟨shape, hfound⟩ := hid.exists_shape
      rw [← hshape hnode] at hfound
      cases hlook.symm.trans (Registry.look_of_shape? hfound)

/-- The program that reads an unambiguous schema as itself has no errors, and it answers
as the schema's own grammar does: with the same value, or with the same fault, and with
the same bytes left.  The two give up on the same data. -/
theorem decode_itself (hpair : pair = .oneTree schema ∨ pair = .twoTrees schema schema)
    (hunambiguous : schema.unambiguous = true) (hprogram : pair.program config = .ok program) :
    program.hasErrors = false ∧ ∃ own, Program.validating schema = .ok own ∧ ∀ input,
      program.decode input = own.decode input ∨
        (Reader.GivesUp (program.decode input) ∧ Reader.GivesUp (own.decode input)) := by
  obtain ⟨builder, _, hbuilt, hreads⟩ := built hprogram
  obtain ⟨target, hmirrors, hwriter, hreader⟩ := mirrors_itself hpair config
  rw [hwriter, hreader] at hreads
  have hroot := Node.root_mem_forest (List.mem_singleton_self (Node.root .writer schema))
  obtain ⟨own, hown⟩ := exists_validating_itself hbuilt hmirrors hunambiguous hreads
  obtain ⟨_, hvalidated⟩ := Program.validated hown
  refine ⟨?_, own, hown, fun input => ?_⟩
  · refine Program.hasErrors_eq_false fun id hleads => ?_
    exact Program.Clean.of_leads (fun _ => hbuilt.clean_itself hmirrors hunambiguous)
      (.good ⟨_, hroot, hreads⟩) hleads
  · by_cases hgives : Reader.GivesUp (program.decode input)
    · by_cases hgives' : Reader.GivesUp (own.decode input)
      · exact .inr ⟨hgives, hgives'⟩
      · left
        obtain ⟨depth, hplain⟩ := (hvalidated.decode_eq_iff hgives').1 rfl
        have hrun := (hbuilt.plain_approximates_run hmirrors hunambiguous (Nat.le_refl _) hroot
          hreads).eq (hplain ▸ hgives')
        exact (Program.decode_eq_iff hgives').2 ⟨3 * depth, hrun.trans hplain⟩
    · left
      obtain ⟨depth, hrun⟩ := (Program.decode_eq_iff hgives).1 rfl
      have hplain := (hbuilt.run_approximates_plain hmirrors hunambiguous (Nat.le_refl depth) hroot
        hreads).eq (hrun ▸ hgives)
      exact ((hvalidated.decode_eq_iff hgives).2 ⟨depth, hplain.trans hrun⟩).symm

/-- Trees of coloured nodes, whose leaves have weights. -/
def trees : Schema :=
  .record ⟨"Tree", none, []⟩
    [⟨"colour", .enum ⟨"Colour", none, []⟩ ["red", "green"] none, none, []⟩,
      ⟨"below", .union [.primitive .null, .array (.reference "Tree"),
        .record ⟨"Leaf", none, []⟩ [⟨"weight", .primitive .int, none, []⟩], .reference "Tree"],
          none, []⟩]

/-- A red tree that is a leaf of weight one. -/
theorem decode_itself_trees :
    trees.unambiguous = true ∧ ∃ program own value rest,
      (SchemaPair.twoTrees trees trees).program {} = .ok program ∧ program.hasErrors = false ∧
        Program.validating trees = .ok own ∧
          own.decode (.ofList [0, 4, 2]) = .ok value rest ∧
            program.decode (.ofList [0, 4, 2]) = .ok value rest := by
  have hunambiguous : trees.unambiguous = true := by decide +kernel
  refine ⟨hunambiguous, ?_⟩
  obtain ⟨program, hprogram, _⟩ := Reader.exists_ok ((SchemaPair.twoTrees trees trees).program {})
    (fun _ => true) (by decide +kernel)
  obtain ⟨known, hknown, hvalue⟩ := Reader.exists_ok (Program.validating trees)
    (fun own => Reader.isValue (own.decode (.ofList [0, 4, 2]))) (by decide +kernel)
  obtain ⟨value, rest, hdecode⟩ := Reader.exists_value hvalue
  obtain ⟨herrors, own, hown, hsame⟩ := decode_itself (.inr rfl) hunambiguous hprogram
  obtain rfl : known = own := Except.ok.inj (hknown.symm.trans hown)
  refine ⟨program, known, value, rest, hprogram, herrors, hown, hdecode, ?_⟩
  rcases hsame (.ofList [0, 4, 2]) with hsame | ⟨_, hgives⟩
  · exact hsame.trans hdecode
  · exact absurd (hdecode ▸ hgives) Reader.not_givesUp_ok

end SchemaPair

end AvroResolution
