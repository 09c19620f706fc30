import AvroResolution.Proofs.Compilation.Progress
import AvroResolution.Proofs.Compilation.Validating

/-!
# The steps of a schema's own grammar

Compiling the grammar of a tree goes by the steps of `Builder.Trace`, and fails only when
it meets a node that cannot be looked up (`Compile.proceeds_validating`).  The nodes that
it may meet are given by a region, which is closed under looking up.
-/

namespace AvroResolution

/-- Nodes of some trees that looking up does not lead out of. -/
structure Context.Region (context : Context) (roots : List Node) (region : Node → Prop) :
    Prop where
  mem : ∀ node, region node → node ∈ Node.forest roots
  part : ∀ node shape part, region node → context.shape? node = some shape →
    part ∈ shape.parts → region part

/-- A node of the region cannot be looked up. -/
inductive Context.Dangling (context : Context) (region : Node → Prop) : SchemaFault → Prop
  | intro {node : Node} {dangling : DanglingReference} (hnode : region node)
      (hlook : (context.registry node.side).look node = .error dangling) :
      Dangling context region (.danglingReference dangling.name)

namespace Builder

variable {context : Context} {builder after : Builder}

theorem Validates.lt_size {compiled : Builder → MemoKey → SymbolId → Prop}
    (hsound : builder.Sound compiled) {node : Node} {id : SymbolId}
    (h : builder.Validates context node id) : id < builder.slots.size := by
  cases h with
  | primitive _ hid => exact lt_size_of_symbol? hid
  | fixed _ hid => exact lt_size_of_symbol? hid
  | enum _ _ _ hid => exact lt_size_of_symbol? hid
  | array _ _ _ _ hid => exact lt_size_of_symbol? hid
  | map _ _ _ _ hid => exact lt_size_of_symbol? hid
  | union _ _ _ _ _ hid => exact lt_size_of_symbol? hid
  | record _ _ hid => exact hsound.bounded _ _ hid

/-- The records of some trees, each by itself. -/
def recordKeys (roots : List Node) : List MemoKey :=
  (Node.recordIds roots).map .validating

/-- How deep the records that are still new let a compilation go. -/
def recordRoom (roots : List Node) (builder : Builder) : Nat :=
  builder.unseen (recordKeys roots) * ((Node.forest roots).length + 1)

theorem recordRoom_le (roots : List Node) (h : builder.Extends after) :
    after.recordRoom roots ≤ builder.recordRoom roots :=
  Nat.mul_le_mul_right _ (unseen_le _ h.toGrows)

theorem recordRoom_opened_lt {roots : List Node} {record : RecordNode}
    (hrecord : Node.Declares roots record)
    (hfresh : builder.memo.lookup (.validating record.id) = none) :
    (builder.opened (.validating record.id)).recordRoom roots + (Node.forest roots).length <
      builder.recordRoom roots := by
  have hmem : MemoKey.validating record.id ∈ recordKeys roots :=
    List.mem_map_of_mem hrecord.id_mem
  have hseen := Nat.mul_le_mul_right ((Node.forest roots).length + 1)
    (Nat.succ_le_of_lt (unseen_opened_lt hmem hfresh))
  rw [Nat.succ_mul] at hseen
  rw [recordRoom, recordRoom]
  omega

theorem recordRoom_empty (roots : List Node) :
    Builder.empty.recordRoom roots =
      (Node.recordIds roots).length * ((Node.forest roots).length + 1) := by
  rw [recordRoom, unseen_empty, recordKeys, List.length_map]

end Builder

namespace Compile

variable {context : Context} {roots : List Node} {region : Node → Prop}
  {validate : Node → Compile SymbolId} {builder : Builder} {depth : Nat}

section

variable (hspans : context.Spans roots) (hregion : context.Region roots region)
  (hgives : ∀ builder node, context.Holds node →
    Gives (Builder.ValidatesKey context) builder (validate node)
      fun id after => after.Validates context node id)
  (hproceeds : ∀ builder node, region node →
    builder.recordRoom roots + node.preorder.length ≤ depth →
      Proceeds (Builder.ValidatesKey context) context (context.Dangling region) builder
        (validate node) fun id after => after.Validates context node id)
include hproceeds

theorem proceeds_below {node : Node} (hnode : region node)
    (hroom : builder.recordRoom roots + node.preorder.length ≤ depth) :
    Proceeds (Builder.ValidatesKey context) context (context.Dangling region) builder
      (validate node) fun id after => id < after.slots.size := by
  refine (hproceeds builder node hnode hroom).mono ?_
  intro id after _ htidy hid
  exact hid.lt_size htidy.sound

include hregion in
theorem proceeds_validateFields {fields : List (Field Node)}
    (hfields : ∀ field ∈ fields, region field.type)
    (hroom : builder.recordRoom roots + (Node.forest roots).length ≤ depth) :
    Proceeds (Builder.ValidatesKey context) context (context.Dangling region) builder
      (do
        let symbols ← fields.mapM fun field => validate field.type
        let order ← push (.reorder (Builder.ownArrivals fields))
        return .sequence (symbols ++ [order])) ClosesRecord := by
  refine .bind (.mapM (fun _ symbol after => symbol < after.slots.size) _ ?_ ?_) ?_
  · intro _ _ _ _ hafter h
    exact Nat.lt_of_lt_of_le h hafter.size
  · intro field hfield middle hmiddle
    have htype := hfields field hfield
    have hle := Builder.recordRoom_le roots hmiddle
    have hsize := Node.length_preorder_le_forest (hregion.mem _ htype)
    exact proceeds_below hproceeds htype (by omega)
  intro symbols first _ _ hsymbols
  refine .bind (proceeds_push (Builder.lasting_validatesKey context) trivial nofun) ?_
  rintro order second hsecond _ ⟨rfl, rfl⟩
  refine .pure ⟨_, _, _, rfl, ?_, first.symbol?_pushSlot_self _, first.size_pushSlot _⟩
  intro child hchild
  obtain ⟨_, _, hlt⟩ := exists_of_forall₂_right hsymbols hchild
  exact Nat.lt_of_lt_of_le hlt hsecond.size

include hspans hregion hgives in
theorem proceeds_validateRecord {record : RecordNode} (hrecord : Node.Declares roots record)
    (hfields : ∀ field ∈ record.fields, region field.type)
    (hroom : builder.recordRoom roots ≤ depth) :
    Proceeds (Builder.ValidatesKey context) context (context.Dangling region) builder
      (validateRecord validate record) fun _ _ => True := by
  have hdefines := hspans.defines hrecord
  refine .of_steps ((gives_validateRecord hgives hdefines).mono fun _ _ _ _ => trivial)
    fun htidy => ?_
  rw [validateRecord_eq]
  refine steps_onFirstSight fun hfresh => ?_
  have hkey : Builder.Names context (.validating record.id) := ⟨record, hdefines, rfl⟩
  have hlt := Builder.recordRoom_opened_lt hrecord hfresh
  exact steps_reserveFor (Builder.lasting_validatesKey context) hkey hfresh htidy
    (proceeds_validateFields hregion hproceeds hfields (by omega))

theorem proceeds_validateUnion {branches : List Node}
    (hbranches : ∀ branch ∈ branches, region branch ∧
      builder.recordRoom roots + branch.preorder.length ≤ depth) :
    Proceeds (Builder.ValidatesKey context) context (context.Dangling region) builder
      (validateUnion validate branches) fun _ _ => True := by
  have hlasting := Builder.lasting_validatesKey context
  refine .bind (.mapM (fun _ (chosen : Branch) after => chosen.symbol < after.slots.size)
    branches ?_ ?_) ?_
  · intro _ _ _ _ hafter h
    exact Nat.lt_of_lt_of_le h hafter.size
  · intro branch hbranch middle hmiddle
    obtain ⟨hmem, hroom⟩ := hbranches branch hbranch
    have hle := Builder.recordRoom_le roots hmiddle
    refine .bind (proceeds_below hproceeds hmem (by omega)) ?_
    intro symbol after _ _ hsymbol
    exact .pure hsymbol
  intro alternatives first _ _ halternatives
  refine .bind (proceeds_terminal hlasting .union) ?_
  intro index second hsecond _ hindex
  refine .bind (proceeds_push hlasting trivial ?_) ?_
  · intro child hchild
    obtain ⟨chosen, hchosen, rfl⟩ := List.mem_map.1 hchild
    obtain ⟨_, _, hlt⟩ := exists_of_forall₂_right halternatives hchosen
    exact Nat.lt_of_lt_of_le hlt hsecond.size
  rintro alternative third hthird _ ⟨rfl, rfl⟩
  refine proceeds_sequence hlasting ?_
  intro child hchild
  rcases List.mem_cons.1 hchild with rfl | hchild
  · exact ⟨_, hthird.symbol _ _ hindex, rfl⟩
  · obtain rfl := List.mem_singleton.1 hchild
    exact ⟨_, second.symbol?_pushSlot_self _, rfl⟩

include hspans hregion hgives

/-- Every shape compiles by steps. -/
theorem proceeds_validatingStep {node : Node} (hnode : region node)
    (hroom : builder.recordRoom roots + node.preorder.length ≤ depth + 1) :
    Proceeds (Builder.ValidatesKey context) context (context.Dangling region) builder
      (validatingStep context validate node) fun _ _ => True := by
  have hlasting := Builder.lasting_validatesKey context
  refine .bind (proceeds_look fun _ hlook => .intro hnode hlook) ?_
  intro shape first hfirst _ hshape
  have hle := Builder.recordRoom_le roots hfirst
  have hpart : ∀ part ∈ shape.parts, region part :=
    fun part h => hregion.part node shape part hnode hshape h
  cases shape with
  | primitive type => exact (proceeds_terminal hlasting _).mono fun _ _ _ _ _ => trivial
  | named definition =>
    cases definition with
    | fixed heading size => exact (proceeds_terminal hlasting _).mono fun _ _ _ _ _ => trivial
    | enum heading symbols default? => exact proceeds_enumeration hlasting _
    | record record =>
      have hpositive := List.length_pos_of_mem node.self_mem_preorder
      exact proceeds_validateRecord hspans hregion hgives hproceeds
        (hspans.declares (hregion.mem node hnode) hshape)
        (fun field hfield => hpart _ (List.mem_map_of_mem hfield)) (by omega)
  | array items =>
    have hlt := Context.length_part_lt hshape nofun (.head _)
    refine .bind (proceeds_below hproceeds (hpart items (.head _)) (by omega)) ?_
    intro item second _ _ hitem
    refine proceeds_blocks hlasting .array ?_
    intro child hchild
    obtain rfl := List.mem_singleton.1 hchild
    exact hitem
  | map values =>
    have hlt := Context.length_part_lt hshape nofun (.head _)
    refine .bind (proceeds_terminal hlasting _) ?_
    intro key second hsecond _ hkey
    have hle' := Builder.recordRoom_le roots hsecond
    refine .bind (proceeds_below hproceeds (hpart values (.head _)) (by omega)) ?_
    intro value third hthird _ hvalue
    refine proceeds_blocks hlasting .map ?_
    intro child hchild
    rcases List.mem_cons.1 hchild with rfl | hchild
    · exact Builder.lt_size_of_symbol? (hthird.symbol _ _ hkey)
    · obtain rfl := List.mem_singleton.1 hchild
      exact hvalue
  | union branches =>
    refine proceeds_validateUnion hproceeds fun branch hbranch => ⟨hpart branch hbranch, ?_⟩
    have hlt := Context.length_part_lt hshape nofun hbranch
    omega

end

/-- Compiling a node of the region goes by steps, when the depth leaves room for the
records that are new and for the nodes below. -/
theorem proceeds_validating (hspans : context.Spans roots)
    (hregion : context.Region roots region) (depth : Nat) (builder : Builder) (node : Node)
    (hnode : region node) (hroom : builder.recordRoom roots + node.preorder.length ≤ depth) :
    Proceeds (Builder.ValidatesKey context) context (context.Dangling region) builder
      (validating context depth node) fun id after => after.Validates context node id := by
  induction depth generalizing builder node with
  | zero =>
    have hpositive := List.length_pos_of_mem node.self_mem_preorder
    omega
  | succ depth ih =>
    have hholds := hspans.holds (hregion.mem node hnode)
    refine .of_gives (gives_validating context (depth + 1) builder node hholds) ?_
    exact proceeds_validatingStep hspans hregion (gives_validating context depth) ih hnode hroom

end Compile

end AvroResolution
