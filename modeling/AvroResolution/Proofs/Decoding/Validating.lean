import AvroResolution.Proofs.Compilation.Validating
import AvroResolution.Proofs.Decoding.Record
import AvroResolution.Proofs.Decoding.Symbols

/-!
# Running a schema's own grammar

The program of a schema's own grammar reads data of the schema: a run goes exactly as
deep as `Registry.plainWithin` and gives the same answer (`Program.Validated.run_eq`).
-/

namespace AvroResolution

/-! ## Fields in their own order -/

theorem Reader.Ensures.bind_congr {α β : Type} {good : α → Prop} {bad : DecodeFault → Prop}
    {x : Reader α} {f g : α → Reader β} (h : Ensures good bad x)
    (hfg : ∀ value, good value → f value = g value) : x >>= f = x >>= g := by
  funext input
  rw [bind_run, bind_run]
  cases hx : x input with
  | ok value rest => exact congrFun (hfg value (h.of_ok hx)) rest
  | error fault rest => rfl

theorem Registry.names_plainFields (read : Node → Reader Value) (fields : List (Field Node)) :
    Reader.Ensures (fun entries => entries.map Prod.fst = fields.map (·.name)) (fun _ => True)
      (plainFields read fields) := by
  induction fields with
  | nil => exact .pure rfl
  | cons field rest ih =>
    refine .bind (Reader.ensures_true _) fun value _ => .bind ih fun others hothers => .pure ?_
    rw [List.map_cons, List.map_cons, hothers]

theorem length_ownArrivals (fields : List (Field Node)) :
    (Builder.ownArrivals fields).length = fields.length := by
  simp [Builder.ownArrivals]

theorem getElem?_ownArrivals (fields : List (Field Node)) (index : Nat) :
    (Builder.ownArrivals fields)[index]? = fields[index]?.map fun field => ⟨field.name, index⟩ := by
  simp [Builder.ownArrivals, Function.comp_def]

theorem map_index_ownArrivals (fields : List (Field Node)) :
    (Builder.ownArrivals fields).map (·.index) = List.range fields.length := by
  refine List.ext_getElem? fun index => ?_
  rw [List.getElem?_map, getElem?_ownArrivals]
  by_cases h : index < fields.length
  · simp [h]
  · simp [h]

/-- Fields that arrive in the order of their record stay in it. -/
theorem placeFields_ownArrivals {fields : List (Field Node)} {entries : List (String × Value)}
    (hnames : entries.map Prod.fst = fields.map (·.name)) :
    placeFields (Builder.ownArrivals fields) (entries.map Prod.snd) = .ok (.record entries) := by
  have hcount : entries.length = fields.length := by
    simpa using congrArg List.length hnames
  have hlength : (Builder.ownArrivals fields).length = (entries.map Prod.snd).length := by
    rw [length_ownArrivals, List.length_map, hcount]
  have hindices := map_index_ownArrivals fields
  have hlt : ∀ arrival ∈ Builder.ownArrivals fields,
      arrival.index < (Builder.ownArrivals fields).length := by
    intro arrival harrival
    have hmem := List.mem_map_of_mem (f := (·.index)) harrival
    rw [hindices, List.mem_range] at hmem
    rwa [length_ownArrivals]
  obtain ⟨placed, hplaced, hplacedLength, hat⟩ :=
    placeFields_of_lt hlength (by rw [hindices]; exact List.nodup_range) hlt
  rw [hplaced]
  congr 2
  refine List.ext_getElem? fun index => ?_
  by_cases hindex : index < entries.length
  · have hfield := List.getElem?_eq_getElem (show index < fields.length by omega)
    have hname := congrArg (fun names : List String => names[index]?) hnames
    simp only [List.getElem?_map, hfield, List.getElem?_eq_getElem hindex, Option.map_some,
      Option.some.injEq] at hname
    have hzip : ((⟨entries[index].1, index⟩ : Arrival), entries[index].2) ∈
        (Builder.ownArrivals fields).zip (entries.map Prod.snd) := by
      refine List.mem_of_getElem? (i := index) (List.getElem?_zip_eq_some.2 ⟨?_, ?_⟩)
      · rw [getElem?_ownArrivals, hfield, hname]
        rfl
      · rw [List.getElem?_map, List.getElem?_eq_getElem hindex]
        rfl
    rw [hat _ hzip, List.getElem?_eq_getElem hindex]
  · rw [List.getElem?_eq_none (Nat.le_of_not_lt hindex), List.getElem?_eq_none]
    rw [hplacedLength, length_ownArrivals]
    omega

/-! ## Runs -/

namespace Program

variable {context : Context} {root : Node} {program : Program} {builder : Builder}
  {run : SymbolId → Reader Value}

/-- Parts that are all kept give the values of the fields that they read. -/
theorem readEach_fields (read : Node → Reader Value) (fields : List (Field Node))
    (values : List Value) :
    readEach (fields.map fun field => .kept (read field.type)) values = (do
      let entries ← Registry.plainFields read fields
      return (entries.map Prod.snd).reverse ++ values) := by
  induction fields generalizing values with
  | nil => rfl
  | cons field rest ih =>
    rw [List.map_cons, readEach, Registry.plainFields, bind_assoc]
    refine bind_congr fun value => ?_
    rw [ih, bind_assoc]
    refine bind_congr fun others => ?_
    rw [pure_bind, List.map_cons, List.reverse_cons, List.append_assoc]
    rfl

theorem readRecord_fields (read : Node → Reader Value) (fields : List (Field Node)) :
    readRecord (Builder.ownArrivals fields) (fields.map fun field => .kept (read field.type)) = (do
      let entries ← Registry.plainFields read fields
      return .record entries) := by
  rw [readRecord, readEach_fields, bind_assoc]
  refine (Registry.names_plainFields read fields).bind_congr fun entries hnames => ?_
  rw [pure_bind, List.append_nil, List.reverse_reverse, placeFields_ownArrivals hnames]
  rfl

/-- The run of a record's own sequence compares with reading its fields, if the runs of
the symbols in it do. -/
theorem runStep_ownRecord {rel : (α : Type) → Reader α → Reader α → Prop}
    (hrel : Reader.Congruence rel) {read : Node → Reader Value} {id order : SymbolId}
    {fields : List (Field Node)} {symbols : List SymbolId}
    (hid : program.symbol? id = some (.sequence (symbols ++ [order])))
    (horder : program.symbol? order = some (.reorder (Builder.ownArrivals fields)))
    (halone : ∀ child ∈ symbols, ∃ symbol, program.symbol? child = some symbol ∧
      symbol.standsAlone = true)
    (hread : List.Forall₂ (fun (field : Field Node) symbol =>
      rel Value (run symbol) (read field.type)) fields symbols) :
    rel Value (program.runStep run id) (do
      let entries ← Registry.plainFields read fields
      return .record entries) := by
  rw [runStep_fields hid (.of_standsAlone horder halone), ← readRecord_fields]
  refine hrel.readRecord ?_ _
  rw [List.forall₂_map_left_iff, List.forall₂_map_right_iff]
  exact hread.flip.imp fun _ _ h => .kept h

theorem Validated.standsAlone (hvalidated : program.Validated context root builder) {node : Node}
    {id : SymbolId} (h : builder.Validates context node id) :
    ∃ symbol, program.symbol? id = some symbol ∧ symbol.standsAlone = true := by
  rw [hvalidated.symbol]
  cases h with
  | primitive _ hid => exact ⟨_, hid, rfl⟩
  | fixed _ hid => exact ⟨_, hid, rfl⟩
  | enum _ _ _ hid => exact ⟨_, hid, rfl⟩
  | array _ _ _ _ hid => exact ⟨_, hid, rfl⟩
  | map _ _ _ _ hid => exact ⟨_, hid, rfl⟩
  | union _ _ _ _ _ hid => exact ⟨_, hid, rfl⟩
  | record _ hrecord hid =>
    cases hvalidated.records _ _ hrecord hid with
    | intro _ _ hid => exact ⟨_, hid, rfl⟩

/-- A run reads data of the schema.  The induction is on its depth. -/
theorem Validated.run_eq (hvalidated : program.Validated context root builder)
    {registry : Registry} (hregistry : ∀ side, context.registry side = registry) (depth : Nat)
    {node : Node} {id : SymbolId} (h : builder.Validates context node id) :
    program.runWithin depth id = registry.plainWithin depth node := by
  induction depth generalizing node id with
  | zero => rfl
  | succ depth ih =>
    have hsymbol := hvalidated.symbol
    have hlook {shape : Shape} (hshape : context.shape? node = some shape) :
        registry.shape? node = some shape := by
      rwa [Context.shape?, hregistry] at hshape
    rw [runWithin, Registry.plainWithin]
    cases h with
    | primitive hshape hid =>
      rw [← hsymbol] at hid
      rw [runStep_terminal hid, Registry.plainStep_primitive (hlook hshape)]
    | fixed hshape hid =>
      rw [← hsymbol] at hid
      rw [runStep_terminal hid, Registry.plainStep_fixed (hlook hshape)]
    | enum hshape hordinal hremap hid =>
      rw [← hsymbol] at hid hordinal hremap
      rw [runStep_enum hid hordinal hremap, Registry.plainStep_enum (hlook hshape)]
    | array hshape hitem hstart hbody hid =>
      rw [← hsymbol] at hid hstart hbody
      rw [runStep_array hid hstart hbody, Registry.plainStep_array (hlook hshape), ih hitem]
    | map hshape hvalue hstart hbody hid =>
      rw [← hsymbol] at hid hstart hbody
      rw [runStep_map hid hstart hbody, Registry.plainStep_map (hlook hshape), ih hvalue]
    | union hshape hlength hbranches hindex halternative hid =>
      rw [← hsymbol] at hid hindex halternative
      rw [runStep_union hid hindex halternative, Registry.plainStep_union (hlook hshape)]
      refine Reader.Congruence.eq.branchIndex hlength fun index hindex hindex' => ?_
      have hbranch := hbranches index _ _ (List.getElem?_eq_getElem hindex')
        (List.getElem?_eq_getElem hindex)
      exact congrArg (· >>= _) (ih hbranch)
    | record hshape hrecord hid =>
      cases hvalidated.records _ _ hrecord hid with
      | intro hfields horder hid =>
        rw [← hsymbol] at hid horder
        rw [Registry.plainStep_record (hlook hshape)]
        refine runStep_ownRecord .eq hid horder (fun child hchild => ?_)
          (hfields.imp fun _ _ h => ih h)
        obtain ⟨field, _, hfield⟩ := exists_of_forall₂_right hfields hchild
        exact hvalidated.standsAlone hfield

end Program

end AvroResolution
