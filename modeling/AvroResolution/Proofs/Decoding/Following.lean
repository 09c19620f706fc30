import AvroResolution.Proofs.Decoding.Fields
import AvroResolution.Proofs.Default.Reading

/-!
# Taking the bytes that the writer's type takes

A compiled run takes from its input what reading data of the writer's node takes,
whatever it makes of the data.

* `Reader.Follows` compares two readers by the bytes they take.  Where the first
  gives a value, the second gives one too and leaves the same bytes; bytes that are
  malformed for the first are malformed for the second.
* `Program.Built.follows` is the comparison of a compiled run with
  `Registry.plainWithin`.  A default that the run fills in takes nothing, because it
  is read from bytes of its own.
-/

namespace AvroResolution

namespace Reader

variable {α β γ : Type}

/-- The reader takes the bytes that the other one takes. -/
abbrev Follows (x : Reader α) (y : Reader β) : Prop :=
  Simulates (fun _ => True) DecodeFault.ofWire (fun _ _ => True) x y

namespace Follows

variable {x : Reader α} {y : Reader β}

protected theorem pure (value : α) (other : β) : Follows (pure value) (pure other) :=
  Simulates.pure trivial

protected theorem throw {fault : DecodeFault} (h : ¬fault.ofWire) (y : Reader β) :
    Follows (throw fault : Reader α) y :=
  Simulates.throw_left h y

protected theorem bind {δ : Type} {f : α → Reader γ} {g : β → Reader δ} (hx : Follows x y)
    (hf : ∀ value other, Follows (f value) (g other)) : Follows (x >>= f) (y >>= g) :=
  Simulates.bind hx fun value other _ => hf value other

/-- What is done with the value does not matter if it takes nothing. -/
theorem bind_left {f : α → Reader γ} (hx : Follows x y)
    (hf : ∀ value other, Follows (f value) (pure other : Reader β)) : Follows (x >>= f) y := by
  have h := Follows.bind hx hf
  rwa [bind_pure] at h

theorem bind_right {f : β → γ} (hx : Follows x y) :
    Follows x (do let other ← y; return f other) := by
  have h := Follows.bind (f := pure) (g := fun other => pure (f other)) hx fun _ _ => .pure _ _
  rwa [bind_pure] at h

theorem of_drops {x : Reader α} (h : Drops x) : Follows x x :=
  (h.simulates closed_true).mono (fun _ h => h) fun _ _ _ => trivial

theorem takes {bytes : List UInt8} (h : Follows x y) (hy : Takes y bytes) : Takes x bytes := by
  intro tail
  have htakes := hy tail
  cases hx : x (.ofList (bytes ++ tail)) with
  | ok value rest =>
    obtain ⟨_, other, hother, _⟩ := Simulates.of_ok h trivial hx
    rw [hother] at htakes
    exact htakes
  | error fault rest =>
    intro hwire
    rw [Simulates.of_error h trivial hx hwire] at htakes
    exact htakes hwire

end Follows

theorem follows_branchIndex {count count' : Nat} (h : count = count') :
    Simulates (fun _ => True) DecodeFault.ofWire (fun index index' => index.val = index'.val)
      (branchIndex count) (branchIndex count') := by
  subst h
  refine ((scalar_branchIndex count).drops.simulates closed_true).mono (fun _ h => h) ?_
  rintro index _ rfl
  rfl

/-- An enum takes the ordinal that another enum takes that knows all its symbols. -/
theorem follows_readEnum {adjustment other : EnumAdjustment}
    (h : ∀ ordinal reader, adjustment.resolve ordinal = some reader →
      ∃ index symbol, other.resolve ordinal = some index ∧ other.symbols[index]? = some symbol) :
    Follows (Program.readEnum adjustment) (Program.readEnum other) := by
  refine Simulates.bind (scalar_int.drops.simulates closed_true) ?_
  rintro ordinal _ rfl
  split
  · exact Follows.throw id _
  · dsimp only
    split
    · exact Follows.throw id _
    · rename_i reader hreader
      obtain ⟨index, symbol, hindex, hsymbol⟩ := h _ _ hreader
      rw [hindex]
      dsimp only
      rw [hsymbol]
      split
      · exact Follows.throw id _
      · exact Follows.pure _ _

end Reader

theorem EnumAdjustment.keep_of_between {config : Config} {ws rs : List String}
    {default? : Option String} {ordinal reader : Nat}
    (h : (EnumAdjustment.between config ws rs default?).resolve ordinal = some reader) :
    ∃ index symbol, (EnumAdjustment.keep ws).resolve ordinal = some index ∧
      (EnumAdjustment.keep ws).symbols[index]? = some symbol := by
  have hlt : ordinal < ws.length := by
    by_contra hge
    rw [resolve, between, List.getElem?_eq_none (by simpa using hge)] at h
    cases h
  refine ⟨ordinal, ws[ordinal], ?_, List.getElem?_eq_getElem hlt⟩
  rw [resolve, keep, List.getElem?_map, List.getElem?_range hlt]
  rfl

/-! ## Defaults -/

namespace Context

variable {context : Context}

/-- The defaults of both trees have lengths below `maxLength`. -/
def Addressable (context : Context) : Prop :=
  ∀ side, (context.registry side).addressable = true

theorem Defines.of_linked {config : Config} {w : List (Field Node)} {r : RecordNode}
    {matching : Matching} (hr : context.Defines r)
    (hmatching : Matching.ofFields config w r.fields = .ok matching) {field : Field Node}
    {link : ReaderField} (hlinked : (field, some link) ∈ w.zip matching.links) :
    context.Holds link.field.type :=
  (hr.field (List.mem_of_getElem?
    (ReaderField.mem_ofFields.1 (Matching.mem_of_linked hmatching hlinked)))).1

theorem Defines.of_defaulted {config : Config} {w : List (Field Node)} {r : RecordNode}
    {matching : Matching} (hr : context.Defines r)
    (hmatching : Matching.ofFields config w r.fields = .ok matching) {field : DefaultedField}
    (hfield : field ∈ matching.defaulted) : context.Holds field.reader.field.type :=
  (hr.field (List.mem_of_getElem?
    (ReaderField.mem_ofFields.1 (Matching.mem_of_defaulted hmatching hfield)))).1

/-- The bytes of a default are taken by the reader of its field's type. -/
theorem Addressable.takes_default (haddressable : context.Addressable)
    {config : Config} {w : List (Field Node)} {r : RecordNode} {matching : Matching}
    (hr : context.Defines r) (hmatching : Matching.ofFields config w r.fields = .ok matching)
    {field : DefaultedField} (hfield : field ∈ matching.defaulted) {bytes : List UInt8}
    (hbytes : encodeDefault (context.registry field.reader.field.type.side)
      field.reader.field.type field.default = .ok bytes) (depth : Nat) :
    Reader.Takes ((context.registry field.reader.field.type.side).plainWithin depth
      field.reader.field.type) bytes := by
  have hmem := List.mem_of_getElem?
    (ReaderField.mem_ofFields.1 (Matching.mem_of_defaulted hmatching hfield))
  have hliteral := Registry.addressable_default (haddressable r.id.side) hr hmem
    ((Matching.of_ofFields hmatching).2.2 field hfield)
  exact Registry.takes_of_encodes _ depth (Registry.encodes_of_encodeDefault (haddressable _)
    (hr.of_defaulted hmatching hfield) hliteral hbytes)

end Context

/-! ## Records -/

namespace Program

variable {context : Context} {program : Program} {builder : Builder}
  {run : SymbolId → Reader Value} {parent symbol : SymbolId}

/-- The writer's fields are taken one after the other, kept or dropped. -/
theorem follows_written {read : Node → Reader Value}
    {pairs : List (Field Node × Option ReaderField)} {parts : List FieldRead}
    (hfollows : ∀ field link symbol, (field, link) ∈ pairs →
      builder.Reads context field.type (link.elim field fun link => link.field).type symbol →
        Reader.Follows (run symbol) (read field.type))
    (h : List.Forall₂ (WrittenRead context program builder run parent) pairs parts)
    (values : List Value) :
    Reader.Follows (readEach parts values) (Registry.plainFields read (pairs.map Prod.fst)) := by
  induction h generalizing values with
  | nil => exact .pure _ _
  | cons hpart _ ih =>
    have hrest := ih fun field link symbol hmem => hfollows field link symbol (.tail _ hmem)
    cases hpart with
    | linked hsymbol _ =>
      exact .bind (hfollows _ _ _ (.head _) hsymbol) fun value other =>
        .bind_right (hrest (value :: values))
    | dropped hvalue _ =>
      exact .bind (hfollows _ _ _ (.head _) hvalue) fun _ _ => .bind_right (hrest values)

/-- A default that its reader takes is read without taking anything of the input. -/
theorem follows_readWhole {x : Reader Value} {bytes : List UInt8} (hx : Reader.Takes x bytes)
    (inject : SymbolId) {β : Type} (other : β) :
    Reader.Follows (readWhole x bytes inject) (pure other) := by
  have htakes := hx []
  rw [List.append_nil] at htakes
  refine Reader.Follows.bind_left ?_ fun pair _ => ?_
  · intro input _
    rw [replay]
    cases hrun : x (.ofList bytes) with
    | ok value rest => exact ⟨trivial, other, rfl, trivial⟩
    | error fault rest =>
      rw [hrun] at htakes
      exact fun hwire => absurd hwire htakes
  · dsimp only
    split
    · exact .pure _ _
    · exact .throw id _

theorem follows_defaulted {fields : List DefaultedField} {parts : List FieldRead}
    (htakes : ∀ field ∈ fields, ∀ bytes value,
      encodeDefault (context.registry field.reader.field.type.side) field.reader.field.type
        field.default = .ok bytes →
      builder.Reads context field.reader.field.type field.reader.field.type value →
        Reader.Takes (run value) bytes)
    (h : List.Forall₂ (DefaultRead context program builder run parent) fields parts)
    (values : List Value) {β : Type} (other : β) :
    Reader.Follows (readEach parts values) (pure other) := by
  induction h generalizing values other with
  | nil => exact .pure _ _
  | cons hpart _ ih =>
    cases hpart with
    | intro hbytes hvalue _ =>
      have hfirst := htakes _ (.head _) _ _ hbytes hvalue
      refine .bind_left (follows_readWhole hfirst _ other) fun value other => ?_
      exact ih (fun field hmem => htakes field (.tail _ hmem)) (value :: values) other

/-! ## Runs -/

/-- A compiled run takes what reading data of the writer's node takes, which may go as
deep.  The induction is on the depth of the run. -/
theorem Built.follows (hbuilt : program.Built context builder)
    (haddressable : context.Addressable) {depth more : Nat} (hle : depth ≤ more)
    {writer reader : Node} (hreads : builder.Reads context writer reader symbol)
    (hwriter : context.Holds writer) (hreader : context.Holds reader) :
    Reader.Follows (program.runWithin depth symbol)
      ((context.registry writer.side).plainWithin more writer) := by
  induction depth using Nat.strongRecOn generalizing more writer reader symbol with
  | ind depth ih =>
    rcases Nat.eq_zero_or_pos depth with rfl | hpos
    · exact .throw id _
    obtain ⟨more, rfl⟩ : ∃ less, more = less + 1 := ⟨more - 1, by omega⟩
    have hruns := hbuilt.runs hreads depth
    generalize program.runWithin depth symbol = x at hruns ⊢
    cases hruns with
    | endless => exact .throw id _
    | missing => exact .throw id _
    | unbranched => exact .throw id _
    | mismatch => exact .throw id _
    | atom hreading =>
      obtain ⟨w, r, hw, _, hrule⟩ := Context.rule_of_reading? hreading
      rw [Registry.plainWithin]
      cases hrule with
      | primitive type =>
        rw [Registry.plainStep_primitive hw]
        exact .of_drops (Reader.drops_readTerminal _)
      | fixed size _ =>
        rw [Registry.plainStep_fixed hw]
        exact .of_drops (Reader.drops_readTerminal _)
    | promotion hreading =>
      obtain ⟨w, r, hw, _, hrule⟩ := Context.rule_of_reading? hreading
      cases hrule with
      | promotion _ hsource _ =>
        subst hsource
        rw [Registry.plainWithin, Registry.plainStep_primitive hw]
        refine .bind_left (.of_drops (Reader.drops_readTerminal _)) fun value other => ?_
        cases happly : Promotion.apply _ value with
        | ok result => exact .pure _ _
        | error fault => exact .throw (Promotion.not_ofWire_of_apply happly) _
    | enum hreading =>
      obtain ⟨w, r, hw, _, hrule⟩ := Context.rule_of_reading? hreading
      cases hrule with
      | enum ws rs _ default? _ =>
        rw [Registry.plainWithin, Registry.plainStep_enum hw]
        exact Reader.follows_readEnum fun _ _ h => EnumAdjustment.keep_of_between h
    | array hreading hless _ hitem _ =>
      obtain ⟨w, r, hw, hr, hrule⟩ := Context.rule_of_reading? hreading
      cases hrule with
      | array wi ri =>
        obtain ⟨hwi, hside⟩ := hwriter.part hw (.head _)
        rw [Registry.plainWithin, Registry.plainStep_array hw, ← hside]
        exact .readArray Reader.closed_true
          (ih _ hless (by omega) hitem hwi (hreader.part hr (.head _)).1) fun _ _ _ => trivial
    | map hreading hless _ hvalue _ =>
      obtain ⟨w, r, hw, hr, hrule⟩ := Context.rule_of_reading? hreading
      cases hrule with
      | map wv rv =>
        obtain ⟨hwv, hside⟩ := hwriter.part hw (.head _)
        rw [Registry.plainWithin, Registry.plainStep_map hw, ← hside]
        exact .readMap Reader.closed_true
          (ih _ hless (by omega) hvalue hwv (hreader.part hr (.head _)).1) fun _ _ _ => trivial
    | @records w r _ _ _ less hreading hless _ _ hmatching hwritten hdefaulted =>
      obtain ⟨_, _, hw, hr, hrule⟩ := Context.rule_of_reading? hreading
      cases hrule
      obtain ⟨hwdefines, hwside⟩ := hwriter.record hw
      have hrdefines := (hreader.record hr).1
      have hlinks := Nat.le_of_eq (Matching.length_links hmatching).symm
      rw [Registry.plainWithin, Registry.plainStep_record hw, readRecord, Reader.readEach_append,
        bind_assoc, ← List.map_fst_zip hlinks]
      refine .bind (follows_written ?_ hwritten []) fun values fields => ?_
      · intro field link symbol hmem hsymbol
        obtain ⟨hfield, hside⟩ := hwdefines.field (List.of_mem_zip hmem).1
        have hlink : context.Holds (link.elim field fun link => link.field).type := by
          cases link with
          | none => exact hfield
          | some link => exact hrdefines.of_linked hmatching hmem
        rw [← hwside, ← hside]
        exact ih less hless (by omega) hsymbol hfield hlink
      · refine .bind_left (follows_defaulted ?_ hdefaulted values (Value.record fields))
          fun all record => ?_
        · intro field hfield bytes value hbytes hvalue
          have hholds := hrdefines.of_defaulted hmatching hfield
          exact (ih less hless (Nat.le_refl less) hvalue hholds hholds).takes
            (haddressable.takes_default hrdefines hmatching hfield hbytes less)
        · cases hplace : placeFields _ all.reverse with
          | ok result => exact .pure _ _
          | error fault => exact .throw id _
    | @select branches _ _ hreading hless _ hlength hbranches _ =>
      obtain ⟨w, r, hw, hr, hrule⟩ := Context.rule_of_reading? hreading
      cases hrule with
      | writerUnion branches _ =>
        rw [Registry.plainWithin, Registry.plainStep_union hw]
        refine Reader.Simulates.bind (Reader.follows_branchIndex hlength) ?_
        rintro index ⟨index', hindex'⟩ rfl
        have hbranch := List.getElem_mem hindex'
        obtain ⟨hholds, hside⟩ := hwriter.part hw hbranch
        refine Reader.Follows.bind_right ?_
        rw [← hside]
        exact ih _ hless (by omega)
          (hbranches index _ _ (List.getElem?_eq_getElem hindex')
            (List.getElem?_eq_getElem index.isLt)) hholds hreader
    | adjust hreading hless _ _ hkept hpick hbranch _ _ =>
      obtain ⟨w, r, _, hr, hrule⟩ := Context.rule_of_reading? hreading
      cases hrule with
      | readerUnion branches _ =>
        have hmem := List.fst_mem_of_mem_zipIdx (hkept.mem_of_pick hpick)
        exact .bind_left (ih _ hless (by omega) hbranch hwriter (hreader.part hr hmem).1)
          fun _ _ => .pure _ _

end Program

end AvroResolution
