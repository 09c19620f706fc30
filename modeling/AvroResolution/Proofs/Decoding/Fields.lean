import AvroResolution.Proofs.Decoding.Compiled
import AvroResolution.Proofs.Decoding.Record

/-!
# Laws of fields

The parts of a record are read one after the other, and their values become its
fields.

* `Reader.Ensures.readEach` carries what is known of the parts over to all of them.
* `Matching.of_placeFields_ok`: a record that is read has every field of the
  reader's record, in the reader's order.  A shadowed field never arrives, and
  then the last field has no place.
* `Matching.of_placeFields_error`: no field lacks a place unless two fields have
  one name.
* `Reader.Ensures.readRecord` says the same of the reader of a record, given what
  its parts ensure.
-/

namespace AvroResolution

namespace Reader

variable {bad : DecodeFault → Prop}

open Program

/-! ## Parts of a record -/

/-- What the reader of a part ensures, when `link` is the field that its value
becomes. -/
def EnsuresPart (typed : ReaderField → Value → Prop) (bad : DecodeFault → Prop)
    (link : Option ReaderField) (part : FieldRead) : Prop :=
  match link, part with
  | some reader, .kept read => Ensures (typed reader) bad read
  | none, .dropped read => Ensures (fun _ => True) bad read
  | _, _ => False

theorem Ensures.readEach {typed : ReaderField → Value → Prop} {links : Links}
    {parts : List FieldRead} (h : List.Forall₂ (EnsuresPart typed bad) links parts)
    (values : List Value) :
    Ensures (fun all => ∃ arrived, all = arrived.reverse ++ values ∧
      List.Forall₂ typed links.readers arrived) bad (Program.readEach parts values) := by
  induction h generalizing values with
  | nil => exact .pure ⟨[], rfl, .nil⟩
  | @cons link part links parts hpart _ ih =>
    cases link with
    | none =>
      cases part with
      | kept _ => cases hpart
      | dropped read => exact .bind hpart fun _ _ => ih values
    | some reader =>
      cases part with
      | dropped _ => cases hpart
      | kept read =>
        refine .bind hpart fun value hvalue => (ih (value :: values)).mono ?_ fun _ h => h
        rintro all ⟨arrived, rfl, harrived⟩
        exact ⟨value :: arrived, by simp, .cons hvalue harrived⟩

/-- A default is a value of its reader. -/
theorem Ensures.readWhole {good : Value → Prop} {x : Reader Value} {bytes : List UInt8}
    {inject : SymbolId} (hx : Ensures good bad x)
    (hleftover : ∀ value rest, x (.ofList bytes) = .ok value rest → rest.length ≠ 0 →
      bad (.program (.leftoverDefault rest.length inject))) :
    Ensures good bad (Program.readWhole x bytes inject) := by
  intro input
  rw [Program.readWhole, bind_run, replay]
  cases hrun : x (.ofList bytes) with
  | error fault rest => exact hx.of_error hrun
  | ok value rest =>
    by_cases hempty : rest.length = 0
    · simp only [if_pos hempty]
      exact hx.of_ok hrun
    · simp only [if_neg hempty]
      exact hleftover value rest hrun hempty

theorem readEach_append (parts others : List FieldRead) (values : List Value) :
    Program.readEach (parts ++ others) values = (do
      let values ← Program.readEach parts values
      Program.readEach others values) := by
  induction parts generalizing values with
  | nil => rw [List.nil_append, Program.readEach, pure_bind]
  | cons part rest ih =>
    cases part with
    | kept read =>
      rw [List.cons_append, Program.readEach, Program.readEach, bind_assoc]
      exact bind_congr fun value => ih (value :: values)
    | dropped read =>
      rw [List.cons_append, Program.readEach, Program.readEach, bind_assoc]
      exact bind_congr fun _ => ih values

end Reader

/-! ## Fields of a matching -/

namespace Matching

variable {config : Config} {writer reader : List (Field Node)} {matching : Matching}
  {values : List Value}

theorem length_arrivals (matching : Matching) :
    matching.arrivals.length = matching.readers.length := by
  rw [arrivals, List.length_map]

theorem nodup_arrivals (h : ofFields config writer reader = .ok matching) :
    (matching.arrivals.map (·.index)).Nodup := by
  rw [map_index_arrivals]
  exact nodup_readers h

theorem length_readers_le (h : ofFields config writer reader = .ok matching) :
    matching.readers.length ≤ reader.length := by
  have hsubset : matching.readers.map (·.index) ⊆ List.range reader.length := by
    intro index hindex
    obtain ⟨field, hfield, rfl⟩ := List.mem_map.1 hindex
    exact List.mem_range.2 (ReaderField.index_lt ((mem_readers h).1 hfield).1)
  have := (List.subperm_of_subset (nodup_readers h) hsubset).length_le
  simpa using this

/-- When every field that arrives has a place, every field of the reader's record
arrives, because the last one does. -/
theorem length_readers_eq (h : ofFields config writer reader = .ok matching)
    (hlt : ∀ field ∈ matching.readers, field.index < matching.readers.length) :
    matching.readers.length = reader.length := by
  refine Nat.le_antisymm (length_readers_le h) ?_
  rcases Nat.eq_zero_or_pos reader.length with hzero | hpos
  · omega
  · have hindex : reader.length - 1 < reader.length := by omega
    have hlast : (⟨reader.length - 1, reader[reader.length - 1]⟩ : ReaderField) ∈
        ReaderField.ofFields reader :=
      ReaderField.mem_ofFields.2 (List.getElem?_eq_getElem hindex)
    have := hlt _ (last_mem_readers h hlast (Nat.sub_add_cancel hpos))
    dsimp only at this
    omega

/-- A record that is read has all fields of the reader's record in their order. -/
theorem of_placeFields_ok {typed : ReaderField → Value → Prop} {record : Value}
    (h : ofFields config writer reader = .ok matching)
    (hvalues : List.Forall₂ typed matching.readers values)
    (hplace : placeFields matching.arrivals values = .ok record) :
    ∃ fields, record = .record fields ∧ fields.length = reader.length ∧
      ∀ (index : Nat) (field : Field Node), reader[index]? = some field →
        ∃ value, fields[index]? = some (field.name, value) ∧ typed ⟨index, field⟩ value := by
  obtain ⟨hlength, hlt⟩ := AvroResolution.of_placeFields_ok hplace
  obtain ⟨fields, hfields, hcount, hplaced⟩ := placeFields_of_lt hlength (nodup_arrivals h) hlt
  rw [hfields] at hplace
  cases hplace
  have hlt' : ∀ field ∈ matching.readers, field.index < matching.readers.length := by
    intro field hfield
    rw [← length_arrivals]
    exact hlt _ (List.mem_map_of_mem hfield)
  have hall := length_readers_eq h hlt'
  refine ⟨fields, rfl, by rw [hcount, length_arrivals, hall], ?_⟩
  intro index field hfield
  have hindex : index < reader.length := (List.getElem?_eq_some_iff.1 hfield).1
  have hmem : index ∈ matching.readers.map (·.index) := by
    refine mem_of_nodup_of_lt (nodup_readers h) ?_ (by rwa [List.length_map, hall])
    intro index hindex
    obtain ⟨field, hfield, rfl⟩ := List.mem_map.1 hindex
    rw [List.length_map]
    exact hlt' field hfield
  obtain ⟨found, hfound, rfl⟩ := List.mem_map.1 hmem
  have hsame := ReaderField.mem_ofFields.1 ((mem_readers h).1 hfound).1
  rw [hfield] at hsame
  obtain rfl := Option.some.inj hsame
  obtain ⟨position, hposition, rfl⟩ := List.mem_iff_getElem.1 hfound
  have hposition' : position < values.length := by
    rw [← hvalues.length_eq]
    exact hposition
  refine ⟨values[position], ?_, (List.forall₂_iff_get.1 hvalues).2 position hposition hposition'⟩
  have hzip : ((⟨matching.readers[position].field.name, matching.readers[position].index⟩ :
      Arrival), values[position]) ∈ matching.arrivals.zip values := by
    refine List.mem_iff_getElem.2 ⟨position, ?_, ?_⟩
    · rw [List.length_zip, length_arrivals]
      omega
    · simp [arrivals]
  exact hplaced _ hzip

/-- A field lacks a place only if another field has its name. -/
theorem of_placeFields_error {fault : ProgramFault}
    (h : ofFields config writer reader = .ok matching)
    (hlength : matching.readers.length = values.length)
    (hplace : placeFields matching.arrivals values = .error fault) :
    (∃ name index, fault = .readerIndex name index) ∧ ¬(reader.map (·.name)).Nodup := by
  rw [← length_arrivals] at hlength
  obtain ⟨arrival, harrival, hle, rfl⟩ :=
    AvroResolution.of_placeFields_error hlength (nodup_arrivals h) hplace
  refine ⟨⟨_, _, rfl⟩, fun hnames => ?_⟩
  obtain ⟨field, hfield, rfl⟩ := List.mem_map.1 harrival
  have hall : List.range reader.length ⊆ matching.readers.map (·.index) := by
    intro index hindex
    rw [List.mem_range] at hindex
    have hmem : (⟨index, reader[index]⟩ : ReaderField) ∈ ReaderField.ofFields reader :=
      ReaderField.mem_ofFields.2 (List.getElem?_eq_getElem hindex)
    exact List.mem_map.2 ⟨_, mem_readers_of_nodup h hnames hmem, rfl⟩
  have hcount := (List.subperm_of_subset List.nodup_range hall).length_le
  have hindex := ReaderField.index_lt ((mem_readers h).1 hfield).1
  rw [length_arrivals] at hle
  simp at hcount hle
  omega

end Matching

/-! ## Records -/

namespace Program

variable {context : Context} {program : Program} {builder : Builder}
  {run : SymbolId → Reader Value} {id : SymbolId} {w r : RecordNode} {matching : Matching}
  {written defaulted : List FieldRead} (typed : ReaderField → Value → Prop)
  (bad : DecodeFault → Prop)

theorem ensuresParts_written
    (hlinked : ∀ field link symbol, (field, some link) ∈ w.fields.zip matching.links →
      builder.Reads context field.type link.field.type symbol → program.Leads id symbol →
        Reader.Ensures (typed link) bad (run symbol))
    (hdropped : ∀ field value, (field, none) ∈ w.fields.zip matching.links →
      builder.Reads context field.type field.type value → program.Leads id value →
        Reader.Ensures (fun _ => True) bad (run value))
    (hlength : matching.links.length = w.fields.length)
    (h : List.Forall₂ (WrittenRead context program builder run id)
      (w.fields.zip matching.links) written) :
    List.Forall₂ (Reader.EnsuresPart typed bad) matching.links written := by
  have hlinks : (w.fields.zip matching.links).map Prod.snd = matching.links :=
    List.map_snd_zip (Nat.le_of_eq hlength)
  rw [← hlinks, List.forall₂_map_left_iff]
  generalize w.fields.zip matching.links = pairs at h hlinked hdropped
  induction h with
  | nil => exact .nil
  | cons hpart _ ih =>
    refine .cons ?_ (ih (fun _ _ _ h => hlinked _ _ _ (.tail _ h))
      fun _ _ h => hdropped _ _ (.tail _ h))
    cases hpart with
    | linked hsymbol hleads => exact hlinked _ _ _ (.head _) hsymbol hleads
    | dropped hvalue hleads => exact hdropped _ _ (.head _) hvalue hleads

theorem ensuresParts_defaulted {fields : List DefaultedField}
    (hfilled : ∀ field ∈ fields, ∀ part, DefaultRead context program builder run id field part →
      Reader.EnsuresPart typed bad (some field.reader) part)
    (h : List.Forall₂ (DefaultRead context program builder run id) fields defaulted) :
    List.Forall₂ (Reader.EnsuresPart typed bad) (fields.map fun field => some field.reader)
      defaulted := by
  rw [List.forall₂_map_left_iff]
  induction h with
  | nil => exact .nil
  | cons hpart _ ih =>
    exact .cons (hfilled _ (.head _) _ hpart) (ih fun field h => hfilled field (.tail _ h))

end Program

theorem Matching.readers_links (matching : Matching) :
    (matching.links ++ matching.defaulted.map fun field => some field.reader).readers =
      matching.readers := by
  rw [Links.readers, List.filterMap_append, readers, Links.readers, List.filterMap_map]
  exact congrArg _ (congrFun List.filterMap_eq_map matching.defaulted)

/-- What the parts of a record ensure, the record ensures of its fields.  A field can
only lack a place when two fields of the reader's record have one name. -/
theorem Reader.Ensures.readRecord {config : Config} {writer reader : List (Field Node)}
    {matching : Matching} {parts : List Program.FieldRead}
    {typed : ReaderField → Value → Prop} {bad : DecodeFault → Prop}
    (hmatching : Matching.ofFields config writer reader = .ok matching)
    (hparts : List.Forall₂ (EnsuresPart typed bad)
      (matching.links ++ matching.defaulted.map fun field => some field.reader) parts)
    (hplace : ∀ name index, ¬(reader.map (·.name)).Nodup →
      bad (.program (.readerIndex name index))) :
    Ensures
      (fun record => ∃ fields, record = .record fields ∧ fields.length = reader.length ∧
        ∀ (index : Nat) (field : Field Node), reader[index]? = some field →
          ∃ value, fields[index]? = some (field.name, value) ∧ typed ⟨index, field⟩ value)
      bad (Program.readRecord matching.arrivals parts) := by
  refine .bind (.readEach hparts []) ?_
  rintro all ⟨arrived, rfl, harrived⟩
  rw [List.append_nil, List.reverse_reverse]
  rw [matching.readers_links] at harrived
  refine .ofExcept ?_ ?_
  · intro record hrecord
    exact Matching.of_placeFields_ok hmatching harrived hrecord
  · intro fault hfault
    obtain ⟨⟨name, index, rfl⟩, hnames⟩ :=
      Matching.of_placeFields_error hmatching harrived.length_eq hfault
    exact hplace name index hnames

end AvroResolution
