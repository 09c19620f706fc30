import AvroResolution.Proofs.Compilation.Resolving
import AvroResolution.Proofs.Decoding.Run
import AvroResolution.Proofs.Program.Reachable

/-!
# Running compiled symbols

What a run of a symbol does, by the form that the symbol has in a compiled
program.

* There is one equation for each form: `Program.runStep_terminal`,
  `Program.runStep_array` and so on.
* The children of a record are taken apart once, by `Program.FieldsOf`, into
  readers whose values are kept or dropped.  `Program.runStep_fields` is the
  equation for records.
-/

namespace AvroResolution

/-- Whether a symbol reads a value on its own, not as part of a sequence. -/
def Symbol.standsAlone : Symbol → Bool
  | .terminal (.primitive _) => true
  | .terminal (.fixed _) => true
  | .sequence _ => true
  | .promote _ _ => true
  | .select _ => true
  | .adjust _ _ => true
  | .mismatch _ => true
  | _ => false

namespace Program

variable {program : Program} {run : SymbolId → Reader Value} {id : SymbolId}

/-! ## Symbols without fields -/

theorem runStep_of_some {symbol : Symbol} (h : program.symbol? id = some symbol) :
    program.runStep run id = (pure symbol >>= fun symbol =>
      match symbol with
      | .terminal terminal => readTerminal terminal
      | .sequence children => program.runSequence run children
      | .alternative branches => do
        let index ← Reader.branchIndex branches.length
        run (branches.get index).symbol
      | .promote symbol promotion => do
        let value ← run symbol
        Reader.ofExcept (fun fault => fault) (promotion.apply value)
      | .select alternative => run alternative
      | .adjust index symbol => do
        let value ← run symbol
        return .union (Int32.ofNat index) value
      | .mismatch cause => throw (.mismatch cause)
      | .repetition _ _ => throw (.program (.strayRepetition id))
      | _ => throw (.program (.strayAction id))) :=
  congrArg (· >>= _) (fetch_of_some h)

theorem runStep_terminal {terminal : Terminal}
    (h : program.symbol? id = some (.terminal terminal)) :
    program.runStep run id = readTerminal terminal := by
  rw [runStep_of_some h, pure_bind]

theorem runStep_promote {source : SymbolId} {promotion : Promotion}
    (h : program.symbol? id = some (.promote source promotion)) :
    program.runStep run id = (do
      let value ← run source
      Reader.ofExcept (fun fault => fault) (promotion.apply value)) := by
  rw [runStep_of_some h, pure_bind]

theorem runStep_select {alternative : SymbolId}
    (h : program.symbol? id = some (.select alternative)) :
    program.runStep run id = run alternative := by
  rw [runStep_of_some h, pure_bind]

theorem runStep_alternative {branches : List Branch}
    (h : program.symbol? id = some (.alternative branches)) :
    program.runStep run id = (do
      let index ← Reader.branchIndex branches.length
      run (branches.get index).symbol) := by
  rw [runStep_of_some h, pure_bind]

theorem runStep_adjust {index : Nat} {symbol : SymbolId}
    (h : program.symbol? id = some (.adjust index symbol)) :
    program.runStep run id = (do
      let value ← run symbol
      return .union (Int32.ofNat index) value) := by
  rw [runStep_of_some h, pure_bind]

theorem runStep_mismatch {cause : Mismatch}
    (h : program.symbol? id = some (.mismatch cause)) :
    program.runStep run id = throw (.mismatch cause) := by
  rw [runStep_of_some h, pure_bind]

theorem runStep_sequence {children : List SymbolId}
    (h : program.symbol? id = some (.sequence children)) :
    program.runStep run id = program.runSequence run children := by
  rw [runStep_of_some h, pure_bind]

/-- A sequence of two symbols does what the two open. -/
theorem runStep_pair {first second : SymbolId} {head next : Symbol}
    (h : program.symbol? id = some (.sequence [first, second]))
    (hfirst : program.symbol? first = some head) (hsecond : program.symbol? second = some next) :
    program.runStep run id = program.runOpened run [first, second] head (some next) := by
  rw [runStep_sequence h, runSequence_cons, fetch_of_some hfirst, pure_bind, fetchSecond,
    fetch_of_some hsecond, map_pure, pure_bind]

theorem runStep_enum {ordinal remap : SymbolId} {adjustment : EnumAdjustment}
    (h : program.symbol? id = some (.sequence [ordinal, remap]))
    (hordinal : program.symbol? ordinal = some (.terminal .enum))
    (hremap : program.symbol? remap = some (.remap adjustment)) :
    program.runStep run id = readEnum adjustment :=
  runStep_pair h hordinal hremap

theorem runStep_array {start items item : SymbolId} {collection : Collection}
    (h : program.symbol? id = some (.sequence [start, items]))
    (hstart : program.symbol? start = some (.terminal (.start .array)))
    (hitems : program.symbol? items = some (.repetition collection [item])) :
    program.runStep run id = readArray (run item) :=
  runStep_pair h hstart hitems

theorem runStep_map {start entries key value : SymbolId} {collection : Collection}
    (h : program.symbol? id = some (.sequence [start, entries]))
    (hstart : program.symbol? start = some (.terminal (.start .map)))
    (hentries : program.symbol? entries = some (.repetition collection [key, value])) :
    program.runStep run id = readMap (run value) :=
  runStep_pair h hstart hentries

theorem runStep_union {index alternative : SymbolId} {branches : List Branch}
    (h : program.symbol? id = some (.sequence [index, alternative]))
    (hindex : program.symbol? index = some (.terminal .union))
    (halternative : program.symbol? alternative = some (.alternative branches)) :
    program.runStep run id = (do
      let index ← Reader.branchIndex branches.length
      let value ← run (branches.get index).symbol
      return .union (Int32.ofNat index) value) :=
  runStep_pair h hindex halternative

/-! ## Records -/

/-- A part of a record's data, whose value becomes a field or is dropped. -/
inductive FieldRead where
  | kept (read : Reader Value)
  | dropped (read : Reader Value)

/-- Reads the parts of a record after the values read so far, the last one
first. -/
def readEach : List FieldRead → List Value → Reader (List Value)
  | [], values => return values
  | .kept read :: rest, values => do
    let value ← read
    readEach rest (value :: values)
  | .dropped read :: rest, values => do
    let _ ← read
    readEach rest values

/-- Reads the parts of a record and puts the fields in order. -/
def readRecord (arrivals : List Arrival) (reads : List FieldRead) : Reader Value := do
  let values ← readEach reads []
  Reader.ofExcept .program (placeFields arrivals values.reverse)

/-- Reads a default, which must take all of its bytes. -/
def readWhole (value : Reader Value) (bytes : List UInt8) (inject : SymbolId) :
    Reader Value := do
  let (content, leftover) ← replay value bytes
  if leftover = 0 then
    return content
  else
    throw (.program (.leftoverDefault leftover inject))

theorem readDefault_eq {inject value last : SymbolId}
    (hlast : program.symbol? last = some .injectEnd) (bytes : List UInt8) :
    program.readDefault run inject bytes value last = readWhole (run value) bytes inject := by
  unfold readDefault
  rw [fetch_of_some hlast]
  rfl

/-- The children of a record, taken apart into the readers of its parts. -/
inductive FieldsOf (program : Program) (run : SymbolId → Reader Value) :
    List SymbolId → List FieldRead → List Arrival → Prop
  | order {id : SymbolId} {arrivals : List Arrival}
      (hid : program.symbol? id = some (.reorder arrivals)) :
      FieldsOf program run [id] [] arrivals
  | kept {id : SymbolId} {rest : List SymbolId} {symbol : Symbol} {reads : List FieldRead}
      {arrivals : List Arrival} (hid : program.symbol? id = some symbol)
      (halone : symbol.standsAlone = true) (hrest : FieldsOf program run rest reads arrivals) :
      FieldsOf program run (id :: rest) (.kept (run id) :: reads) arrivals
  | dropped {id value : SymbolId} {rest : List SymbolId} {reads : List FieldRead}
      {arrivals : List Arrival} (hid : program.symbol? id = some (.skip value))
      (hrest : FieldsOf program run rest reads arrivals) :
      FieldsOf program run (id :: rest) (.dropped (run value) :: reads) arrivals
  | filled {id value last : SymbolId} {rest : List SymbolId} {reads : List FieldRead}
      {arrivals : List Arrival} {type : Schema} {bytes : List UInt8} {symbol : Symbol}
      (hid : program.symbol? id = some (.inject type bytes))
      (hvalue : program.symbol? value = some symbol)
      (hlast : program.symbol? last = some .injectEnd)
      (hrest : FieldsOf program run rest reads arrivals) :
      FieldsOf program run (id :: value :: last :: rest)
        (.kept (readWhole (run value) bytes id) :: reads) arrivals

namespace FieldsOf

variable {children : List SymbolId} {reads : List FieldRead} {arrivals : List Arrival}

/-- Symbols that all stand alone are all kept. -/
theorem of_standsAlone {order : SymbolId}
    (horder : program.symbol? order = some (.reorder arrivals)) {symbols : List SymbolId}
    (h : ∀ id ∈ symbols, ∃ symbol, program.symbol? id = some symbol ∧ symbol.standsAlone = true) :
    program.FieldsOf run (symbols ++ [order]) (symbols.map fun id => .kept (run id)) arrivals := by
  induction symbols with
  | nil => exact .order horder
  | cons id rest ih =>
    obtain ⟨symbol, hid, halone⟩ := h id (.head _)
    exact .kept hid halone (ih fun other hother => h other (.tail _ hother))

theorem readFields_eq (h : program.FieldsOf run children reads arrivals) (values : List Value) :
    program.readFields run children values = (do
      let values ← readEach reads values
      Reader.ofExcept .program (placeFields arrivals values.reverse)) := by
  induction h generalizing values with
  | order hid => rw [readFields, fetch_of_some hid, pure_bind, readEach, pure_bind]
  | @kept id rest symbol reads arrivals hid halone _ ih =>
    rw [readFields, fetch_of_some hid, pure_bind, readEach, bind_assoc]
    cases symbol <;> first | exact bind_congr fun value => ih _ | cases halone
  | dropped hid _ ih =>
    rw [readFields, fetch_of_some hid, pure_bind, readEach, bind_assoc]
    exact bind_congr fun _ => ih values
  | filled hid _ hlast _ ih =>
    rw [readFields, fetch_of_some hid, pure_bind, readEach, bind_assoc]
    rw [← readDefault_eq hlast]
    exact bind_congr fun content => ih _

/-- The first symbol of a record does not open another kind of sequence. -/
theorem head (h : program.FieldsOf run children reads arrivals) :
    ∃ first rest symbol, children = first :: rest ∧ program.symbol? first = some symbol ∧
      ∀ second, program.runOpened run children symbol second =
        program.readFields run children [] := by
  cases h with
  | order hid => exact ⟨_, _, _, rfl, hid, fun _ => rfl⟩
  | dropped hid _ => exact ⟨_, _, _, rfl, hid, fun _ => rfl⟩
  | filled hid _ _ _ => exact ⟨_, _, _, rfl, hid, fun _ => rfl⟩
  | @kept id rest symbol _ _ hid halone _ =>
    refine ⟨_, _, _, rfl, hid, fun _ => ?_⟩
    cases symbol with
    | terminal terminal => cases terminal <;> first | rfl | cases halone
    | _ => rfl

theorem fetchSecond_tail (h : program.FieldsOf run children reads arrivals) :
    ∃ second, program.fetchSecond children.tail = pure second := by
  have hnext {rest : List SymbolId} {reads : List FieldRead} {arrivals : List Arrival}
      (hrest : program.FieldsOf run rest reads arrivals) :
      ∃ second, program.fetchSecond rest = pure second := by
    obtain ⟨first, others, symbol, rfl, hfirst, _⟩ := hrest.head
    exact ⟨some symbol, by rw [fetchSecond, fetch_of_some hfirst, map_pure]⟩
  cases h with
  | order _ => exact ⟨none, rfl⟩
  | kept _ _ hrest => exact hnext hrest
  | dropped _ hrest => exact hnext hrest
  | @filled _ _ _ _ _ _ _ _ symbol _ hvalue _ _ =>
    exact ⟨some symbol, by rw [List.tail_cons, fetchSecond, fetch_of_some hvalue, map_pure]⟩

theorem runSequence_eq (h : program.FieldsOf run children reads arrivals) :
    program.runSequence run children = readRecord arrivals reads := by
  obtain ⟨second, hsecond⟩ := h.fetchSecond_tail
  obtain ⟨first, rest, symbol, rfl, hfirst, hopened⟩ := h.head
  rw [List.tail_cons] at hsecond
  rw [runSequence_cons, fetch_of_some hfirst, pure_bind, hsecond, pure_bind, hopened,
    h.readFields_eq]
  rfl

end FieldsOf

theorem runStep_fields {children : List SymbolId} {reads : List FieldRead}
    {arrivals : List Arrival} (hid : program.symbol? id = some (.sequence children))
    (h : program.FieldsOf run children reads arrivals) :
    program.runStep run id = readRecord arrivals reads := by
  rw [runStep_sequence hid, h.runSequence_eq]

end Program

end AvroResolution
