import AvroResolution.Proofs.Decoding.Delimiting
import AvroResolution.Proofs.Decoding.Symbols

/-!
# Readers that come to an end

Nothing that a reader does can go on for ever, except to give up.  This module bounds
what the loops of a reader may cost, and says which readers never give up on inputs
that are short enough.

* `Reader.EndsBelow` is the property.  A reader that takes a byte first owes less to what
  follows it (`Reader.EndsBelow.bind_of_consumes`), so the items of a collection only have
  to come to an end on shorter inputs.
* `Reader.iterate_eq`: a loop whose steps make some measure smaller fails or is done before
  the measure is used up, however high its count is.  The measure of an array is the
  number of bytes and of items without bytes that are left to it
  (`Program.iterate_readItem_eq`).
* `Program.Ends` says that for each of the short inputs some depth is enough.  One depth is
  then enough for all of them (`Program.Ends.runWithin`).
-/

namespace AvroResolution

namespace Reader

variable {α β σ : Type} {x : Reader α} {f : α → Reader β} {limit : Nat}

theorem not_givesUp_bind {input : Input} (hx : ¬GivesUp (x input))
    (hf : ∀ value rest, x input = .ok value rest → ¬GivesUp (f value rest)) :
    ¬GivesUp ((x >>= f) input) := by
  rw [bind_run]
  cases hrun : x input with
  | ok value rest => exact hf value rest hrun
  | error fault rest =>
    rw [hrun] at hx
    rintro ⟨_, ⟨⟩⟩
    exact hx ⟨rest, rfl⟩

/-- On inputs of less than `limit` bytes the reader does not give up. -/
def EndsBelow (limit : Nat) (x : Reader α) : Prop :=
  ∀ input, input.length < limit → ¬GivesUp (x input)

namespace EndsBelow

theorem of_ensures (h : Ensures (fun _ => True) (· ≠ .endless) x) : EndsBelow limit x := by
  rintro input _ ⟨rest, hrun⟩
  exact h.of_error hrun rfl

protected theorem pure (value : α) : EndsBelow limit (pure value) :=
  fun _ _ => not_givesUp_ok

protected theorem throw {fault : DecodeFault} (h : fault ≠ .endless) :
    EndsBelow limit (throw fault : Reader α) :=
  fun _ _ => not_givesUp_error h

protected theorem bind (hdelimits : Delimits x) (hx : EndsBelow limit x)
    (hf : ∀ value, EndsBelow limit (f value)) : EndsBelow limit (x >>= f) := by
  intro input hinput
  refine not_givesUp_bind (hx input hinput) fun value rest hrun => ?_
  exact hf value rest (Nat.lt_of_le_of_lt (hdelimits.length_le hrun) hinput)

/-- What follows a reader that takes a byte has one byte less before it. -/
theorem bind_of_consumes (hconsumes : Consumes x) (hx : EndsBelow (limit + 1) x)
    (hf : ∀ value, EndsBelow limit (f value)) : EndsBelow (limit + 1) (x >>= f) := by
  intro input hinput
  refine not_givesUp_bind (hx input hinput) fun value rest hrun => hf value rest ?_
  have hless := hconsumes input value rest hrun
  omega

protected theorem ofExcept {ε : Type} {fault : ε → DecodeFault} {answer : Except ε α}
    (h : ∀ cause, answer = .error cause → fault cause ≠ .endless) :
    EndsBelow limit (Reader.ofExcept fault answer) := by
  cases answer with
  | ok value => exact .pure value
  | error cause => exact .throw (h cause rfl)

protected theorem iterate {step : σ → Reader σ} (hdelimits : ∀ state, Delimits (step state))
    (hstep : ∀ state, EndsBelow limit (step state)) (count : Nat) (state : σ) :
    EndsBelow limit (Reader.iterate step count state) := by
  induction count generalizing state with
  | zero => exact .pure state
  | succ count ih => exact .bind (hdelimits state) (hstep state) ih

/-- Every block takes a byte, so there are fewer blocks than the limit on them allows.  The
induction is on the blocks that are allowed. -/
protected theorem blocks {step : σ → Reader σ} (hdelimits : ∀ state, Delimits (step state))
    (hstep : ∀ state, EndsBelow limit (step state)) (state : σ) :
    EndsBelow (limit + 1) (Reader.blocks step state) := by
  have hwithin (blocks : Nat) : ∀ (state : σ) (input : Input), input.length < blocks →
      input.length < limit + 1 → ¬GivesUp (Reader.blocksWithin step blocks state input) := by
    induction blocks with
    | zero =>
      intro _ _ hinput
      exact absurd hinput (Nat.not_lt_zero _)
    | succ blocks ih =>
      intro state input hinput hlimit
      have hcount : EndsBelow (limit + 1) blockCount := .of_ensures scalar_blockCount.ends
      refine not_givesUp_bind (hcount input hlimit) fun count middle hmiddle => ?_
      have hless := consumes_blockCount _ _ _ hmiddle
      split
      · exact not_givesUp_ok
      · have hitems := EndsBelow.iterate hdelimits hstep count state
        refine not_givesUp_bind (hitems middle (by omega)) fun next rest hrest => ?_
        have hle := (Delimits.iterate hdelimits count state).length_le hrest
        exact ih next rest (by omega) (by omega)
  intro input hinput
  exact hwithin (input.length + 1) state input (Nat.lt_succ_self _) hinput

end EndsBelow

/-! ## Counts -/

/-- A count does not matter beyond the measure of what is before the loop, if every step
makes the measure smaller.  The induction is on the steps that the measure allows. -/
theorem iterate_eq {step : σ → Reader σ} {measure : σ → Input → Nat}
    (hstep : ∀ state input next rest, step state input = .ok next rest →
      measure next rest < measure state input)
    {bound count : Nat} (hle : bound ≤ count) {state : σ} {input : Input}
    (hbound : measure state input < bound) :
    iterate step count state input = iterate step bound state input := by
  induction bound generalizing count state input with
  | zero => exact absurd hbound (Nat.not_lt_zero _)
  | succ bound ih =>
    obtain ⟨count, rfl⟩ : ∃ fewer, count = fewer + 1 := ⟨count - 1, by omega⟩
    rw [iterate, iterate, bind_run, bind_run]
    cases hrun : step state input with
    | error fault rest => rfl
    | ok next rest =>
      have hless := hstep state input next rest hrun
      exact ih (by omega) (by omega)

end Reader

namespace Program

open Reader

variable {limit : Nat} {x : Reader Value}

/-! ## Collections -/

theorem endsBelow_readItem (hx : EndsBelow limit x) (progress : ArrayProgress) :
    EndsBelow limit (readItem x progress) := by
  intro input hinput
  rw [readItem_run]
  have hitem := hx input hinput
  cases hrun : x input with
  | error fault rest =>
    rw [hrun] at hitem
    rintro ⟨_, ⟨⟩⟩
    exact hitem ⟨rest, rfl⟩
  | ok value rest =>
    dsimp only
    split
    · exact not_givesUp_error nofun
    · exact not_givesUp_ok

theorem endsBelow_readArray (hdelimits : Delimits x) (hx : EndsBelow limit x) :
    EndsBelow (limit + 1) (readArray x) := by
  have hitems := delimits_readItem hdelimits
  exact .bind (.blocks hitems _) (.blocks hitems (endsBelow_readItem hx) _)
    fun _ => .pure _

theorem endsBelow_readMap (hdelimits : Delimits x) (hx : EndsBelow limit x) :
    EndsBelow (limit + 1) (readMap x) := by
  have hentries := delimits_readEntry hdelimits
  refine .bind (.blocks hentries _) (.blocks hentries (fun entries => ?_) _) fun _ => .pure _
  exact .bind delimits_string (.of_ensures scalar_string.ends) fun _ =>
    .bind hdelimits hx fun _ => .pure _

/-- An array fails before it has read more items than it has bytes and items without
bytes left. -/
theorem iterate_readItem_eq (hdelimits : Delimits x) {bound count : Nat} (hle : bound ≤ count)
    {progress : ArrayProgress} {input : Input}
    (hbound : input.length + (zeroWidthLimit - progress.zeroWidth) < bound) :
    iterate (readItem x) count progress input = iterate (readItem x) bound progress input := by
  refine @iterate_eq _ _ (fun progress input =>
    input.length + (zeroWidthLimit - progress.zeroWidth)) ?_ _ _ hle _ _ hbound
  intro progress input next rest hrun
  obtain ⟨value, hitem, hlimit, rfl⟩ := exists_of_readItem hrun
  have hrest := hdelimits.length_le hitem
  rw [ArrayProgress.widthAfter] at hlimit
  dsimp only [ArrayProgress.widthAfter]
  split at hlimit <;> rename_i hsame
  · rw [if_pos hsame]
    omega
  · rw [if_neg hsame]
    omega

theorem consumes_readEntry (hdelimits : Delimits x) (entries : List (String × Value)) :
    Consumes (readEntry x entries) :=
  .bind consumes_string fun _ => .bind hdelimits fun _ => .pure _

/-- A map fails before it has read more entries than it has bytes. -/
theorem iterate_readEntry_eq (hdelimits : Delimits x) {bound count : Nat} (hle : bound ≤ count)
    {entries : List (String × Value)} {input : Input} (hbound : input.length < bound) :
    iterate (readEntry x) count entries input = iterate (readEntry x) bound entries input := by
  refine @iterate_eq _ _ (fun _ input => input.length) ?_ _ _ hle _ _ hbound
  intro entries input next rest hrun
  exact consumes_readEntry hdelimits entries input next rest hrun

/-! ## Records -/

/-- The reader of a part, be its value kept or dropped. -/
def FieldRead.reader : FieldRead → Reader Value
  | .kept read => read
  | .dropped read => read

theorem endsBelow_readEach {parts : List FieldRead}
    (hdelimits : ∀ part ∈ parts, Delimits part.reader)
    (hparts : ∀ part ∈ parts, EndsBelow limit part.reader) (values : List Value) :
    EndsBelow limit (readEach parts values) := by
  induction parts generalizing values with
  | nil => exact .pure values
  | cons part rest ih =>
    have hrest := ih (fun part h => hdelimits part (.tail _ h))
      fun part h => hparts part (.tail _ h)
    have hfirst := hdelimits part (.head _)
    have hends := hparts part (.head _)
    cases part with
    | kept read => exact .bind hfirst hends fun value => hrest (value :: values)
    | dropped read => exact .bind hfirst hends fun _ => hrest values

theorem delimits_readEach {parts : List FieldRead}
    (hdelimits : ∀ part ∈ parts, Delimits part.reader) (values : List Value) :
    Delimits (readEach parts values) := by
  induction parts generalizing values with
  | nil => exact .pure values
  | cons part rest ih =>
    have hrest := ih fun part h => hdelimits part (.tail _ h)
    have hfirst := hdelimits part (.head _)
    cases part with
    | kept read => exact .bind hfirst fun value => hrest (value :: values)
    | dropped read => exact .bind hfirst fun _ => hrest values

theorem endsBelow_readRecord {parts : List FieldRead}
    (hdelimits : ∀ part ∈ parts, Delimits part.reader)
    (hparts : ∀ part ∈ parts, EndsBelow limit part.reader) (arrivals : List Arrival) :
    EndsBelow limit (readRecord arrivals parts) :=
  .bind (delimits_readEach hdelimits []) (endsBelow_readEach hdelimits hparts [])
    fun _ => .ofExcept fun _ _ => nofun

theorem delimits_readWhole (x : Reader Value) (bytes : List UInt8) (inject : SymbolId) :
    Delimits (readWhole x bytes inject) := by
  refine .bind (delimits_replay x bytes) fun answer => ?_
  dsimp only
  split
  · exact .pure _
  · exact .throw _

/-- A default comes to an end on every input, if its bytes are read to an end. -/
theorem endsBelow_readWhole {bytes : List UInt8} (hx : ¬GivesUp (x (.ofList bytes)))
    (inject : SymbolId) : EndsBelow limit (readWhole x bytes inject) := by
  refine .bind (delimits_replay x bytes) ?_ fun answer => ?_
  · intro input _
    rw [replay]
    cases hrun : x (.ofList bytes) with
    | ok value rest => exact not_givesUp_ok
    | error fault rest =>
      rw [hrun] at hx
      rintro ⟨_, ⟨⟩⟩
      exact hx ⟨rest, rfl⟩
  · dsimp only
    split
    · exact .pure _
    · exact .throw (by rintro ⟨⟩)

/-! ## Runs -/

/-- For every input of less than `limit` bytes some depth is enough to run a symbol. -/
def Ends (program : Program) (limit : Nat) (id : SymbolId) : Prop :=
  ∀ input, input.length < limit → ∃ depth, program.Answers depth id input

theorem standpoints_mono (program : Program) {length more : Nat} (hle : length ≤ more) :
    program.standpoints length ≤ program.standpoints more := by
  rw [standpoints, standpoints]
  induction program.symbols.toList with
  | nil => exact Nat.succ_le_succ hle
  | cons symbol rest ih => exact Nat.add_le_add_left ih _

theorem runDepth_mono (program : Program) {length more : Nat} (hle : length ≤ more) :
    program.runDepth length ≤ program.runDepth more :=
  Nat.succ_le_succ (Nat.mul_le_mul_left _ (program.standpoints_mono hle))

/-- If some depth is enough, the depth that `decode` allows is. -/
theorem answers_of_exists {program : Program} {id : SymbolId} {input : Input}
    (h : ∃ depth, program.Answers depth id input) {depth : Nat}
    (hdepth : program.runDepth input.length ≤ depth) : program.Answers depth id input := by
  obtain ⟨enough, henough⟩ := h
  refine answers_mono hdepth ?_
  rw [Answers, runWithin_runDepth henough]
  exact henough

/-- The depth for the longest of the inputs is enough for all of them. -/
theorem Ends.runWithin {program : Program} {id : SymbolId} {depth : Nat}
    (h : program.Ends limit id) (hdepth : program.runDepth limit ≤ depth) :
    EndsBelow limit (program.runWithin depth id) := by
  intro input hinput
  have hless := program.runDepth_mono (Nat.le_of_lt hinput)
  exact answers_of_exists (h input hinput) (Nat.le_trans hless hdepth)

end Program

end AvroResolution
