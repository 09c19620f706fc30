import AvroResolution.Proofs.Decoding.Ending
import AvroResolution.Proofs.Decoding.Typing

/-!
# Collections are as large as their data

The counts of the blocks cannot make a collection larger than the bytes warrant that it is
read from.

* `Reader.iterate_keeps` and `Reader.blocks_keeps`: what every item and every header keeps, the
  loops over the items and over the blocks keep.
* `Value.FitsIn` bounds a collection by the bytes that are gone.  An array may have
  `zeroWidthLimit` items more than bytes, a map no entry more.
* `Program.proportionate_runStep` is the step from the runs of parts to the run of a symbol.
* `Program.length_le_of_runWithin` is the result for every symbol of every program.
-/

namespace AvroResolution

namespace Reader

variable {σ : Type} {step : σ → Reader σ} {keeps : σ → Input → Prop}

/-! ## Loops -/

section

variable (hstep : ∀ state input next rest, step state input = .ok next rest →
  keeps state input → keeps next rest)
include hstep

/-- The induction is on the count, of which nothing else is known. -/
theorem iterate_keeps {count : Nat} {state last : σ} {input rest : Input}
    (h : iterate step count state input = .ok last rest) (hstate : keeps state input) :
    keeps last rest := by
  induction count generalizing state input with
  | zero =>
    cases h
    exact hstate
  | succ count ih =>
    obtain ⟨next, middle, hfirst, h⟩ := exists_of_bind h
    exact ih h (hstep _ _ _ _ hfirst hstate)

variable (hdrops : ∀ state (input rest : Input), rest.length ≤ input.length →
  keeps state input → keeps state rest)
include hdrops

/-- A header only drops bytes.  The induction is on the blocks that are allowed. -/
theorem blocksWithin_keeps {limit : Nat} {state last : σ} {input rest : Input}
    (h : blocksWithin step limit state input = .ok last rest) (hstate : keeps state input) :
    keeps last rest := by
  induction limit generalizing state input with
  | zero => cases h
  | succ limit ih =>
    obtain ⟨count, middle, hcount, h⟩ := exists_of_bind h
    have hmiddle := hdrops state _ _ (delimits_blockCount.length_le hcount) hstate
    split at h
    · cases h
      exact hmiddle
    · obtain ⟨next, left, hitems, h⟩ := exists_of_bind h
      exact ih h (iterate_keeps hstep hitems hmiddle)

theorem blocks_keeps {state last : σ} {input rest : Input}
    (h : blocks step state input = .ok last rest) (hstate : keeps state input) :
    keeps last rest :=
  blocksWithin_keeps hstep hdrops h hstate

end

end Reader

/-! ## Values -/

/-- If the value is a collection, it is no larger than the bytes that are gone between an input
of `before` bytes and one of `after` warrant. -/
def Value.FitsIn (before after : Nat) : Value → Prop
  | .array items => items.length + after ≤ zeroWidthLimit + before
  | .map entries => entries.length + after ≤ before
  | _ => True

theorem Value.FitsIn.mono {before more after : Nat} {value : Value} (hle : before ≤ more)
    (h : value.FitsIn before after) : value.FitsIn more after := by
  cases value with
  | array items => exact Nat.le_trans h (Nat.add_le_add_left hle _)
  | map entries => exact Nat.le_trans h hle
  | _ => trivial

/-- The value is no collection. -/
def Value.Single : Value → Prop
  | .array _ => False
  | .map _ => False
  | _ => True

theorem Value.Single.fitsIn {value : Value} (h : value.Single) (before after : Nat) :
    value.FitsIn before after := by
  cases value with
  | array => exact h.elim
  | map => exact h.elim
  | _ => trivial

namespace Reader

/-- What the reader reads fits in the bytes that it takes. -/
def Proportionate (x : Reader Value) : Prop :=
  ∀ input value rest, x input = .ok value rest → value.FitsIn input.length rest.length

/-- Values that are no collections, whatever the faults are. -/
abbrev ReadsSingle (x : Reader Value) : Prop :=
  Ensures Value.Single (fun _ => True) x

namespace Proportionate

theorem of_single {x : Reader Value} (h : x.ReadsSingle) : Proportionate x :=
  fun _ _ _ hx => (h.of_ok hx).fitsIn _ _

protected theorem throw (fault : DecodeFault) : Proportionate (throw fault) :=
  .of_single (.throw trivial)

theorem bind {α : Type} {x : Reader α} {f : α → Reader Value} (hx : Delimits x)
    (hf : ∀ value, Proportionate (f value)) : Proportionate (x >>= f) := by
  intro input value rest h
  obtain ⟨first, middle, hrun, h⟩ := exists_of_bind h
  exact (hf first middle value rest h).mono (hx.length_le hrun)

end Proportionate

end Reader

namespace Program

open Reader

variable {program : Program} {run : SymbolId → Reader Value}

/-! ## Collections -/

/-- Of the bytes that were there at first, each item has taken one or is counted as one without
bytes. -/
def ArrayProgress.Within (total : Nat) (progress : ArrayProgress) (left : Input) : Prop :=
  progress.items.length + left.length ≤ progress.zeroWidth + total ∧
    progress.zeroWidth ≤ zeroWidthLimit

theorem ArrayProgress.Within.readItem {total : Nat} {item : Reader Value} (hitem : Delimits item)
    {progress next : ArrayProgress} {input rest : Input} (h : progress.Within total input)
    (hrun : readItem item progress input = .ok next rest) : next.Within total rest := by
  obtain ⟨value, hvalue, hlimit, rfl⟩ := exists_of_readItem hrun
  have hle := hitem.length_le hvalue
  have htotal := h.1
  refine ⟨?_, hlimit⟩
  dsimp only [ArrayProgress.widthAfter]
  rw [List.length_cons]
  split <;> omega

theorem proportionate_readArray {item : Reader Value} (hitem : Delimits item) :
    Proportionate (readArray item) := by
  intro input value rest h
  obtain ⟨last, left, hblocks, h⟩ := exists_of_bind h
  cases h
  have hstart : (⟨[], 0⟩ : ArrayProgress).Within input.length input :=
    ⟨Nat.le_refl _, Nat.zero_le _⟩
  obtain ⟨htotal, hlimit⟩ := blocks_keeps (fun _ _ _ _ hrun hstate => hstate.readItem hitem hrun)
    (fun _ _ _ hle hstate => ⟨Nat.le_trans (Nat.add_le_add_left hle _) hstate.1, hstate.2⟩)
    hblocks hstart
  rw [Value.FitsIn, List.length_reverse]
  omega

/-- Every entry has a key, and every key takes a byte at least. -/
theorem proportionate_readMap {read : Reader Value} (hread : Delimits read) :
    Proportionate (readMap read) := by
  intro input value rest h
  obtain ⟨last, left, hblocks, h⟩ := exists_of_bind h
  cases h
  have hentry (entries : List (String × Value)) (middle : Input)
      (next : List (String × Value)) (rest : Input)
      (hrun : readEntry read entries middle = .ok next rest)
      (hstate : entries.length + middle.length ≤ input.length) :
      next.length + rest.length ≤ input.length := by
    have hlonger : Ensures (fun next => next.length = entries.length + 1) (fun _ => True)
        (readEntry read entries) :=
      .bind (ensures_true _) fun _ _ => .bind (ensures_true _) fun _ _ => .pure rfl
    have hlength := hlonger.of_ok hrun
    have hless := consumes_readEntry hread entries middle next rest hrun
    omega
  have hlast := blocks_keeps hentry
    (fun _ _ _ hle hstate => Nat.le_trans (Nat.add_le_add_left hle _) hstate)
    hblocks (Nat.le_of_eq (Nat.zero_add _))
  rwa [Value.FitsIn, List.length_reverse]

/-! ## Values that are no collections -/

/-- A reader that goes on with a value of its own kind. -/
theorem single_of_pure {α : Type} (x : Reader α) {f : α → Value} (hf : ∀ value, (f value).Single) :
    ReadsSingle (x >>= fun value => pure (f value)) :=
  .bind (ensures_true x) fun value _ => .pure (hf value)

theorem single_readTerminal (terminal : Terminal) : ReadsSingle (readTerminal terminal) := by
  cases terminal with
  | primitive type =>
    cases type with
    | null => exact .pure trivial
    | _ => exact single_of_pure _ fun _ => trivial
  | fixed size => exact single_of_pure _ fun _ => trivial
  | _ => exact .throw trivial

theorem single_readEnum (adjustment : EnumAdjustment) : ReadsSingle (readEnum adjustment) := by
  refine .bind (ensures_true _) fun ordinal _ => ?_
  split
  · exact .throw trivial
  · dsimp only
    split
    · exact .throw trivial
    · split
      · exact .throw trivial
      · exact .pure trivial

theorem single_promoted (promotion : Promotion) (value : Value) :
    ReadsSingle (Reader.ofExcept (fun fault => fault) (promotion.apply value)) := by
  refine .ofExcept (fun result happly => ?_) fun _ _ => trivial
  have hprimitive := Promotion.ofPrimitive_of_apply happly
  generalize promotion.target = target at hprimitive
  cases hprimitive <;> trivial

theorem single_placeFields (arrivals : List Arrival) (values : List Value) :
    ReadsSingle (Reader.ofExcept .program (placeFields arrivals values)) := by
  refine .ofExcept (fun result hplace => ?_) fun _ _ => trivial
  rw [placeFields] at hplace
  split at hplace
  · obtain ⟨slots, _, hslots⟩ := bind_eq_ok.1 hplace
    obtain ⟨fields, _, hfields⟩ := bind_eq_ok.1 hslots
    cases hfields
    trivial
  · cases hplace

/-- What ends in a reorder is a record.  The induction follows the children; an injected default
takes three of them. -/
theorem single_readFields (program : Program) (run : SymbolId → Reader Value) :
    ∀ (children : List SymbolId) (values : List Value),
      ReadsSingle (program.readFields run children values)
  | [], _ => .throw trivial
  | id :: rest, values => by
    unfold readFields
    refine .bind (ensures_true _) fun symbol _ => ?_
    cases symbol with
    | skip symbol =>
      exact .bind (ensures_true _) fun _ _ => single_readFields program run rest values
    | inject type bytes =>
      rcases rest with _ | ⟨value, _ | ⟨last, more⟩⟩
      · exact .throw trivial
      · exact .throw trivial
      · exact .bind (ensures_true _) fun content _ =>
          single_readFields program run more (content :: values)
    | reorder arrivals => exact single_placeFields arrivals _
    | _ =>
      exact .bind (ensures_true _) fun value _ =>
        single_readFields program run rest (value :: values)

/-! ## One symbol -/

theorem proportionate_runOpened (hdelimits : ∀ id, Delimits (run id)) (children : List SymbolId)
    (head : Symbol) (second : Option Symbol) :
    Proportionate (program.runOpened run children head second) := by
  unfold runOpened
  split
  · split
    · exact proportionate_readArray (hdelimits _)
    · exact .throw _
  · split
    · exact proportionate_readMap (hdelimits _)
    · exact .throw _
  · exact .of_single (single_readEnum _)
  · exact .of_single (.bind (ensures_true _) fun _ _ => single_of_pure _ fun _ => trivial)
  · exact .of_single (single_readFields program run children [])

/-- A symbol that hands on what another symbol reads is as good as that symbol; what else a
symbol reads is a collection of its own or none. -/
theorem proportionate_runStep (hdelimits : ∀ id, Delimits (run id))
    (hrun : ∀ id, Proportionate (run id)) (id : SymbolId) :
    Proportionate (program.runStep run id) := by
  refine .bind (delimits_fetch program id) fun symbol => ?_
  cases symbol with
  | terminal terminal => exact .of_single (single_readTerminal terminal)
  | sequence children =>
    cases children with
    | nil => exact .throw _
    | cons first rest =>
      dsimp only
      rw [runSequence_cons]
      refine .bind (delimits_fetch program first) fun head => ?_
      refine .bind (delimits_fetchSecond program rest) fun second => ?_
      exact proportionate_runOpened hdelimits (first :: rest) head second
  | alternative branches => exact .bind (delimits_branchIndex _) fun _ => hrun _
  | promote symbol promotion =>
    exact .bind (hdelimits symbol) fun value => .of_single (single_promoted promotion value)
  | select alternative => exact hrun alternative
  | adjust index symbol => exact .of_single (single_of_pure _ fun _ => trivial)
  | _ => exact .throw _

/-! ## Whole runs -/

/-- The induction is on the depth. -/
theorem proportionate_runWithin (program : Program) (depth : Nat) (id : SymbolId) :
    Proportionate (program.runWithin depth id) := by
  induction depth generalizing id with
  | zero => exact .throw _
  | succ depth ih => exact proportionate_runStep (program.runWithin_delimits depth) ih id

/-- No count makes a collection larger than its data warrant.  Whatever symbol of a program is
run, alone or inside other symbols, on whatever bytes, an array that it reads has at most
`zeroWidthLimit` items more than the bytes that it was read from, and a map has no more entries
than those. -/
theorem length_le_of_runWithin (program : Program) (depth : Nat) (id : SymbolId)
    {input rest : Input} {value : Value} (h : program.runWithin depth id input = .ok value rest) :
    ∃ taken, input.bytes = taken ++ rest.bytes ∧
      match value with
      | .array items => items.length ≤ zeroWidthLimit + taken.length
      | .map entries => entries.length ≤ taken.length
      | _ => True := by
  obtain ⟨taken, htaken, _⟩ := (program.runWithin_delimits depth id).exists_taken h
  have hlength : input.length = taken.length + rest.length := by
    rw [input.length_eq, rest.length_eq, htaken, List.length_append]
  have hfits := program.proportionate_runWithin depth id input value rest h
  refine ⟨taken, htaken, ?_⟩
  cases value with
  | array items =>
    rw [Value.FitsIn] at hfits
    dsimp only
    omega
  | map entries =>
    rw [Value.FitsIn] at hfits
    dsimp only
    omega
  | _ => trivial

/-- Marks that take no bytes. -/
def marks : Schema :=
  .array (.primitive .null)

/-- Three marks, in a block that is announced by a negative number and a size of 100. -/
def readsMarks (program : Program) : Bool :=
  match program.decode (.ofList [5, 200, 1, 0, 9]) with
  | .ok (.array [.null, .null, .null]) _ => true
  | _ => false

theorem length_le_of_runWithin_marks :
    ∃ program rest, Program.validating marks = .ok program ∧
      program.decode (.ofList [5, 200, 1, 0, 9]) = .ok (.array [.null, .null, .null]) rest ∧
        ∃ taken, [5, 200, 1, 0, 9] = taken ++ rest.bytes ∧ 3 ≤ zeroWidthLimit + taken.length := by
  obtain ⟨program, hprogram, hreads⟩ := exists_ok (Program.validating marks) readsMarks
    (by decide +kernel)
  rw [readsMarks] at hreads
  split at hreads
  · rename_i rest hdecode
    have hrun : program.runWithin (program.runDepth 5) program.root
        (.ofList [5, 200, 1, 0, 9]) = .ok (.array [.null, .null, .null]) rest := hdecode
    exact ⟨program, rest, hprogram, hdecode, length_le_of_runWithin program _ _ hrun⟩
  · cases hreads

end Program

end AvroResolution
