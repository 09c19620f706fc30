import AvroResolution.Proofs.Wire.Scalar
import Mathlib.Data.List.Forall2

/-!
# Laws of runs

What a run of a symbol owes to the runs of the symbols below it.

* `Reader.Simulates.readArray` and `Reader.Simulates.readMap` carry a comparison
  of items over to their collections.
* `Program.runStep_simulates` is the step: a run whose parts simulate those of another
  run simulates it.  `Program.runWithin_mono` is the run: with more
  depth a run answers alike, unless it gave up before.
-/

namespace AvroResolution

namespace Reader

variable {within : Input → Prop} {counts : DecodeFault → Prop}

/-! ## Blocks -/

namespace Simulates

protected theorem blocksWithin {σ τ : Type} {inv : σ → τ → Prop} {step : σ → Reader σ}
    {step' : τ → Reader τ} (hclosed : Closed within)
    (hstep : ∀ state other, inv state other →
      Simulates within counts inv (step state) (step' other)) (limit : Nat) :
    ∀ state other, inv state other →
      Simulates within counts inv (Reader.blocksWithin step limit state)
        (Reader.blocksWithin step' limit other) := by
  induction limit with
  | zero =>
    intro state other _
    exact .throw .endless
  | succ limit ih =>
    intro state other hstate
    refine .bind (scalar_blockCount.drops.simulates hclosed) ?_
    rintro count _ rfl
    by_cases hcount : count = 0
    · rw [if_pos hcount, if_pos hcount]
      exact .pure hstate
    · rw [if_neg hcount, if_neg hcount]
      exact .bind (.iterate hstep count state other hstate) ih

protected theorem blocks {σ τ : Type} {inv : σ → τ → Prop} {step : σ → Reader σ}
    {step' : τ → Reader τ} {state : σ} {other : τ} (hclosed : Closed within)
    (hstep : ∀ state other, inv state other →
      Simulates within counts inv (step state) (step' other))
    (hstate : inv state other) :
    Simulates within counts inv (Reader.blocks step state) (Reader.blocks step' other) := by
  refine .bind (scalar_remaining.drops.simulates hclosed) ?_
  rintro remaining _ rfl
  exact .blocksWithin hclosed hstep _ state other hstate

/-! ## Arrays and maps -/

/-- Two arrays in progress, item by item. -/
structure SameProgress (related : Value → Value → Prop)
    (progress other : Program.ArrayProgress) : Prop where
  items : List.Forall₂ related progress.items other.items
  zeroWidth : progress.zeroWidth = other.zeroWidth

theorem readItem {related : Value → Value → Prop} {x y : Reader Value}
    (hclosed : Closed within) (hxy : Simulates within counts related x y)
    {progress other : Program.ArrayProgress} (h : SameProgress related progress other) :
    Simulates within counts (SameProgress related) (Program.readItem x progress)
      (Program.readItem y other) := by
  refine .bind (scalar_remaining.drops.simulates hclosed) ?_
  rintro before _ rfl
  refine .bind hxy ?_
  intro value value' hvalue
  refine .bind (scalar_remaining.drops.simulates hclosed) ?_
  rintro after _ rfl
  rw [← h.zeroWidth]
  generalize (if after = before then progress.zeroWidth + 1 else progress.zeroWidth) = zeroWidth
  dsimp only
  split
  · exact .throw _
  · exact .pure ⟨.cons hvalue h.items, rfl⟩

theorem readArray {related related' : Value → Value → Prop} {x y : Reader Value}
    (hclosed : Closed within) (hxy : Simulates within counts related x y)
    (harray : ∀ items others, List.Forall₂ related items others →
      related' (.array items) (.array others)) :
    Simulates within counts related' (Program.readArray x) (Program.readArray y) := by
  refine .bind (.blocks hclosed (fun _ _ h => readItem hclosed hxy h) ⟨.nil, rfl⟩) ?_
  intro progress other h
  exact .pure (harray _ _ (List.rel_reverse h.items))

/-- Two entries of a map under the same key. -/
def SameEntry (related : Value → Value → Prop) (entry other : String × Value) : Prop :=
  entry.1 = other.1 ∧ related entry.2 other.2

theorem eq_of_sameEntries {entries others : List (String × Value)}
    (h : List.Forall₂ (SameEntry Eq) entries others) : entries = others := by
  induction h with
  | nil => rfl
  | cons hentry _ ih => rw [Prod.ext hentry.1 hentry.2, ih]

theorem readEntry {related : Value → Value → Prop} {x y : Reader Value}
    (hclosed : Closed within) (hxy : Simulates within counts related x y)
    {entries others : List (String × Value)}
    (h : List.Forall₂ (SameEntry related) entries others) :
    Simulates within counts (List.Forall₂ (SameEntry related)) (Program.readEntry x entries)
      (Program.readEntry y others) := by
  refine .bind (scalar_string.drops.simulates hclosed) ?_
  rintro key _ rfl
  refine .bind hxy ?_
  intro value value' hvalue
  exact .pure (.cons ⟨rfl, hvalue⟩ h)

theorem readMap {related related' : Value → Value → Prop} {x y : Reader Value}
    (hclosed : Closed within) (hxy : Simulates within counts related x y)
    (hmap : ∀ entries others, List.Forall₂ (SameEntry related) entries others →
      related' (.map entries) (.map others)) :
    Simulates within counts related' (Program.readMap x) (Program.readMap y) := by
  refine .bind (.blocks hclosed (fun _ _ h => readEntry hclosed hxy h) .nil) ?_
  intro entries others h
  exact .pure (hmap _ _ (List.rel_reverse h))

end Simulates

/-! ## Items and entries of one kind -/

namespace Ensures

variable {good : Value → Prop} {bad : DecodeFault → Prop} {x : Reader Value}

theorem blockCount (hdata : ∀ fault, fault.ofData → bad fault) :
    Ensures (fun _ => True) bad Reader.blockCount :=
  scalar_blockCount.faults.mono (fun _ h => h) hdata

/-- The items of an array are values of its item reader. -/
theorem readArray (hdata : ∀ fault, fault.ofData → bad fault) (hx : Ensures good bad x) :
    Ensures (fun value => ∃ items, value = .array items ∧ ∀ item ∈ items, good item) bad
      (Program.readArray x) := by
  have hremaining : Ensures (fun _ => True) bad Reader.remaining :=
    scalar_remaining.faults.mono (fun _ h => h) hdata
  have hblocks : Ensures (fun progress => ∀ item ∈ progress.items, good item) bad
      (Reader.blocks (Program.readItem x) ⟨[], 0⟩) := by
    refine .blocks (blockCount hdata) (hdata _ trivial) ?_ nofun
    intro progress hprogress
    refine .bind hremaining fun before _ => .bind hx fun value hvalue =>
      .bind hremaining fun after _ => ?_
    generalize (if after = before then progress.zeroWidth + 1 else progress.zeroWidth) = zeroWidth
    dsimp only
    split
    · exact .throw (hdata _ trivial)
    · refine .pure ?_
      intro item hitem
      rcases List.mem_cons.1 hitem with rfl | hitem
      · exact hvalue
      · exact hprogress item hitem
  refine .bind hblocks fun progress hprogress => .pure ⟨_, rfl, ?_⟩
  intro item hitem
  exact hprogress item (List.mem_reverse.1 hitem)

/-- The values of a map are values of its value reader. -/
theorem readMap (hdata : ∀ fault, fault.ofData → bad fault) (hx : Ensures good bad x) :
    Ensures (fun value => ∃ entries, value = .map entries ∧ ∀ entry ∈ entries, good entry.2) bad
      (Program.readMap x) := by
  have hblocks : Ensures (fun entries => ∀ entry ∈ entries, good entry.2) bad
      (Reader.blocks (Program.readEntry x) []) := by
    refine .blocks (blockCount hdata) (hdata _ trivial) ?_ nofun
    intro entries hentries
    refine .bind (scalar_string.faults.mono (fun _ h => h) hdata) fun key _ =>
      .bind hx fun value hvalue => .pure ?_
    intro entry hentry
    rcases List.mem_cons.1 hentry with rfl | hentry
    · exact hvalue
    · exact hentries entry hentry
  refine .bind hblocks fun entries hentries => .pure ⟨_, rfl, ?_⟩
  intro entry hentry
  exact hentries entry (List.mem_reverse.1 hentry)

end Ensures

/-! ## Terminals and enums -/

theorem scalar_readTerminal (type : Primitive) :
    Scalar (Program.readTerminal (.primitive type)) := by
  cases type with
  | null => exact .pure _
  | boolean => exact .bind scalar_boolean fun _ => .pure _
  | int => exact .bind scalar_int fun _ => .pure _
  | long => exact .bind scalar_long fun _ => .pure _
  | float => exact .bind scalar_float fun _ => .pure _
  | double => exact .bind scalar_double fun _ => .pure _
  | bytes => exact .bind scalar_bytes fun _ => .pure _
  | string => exact .bind scalar_string fun _ => .pure _

theorem scalar_readFixed (size : Nat) : Scalar (Program.readTerminal (.fixed size)) :=
  .bind (scalar_take size) fun _ => .pure _

theorem drops_readTerminal (terminal : Terminal) : Drops (Program.readTerminal terminal) := by
  cases terminal with
  | primitive type => exact (scalar_readTerminal type).drops
  | fixed size => exact (scalar_readFixed size).drops
  | enum => exact .throw _
  | start collection => exact .throw _
  | union => exact .throw _

theorem scalar_readEnum (adjustment : EnumAdjustment) : Scalar (Program.readEnum adjustment) := by
  refine .bind scalar_int fun ordinal => ?_
  split
  · exact .throw trivial nofun
  · dsimp only
    split
    · exact .throw trivial nofun
    · split
      · exact .throw trivial nofun
      · exact .pure _

end Reader

/-! ## One symbol -/

namespace Program

variable {program : Program} {within : Input → Prop} {counts : DecodeFault → Prop}
  {run run' : SymbolId → Reader Value}

theorem fetch_of_some {id : SymbolId} {symbol : Symbol} (h : program.symbol? id = some symbol) :
    program.fetch id = pure symbol := by
  rw [fetch, h]

theorem fetch_of_none {id : SymbolId} (h : program.symbol? id = none) :
    program.fetch id = throw (.program (.danglingSymbol id)) := by
  rw [fetch, h]

theorem drops_fetch (program : Program) (id : SymbolId) : Reader.Drops (program.fetch id) := by
  cases h : program.symbol? id with
  | none =>
    rw [fetch_of_none h]
    exact .throw _
  | some symbol =>
    rw [fetch_of_some h]
    exact .pure _

/-- The bytes of the defaults that the program injects are among the inputs in
question. -/
def InjectsWithin (program : Program) (within : Input → Prop) : Prop :=
  ∀ id type bytes, program.symbol? id = some (.inject type bytes) → within (.ofList bytes)

theorem replay_simulates {x y : Reader Value} {bytes : List UInt8}
    (hbytes : within (.ofList bytes)) (hxy : Reader.Simulates within counts Eq x y) :
    Reader.Simulates within counts Eq (replay x bytes) (replay y bytes) := by
  intro input hinput
  simp only [replay]
  cases hrun : x (.ofList bytes) with
  | ok value rest =>
    obtain ⟨_, _, hy, rfl⟩ := hxy.of_ok hbytes hrun
    rw [hy]
    exact ⟨hinput, _, rfl, rfl⟩
  | error fault rest =>
    intro hfault
    rw [hxy.of_error hbytes hrun hfault]

theorem readDefault_simulates (hclosed : Reader.Closed within)
    (hrun : ∀ id, Reader.Simulates within counts Eq (run id) (run' id))
    {bytes : List UInt8} (hbytes : within (.ofList bytes)) (inject value last : SymbolId) :
    Reader.Simulates within counts Eq (program.readDefault run inject bytes value last)
      (program.readDefault run' inject bytes value last) := by
  refine .bind ((drops_fetch program last).simulates hclosed) ?_
  rintro symbol _ rfl
  cases symbol with
  | injectEnd =>
    refine .bind (replay_simulates hbytes (hrun value)) ?_
    rintro ⟨content, leftover⟩ _ rfl
    dsimp only
    split
    · exact .pure rfl
    · exact .throw _
  | _ => exact .throw _

/-- The induction follows the children; an injected default takes three of
them. -/
theorem readFields_simulates (hclosed : Reader.Closed within)
    (hinjects : program.InjectsWithin within)
    (hrun : ∀ id, Reader.Simulates within counts Eq (run id) (run' id)) :
    ∀ (children : List SymbolId) (values : List Value),
      Reader.Simulates within counts Eq (program.readFields run children values)
        (program.readFields run' children values)
  | [], _ => .throw _
  | id :: rest, values => by
    unfold readFields
    cases hid : program.symbol? id with
    | none =>
      rw [fetch_of_none hid]
      exact .throw _
    | some symbol =>
      rw [fetch_of_some hid, pure_bind, pure_bind]
      cases symbol with
      | skip symbol =>
        refine .bind (hrun symbol) ?_
        rintro _ _ -
        exact readFields_simulates hclosed hinjects hrun rest values
      | inject type bytes =>
        match rest with
        | [] => exact .throw _
        | [_] => exact .throw _
        | value :: last :: more =>
          refine .bind (readDefault_simulates hclosed hrun (hinjects id type bytes hid) id value
            last) ?_
          rintro content _ rfl
          exact readFields_simulates hclosed hinjects hrun more (content :: values)
      | reorder arrivals => exact (Reader.Drops.ofExcept _ _).simulates hclosed
      | _ =>
        refine .bind (hrun id) ?_
        rintro value _ rfl
        exact readFields_simulates hclosed hinjects hrun rest (value :: values)

/-- The second symbol of a sequence, if it has one. -/
def fetchSecond (program : Program) : List SymbolId → Reader (Option Symbol)
  | [] => return none
  | id :: _ => some <$> program.fetch id

/-- What a sequence does once its first two symbols are known. -/
def runOpened (program : Program) (run : SymbolId → Reader Value) (children : List SymbolId)
    (head : Symbol) (second : Option Symbol) : Reader Value :=
  match head, second with
  | .terminal (.start .array), some (.repetition _ body) =>
    match body with
    | [item] => readArray (run item)
    | _ => throw (.program .arrayBody)
  | .terminal (.start .map), some (.repetition _ body) =>
    match body with
    | [_, value] => readMap (run value)
    | _ => throw (.program .mapBody)
  | .terminal .enum, some (.remap adjustment) => readEnum adjustment
  | .terminal .union, some (.alternative branches) => do
    let index ← Reader.branchIndex branches.length
    let value ← run (branches.get index).symbol
    return .union (Int32.ofNat index) value
  | _, _ => program.readFields run children []

theorem runSequence_cons (program : Program) (run : SymbolId → Reader Value) (first : SymbolId)
    (rest : List SymbolId) :
    program.runSequence run (first :: rest) = (do
      let head ← program.fetch first
      let second ← program.fetchSecond rest
      program.runOpened run (first :: rest) head second) := by
  unfold runSequence fetchSecond
  cases rest <;> rfl

theorem drops_fetchSecond (program : Program) (rest : List SymbolId) :
    Reader.Drops (program.fetchSecond rest) := by
  cases rest with
  | nil => exact .pure none
  | cons id _ =>
    rw [fetchSecond, map_eq_pure_bind]
    exact .bind (drops_fetch program id) fun _ => .pure _

theorem runOpened_simulates (hclosed : Reader.Closed within)
    (hinjects : program.InjectsWithin within)
    (hrun : ∀ id, Reader.Simulates within counts Eq (run id) (run' id))
    (children : List SymbolId) (head : Symbol) (second : Option Symbol) :
    Reader.Simulates within counts Eq (program.runOpened run children head second)
      (program.runOpened run' children head second) := by
  unfold runOpened
  split
  · split
    · refine .readArray hclosed (hrun _) ?_
      intro items others h
      rw [List.forall₂_eq_eq_eq] at h
      rw [h]
    · exact .throw _
  · split
    · refine .readMap hclosed (hrun _) ?_
      intro entries others h
      rw [Reader.Simulates.eq_of_sameEntries h]
    · exact .throw _
  · exact (Reader.scalar_readEnum _).drops.simulates hclosed
  · refine .bind ((Reader.scalar_branchIndex _).drops.simulates hclosed) ?_
    rintro index _ rfl
    refine .bind (hrun _) ?_
    rintro value _ rfl
    exact .pure rfl
  · exact readFields_simulates hclosed hinjects hrun children []

theorem runSequence_simulates (hclosed : Reader.Closed within)
    (hinjects : program.InjectsWithin within)
    (hrun : ∀ id, Reader.Simulates within counts Eq (run id) (run' id))
    (children : List SymbolId) :
    Reader.Simulates within counts Eq (program.runSequence run children)
      (program.runSequence run' children) := by
  cases children with
  | nil => exact .throw _
  | cons first rest =>
    rw [runSequence_cons, runSequence_cons]
    refine .bind ((drops_fetch program first).simulates hclosed) ?_
    rintro head _ rfl
    refine .bind ((drops_fetchSecond program rest).simulates hclosed) ?_
    rintro second _ rfl
    exact runOpened_simulates hclosed hinjects hrun (first :: rest) head second

/-- A symbol runs alike when the symbols below it do. -/
theorem runStep_simulates (hclosed : Reader.Closed within)
    (hinjects : program.InjectsWithin within)
    (hrun : ∀ id, Reader.Simulates within counts Eq (run id) (run' id)) (id : SymbolId) :
    Reader.Simulates within counts Eq (program.runStep run id) (program.runStep run' id) := by
  refine .bind ((drops_fetch program id).simulates hclosed) ?_
  rintro symbol _ rfl
  cases symbol with
  | terminal terminal => exact (Reader.drops_readTerminal terminal).simulates hclosed
  | sequence children => exact runSequence_simulates hclosed hinjects hrun children
  | alternative branches =>
    refine .bind ((Reader.scalar_branchIndex _).drops.simulates hclosed) ?_
    rintro index _ rfl
    exact hrun _
  | promote symbol promotion =>
    refine .bind (hrun symbol) ?_
    rintro value _ rfl
    exact (Reader.Drops.ofExcept _ _).simulates hclosed
  | select alternative => exact hrun alternative
  | adjust index symbol =>
    refine .bind (hrun symbol) ?_
    rintro value _ rfl
    exact .pure rfl
  | _ => exact .throw _

/-! ## Depth -/

/-- More depth changes no answer but that of a run that gave up. -/
theorem runWithin_succ (program : Program) (depth : Nat) (id : SymbolId) :
    Reader.Approximates (program.runWithin depth id) (program.runWithin (depth + 1) id) := by
  induction depth generalizing id with
  | zero => exact .throw_left (by simp) _
  | succ depth ih => exact runStep_simulates Reader.closed_true (fun _ _ _ _ => trivial) ih id

theorem runWithin_mono (program : Program) {depth more : Nat} (hle : depth ≤ more)
    (id : SymbolId) :
    Reader.Approximates (program.runWithin depth id) (program.runWithin more id) := by
  induction more with
  | zero =>
    obtain rfl : depth = 0 := by omega
    exact .throw_left (by simp) _
  | succ more ih =>
    rcases Nat.eq_or_lt_of_le hle with rfl | hlt
    · exact Reader.approximates_iff.2 fun _ _ => rfl
    · refine (ih (by omega)).trans (program.runWithin_succ more id) ?_
      rintro _ _ _ rfl rfl
      rfl

end Program

end AvroResolution
