import AvroResolution.Compilation.Validating
import AvroResolution.Proofs.Decoding.Depth
import AvroResolution.Proofs.Decoding.Exact

/-!
# Data tell where they end

A reader delimits its data when it never looks at a byte that it does not take.  What it
gives for the bytes that it takes, it then gives before any other bytes too, and of bytes
that end too soon it says so.

* `Reader.Delimits` is the property.  Every combinator keeps it but `Reader.remaining`,
  which looks at the whole input; the two readers that ask how much is left
  (`Program.readItem`, `Reader.blocks`) have lemmas of their own.
* `Program.runStep_delimits` is the step from the runs of parts to the run of a symbol.
* `Program.decode_delimits` says so of whole programs, compiled or not.
-/

namespace AvroResolution

namespace Reader

variable {α β σ : Type}

/-- What an answer leaves of the input. -/
def restOf : EStateM.Result DecodeFault Input α → Input
  | .ok _ rest => rest
  | .error _ rest => rest

/-- The reader takes bytes off the front, also when it fails; it does not look beyond the
bytes that it takes; and without the last of them it fails for the end of the input. -/
structure Delimits (x : Reader α) : Prop where
  suffix : ∀ input, (restOf (x input)).bytes <:+ input.bytes
  yields : ∀ {taken tail : List UInt8} {value : α},
    x (.ofList (taken ++ tail)) = .ok value (.ofList tail) → Yields x taken value
  cut : ∀ {front lost : List UInt8} {value : α}, Yields x (front ++ lost) value → lost ≠ [] →
    ∃ rest, x (.ofList front) = .error .endOfInput rest

namespace Delimits

variable {x : Reader α} {f : α → Reader β}

/-- A value was read from the bytes that are gone. -/
theorem exists_taken (h : Delimits x) {input rest : Input} {value : α}
    (hx : x input = .ok value rest) :
    ∃ taken, input.bytes = taken ++ rest.bytes ∧ Yields x taken value := by
  have hsuffix := h.suffix input
  rw [hx] at hsuffix
  obtain ⟨taken, htaken⟩ := hsuffix
  have hinput : input = .ofList (taken ++ rest.bytes) := Input.ext htaken.symm
  have hrun : x (.ofList (taken ++ rest.bytes)) = .ok value (.ofList rest.bytes) := by
    rw [← hinput, hx, Input.ofList_bytes]
  exact ⟨taken, htaken.symm, h.yields hrun⟩

/-! ## Combinators -/

protected theorem pure (value : α) : Delimits (pure value) where
  suffix := fun _ => List.suffix_rfl
  yields := by
    intro taken tail result h
    injection h with hresult hrest
    have hbytes := congrArg Input.bytes hrest
    rw [Input.bytes_ofList, Input.bytes_ofList, List.append_left_eq_self] at hbytes
    subst hbytes hresult
    exact .pure value
  cut := by
    intro front lost result h hlost
    injection h [] with _ hrest
    have hbytes := congrArg Input.bytes hrest
    rw [Input.bytes_ofList, Input.bytes_ofList, List.append_nil] at hbytes
    exact absurd (List.append_eq_nil_iff.1 hbytes).2 hlost

protected theorem throw (fault : DecodeFault) : Delimits (throw fault : Reader α) where
  suffix := fun _ => List.suffix_rfl
  yields := fun h => nomatch h
  cut := fun h _ => nomatch h []

/-- What two readers take one after the other is what the first takes and what the second
takes behind it. -/
theorem split (hx : Delimits x) (hf : ∀ value, Delimits (f value)) {taken tail : List UInt8}
    {result : β} (h : (x >>= f) (.ofList (taken ++ tail)) = .ok result (.ofList tail)) :
    ∃ value first second, taken = first ++ second ∧ Yields x first value ∧
      Yields (f value) second result := by
  obtain ⟨value, middle, hrun, h⟩ := exists_of_bind h
  obtain ⟨first, hfirst, hyields⟩ := hx.exists_taken hrun
  obtain ⟨second, hsecond, hyields'⟩ := (hf value).exists_taken h
  refine ⟨value, first, second, ?_, hyields, hyields'⟩
  rw [hsecond, Input.bytes_ofList, Input.bytes_ofList, ← List.append_assoc] at hfirst
  exact List.append_cancel_right hfirst

protected theorem bind (hx : Delimits x) (hf : ∀ value, Delimits (f value)) :
    Delimits (x >>= f) where
  suffix := by
    intro input
    have hfirst := hx.suffix input
    rw [bind_run]
    cases hrun : x input with
    | ok value middle =>
      rw [hrun] at hfirst
      exact ((hf value).suffix middle).trans hfirst
    | error fault rest =>
      rw [hrun] at hfirst
      exact hfirst
  yields := by
    intro taken tail result h
    obtain ⟨value, first, second, rfl, hfirst, hsecond⟩ := hx.split hf h
    exact .bind hfirst hsecond
  cut := by
    intro front lost result h hlost
    obtain ⟨value, first, second, hsplit, hfirst, hsecond⟩ := hx.split hf (h [])
    -- the bytes end inside what the second reader takes, or inside what the first takes
    have hsecondCut {kept : List UInt8} (hfront : front = first ++ kept)
        (hrest : second = kept ++ lost) :
        ∃ rest, (x >>= f) (.ofList front) = .error .endOfInput rest := by
      obtain ⟨rest, hcut⟩ := (hf value).cut (hrest ▸ hsecond) hlost
      exact ⟨rest, by rw [hfront, bind_of_ok (hfirst kept), hcut]⟩
    rcases List.append_eq_append_iff.1 hsplit with ⟨kept, hfront, hrest⟩ | ⟨kept, hfront, hrest⟩
    · cases kept with
      | nil =>
        rw [List.append_nil] at hfront
        exact @hsecondCut [] (by rw [List.append_nil, hfront]) hrest.symm
      | cons byte more =>
        obtain ⟨rest, hcut⟩ := hx.cut (hfront ▸ hfirst) (List.cons_ne_nil byte more)
        exact ⟨rest, bind_of_error hcut⟩
    · exact hsecondCut hfront hrest

protected theorem ofExcept {ε : Type} (fault : ε → DecodeFault) (answer : Except ε α) :
    Delimits (Reader.ofExcept fault answer) := by
  cases answer with
  | ok value => exact .pure value
  | error cause => exact .throw (fault cause)

protected theorem iterate {step : σ → Reader σ} (hstep : ∀ state, Delimits (step state))
    (count : Nat) (state : σ) : Delimits (Reader.iterate step count state) := by
  induction count generalizing state with
  | zero => exact .pure state
  | succ count ih => exact .bind (hstep state) ih

end Delimits

/-! ## Scalars -/

theorem delimits_byte : Delimits byte where
  suffix := by
    intro input
    unfold byte
    split
    · exact List.suffix_rfl
    · exact List.drop_suffix 1 input.bytes
  yields := by
    intro taken tail value h
    cases taken with
    | nil =>
      cases tail with
      | nil => cases h
      | cons first more =>
        rw [List.nil_append, byte_cons] at h
        injection h with _ hrest
        exact absurd (congrArg Input.bytes hrest) (List.cons_ne_self first more).symm
    | cons first more =>
      rw [List.cons_append, byte_cons] at h
      injection h with hvalue hrest
      have hbytes := congrArg Input.bytes hrest
      rw [Input.bytes_ofList, Input.bytes_ofList, List.append_left_eq_self] at hbytes
      subst hvalue hbytes
      exact byte_cons first
  cut := by
    intro front lost value h hlost
    cases front with
    | nil => exact ⟨_, rfl⟩
    | cons first more =>
      have hrun := h []
      rw [List.append_nil, List.cons_append, byte_cons] at hrun
      injection hrun with _ hrest
      exact absurd (List.append_eq_nil_iff.1 (congrArg Input.bytes hrest)).2 hlost

/-- A `take` takes as many bytes as it says. -/
theorem length_of_take {count : Nat} {input rest : Input} {content : List UInt8}
    (h : take count input = .ok content rest) :
    count ≤ input.length ∧ rest = input.drop count := by
  rw [take] at h
  split at h
  · injection h with _ hrest
    exact ⟨‹_›, hrest.symm⟩
  · cases h

theorem delimits_take (count : Nat) : Delimits (take count) where
  suffix := by
    intro input
    unfold take
    split
    · exact List.drop_suffix count input.bytes
    · exact List.suffix_rfl
  yields := by
    intro taken tail value h
    obtain ⟨hle, hrest⟩ := length_of_take h
    have hlength := congrArg (List.length ∘ Input.bytes) hrest
    simp only [Function.comp_apply, Input.bytes_ofList, Input.bytes_drop, List.length_drop,
      List.length_append] at hlength
    have hcount : count = taken.length := by
      rw [Input.length_eq, Input.bytes_ofList, List.length_append] at hle
      omega
    subst hcount
    rw [take_append] at h
    injection h with hvalue
    subst hvalue
    exact take_append taken
  cut := by
    intro front lost value h hlost
    obtain ⟨hle, hrest⟩ := length_of_take (h [])
    have hlength := congrArg (List.length ∘ Input.bytes) hrest
    simp only [Function.comp_apply, Input.bytes_ofList, Input.bytes_drop, List.length_drop,
      List.length_append, List.length_nil] at hlength
    have hpos := List.length_pos_iff.2 hlost
    refine ⟨_, if_neg ?_⟩
    rw [Input.length_eq, Input.bytes_ofList] at hle ⊢
    rw [List.length_append, List.length_append, List.length_nil] at hle
    omega

theorem delimits_varintGroups (groups : Nat) : Delimits (varintGroups groups) := by
  induction groups with
  | zero => exact .throw _
  | succ groups ih =>
    refine .bind delimits_byte fun byte => ?_
    split
    · exact .pure _
    · exact .bind ih fun _ => .pure _

theorem delimits_long : Delimits long :=
  .bind (.bind (delimits_varintGroups 10) fun _ => .pure _) fun _ => .pure _

theorem delimits_int : Delimits int := by
  refine .bind delimits_long fun value => ?_
  split
  · exact .pure _
  · exact .throw _

theorem delimits_boolean : Delimits boolean := by
  refine .bind delimits_byte fun byte => ?_
  split
  · exact .pure _
  · split
    · exact .pure _
    · exact .throw _

theorem delimits_bytes : Delimits bytes := by
  refine .bind delimits_long fun length => ?_
  split
  · exact .throw _
  · exact delimits_take _

theorem delimits_string : Delimits string :=
  .bind delimits_bytes fun _ => .ofExcept _ _

theorem delimits_branchIndex (count : Nat) : Delimits (branchIndex count) := by
  refine .bind delimits_long fun index => ?_
  split
  · exact .pure _
  · exact .throw _

theorem delimits_blockCount : Delimits blockCount := by
  refine .bind delimits_long fun count => ?_
  split
  · exact .bind delimits_long fun _ => .pure _
  · exact .pure _

/-! ## Blocks -/

/-- A reader that takes a byte at least. -/
def Consumes (x : Reader α) : Prop :=
  ∀ input value rest, x input = .ok value rest → rest.length < input.length

theorem Delimits.length_le {x : Reader α} (h : Delimits x) {input rest : Input} {value : α}
    (hx : x input = .ok value rest) : rest.length ≤ input.length := by
  have hsuffix := h.suffix input
  rw [hx] at hsuffix
  rw [rest.length_eq, input.length_eq]
  exact hsuffix.length_le

theorem Consumes.bind {x : Reader α} {f : α → Reader β} (hx : Consumes x)
    (hf : ∀ value, Delimits (f value)) : Consumes (x >>= f) := by
  intro input result rest h
  obtain ⟨value, middle, hrun, h⟩ := exists_of_bind h
  exact Nat.lt_of_le_of_lt ((hf value).length_le h) (hx _ _ _ hrun)

theorem consumes_byte : Consumes byte := by
  intro input value rest h
  rw [rest.length_eq, input.length_eq, bytes_of_byte h]
  exact Nat.lt_succ_self _

theorem consumes_long : Consumes long := by
  have hgroups : Consumes (varintGroups 10) := by
    refine .bind consumes_byte fun byte => ?_
    split
    · exact .pure _
    · exact .bind (delimits_varintGroups 9) fun _ => .pure _
  exact .bind (.bind hgroups fun _ => .pure _) fun _ => .pure _

theorem consumes_string : Consumes string := by
  refine .bind (.bind consumes_long fun length => ?_) fun _ => .ofExcept _ _
  split
  · exact .throw _
  · exact delimits_take _

theorem consumes_branchIndex (count : Nat) : Consumes (branchIndex count) := by
  refine .bind consumes_long fun index => ?_
  split
  · exact .pure _
  · exact .throw _

theorem consumes_blockCount : Consumes blockCount := by
  refine .bind consumes_long fun count => ?_
  split
  · exact .bind delimits_long fun _ => .pure _
  · exact .pure _

/-- A limit beyond the length of the input is no limit: a block takes a byte at least.  The
induction is on the blocks that are allowed. -/
theorem blocksWithin_eq {step : σ → Reader σ} (hstep : ∀ state, Delimits (step state))
    {limit more : Nat} (hle : limit ≤ more) {input : Input} (hlimit : input.length < limit)
    (state : σ) : blocksWithin step limit state input = blocksWithin step more state input := by
  induction limit generalizing more input state with
  | zero => exact absurd hlimit (Nat.not_lt_zero _)
  | succ limit ih =>
    obtain ⟨more, rfl⟩ : ∃ fewer, more = fewer + 1 := ⟨more - 1, by omega⟩
    rw [blocksWithin, blocksWithin, bind_run, bind_run]
    cases hcount : blockCount input with
    | error fault rest => rfl
    | ok count middle =>
      have hmiddle := consumes_blockCount _ _ _ hcount
      dsimp only
      split
      · rfl
      · rw [bind_run, bind_run]
        cases hitems : iterate step count state middle with
        | error fault rest => rfl
        | ok next rest =>
          have hrest := (Delimits.iterate hstep count state).length_le hitems
          exact ih (by omega) (by omega) next

protected theorem Delimits.blocksWithin {step : σ → Reader σ}
    (hstep : ∀ state, Delimits (step state)) (limit : Nat) (state : σ) :
    Delimits (Reader.blocksWithin step limit state) := by
  induction limit generalizing state with
  | zero => exact .throw _
  | succ limit ih =>
    refine .bind delimits_blockCount fun count => ?_
    split
    · exact .pure _
    · exact .bind (.iterate hstep count state) ih

/-- With limits beyond the inputs in question, all of them are read under one limit. -/
protected theorem Delimits.blocks {step : σ → Reader σ} (hstep : ∀ state, Delimits (step state))
    (state : σ) : Delimits (Reader.blocks step state) := by
  have hlimit {input : Input} (limit : Nat) (h : input.length < limit) :
      Reader.blocks step state input = Reader.blocksWithin step limit state input :=
    blocksWithin_eq hstep h (Nat.lt_succ_self _) state
  have hwithin (limit : Nat) : Delimits (Reader.blocksWithin step limit state) :=
    .blocksWithin hstep limit state
  constructor
  · intro input
    rw [hlimit (input.length + 1) (Nat.lt_succ_self _)]
    exact (hwithin _).suffix input
  · intro taken tail value h other
    have hfirst := Nat.le_max_left (taken ++ tail).length (taken ++ other).length
    have hsecond := Nat.le_max_right (taken ++ tail).length (taken ++ other).length
    rw [hlimit _ (Nat.lt_succ_of_le hfirst)] at h
    rw [hlimit _ (Nat.lt_succ_of_le hsecond)]
    exact (hwithin _).yields h other
  · intro front lost value h hlost
    have hfront : (Input.ofList front).length < (front ++ lost).length + 1 := by
      show front.length < _
      rw [List.length_append]
      omega
    have hrun := h []
    rw [hlimit ((front ++ lost).length + 1) (by simp [Input.ofList])] at hrun
    obtain ⟨rest, hcut⟩ := (hwithin _).cut ((hwithin _).yields hrun) hlost
    exact ⟨rest, by rw [hlimit _ hfront, hcut]⟩

end Reader

namespace Program

open Reader

variable {program : Program} {run : SymbolId → Reader Value}

/-! ## Collections -/

/-- How many items without bytes an array has after an item, given what was left before and
after it. -/
def ArrayProgress.widthAfter (progress : ArrayProgress) (before after : Nat) : Nat :=
  if after = before then progress.zeroWidth + 1 else progress.zeroWidth

/-- An item counts as one without bytes by what it takes, whatever stands behind it. -/
theorem ArrayProgress.widthAfter_append (progress : ArrayProgress) (taken tail : List UInt8) :
    progress.widthAfter (Input.ofList (taken ++ tail)).length (Input.ofList tail).length =
      progress.zeroWidth + if taken.isEmpty then 1 else 0 := by
  cases taken with
  | nil => exact if_pos rfl
  | cons byte more =>
    have hshorter : tail.length ≠ (byte :: more ++ tail).length := by
      rw [List.cons_append, List.length_cons, List.length_append]
      omega
    exact if_neg hshorter

theorem readItem_run (item : Reader Value) (progress : ArrayProgress) (input : Input) :
    readItem item progress input =
      match item input with
      | .ok value rest =>
        if zeroWidthLimit < progress.widthAfter input.length rest.length then
          .error (.data (.zeroWidthItems zeroWidthLimit)) rest
        else
          .ok ⟨value :: progress.items, progress.widthAfter input.length rest.length⟩ rest
      | .error fault rest => .error fault rest := by
  have hremaining (input : Input) : remaining input = .ok input.length input := rfl
  rw [readItem, bind_of_ok (hremaining input), bind_run]
  cases item input with
  | error fault rest => rfl
  | ok value rest =>
    dsimp only
    rw [bind_of_ok (hremaining rest)]
    change (if zeroWidthLimit < progress.widthAfter input.length rest.length then
        (throw (.data (.zeroWidthItems zeroWidthLimit)) : Reader ArrayProgress)
      else pure ⟨value :: progress.items, progress.widthAfter input.length rest.length⟩) rest = _
    split <;> rfl

theorem exists_of_readItem {item : Reader Value} {progress next : ArrayProgress}
    {input rest : Input} (h : readItem item progress input = .ok next rest) :
    ∃ value, item input = .ok value rest ∧
      progress.widthAfter input.length rest.length ≤ zeroWidthLimit ∧
        next = ⟨value :: progress.items, progress.widthAfter input.length rest.length⟩ := by
  rw [readItem_run] at h
  cases hrun : item input with
  | error fault left =>
    rw [hrun] at h
    cases h
  | ok value left =>
    rw [hrun] at h
    dsimp only at h
    split at h
    · cases h
    · rename_i hlimit
      injection h with hnext hleft
      subst hleft
      exact ⟨value, rfl, Nat.le_of_not_lt hlimit, hnext.symm⟩

theorem delimits_readItem {item : Reader Value} (hitem : Delimits item)
    (progress : ArrayProgress) : Delimits (readItem item progress) where
  suffix := by
    intro input
    have hsuffix := hitem.suffix input
    rw [readItem_run]
    cases hrun : item input with
    | error fault rest =>
      rw [hrun] at hsuffix
      exact hsuffix
    | ok value rest =>
      rw [hrun] at hsuffix
      dsimp only
      split <;> exact hsuffix
  yields := by
    intro taken tail next h
    obtain ⟨value, hrun, hlimit, rfl⟩ := exists_of_readItem h
    rw [progress.widthAfter_append] at hlimit ⊢
    exact yields_readItem (hitem.yields hrun) hlimit
  cut := by
    intro front lost next h hlost
    obtain ⟨value, hrun, _⟩ := exists_of_readItem (h [])
    obtain ⟨rest, hcut⟩ := hitem.cut (hitem.yields hrun) hlost
    exact ⟨rest, by rw [readItem_run, hcut]⟩

theorem delimits_readArray {item : Reader Value} (hitem : Delimits item) :
    Delimits (readArray item) :=
  .bind (.blocks (delimits_readItem hitem) _) fun _ => .pure _

theorem delimits_readEntry {value : Reader Value} (hvalue : Delimits value)
    (entries : List (String × Value)) : Delimits (readEntry value entries) :=
  .bind delimits_string fun _ => .bind hvalue fun _ => .pure _

theorem delimits_readMap {value : Reader Value} (hvalue : Delimits value) :
    Delimits (readMap value) :=
  .bind (.blocks (delimits_readEntry hvalue) _) fun _ => .pure _

/-! ## One symbol -/

theorem delimits_readTerminal (terminal : Terminal) : Delimits (readTerminal terminal) := by
  cases terminal with
  | primitive type =>
    cases type with
    | null => exact .pure _
    | boolean => exact .bind delimits_boolean fun _ => .pure _
    | int => exact .bind delimits_int fun _ => .pure _
    | long => exact .bind delimits_long fun _ => .pure _
    | float => exact .bind (.bind (delimits_take 4) fun _ => .pure _) fun _ => .pure _
    | double => exact .bind (.bind (delimits_take 8) fun _ => .pure _) fun _ => .pure _
    | bytes => exact .bind delimits_bytes fun _ => .pure _
    | string => exact .bind delimits_string fun _ => .pure _
  | fixed size => exact .bind (delimits_take size) fun _ => .pure _
  | _ => exact .throw _

theorem delimits_readEnum (adjustment : EnumAdjustment) : Delimits (readEnum adjustment) := by
  refine .bind delimits_int fun ordinal => ?_
  split
  · exact .throw _
  · dsimp only
    split
    · exact .throw _
    · split
      · exact .throw _
      · exact .pure _

theorem delimits_fetch (program : Program) (id : SymbolId) : Delimits (program.fetch id) := by
  cases h : program.symbol? id with
  | none =>
    rw [fetch_of_none h]
    exact .throw _
  | some symbol =>
    rw [fetch_of_some h]
    exact .pure _

theorem delimits_fetchSecond (program : Program) (rest : List SymbolId) :
    Delimits (program.fetchSecond rest) := by
  cases rest with
  | nil => exact .pure none
  | cons id _ =>
    rw [fetchSecond, map_eq_pure_bind]
    exact .bind (delimits_fetch program id) fun _ => .pure _

/-- A default is read from bytes of its own, whatever the input is. -/
theorem delimits_replay (value : Reader Value) (bytes : List UInt8) :
    Delimits (replay value bytes) := by
  have hreplay : replay value bytes =
      match value (.ofList bytes) with
      | .ok content rest => pure (content, rest.length)
      | .error fault _ => throw fault := by
    funext input
    rw [replay]
    cases value (.ofList bytes) <;> rfl
  rw [hreplay]
  split
  · exact .pure _
  · exact .throw _

theorem delimits_readDefault (program : Program) (run : SymbolId → Reader Value)
    (inject : SymbolId) (bytes : List UInt8) (value last : SymbolId) :
    Delimits (program.readDefault run inject bytes value last) := by
  refine .bind (delimits_fetch program last) fun symbol => ?_
  cases symbol with
  | injectEnd =>
    refine .bind (delimits_replay _ bytes) fun answer => ?_
    dsimp only
    split
    · exact .pure _
    · exact .throw _
  | _ => exact .throw _

variable (hrun : ∀ id, Delimits (run id))
include hrun

/-- The induction follows the children; an injected default takes three of them. -/
theorem delimits_readFields (program : Program) :
    ∀ (children : List SymbolId) (values : List Value),
      Delimits (program.readFields run children values)
  | [], _ => .throw _
  | id :: rest, values => by
    unfold readFields
    refine .bind (delimits_fetch program id) fun symbol => ?_
    cases symbol with
    | skip symbol => exact .bind (hrun symbol) fun _ => delimits_readFields program rest values
    | inject type bytes =>
      rcases rest with _ | ⟨value, _ | ⟨last, more⟩⟩
      · exact .throw _
      · exact .throw _
      · exact .bind (delimits_readDefault program run id bytes value last) fun content =>
          delimits_readFields program more (content :: values)
    | reorder arrivals => exact .ofExcept _ _
    | _ => exact .bind (hrun id) fun value => delimits_readFields program rest (value :: values)

theorem delimits_runOpened (program : Program) (children : List SymbolId) (head : Symbol)
    (second : Option Symbol) : Delimits (program.runOpened run children head second) := by
  unfold runOpened
  split
  · split
    · exact delimits_readArray (hrun _)
    · exact .throw _
  · split
    · exact delimits_readMap (hrun _)
    · exact .throw _
  · exact delimits_readEnum _
  · exact .bind (delimits_branchIndex _) fun _ => .bind (hrun _) fun _ => .pure _
  · exact delimits_readFields hrun program children []

theorem delimits_runSequence (program : Program) (children : List SymbolId) :
    Delimits (program.runSequence run children) := by
  cases children with
  | nil => exact .throw _
  | cons first rest =>
    rw [runSequence_cons]
    exact .bind (delimits_fetch program first) fun head =>
      .bind (delimits_fetchSecond program rest) fun second =>
        delimits_runOpened hrun program (first :: rest) head second

/-- A symbol delimits its data when the symbols below it do. -/
theorem runStep_delimits (program : Program) (id : SymbolId) :
    Delimits (program.runStep run id) := by
  refine .bind (delimits_fetch program id) fun symbol => ?_
  cases symbol with
  | terminal terminal => exact delimits_readTerminal terminal
  | sequence children => exact delimits_runSequence hrun program children
  | alternative branches => exact .bind (delimits_branchIndex _) fun _ => hrun _
  | promote symbol promotion => exact .bind (hrun symbol) fun _ => .ofExcept _ _
  | select alternative => exact hrun alternative
  | adjust index symbol => exact .bind (hrun symbol) fun _ => .pure _
  | _ => exact .throw _

omit hrun

/-! ## Whole runs -/

/-- Every run delimits its data.  The induction is on its depth. -/
theorem runWithin_delimits (program : Program) (depth : Nat) (id : SymbolId) :
    Delimits (program.runWithin depth id) := by
  induction depth generalizing id with
  | zero => exact .throw _
  | succ depth ih => exact runStep_delimits ih program id

/-- What is left after a read, also after one that failed, is the end of the input.  A value
is read from the bytes that are gone: before any other bytes they give the same value and
leave the other bytes, and without the last of them the data end too soon.

The depth that `decode` allows depends on the length of the input, so each of these reads is
first taken at the depth of the one that is given. -/
theorem decode_delimits (program : Program) (input : Input) :
    (restOf (program.decode input)).bytes <:+ input.bytes ∧
      ∀ value rest, program.decode input = .ok value rest →
        ∃ taken, input.bytes = taken ++ rest.bytes ∧
          (∀ more, program.decode (.ofList (taken ++ more)) = .ok value (.ofList more)) ∧
            ∀ front, front <+: taken → front ≠ taken →
              ∃ left, program.decode (.ofList front) = .error .endOfInput left := by
  have hruns := program.runWithin_delimits (program.runDepth input.length) program.root
  refine ⟨hruns.suffix input, fun value rest hdecode => ?_⟩
  obtain ⟨taken, htaken, hyields⟩ := hruns.exists_taken hdecode
  refine ⟨taken, htaken, fun more => ?_, ?_⟩
  · exact (decode_eq_iff not_givesUp_ok).2 ⟨_, hyields more⟩
  · rintro front ⟨lost, rfl⟩ hfront
    have hlost : lost ≠ [] := by
      rintro rfl
      exact hfront (List.append_nil front).symm
    obtain ⟨left, hcut⟩ := hruns.cut hyields hlost
    refine ⟨left, (decode_eq_iff (not_givesUp_error ?_)).2 ⟨_, hcut⟩⟩
    nofun

/-- Links of a chain, each with a name, marks that take no bytes, and perhaps a link after
it. -/
def chain : Schema :=
  .record ⟨"Link", none, []⟩
    [⟨"name", .primitive .string, none, []⟩,
      ⟨"marks", .array (.primitive .null), none, []⟩,
      ⟨"next", .union [.primitive .null, .reference "Link"], none, []⟩]

/-- Two links, the first of which has two marks. -/
def chainBytes : List UInt8 := [2, 97, 4, 0, 2, 0, 0, 0]

theorem decode_delimits_chain :
    ∃ program value rest left, Program.validating chain = .ok program ∧
      program.decode (.ofList (chainBytes ++ [7])) = .ok value rest ∧
        program.decode (.ofList (chainBytes ++ [1, 2])) = .ok value (.ofList [1, 2]) ∧
          program.decode (.ofList [2, 97, 4]) = .error .endOfInput left := by
  obtain ⟨program, hprogram, h⟩ := Reader.exists_ok (Program.validating chain)
    (fun program => isValue (program.decode (.ofList (chainBytes ++ [7]))) &&
      decide ((restOf (program.decode (.ofList (chainBytes ++ [7])))).bytes = [7]))
    (by decide +kernel)
  rw [Bool.and_eq_true, decide_eq_true_eq] at h
  obtain ⟨value, rest, hdecode⟩ := exists_value h.1
  have hrest : rest.bytes = [7] := by
    have hleft := h.2
    rwa [hdecode] at hleft
  obtain ⟨taken, htaken, hmore, hcut⟩ := (decode_delimits program _).2 value rest hdecode
  rw [hrest, Input.bytes_ofList] at htaken
  obtain rfl := List.append_cancel_right htaken
  obtain ⟨left, hleft⟩ := hcut [2, 97, 4] (by decide) (by decide)
  exact ⟨program, value, rest, left, hprogram, hdecode, hmore [1, 2], hleft⟩

end Program

end AvroResolution
