import AvroResolution.Proofs.Decoding.Run

/-!
# Enough depth

`Program.decode` bounds the depth of a run by `Program.runDepth`.  This module
proves the bound harmless: a run that gives up there gives up at every depth.

A run stands before a symbol and some bytes, which are what is left of the input
or of an injected default.  `Program.Stable` says of a depth that one more symbol
of depth lets no run answer that gave up before.  A stable depth is followed by
stable depths only, because a run owes its answer to the runs below it
(`Program.runStep_simulates`).  Below the first stable depth every depth lets some
new pair of symbol and bytes answer, and of these there are finitely many.

`Program.decode_eq_iff` is the result: an answer is that of `decode` exactly when
it is the answer of a run of some depth.
-/

namespace AvroResolution

/-! ## The bytes that a run stands before -/

/-- What dropping bytes may leave of an input. -/
def Input.remainders (input : Input) : List Input :=
  (List.range (input.length + 1)).map input.drop

theorem Input.length_remainders (input : Input) :
    input.remainders.length = input.length + 1 := by
  simp [remainders]

theorem Input.self_mem_remainders (input : Input) : input ∈ input.remainders :=
  List.mem_map.2 ⟨0, by simp, Input.ext rfl⟩

theorem Input.drop_mem_remainders {input middle : Input} (h : middle ∈ input.remainders)
    (count : Nat) : middle.drop count ∈ input.remainders := by
  obtain ⟨first, hfirst, rfl⟩ := List.mem_map.1 h
  refine List.mem_map.2 ⟨min (first + count) input.length, List.mem_range.2 (by omega), ?_⟩
  apply Input.ext
  simp only [bytes_drop, List.drop_drop]
  by_cases hle : first + count ≤ input.length
  · rw [Nat.min_eq_left hle]
  · rw [Nat.min_eq_right (by omega), input.length_eq, List.drop_length,
      List.drop_eq_nil_of_le (by rw [← input.length_eq]; omega)]

namespace Program

/-- What is left of the default that a symbol injects, if it does. -/
def injectedRemainders : Symbol → List Input
  | .inject _ bytes => (Input.ofList bytes).remainders
  | _ => []

/-- Everything that a run on `input` can stand before. -/
def remainders (program : Program) (input : Input) : List Input :=
  program.symbols.toList.foldr (fun symbol total => injectedRemainders symbol ++ total)
    input.remainders

theorem length_remainders (program : Program) (input : Input) :
    (program.remainders input).length = program.standpoints input.length := by
  rw [remainders, standpoints]
  induction program.symbols.toList with
  | nil => exact input.length_remainders
  | cons symbol rest ih =>
    rw [List.foldr_cons, List.foldr_cons, List.length_append, ih]
    congr 1
    cases symbol with
    | inject type bytes => exact Input.length_remainders _
    | _ => rfl

theorem mem_remainders {program : Program} {input middle : Input} :
    middle ∈ program.remainders input ↔
      (∃ symbol ∈ program.symbols.toList, middle ∈ injectedRemainders symbol) ∨
        middle ∈ input.remainders := by
  rw [remainders]
  cases program.symbols.toList with
  | nil => simp
  | cons symbol rest => simp [or_assoc]

theorem self_mem_remainders (program : Program) (input : Input) :
    input ∈ program.remainders input :=
  mem_remainders.2 (.inr input.self_mem_remainders)

theorem closed_remainders (program : Program) (input : Input) :
    Reader.Closed (· ∈ program.remainders input) := by
  intro middle count h
  rcases mem_remainders.1 h with ⟨symbol, hsymbol, hmiddle⟩ | hmiddle
  · refine mem_remainders.2 (.inl ⟨symbol, hsymbol, ?_⟩)
    cases symbol with
    | inject type bytes => exact Input.drop_mem_remainders hmiddle count
    | _ => cases hmiddle
  · exact mem_remainders.2 (.inr (Input.drop_mem_remainders hmiddle count))

theorem mem_of_symbol? {program : Program} {id : SymbolId} {symbol : Symbol}
    (h : program.symbol? id = some symbol) : symbol ∈ program.symbols.toList := by
  obtain ⟨hlt, rfl⟩ := Array.getElem?_eq_some_iff.1 h
  simp

theorem injectsWithin_remainders (program : Program) (input : Input) :
    program.InjectsWithin (· ∈ program.remainders input) := by
  intro id type bytes h
  exact mem_remainders.2 (.inl ⟨_, mem_of_symbol? h, Input.self_mem_remainders _⟩)

/-! ## Runs that answer -/

/-- A run of some depth does not give up. -/
def Answers (program : Program) (depth : Nat) (id : SymbolId) (input : Input) : Prop :=
  ¬Reader.GivesUp (program.runWithin depth id input)

theorem answers_mono {program : Program} {depth more : Nat} (hle : depth ≤ more)
    {id : SymbolId} {input : Input} (h : program.Answers depth id input) :
    program.Answers more id input := by
  have heq := (program.runWithin_mono hle id).eq h
  rw [Answers, heq]
  exact h

/-- On these inputs no run of one more symbol of depth answers for the first
time. -/
def Stable (program : Program) (inputs : List Input) (depth : Nat) : Prop :=
  ∀ id, ∀ input ∈ inputs,
    program.Answers (depth + 1) id input → program.Answers depth id input

theorem runWithin_within {program : Program} {inputs : List Input}
    (hclosed : Reader.Closed (· ∈ inputs)) (hinjects : program.InjectsWithin (· ∈ inputs))
    (depth : Nat) (id : SymbolId) :
    Reader.Simulates (· ∈ inputs) (fun _ => True) Eq (program.runWithin depth id)
      (program.runWithin depth id) := by
  induction depth generalizing id with
  | zero => exact .throw .endless
  | succ depth ih => exact runStep_simulates hclosed hinjects ih id

theorem Stable.simulates {program : Program} {inputs : List Input} {depth : Nat}
    (hclosed : Reader.Closed (· ∈ inputs)) (hinjects : program.InjectsWithin (· ∈ inputs))
    (h : program.Stable inputs depth) (id : SymbolId) :
    Reader.Simulates (· ∈ inputs) (· ≠ .endless) Eq (program.runWithin (depth + 1) id)
      (program.runWithin depth id) := by
  have hsame : ∀ input ∈ inputs, program.Answers (depth + 1) id input →
      program.runWithin depth id input = program.runWithin (depth + 1) id input := by
    intro input hinput hanswers
    exact ((program.runWithin_succ depth id).eq (h id input hinput hanswers)).symm
  refine .intro ?_ ?_
  · intro input value rest hinput hrun
    have hanswers : program.Answers (depth + 1) id input := by
      rw [Answers, hrun]
      rintro ⟨_, ⟨⟩⟩
    have hwithin := ((runWithin_within hclosed hinjects (depth + 1) id).of_ok hinput hrun).1
    exact ⟨hwithin, value, (hsame input hinput hanswers).trans hrun, rfl⟩
  · intro input fault rest hinput hrun hfault
    have hanswers : program.Answers (depth + 1) id input := by
      rw [Answers, hrun]
      rintro ⟨_, ⟨⟩⟩
      exact hfault rfl
    exact (hsame input hinput hanswers).trans hrun

theorem answers_of_simulates {program : Program} {inputs : List Input} {depth : Nat}
    {id : SymbolId}
    (h : Reader.Simulates (· ∈ inputs) (· ≠ .endless) Eq (program.runWithin (depth + 1) id)
      (program.runWithin depth id))
    {input : Input} (hinput : input ∈ inputs) (hanswers : program.Answers (depth + 1) id input) :
    program.Answers depth id input := by
  rw [Answers] at hanswers ⊢
  cases hrun : program.runWithin (depth + 1) id input with
  | ok value rest =>
    obtain ⟨_, other, hother, _⟩ := h.of_ok hinput hrun
    rw [hother]
    rintro ⟨_, ⟨⟩⟩
  | error fault rest =>
    rw [h.of_error hinput hrun (by rintro rfl; exact hanswers ⟨rest, hrun⟩), ← hrun]
    exact hanswers

/-- A stable depth is followed by a stable depth. -/
theorem Stable.succ {program : Program} {inputs : List Input} {depth : Nat}
    (hclosed : Reader.Closed (· ∈ inputs)) (hinjects : program.InjectsWithin (· ∈ inputs))
    (h : program.Stable inputs depth) : program.Stable inputs (depth + 1) := by
  intro id input hinput hanswers
  exact answers_of_simulates
    (runStep_simulates hclosed hinjects (h.simulates hclosed hinjects) id) hinput hanswers

theorem Stable.answers {program : Program} {inputs : List Input} {depth more : Nat}
    (hclosed : Reader.Closed (· ∈ inputs)) (hinjects : program.InjectsWithin (· ∈ inputs))
    (h : program.Stable inputs depth) (hle : depth ≤ more) {id : SymbolId} {input : Input}
    (hinput : input ∈ inputs) (hanswers : program.Answers more id input) :
    program.Answers depth id input := by
  have hstable : ∀ extra, program.Stable inputs (depth + extra) := by
    intro extra
    induction extra with
    | zero => exact h
    | succ extra ih => exact ih.succ hclosed hinjects
  obtain ⟨extra, rfl⟩ := Nat.exists_eq_add_of_le hle
  induction extra with
  | zero => exact hanswers
  | succ extra ih => exact ih (by omega) (hstable extra id input hinput hanswers)

/-! ## The first stable depth -/

theorem countP_lt_countP {α : Type} {p q : α → Bool} {l : List α}
    (hle : ∀ x ∈ l, p x = true → q x = true) {x : α} (hx : x ∈ l) (hp : p x = false)
    (hq : q x = true) : l.countP p < l.countP q := by
  induction l with
  | nil => cases hx
  | cons y rest ih =>
    have hrest : ∀ x ∈ rest, p x = true → q x = true := fun x h => hle x (.tail _ h)
    rcases List.mem_cons.1 hx with rfl | hx
    · rw [List.countP_cons_of_neg (by simp [hp]), List.countP_cons_of_pos hq]
      exact Nat.lt_succ_of_le (List.countP_mono_left hrest)
    · have hlt := ih hrest hx
      rw [List.countP_cons, List.countP_cons]
      have hy := hle y (.head _)
      split <;> split <;> simp_all
      omega

/-- The pairs of a symbol of the arena and bytes that a run can stand before. -/
def places (program : Program) (inputs : List Input) : List (SymbolId × Input) :=
  (List.range program.length).flatMap fun id => inputs.map fun input => (id, input)

theorem length_places (program : Program) (inputs : List Input) :
    (program.places inputs).length = program.length * inputs.length := by
  simp [places, List.length_flatMap]

open Classical in
/-- How many places a run of some depth answers at. -/
noncomputable def answered (program : Program) (inputs : List Input) (depth : Nat) : Nat :=
  (program.places inputs).countP fun place => program.Answers depth place.1 place.2

/-- A symbol outside the arena answers at once, so a new answer beyond that is one
at a place. -/
theorem answered_lt {program : Program} {inputs : List Input} {depth : Nat}
    (h : ¬program.Stable inputs (depth + 1)) :
    program.answered inputs (depth + 1) < program.answered inputs (depth + 1 + 1) := by
  simp only [Stable, not_forall] at h
  obtain ⟨id, input, hinput, hnew, hold⟩ := h
  have hid : id < program.length := by
    by_contra hge
    refine hold ?_
    have hnone : program.symbol? id = none := Array.getElem?_eq_none (Nat.le_of_not_lt hge)
    rw [Answers, runWithin, runStep, fetch_of_none hnone]
    rintro ⟨_, ⟨⟩⟩
  refine countP_lt_countP (x := (id, input)) ?_ ?_ (by simpa using hold) (by simpa using hnew)
  · intro place _ hplace
    simp only [decide_eq_true_eq] at hplace ⊢
    exact answers_mono (by omega) hplace
  · exact List.mem_flatMap.2 ⟨id, by simpa using hid, List.mem_map.2 ⟨input, hinput, rfl⟩⟩

theorem exists_stable (program : Program) (inputs : List Input) :
    ∃ depth ≤ program.length * inputs.length + 1, program.Stable inputs depth := by
  by_contra hnone
  have hunstable : ∀ depth ≤ program.length * inputs.length + 1,
      ¬program.Stable inputs depth := fun depth hle h => hnone ⟨depth, hle, h⟩
  have hcount : ∀ depth ≤ program.length * inputs.length + 1,
      depth ≤ program.answered inputs (depth + 1) := by
    intro depth
    induction depth with
    | zero => intro _; exact Nat.zero_le _
    | succ depth ih =>
      intro hle
      have hlt := answered_lt (hunstable (depth + 1) hle)
      have := ih (by omega)
      omega
  have hall := hcount _ (Nat.le_refl _)
  have hbound : program.answered inputs (program.length * inputs.length + 1 + 1) ≤
      program.length * inputs.length := by
    rw [← length_places]
    exact List.countP_le_length
  omega

/-! ## Decoding -/

/-- A run that answers at some depth answers alike at `runDepth`. -/
theorem runWithin_runDepth {program : Program} {depth : Nat} {id : SymbolId} {input : Input}
    (h : program.Answers depth id input) :
    program.runWithin (program.runDepth input.length) id input =
      program.runWithin depth id input := by
  obtain ⟨stable, hle, hstable⟩ := program.exists_stable (program.remainders input)
  have hdepth : stable ≤ program.runDepth input.length := by
    rw [runDepth, ← length_remainders]
    exact hle
  have hmost : program.Answers (max depth stable) id input :=
    answers_mono (Nat.le_max_left _ _) h
  have hstableAnswers : program.Answers stable id input :=
    hstable.answers (program.closed_remainders input) (program.injectsWithin_remainders input)
      (Nat.le_max_right _ _) (program.self_mem_remainders input) hmost
  calc program.runWithin (program.runDepth input.length) id input
      = program.runWithin stable id input := (program.runWithin_mono hdepth id).eq hstableAnswers
    _ = program.runWithin (max depth stable) id input :=
      ((program.runWithin_mono (Nat.le_max_right _ _) id).eq hstableAnswers).symm
    _ = program.runWithin depth id input := (program.runWithin_mono (Nat.le_max_left _ _) id).eq h

/-- The answer of `decode`, unless it gives up, is the answer of a run of any
depth that does not give up. -/
theorem decode_eq_iff {program : Program} {input : Input}
    {answer : EStateM.Result DecodeFault Input Value} (hanswer : ¬Reader.GivesUp answer) :
    program.decode input = answer ↔
      ∃ depth, program.runWithin depth program.root input = answer := by
  constructor
  · intro h
    exact ⟨_, h⟩
  · rintro ⟨depth, rfl⟩
    exact runWithin_runDepth hanswer

end Program

end AvroResolution
