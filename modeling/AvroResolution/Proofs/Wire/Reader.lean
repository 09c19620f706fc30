import AvroResolution.Decoding

/-!
# Laws of readers

Two properties of readers that every combinator keeps, so that they pass from
the scalars to whole programs.

* `Reader.Ensures` speaks of one reader: what its values and its faults are like.
* `Reader.Simulates` compares two readers on the same bytes.  Where the first
  gives a value, the second gives a related one and leaves the same bytes; where
  the first fails with a fault that counts, the second fails alike.
  `Reader.Approximates` is the case of equal values in which every fault counts
  but `endless`: the first reader may give up where the second goes on.

The inputs under consideration are those of a set that is closed under dropping
bytes.
-/

namespace AvroResolution

namespace Reader

variable {α β γ δ σ τ : Type}

/-! ## Running a reader -/

theorem bind_run (x : Reader α) (f : α → Reader β) (input : Input) :
    (x >>= f) input =
      match x input with
      | .ok value rest => f value rest
      | .error fault rest => .error fault rest := by
  simp only [bind, EStateM.bind]
  cases x input <;> rfl

@[simp] theorem pure_run (value : α) (input : Input) :
    (pure value : Reader α) input = .ok value input := rfl

theorem bind_of_ok {x : Reader α} {f : α → Reader β} {input middle : Input} {first : α}
    (hx : x input = .ok first middle) : (x >>= f) input = f first middle := by
  rw [bind_run, hx]

theorem bind_of_error {x : Reader α} {f : α → Reader β} {input rest : Input}
    {fault : DecodeFault} (hx : x input = .error fault rest) :
    (x >>= f) input = .error fault rest := by
  rw [bind_run, hx]

/-- What two readers read one after the other, the first one read before. -/
theorem exists_of_bind {x : Reader α} {f : α → Reader β} {input rest : Input} {value : β}
    (h : (x >>= f) input = .ok value rest) :
    ∃ first middle, x input = .ok first middle ∧ f first middle = .ok value rest := by
  rw [bind_run] at h
  cases hx : x input with
  | ok first middle =>
    rw [hx] at h
    exact ⟨first, middle, rfl, h⟩
  | error fault middle =>
    rw [hx] at h
    cases h

/-! ## What values and faults are like -/

/-- Every value of the reader is of the one kind and every fault of the other. -/
def Ensures (good : α → Prop) (bad : DecodeFault → Prop) (x : Reader α) : Prop :=
  ∀ input,
    match x input with
    | .ok value _ => good value
    | .error fault _ => bad fault

namespace Ensures

variable {good : α → Prop} {better : β → Prop} {bad : DecodeFault → Prop}

theorem of_ok {x : Reader α} (h : Ensures good bad x) {input rest : Input} {value : α}
    (hx : x input = .ok value rest) : good value := by
  have hinput := h input
  rw [hx] at hinput
  exact hinput

theorem of_error {x : Reader α} (h : Ensures good bad x) {input rest : Input}
    {fault : DecodeFault} (hx : x input = .error fault rest) : bad fault := by
  have hinput := h input
  rw [hx] at hinput
  exact hinput

theorem intro {x : Reader α}
    (hok : ∀ input value rest, x input = .ok value rest → good value)
    (herror : ∀ input fault rest, x input = .error fault rest → bad fault) :
    Ensures good bad x := by
  intro input
  cases hx : x input with
  | ok value rest => exact hok input value rest hx
  | error fault rest => exact herror input fault rest hx

protected theorem pure {value : α} (h : good value) : Ensures good bad (pure value) :=
  fun _ => h

protected theorem throw {fault : DecodeFault} (h : bad fault) :
    Ensures good bad (throw fault : Reader α) :=
  fun _ => h

protected theorem bind {x : Reader α} {f : α → Reader β} (hx : Ensures good bad x)
    (hf : ∀ value, good value → Ensures better bad (f value)) :
    Ensures better bad (x >>= f) := by
  intro input
  rw [bind_run]
  cases hrun : x input with
  | ok value rest => exact hf value (hx.of_ok hrun) rest
  | error fault rest => exact hx.of_error hrun

theorem mono {good' : α → Prop} {bad' : DecodeFault → Prop} {x : Reader α}
    (h : Ensures good bad x) (hgood : ∀ value, good value → good' value)
    (hbad : ∀ fault, bad fault → bad' fault) : Ensures good' bad' x :=
  intro (fun _ _ _ hx => hgood _ (h.of_ok hx)) (fun _ _ _ hx => hbad _ (h.of_error hx))

protected theorem ofExcept {ε : Type} {fault : ε → DecodeFault} {answer : Except ε α}
    (hok : ∀ value, answer = .ok value → good value)
    (herror : ∀ cause, answer = .error cause → bad (fault cause)) :
    Ensures good bad (Reader.ofExcept fault answer) := by
  cases answer with
  | ok value => exact .pure (hok value rfl)
  | error cause => exact .throw (herror cause rfl)

protected theorem iterate {inv : σ → Prop} {step : σ → Reader σ}
    (hstep : ∀ state, inv state → Ensures inv bad (step state)) (count : Nat) :
    ∀ state, inv state → Ensures inv bad (Reader.iterate step count state) := by
  induction count with
  | zero =>
    intro state hstate
    exact .pure hstate
  | succ count ih =>
    intro state hstate
    exact .bind (hstep state hstate) ih

protected theorem blocksWithin {inv : σ → Prop} {step : σ → Reader σ}
    (hcount : Ensures (fun _ => True) bad blockCount) (hendless : bad .endless)
    (hstep : ∀ state, inv state → Ensures inv bad (step state)) (limit : Nat) :
    ∀ state, inv state → Ensures inv bad (Reader.blocksWithin step limit state) := by
  induction limit with
  | zero =>
    intro state _
    exact .throw hendless
  | succ limit ih =>
    intro state hstate
    refine .bind hcount ?_
    intro count _
    split
    · exact .pure hstate
    · exact .bind (.iterate hstep count state hstate) ih

protected theorem blocks {inv : σ → Prop} {step : σ → Reader σ} {state : σ}
    (hcount : Ensures (fun _ => True) bad blockCount) (hendless : bad .endless)
    (hstep : ∀ state, inv state → Ensures inv bad (step state)) (hstate : inv state) :
    Ensures inv bad (Reader.blocks step state) := by
  intro input
  exact Ensures.blocksWithin hcount hendless hstep _ state hstate input

end Ensures

/-! ## Comparing two readers -/

/-- On every input in question, a value of `x` is matched by a related value of
`y` that leaves the same bytes, and a fault of `x` that counts is met by `y`
too. -/
def Simulates (within : Input → Prop) (counts : DecodeFault → Prop) (related : α → β → Prop)
    (x : Reader α) (y : Reader β) : Prop :=
  ∀ input, within input →
    match x input with
    | .ok value rest => within rest ∧ ∃ other, y input = .ok other rest ∧ related value other
    | .error fault rest => counts fault → y input = .error fault rest

namespace Simulates

variable {within : Input → Prop} {counts : DecodeFault → Prop}
  {related : α → β → Prop} {related' : γ → δ → Prop}

theorem of_ok {x : Reader α} {y : Reader β} (h : Simulates within counts related x y)
    {input rest : Input} {value : α} (hinput : within input)
    (hx : x input = .ok value rest) :
    within rest ∧ ∃ other, y input = .ok other rest ∧ related value other := by
  have hrun := h input hinput
  rw [hx] at hrun
  exact hrun

theorem of_error {x : Reader α} {y : Reader β} (h : Simulates within counts related x y)
    {input rest : Input} {fault : DecodeFault} (hinput : within input)
    (hx : x input = .error fault rest) (hfault : counts fault) :
    y input = .error fault rest := by
  have hrun := h input hinput
  rw [hx] at hrun
  exact hrun hfault

theorem intro {x : Reader α} {y : Reader β}
    (hok : ∀ input value rest, within input → x input = .ok value rest →
      within rest ∧ ∃ other, y input = .ok other rest ∧ related value other)
    (herror : ∀ input fault rest, within input → x input = .error fault rest →
      counts fault → y input = .error fault rest) :
    Simulates within counts related x y := by
  intro input hinput
  cases hx : x input with
  | ok value rest => exact hok input value rest hinput hx
  | error fault rest => exact herror input fault rest hinput hx

protected theorem pure {value : α} {other : β} (h : related value other) :
    Simulates within counts related (pure value) (pure other) :=
  fun _ hinput => ⟨hinput, other, rfl, h⟩

protected theorem throw (fault : DecodeFault) :
    Simulates within counts related (throw fault : Reader α)
      (throw fault : Reader β) :=
  fun _ _ _ => rfl

/-- A reader whose faults do not count is simulated by anything if it always
fails. -/
theorem throw_left {fault : DecodeFault} (hfault : ¬counts fault) (y : Reader β) :
    Simulates within counts related (throw fault : Reader α) y :=
  fun _ _ h => absurd h hfault

protected theorem bind {x : Reader α} {y : Reader β} {f : α → Reader γ} {g : β → Reader δ}
    (hx : Simulates within counts related x y)
    (hf : ∀ value other, related value other →
      Simulates within counts related' (f value) (g other)) :
    Simulates within counts related' (x >>= f) (y >>= g) := by
  intro input hinput
  rw [bind_run]
  cases hrun : x input with
  | ok value rest =>
    obtain ⟨hrest, other, hy, hrelated⟩ := hx.of_ok hinput hrun
    rw [bind_of_ok hy]
    exact hf value other hrelated rest hrest
  | error fault rest =>
    intro hfault
    exact bind_of_error (hx.of_error hinput hrun hfault)

theorem mono {x : Reader α} {y : Reader β} {counts' : DecodeFault → Prop}
    {looser : α → β → Prop} (h : Simulates within counts related x y)
    (hcounts : ∀ fault, counts' fault → counts fault)
    (hrelated : ∀ value other, related value other → looser value other) :
    Simulates within counts' looser x y := by
  refine intro ?_ ?_
  · intro input value rest hinput hx
    obtain ⟨hrest, other, hy, hvalue⟩ := h.of_ok hinput hx
    exact ⟨hrest, other, hy, hrelated value other hvalue⟩
  · intro input fault rest hinput hx hfault
    exact h.of_error hinput hx (hcounts fault hfault)

theorem trans {x : Reader α} {y : Reader β} {z : Reader γ} {after : β → γ → Prop}
    {both : α → γ → Prop} (hxy : Simulates within counts related x y)
    (hyz : Simulates within counts after y z)
    (hboth : ∀ a b c, related a b → after b c → both a c) :
    Simulates within counts both x z := by
  refine intro ?_ ?_
  · intro input value rest hinput hx
    obtain ⟨_, other, hy, hvalue⟩ := hxy.of_ok hinput hx
    obtain ⟨hrest, last, hz, hother⟩ := hyz.of_ok hinput hy
    exact ⟨hrest, last, hz, hboth _ _ _ hvalue hother⟩
  · intro input fault rest hinput hx hfault
    exact hyz.of_error hinput (hxy.of_error hinput hx hfault) hfault

protected theorem iterate {inv : σ → τ → Prop} {step : σ → Reader σ} {step' : τ → Reader τ}
    (hstep : ∀ state other, inv state other →
      Simulates within counts inv (step state) (step' other)) (count : Nat) :
    ∀ state other, inv state other →
      Simulates within counts inv (Reader.iterate step count state)
        (Reader.iterate step' count other) := by
  induction count with
  | zero =>
    intro state other hstate
    exact .pure hstate
  | succ count ih =>
    intro state other hstate
    exact .bind (hstep state other hstate) ih

end Simulates

/-! ## Readers that keep the set of inputs -/

/-- The set is closed under dropping bytes. -/
def Closed (within : Input → Prop) : Prop :=
  ∀ input count, within input → within (input.drop count)

theorem closed_true : Closed fun _ => True :=
  fun _ _ _ => trivial

/-- The reader only drops bytes. -/
def Drops (x : Reader α) : Prop :=
  ∀ within, Closed within → Simulates within (fun _ => True) Eq x x

namespace Drops

theorem intro {x : Reader α}
    (h : ∀ input value rest, x input = .ok value rest → ∃ count, rest = input.drop count) :
    Drops x := by
  intro within hclosed
  refine .intro ?_ ?_
  · intro input value rest hinput hx
    obtain ⟨count, rfl⟩ := h input value rest hx
    exact ⟨hclosed input count hinput, value, hx, rfl⟩
  · intro input fault rest _ hx _
    exact hx

theorem simulates {x : Reader α} (h : Drops x) {within : Input → Prop}
    {counts : DecodeFault → Prop} (hclosed : Closed within) :
    Simulates within counts Eq x x :=
  (h within hclosed).mono (fun _ _ => trivial) (fun _ _ h => h)

protected theorem pure (value : α) : Drops (pure value) :=
  fun _ _ => .pure rfl

protected theorem throw (fault : DecodeFault) : Drops (throw fault : Reader α) :=
  fun _ _ => .throw fault

protected theorem bind {x : Reader α} {f : α → Reader β} (hx : Drops x)
    (hf : ∀ value, Drops (f value)) : Drops (x >>= f) := by
  intro within hclosed
  refine .bind (hx within hclosed) ?_
  rintro value _ rfl
  exact hf value within hclosed

protected theorem ofExcept {ε : Type} (fault : ε → DecodeFault) (answer : Except ε α) :
    Drops (Reader.ofExcept fault answer) := by
  cases answer with
  | ok value => exact .pure value
  | error cause => exact .throw (fault cause)

end Drops

/-! ## Giving up -/

/-- The answer is that of a reader that gave up. -/
def GivesUp (answer : EStateM.Result DecodeFault Input α) : Prop :=
  ∃ rest, answer = .error .endless rest

theorem not_givesUp_ok {value : α} {rest : Input} :
    ¬GivesUp (.ok value rest : EStateM.Result DecodeFault Input α) := by
  rintro ⟨_, ⟨⟩⟩

theorem not_givesUp_error {fault : DecodeFault} {rest : Input} (h : fault ≠ .endless) :
    ¬GivesUp (.error fault rest : EStateM.Result DecodeFault Input α) := by
  rintro ⟨_, ⟨⟩⟩
  exact h rfl

/-- The reader answers as the other one does, unless it gives up. -/
abbrev Approximates (x y : Reader α) : Prop :=
  Simulates (fun _ => True) (· ≠ .endless) Eq x y

theorem Approximates.eq {x y : Reader α} (h : Approximates x y) {input : Input}
    (hx : ¬GivesUp (x input)) : y input = x input := by
  cases hrun : x input with
  | ok value rest =>
    obtain ⟨_, other, hy, rfl⟩ := Simulates.of_ok h trivial hrun
    exact hy
  | error fault rest =>
    refine Simulates.of_error h trivial hrun ?_
    rintro rfl
    exact hx ⟨rest, hrun⟩

theorem approximates_iff {x y : Reader α} :
    Approximates x y ↔ ∀ input, ¬GivesUp (x input) → y input = x input := by
  constructor
  · intro h input hx
    exact h.eq hx
  · intro h
    refine .intro ?_ ?_
    · intro input value rest _ hx
      have hy := h input (by rw [hx]; rintro ⟨_, ⟨⟩⟩)
      exact ⟨trivial, value, hy.trans hx, rfl⟩
    · intro input fault rest _ hx hfault
      have hy := h input (by rw [hx]; rintro ⟨_, ⟨⟩⟩; exact hfault rfl)
      exact hy.trans hx

/-! ## Evaluated answers -/

/-- Whether the answer is a value. -/
def isValue : EStateM.Result DecodeFault Input α → Bool
  | .ok _ _ => true
  | .error _ _ => false

theorem exists_value {answer : EStateM.Result DecodeFault Input α} (h : isValue answer = true) :
    ∃ value rest, answer = .ok value rest := by
  cases answer with
  | ok value rest => exact ⟨value, rest, rfl⟩
  | error fault rest => cases h

theorem exists_fault {answer : EStateM.Result DecodeFault Input α} (h : isValue answer = false) :
    ∃ fault rest, answer = .error fault rest := by
  cases answer with
  | ok value rest => cases h
  | error fault rest => exact ⟨fault, rest, rfl⟩

/-- Whether the answer is a value for which `p` holds, together with the input that is left. -/
def isValueWith (p : α → Input → Bool) : EStateM.Result DecodeFault Input α → Bool
  | .ok value rest => p value rest
  | .error _ _ => false

theorem exists_valueWith {p : α → Input → Bool} {answer : EStateM.Result DecodeFault Input α}
    (h : isValueWith p answer = true) : ∃ value rest, answer = .ok value rest ∧ p value rest := by
  cases answer with
  | ok value rest => exact ⟨value, rest, rfl, h⟩
  | error fault rest => cases h

/-- A computation succeeds, with a result of which `p` holds, when evaluating it says
so. -/
theorem exists_ok {ε : Type} (answer : Except ε α) (p : α → Bool)
    (h : (match answer with
      | .ok result => p result
      | .error _ => false) = true) : ∃ result, answer = .ok result ∧ p result = true := by
  cases answer with
  | ok result => exact ⟨result, rfl, h⟩
  | error fault => cases h

/-- A computation fails, with a fault of which `p` holds, when evaluating it says so. -/
theorem exists_error {ε : Type} (answer : Except ε α) (p : ε → Bool)
    (h : (match answer with
      | .ok _ => false
      | .error fault => p fault) = true) : ∃ fault, answer = .error fault ∧ p fault = true := by
  cases answer with
  | ok result => cases h
  | error fault => exact ⟨fault, rfl, h⟩

end Reader

end AvroResolution
