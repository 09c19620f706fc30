import AvroResolution.Proofs.Decoding.Symbols

/-!
# Comparisons that every combinator keeps

A reader that is put together from compared parts compares alike.
`Reader.Congruence` collects what this takes of a comparison, for which nothing has
to be known of the inputs.  The comparisons in use are equality and
`Reader.Simulates` with equal values, in either direction.
-/

namespace AvroResolution

namespace Reader

open Program

/-- Reads a value and forgets it. -/
def passed {α : Type} (x : Reader α) : Reader Unit := do
  let _ ← x
  return ()

/-- A comparison of readers that every combinator keeps. -/
structure Congruence (rel : (α : Type) → Reader α → Reader α → Prop) : Prop where
  refl {α : Type} (x : Reader α) : rel α x x
  bind {α β : Type} {x y : Reader α} {f g : α → Reader β} (hx : rel α x y)
    (hf : ∀ value, rel β (f value) (g value)) : rel β (x >>= f) (y >>= g)
  array {x y : Reader Value} (hx : rel Value x y) : rel Value (readArray x) (readArray y)
  map {x y : Reader Value} (hx : rel Value x y) : rel Value (readMap x) (readMap y)
  replay {x y : Reader Value} (hx : rel Value x y) (bytes : List UInt8) :
    rel (Value × Nat) (Program.replay x bytes) (Program.replay y bytes)

theorem Simulates.refl {α : Type} {counts : DecodeFault → Prop} (x : Reader α) :
    Simulates (fun _ => True) counts Eq x x :=
  .intro (fun _ value _ _ hx => ⟨trivial, value, hx, rfl⟩) fun _ _ _ _ hx _ => hx

namespace Congruence

/-- Equal values, and equal faults of the kind that counts. -/
theorem simulates (counts : DecodeFault → Prop) :
    Congruence fun _ => Simulates (fun _ => True) counts Eq where
  refl := Simulates.refl
  bind := by
    intro α β x y f g hx hf
    refine .bind hx ?_
    rintro value _ rfl
    exact hf value
  array := by
    intro x y hx
    refine .readArray closed_true hx ?_
    intro items others h
    rw [List.forall₂_eq_eq_eq] at h
    rw [h]
  map := by
    intro x y hx
    refine .readMap closed_true hx ?_
    intro entries others h
    rw [Simulates.eq_of_sameEntries h]
  replay := fun hx _ => replay_simulates trivial hx

/-- Equality. -/
protected theorem eq : Congruence fun _ => Eq where
  refl := fun _ => rfl
  bind := fun hx hf => by rw [hx, funext hf]
  array := fun hx => by rw [hx]
  map := fun hx => by rw [hx]
  replay := fun hx _ => by rw [hx]

variable {rel : (α : Type) → Reader α → Reader α → Prop}

theorem flip (hrel : Congruence rel) : Congruence fun α x y => rel α y x where
  refl := hrel.refl
  bind := hrel.bind
  array := hrel.array
  map := hrel.map
  replay := hrel.replay

theorem of_eq (hrel : Congruence rel) {α : Type} {x y : Reader α} (h : x = y) : rel α x y := by
  subst h
  exact hrel.refl x

theorem branchIndex (hrel : Congruence rel) {α : Type} {count count' : Nat} (h : count = count')
    {f : Fin count → Reader α} {g : Fin count' → Reader α}
    (hfg : ∀ index hindex hindex', rel α (f ⟨index, hindex⟩) (g ⟨index, hindex'⟩)) :
    rel α (Reader.branchIndex count >>= f) (Reader.branchIndex count' >>= g) := by
  subst h
  exact hrel.bind (hrel.refl _) fun index => hfg index.val index.isLt index.isLt

/-! ## Records -/

/-- Two parts of a record are compared, and both values are kept or dropped.  A value that is
dropped does not matter. -/
inductive Part (rel : (α : Type) → Reader α → Reader α → Prop) : FieldRead → FieldRead → Prop
  | kept {x y : Reader Value} (h : rel Value x y) : Part rel (.kept x) (.kept y)
  | dropped {x y : Reader Value} (h : rel Unit x.passed y.passed) :
      Part rel (.dropped x) (.dropped y)

theorem passed (hrel : Congruence rel) {x y : Reader Value} (h : rel Value x y) :
    rel Unit x.passed y.passed :=
  hrel.bind h fun _ => hrel.refl _

theorem readEach (hrel : Congruence rel) {parts others : List FieldRead}
    (h : List.Forall₂ (Part rel) parts others) (values : List Value) :
    rel _ (Program.readEach parts values) (Program.readEach others values) := by
  induction h generalizing values with
  | nil => exact hrel.refl _
  | cons hpart _ ih =>
    cases hpart with
    | kept h => exact hrel.bind h fun value => ih (value :: values)
    | @dropped x y h =>
      have hrest (x : Reader Value) (rest : List FieldRead) :
          Program.readEach (.dropped x :: rest) values =
            (x.passed >>= fun _ => Program.readEach rest values) := by
        rw [Reader.passed, bind_assoc, Program.readEach]
        exact bind_congr fun _ => (pure_bind () fun _ => Program.readEach rest values).symm
      rw [hrest, hrest]
      exact hrel.bind h fun _ => ih values

theorem readRecord (hrel : Congruence rel) {parts others : List FieldRead}
    (h : List.Forall₂ (Part rel) parts others) (arrivals : List Arrival) :
    rel _ (Program.readRecord arrivals parts) (Program.readRecord arrivals others) :=
  hrel.bind (hrel.readEach h []) fun _ => hrel.refl _

end Congruence

end Reader

end AvroResolution
