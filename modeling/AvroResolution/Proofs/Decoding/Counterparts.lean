import AvroResolution.Proofs.Decoding.Congruence
import AvroResolution.Proofs.Lists

/-!
# Programs of counterparts

Two programs that have counterparts at the same places are run alike.

* `Symbol.Counterpart` compares two symbols.  They may be remaps of different enums, as far as
  reading the enums compares, and they may inject the same default under different types.
* `Program.Counterpart.runWithin` compares the runs of two programs, with one lemma for each
  function that runs symbols.
-/

namespace AvroResolution

open Reader

/-- The symbols are the same but for what is compared of enums, and for the types of
defaults. -/
inductive Symbol.Counterpart (rel : (α : Type) → Reader α → Reader α → Prop) :
    Symbol → Symbol → Prop
  | same (symbol : Symbol) : Counterpart rel symbol symbol
  | remap {adjustment other : EnumAdjustment}
      (henum : rel Value (Program.readEnum adjustment) (Program.readEnum other)) :
      Counterpart rel (.remap adjustment) (.remap other)
  | inject (type other : Schema) (bytes : List UInt8) :
      Counterpart rel (.inject type bytes) (.inject other bytes)

namespace Program

/-- The programs have counterparts at the same places. -/
def Counterpart (rel : (α : Type) → Reader α → Reader α → Prop) (program other : Program) : Prop :=
  List.Forall₂ (Symbol.Counterpart rel) program.symbols.toList other.symbols.toList

namespace Counterpart

variable {rel : (α : Type) → Reader α → Reader α → Prop} (hrel : Congruence rel)
  {program other : Program} (h : Counterpart rel program other) {run run' : SymbolId → Reader Value}
include hrel h

theorem fetch_bind {α : Type} (id : SymbolId) {next next' : Symbol → Reader α}
    (hnext : ∀ symbol symbol', Symbol.Counterpart rel symbol symbol' →
      rel α (next symbol) (next' symbol')) :
    rel α (program.fetch id >>= next) (other.fetch id >>= next') := by
  have hid : Option.Rel (Symbol.Counterpart rel) (program.symbol? id) (other.symbol? id) := by
    rw [symbol?, symbol?, ← Array.getElem?_toList, ← Array.getElem?_toList]
    exact rel_getElem? h id
  cases hsymbol : program.symbol? id with
  | none =>
    cases hother : other.symbol? id with
    | none =>
      rw [fetch_of_none hsymbol, fetch_of_none hother]
      exact hrel.bind (hrel.refl _) fun symbol => hnext symbol symbol (.same symbol)
    | some symbol' =>
      rw [hsymbol, hother] at hid
      cases hid
  | some symbol =>
    cases hother : other.symbol? id with
    | none =>
      rw [hsymbol, hother] at hid
      cases hid
    | some symbol' =>
      rw [hsymbol, hother] at hid
      rw [fetch_of_some hsymbol, fetch_of_some hother, pure_bind, pure_bind]
      cases hid with
      | some hsymbols => exact hnext symbol symbol' hsymbols

section

variable (hrun : ∀ id, rel Value (run id) (run' id))
include hrun

theorem readDefault (inject : SymbolId) (bytes : List UInt8) (value last : SymbolId) :
    rel Value (program.readDefault run inject bytes value last)
      (other.readDefault run' inject bytes value last) := by
  refine h.fetch_bind hrel last fun symbol symbol' hsymbol => ?_
  cases hsymbol with
  | same symbol =>
    cases symbol with
    | injectEnd => exact hrel.bind (hrel.replay (hrun value) bytes) fun _ => hrel.refl _
    | _ => exact hrel.refl _
  | remap => exact hrel.refl _
  | inject => exact hrel.refl _

/-- The induction follows the children; an injected default takes three of them. -/
theorem readFields : ∀ (children : List SymbolId) (values : List Value),
    rel Value (program.readFields run children values) (other.readFields run' children values)
  | [], _ => hrel.refl _
  | id :: rest, values => by
    have hkept : rel Value
        (run id >>= fun value => program.readFields run rest (value :: values))
        (run' id >>= fun value => other.readFields run' rest (value :: values)) :=
      hrel.bind (hrun id) fun value => readFields rest (value :: values)
    have hinject (bytes : List UInt8) (value last : SymbolId) (more : List SymbolId)
        (hrest : more.length < rest.length) : rel Value
        (program.readDefault run id bytes value last >>= fun content =>
          program.readFields run more (content :: values))
        (other.readDefault run' id bytes value last >>= fun content =>
          other.readFields run' more (content :: values)) :=
      hrel.bind (h.readDefault hrel hrun id bytes value last) fun content =>
        readFields more (content :: values)
    unfold Program.readFields
    refine h.fetch_bind hrel id fun symbol symbol' hsymbol => ?_
    cases hsymbol with
    | same symbol =>
      cases symbol with
      | skip symbol => exact hrel.bind (hrun symbol) fun _ => readFields rest values
      | inject type bytes =>
        rcases rest with _ | ⟨value, _ | ⟨last, more⟩⟩
        · exact hrel.refl _
        · exact hrel.refl _
        · exact hinject bytes value last more (by simp only [List.length_cons]; omega)
      | reorder arrivals => exact hrel.refl _
      | _ => exact hkept
    | remap => exact hkept
    | inject type type' bytes =>
      rcases rest with _ | ⟨value, _ | ⟨last, more⟩⟩
      · exact hrel.refl _
      · exact hrel.refl _
      · exact hinject bytes value last more (by simp only [List.length_cons]; omega)
  termination_by children => children.length

/-- Only an enum is read by what stands in its second symbol. -/
theorem runOpened (children : List SymbolId) {head head' : Symbol} {second second' : Option Symbol}
    (hhead : Symbol.Counterpart rel head head')
    (hsecond : Option.Rel (Symbol.Counterpart rel) second second') :
    rel Value (program.runOpened run children head second)
      (other.runOpened run' children head' second') := by
  have hfields := h.readFields hrel hrun children []
  cases hhead with
  | remap => exact hfields
  | inject => exact hfields
  | same head =>
    have hsame (second : Option Symbol) : rel Value (program.runOpened run children head second)
        (other.runOpened run' children head second) := by
      unfold Program.runOpened
      split
      · split
        · exact hrel.array (hrun _)
        · exact hrel.refl _
      · split
        · exact hrel.map (hrun _)
        · exact hrel.refl _
      · exact hrel.refl _
      · exact hrel.bind (hrel.refl _) fun _ => hrel.bind (hrun _) fun _ => hrel.refl _
      · exact hfields
    cases hsecond with
    | none => exact hsame none
    | some hsymbols =>
      cases hsymbols with
      | same => exact hsame _
      | remap henum =>
        cases head with
        | terminal terminal =>
          cases terminal with
          | enum => exact henum
          | start collection => cases collection <;> exact hfields
          | _ => exact hfields
        | _ => exact hfields
      | inject =>
        cases head with
        | terminal terminal =>
          cases terminal with
          | start collection => cases collection <;> exact hfields
          | _ => exact hfields
        | _ => exact hfields

theorem runSequence (children : List SymbolId) :
    rel Value (program.runSequence run children) (other.runSequence run' children) := by
  cases children with
  | nil => exact hrel.refl _
  | cons first rest =>
    rw [runSequence_cons, runSequence_cons]
    refine h.fetch_bind hrel first fun head head' hhead => ?_
    cases rest with
    | nil => exact h.runOpened hrel hrun [first] hhead .none
    | cons id others =>
      simp only [fetchSecond, bind_map_left]
      exact h.fetch_bind hrel id fun second second' hsecond =>
        h.runOpened hrel hrun (first :: id :: others) hhead (.some hsecond)

theorem runStep (id : SymbolId) :
    rel Value (program.runStep run id) (other.runStep run' id) := by
  refine h.fetch_bind hrel id fun symbol symbol' hsymbol => ?_
  cases hsymbol with
  | remap => exact hrel.refl _
  | inject => exact hrel.refl _
  | same symbol =>
    cases symbol with
    | terminal terminal => exact hrel.refl _
    | sequence children => exact h.runSequence hrel hrun children
    | alternative branches => exact hrel.bind (hrel.refl _) fun _ => hrun _
    | promote symbol promotion => exact hrel.bind (hrun symbol) fun _ => hrel.refl _
    | select alternative => exact hrun alternative
    | adjust index symbol => exact hrel.bind (hrun symbol) fun _ => hrel.refl _
    | _ => exact hrel.refl _

end

/-- Counterparts run alike.  The induction is on the depth. -/
theorem runWithin (depth : Nat) (id : SymbolId) :
    rel Value (program.runWithin depth id) (other.runWithin depth id) := by
  induction depth generalizing id with
  | zero => exact hrel.refl _
  | succ depth ih => exact h.runStep hrel ih id

end Counterpart

/-- As many symbols can be run in as many ways. -/
theorem Counterpart.runDepth_eq {rel : (α : Type) → Reader α → Reader α → Prop}
    {program other : Program} (h : Counterpart rel program other) (length : Nat) :
    program.runDepth length = other.runDepth length := by
  have hlength : program.length = other.length := by
    rw [Program.length, Program.length, ← Array.length_toList, ← Array.length_toList, h.length_eq]
  have hstandpoints : program.standpoints length = other.standpoints length := by
    rw [standpoints, standpoints]
    unfold Counterpart at h
    generalize program.symbols.toList = symbols, other.symbols.toList = others at h ⊢
    induction h with
    | nil => rfl
    | cons hsymbol _ ih =>
      rw [List.foldr_cons, List.foldr_cons, ih]
      cases hsymbol <;> rfl
  rw [runDepth, runDepth, hlength, hstandpoints]

end Program

end AvroResolution
