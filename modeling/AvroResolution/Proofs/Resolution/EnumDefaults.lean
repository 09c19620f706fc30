import AvroResolution.Proofs.Compilation.EnumDefaults
import AvroResolution.Proofs.Decoding.Counterparts
import AvroResolution.Proofs.Decoding.Depth

/-!
# Enum defaults turn failures into values only

Allowing enum defaults lets data be read that could not be read before, and changes nothing
else.

* `DecodeFault.unmapped` are the faults that enum defaults can spare.
* `Program.Completes.decode` compares what two programs read of which the second one maps more
  places of enums.
* `SchemaPair.program_enumDefaults` is the result for the two programs of a pair of schemas.
-/

namespace AvroResolution

/-- A place of an enum that leads nowhere. -/
def DecodeFault.unmapped : DecodeFault → Prop
  | .unmappedOrdinal _ => True
  | _ => False

/-! ## Running the two programs -/

namespace EnumAdjustment.Completes

variable {before after : EnumAdjustment}

theorem resolve (h : before.Completes after) (ordinal : Nat) :
    before.resolve ordinal = none ∨ after.resolve ordinal = before.resolve ordinal := by
  have hordinal := rel_getElem? h.ordinals ordinal
  rw [EnumAdjustment.resolve, EnumAdjustment.resolve]
  generalize before.ordinals[ordinal]? = old, after.ordinals[ordinal]? = new at hordinal ⊢
  cases hordinal with
  | none => exact .inl rfl
  | some hsame => exact hsame.imp id id

theorem simulates_readEnum (h : before.Completes after) :
    Reader.Simulates (fun _ => True) (¬·.unmapped) Eq (Program.readEnum before)
      (Program.readEnum after) := by
  have hcongruence := Reader.Congruence.simulates (¬DecodeFault.unmapped ·)
  refine hcongruence.bind (hcongruence.refl _) fun ordinal => ?_
  split
  · exact hcongruence.refl _
  · dsimp only
    rcases h.resolve ordinal.toInt.toNat with hnone | hsame
    · rw [hnone]
      exact .throw_left (fun hcounts => hcounts trivial) _
    · rw [hsame, h.symbols]
      exact hcongruence.refl _

end EnumAdjustment.Completes

namespace Program.Completes

variable {program other : Program}

theorem counterpart (h : program.Completes other) :
    Program.Counterpart (fun _ => Reader.Simulates (fun _ => True) (¬·.unmapped) Eq) program
      other := by
  refine h.symbols.imp fun symbol symbol' hsymbol => ?_
  cases hsymbol with
  | same => exact .same _
  | remap hremap => exact .remap hremap.simulates_readEnum

/-- What the first program reads, the second one reads. -/
theorem decode (h : program.Completes other) :
    Reader.Simulates (fun _ => True) (¬·.unmapped) Eq program.decode other.decode := by
  intro input hinput
  have hrun := h.counterpart.runWithin (Reader.Congruence.simulates _)
    (program.runDepth input.length) program.root input hinput
  rw [Program.decode, Program.decode, ← h.counterpart.runDepth_eq, h.root]
  exact hrun

end Program.Completes

/-! ## Pairs of schemas -/

namespace SchemaPair

theorem agrees_build (pair : SchemaPair) (fieldAliases : Bool) :
    Agrees Compile.SameResult (pair.build ⟨false, fieldAliases⟩)
      (pair.build ⟨true, fieldAliases⟩) :=
  Compile.accords_resolving (pair.context ⟨false, fieldAliases⟩) _ _ _ _ _ Builder.completes_empty

/-- Enum defaults turn failures into values, and do nothing else.  Whether they are allowed or
not, two schemas have no program for the same reason, or their programs start at the same
symbol and have the same symbols at the same places, up to places of enums that lead nowhere
without the defaults.  What the program without them reads, the program with them reads too,
leaving the same bytes.  Faults stay as well, but for a place of an enum that leads nowhere. -/
theorem program_enumDefaults (pair : SchemaPair) (fieldAliases : Bool) :
    match pair.program ⟨false, fieldAliases⟩, pair.program ⟨true, fieldAliases⟩ with
    | .error fault, .error fault' => fault' = fault
    | .ok before, .ok after => before.Completes after ∧
        ∀ input, match before.decode input with
          | .ok value rest => after.decode input = .ok value rest
          | .error fault rest => ¬fault.unmapped → after.decode input = .error fault rest
    | _, _ => False := by
  have hagrees : Agrees Program.Completes (pair.program ⟨false, fieldAliases⟩)
      (pair.program ⟨true, fieldAliases⟩) := by
    rw [program_eq, program_eq]
    refine (pair.agrees_build fieldAliases).bind ?_
    rintro ⟨_, builder⟩ ⟨id, other⟩ ⟨rfl, hbuilder⟩
    exact hbuilder.finish id
  generalize pair.program ⟨false, fieldAliases⟩ = before, pair.program ⟨true, fieldAliases⟩ = after
    at hagrees ⊢
  cases hagrees with
  | error fault => rfl
  | ok hcompletes =>
    refine ⟨hcompletes, fun input => ?_⟩
    split
    · rename_i value rest hdecode
      obtain ⟨_, _, hafter, rfl⟩ := hcompletes.decode.of_ok trivial hdecode
      exact hafter
    · rename_i fault rest hdecode
      exact fun hfault => hcompletes.decode.of_error trivial hdecode hfault

/-- The reader knows one of two suits, and takes it for the other one. -/
def suits : SchemaPair :=
  .twoTrees (.enum ⟨"Suit", none, []⟩ ["spades", "hearts"] none)
    (.enum ⟨"Suit", none, []⟩ ["hearts"] (some "hearts"))

/-- Of the two suits, the reader reads both with enum defaults and one without them. -/
theorem program_enumDefaults_suits :
    ∃ before after, suits.program ⟨false, true⟩ = .ok before ∧
      suits.program ⟨true, true⟩ = .ok after ∧ before.Completes after ∧
        (∃ rest, before.decode (.ofList [0]) = .error (.unmappedOrdinal 0) rest) ∧
          Reader.isValue (after.decode (.ofList [0])) = true ∧
            ∃ value rest, before.decode (.ofList [2]) = .ok value rest ∧
              after.decode (.ofList [2]) = .ok value rest := by
  obtain ⟨before, hbefore, hreads⟩ := Reader.exists_ok (suits.program ⟨false, true⟩)
    (fun before =>
      (match before.decode (.ofList [0]) with
        | .error (.unmappedOrdinal 0) _ => true
        | _ => false) && Reader.isValue (before.decode (.ofList [2]))) (by decide +kernel)
  obtain ⟨after, hafter, hspades⟩ := Reader.exists_ok (suits.program ⟨true, true⟩)
    (fun after => Reader.isValue (after.decode (.ofList [0]))) (by decide +kernel)
  obtain ⟨hunmapped, hhearts⟩ := Bool.and_eq_true_iff.1 hreads
  have hboth := program_enumDefaults suits true
  rw [hbefore, hafter] at hboth
  obtain ⟨hcompletes, hdecode⟩ := hboth
  refine ⟨before, after, hbefore, hafter, hcompletes, ?_, hspades, ?_⟩
  · split at hunmapped
    · rename_i rest hfault
      exact ⟨rest, hfault⟩
    · cases hunmapped
  · obtain ⟨value, rest, hvalue⟩ := Reader.exists_value hhearts
    have hsame := hdecode (.ofList [2])
    rw [hvalue] at hsame
    exact ⟨value, rest, hvalue, hsame⟩

end SchemaPair

end AvroResolution
