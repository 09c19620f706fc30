import AvroResolution.Compatibility
import AvroResolution.Proofs.Decoding.Encounters
import AvroResolution.Proofs.Program.Traversal
import AvroResolution.Proofs.Resolution.Clashes

/-!
# What compatibility means

A pair of schemas is compatible when its program reaches no mismatch.

* `Program.Closed.reachable_exact` is the result.  The symbols that a program reaches are those
  to which references lead from its root, each once and in the order of the recursive walk; its
  errors are the messages of the mismatches among them, in that order; and a pair is compatible
  if and only if there are none, in which case decoding meets no mismatch.
-/

namespace AvroResolution

/-- The check of a pair lists what the program of the pair reaches. -/
theorem SchemaPair.check_of_program {pair : SchemaPair} {config : Config} {program : Program}
    (h : pair.program config = .ok program) :
    pair.check config = .ok (.ofProgram program) := by
  rw [check, h]
  rfl

theorem Compatibility.isCompatible_ofProgram (program : Program) :
    (Compatibility.ofProgram program).isCompatible = true ↔
      ¬program.LeadsToMismatch program.root := by
  rw [← Program.hasErrors_iff_leads, Program.hasErrors_iff, not_not]
  exact List.isEmpty_iff

namespace Program

theorem not_mismatch_of_not_leads {program : Program}
    (h : ¬program.LeadsToMismatch program.root) (input rest : Input) (cause : Mismatch) :
    program.decode input ≠ .error (.mismatch cause) rest := by
  intro hdecode
  obtain ⟨id, hleads, hid⟩ := exists_of_decode hdecode
  exact h ⟨id, cause, hleads, hid⟩

/-- In an arena without dangling references, whatever cycles there are and however often symbols
are shared, exactly what the root leads to is reached, each symbol once, in the order of the
recursive walk, which any depth beyond the number of symbols lets finish.

There are errors if and only if the root leads to a mismatch, and they are the messages of these
mismatches in the order of the walk.  A pair with this program is compatible if and only if the
root leads to no mismatch, and then decoding meets none. -/
theorem Closed.reachable_exact {program : Program} (h : program.Closed) :
    program.reachable.Nodup ∧ (∀ id, id ∈ program.reachable ↔ program.Leads program.root id) ∧
      (program.hasErrors = true ↔ program.LeadsToMismatch program.root) ∧
      (∀ depth, program.length < depth →
        program.reachable = program.visitWithin depth [] program.root ∧
          program.errors =
            (program.visitWithin depth [] program.root).filterMap program.messageAt?) ∧
      ∀ (pair : SchemaPair) (config : Config), pair.program config = .ok program →
        ∃ result, pair.check config = .ok result ∧ result.errors = program.errors ∧
          (result.isCompatible = true ↔ ¬program.LeadsToMismatch program.root) ∧
            (result.isCompatible = true → ∀ input rest cause,
              program.decode input ≠ .error (.mismatch cause) rest) := by
  refine ⟨program.nodup_reachable, fun _ => h.mem_reachable_iff, hasErrors_iff_leads, ?_, ?_⟩
  · intro depth hdepth
    have hreachable := h.reachable_eq hdepth
    exact ⟨hreachable, hreachable ▸ program.errors_eq⟩
  · intro pair config hprogram
    have hcompatible := Compatibility.isCompatible_ofProgram program
    refine ⟨.ofProgram program, SchemaPair.check_of_program hprogram, rfl, hcompatible, ?_⟩
    exact fun hresult => not_mismatch_of_not_leads (hcompatible.1 hresult)

end Program

namespace SchemaPair

/-- A tree whose nodes have labels of the given type. -/
def labelledTree (label : Schema) : Schema :=
  .record ⟨"Tree", none, []⟩
    [⟨"label", label, none, []⟩,
      ⟨"left", .union [.primitive .null, .reference "Tree"], none, []⟩,
      ⟨"others", .array (.reference "Tree"), none, []⟩]

/-- Trees with numbers as labels, read as trees with flags. -/
def labelledTrees : SchemaPair :=
  .twoTrees (labelledTree (.primitive .int)) (labelledTree (.primitive .boolean))

theorem reachable_exact_trees :
    ∃ program, labelledTrees.program {} = .ok program ∧ program.Closed ∧ program.length < 12 ∧
      program.LeadsToMismatch program.root ∧ program.errors = ["Found int, expecting boolean"] ∧
        ∃ result, labelledTrees.check {} = .ok result ∧ ¬result.isCompatible = true := by
  obtain ⟨program, hprogram, h⟩ := Reader.exists_ok (labelledTrees.program {})
    (fun program => decide (program.Closed ∧ program.length < 12 ∧
      (program.visitWithin 12 [] program.root).filterMap program.messageAt? =
        ["Found int, expecting boolean"])) (by decide +kernel)
  obtain ⟨hclosed, hlength, hvisited⟩ := of_decide_eq_true h
  obtain ⟨-, -, hiff, hwalk, hcheck⟩ := Program.Closed.reachable_exact hclosed
  have herrors := (hwalk 12 hlength).2.trans hvisited
  have hleads : program.LeadsToMismatch program.root := by
    refine hiff.1 (Program.hasErrors_iff.2 fun hnone => ?_)
    rw [Program.errors, hnone] at herrors
    cases herrors
  obtain ⟨result, hresult, _, hcompatible, _⟩ := hcheck labelledTrees {} hprogram
  exact ⟨program, hprogram, hclosed, hlength, hleads, herrors, result, hresult,
    fun h => hcompatible.1 h hleads⟩

end SchemaPair

end AvroResolution
