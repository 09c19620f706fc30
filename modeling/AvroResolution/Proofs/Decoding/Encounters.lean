import AvroResolution.Proofs.Decoding.Typing
import AvroResolution.Proofs.Decoding.Symbols
import AvroResolution.Proofs.Program.Reachable

/-!
# Mismatches on the way

A run meets only mismatches to which references lead from the symbol that it runs.  This is so of
every program, compiled or not: a run of a symbol runs its children, or the children of those.

* `Program.Encounters` lists the faults that a run from a symbol may meet, and
  `Program.MeetsFrom` says of a reader that it meets no others.
* `Program.meetsFrom_runStep` is the step from the runs of the symbols that it leads to.
* `Program.exists_of_decode` says so of whole programs.
-/

namespace AvroResolution

namespace Program

variable {program : Program} {run : SymbolId → Reader Value} {start id : SymbolId}

/-- The faults that a run from a symbol may meet: a mismatch must be one that it leads to. -/
def Encounters (program : Program) (start : SymbolId) (fault : DecodeFault) : Prop :=
  ∀ cause, fault = .mismatch cause →
    ∃ id, program.Leads start id ∧ program.symbol? id = some (.mismatch cause)

/-- The reader fails with nothing that a run from the symbol may not meet. -/
abbrev MeetsFrom (program : Program) (start : SymbolId) {α : Type} (x : Reader α) : Prop :=
  Reader.Ensures (fun _ => True) (program.Encounters start) x

theorem encounters_of_ofData {fault : DecodeFault} (h : fault.ofData) :
    program.Encounters start fault := by
  rintro cause rfl
  exact h.elim

theorem encounters_program (fault : ProgramFault) : program.Encounters start (.program fault) :=
  nofun

/-! ## Parts without references -/

theorem ensures_fetch (program : Program) (start id : SymbolId) :
    Reader.Ensures (fun symbol => program.symbol? id = some symbol) (program.Encounters start)
      (program.fetch id) := by
  cases h : program.symbol? id with
  | none =>
    rw [fetch_of_none h]
    exact .throw (encounters_program _)
  | some symbol =>
    rw [fetch_of_some h]
    exact .pure rfl

theorem ensures_fetchSecond (program : Program) (start : SymbolId) (rest : List SymbolId) :
    Reader.Ensures (fun second => ∀ symbol, second = some symbol →
      ∃ id ∈ rest, program.symbol? id = some symbol) (program.Encounters start)
      (program.fetchSecond rest) := by
  cases rest with
  | nil => exact .pure nofun
  | cons id rest =>
    rw [fetchSecond, map_eq_pure_bind]
    refine .bind (ensures_fetch program start id) fun symbol hsymbol => .pure ?_
    rintro _ ⟨⟩
    exact ⟨id, .head _, hsymbol⟩

theorem encounters_of_apply {promotion : Promotion} {value : Value} {fault : DecodeFault}
    (h : promotion.apply value = .error fault) : program.Encounters start fault := by
  obtain ⟨cause, rfl⟩ | rfl := Promotion.fault_of_apply h
  · exact encounters_of_ofData trivial
  · exact nofun

theorem meetsFrom_of_scalar {α : Type} {x : Reader α} (h : Reader.Scalar x) :
    program.MeetsFrom start x :=
  h.faults.mono (fun _ h => h) fun _ => encounters_of_ofData

theorem meetsFrom_readTerminal (program : Program) (start : SymbolId) (terminal : Terminal) :
    program.MeetsFrom start (readTerminal terminal) := by
  cases terminal with
  | primitive type => exact meetsFrom_of_scalar (Reader.scalar_readTerminal type)
  | fixed size => exact meetsFrom_of_scalar (Reader.scalar_readFixed size)
  | _ => exact .throw (encounters_program _)

theorem ensures_replay {value : Reader Value} {bad : DecodeFault → Prop}
    (hvalue : Reader.Ensures (fun _ => True) bad value) (bytes : List UInt8) :
    Reader.Ensures (fun _ => True) bad (replay value bytes) := by
  intro input
  rw [replay]
  cases hrun : value (.ofList bytes) with
  | ok content rest => trivial
  | error fault rest => exact hvalue.of_error hrun

/-! ## One symbol -/

variable (hrun : ∀ id, program.Leads start id → program.MeetsFrom start (run id))
include hrun

theorem meetsFrom_readDefault (inject : SymbolId) (bytes : List UInt8) {value : SymbolId}
    (last : SymbolId) (hvalue : program.Leads start value) :
    program.MeetsFrom start (program.readDefault run inject bytes value last) := by
  refine .bind (ensures_fetch program start last) fun symbol _ => ?_
  cases symbol with
  | injectEnd =>
    refine .bind (ensures_replay (hrun value hvalue) bytes) fun answer _ => ?_
    dsimp only
    split
    · exact .pure trivial
    · exact .throw (encounters_program _)
  | _ => exact .throw (encounters_program _)

/-- The induction follows the children; an injected default takes three of them. -/
theorem meetsFrom_readFields :
    ∀ (children : List SymbolId) (values : List Value),
      (∀ child ∈ children, program.Leads start child) →
        program.MeetsFrom start (program.readFields run children values)
  | [], _, _ => .throw (encounters_program _)
  | id :: rest, values, hchildren => by
    have hid := hchildren id (.head _)
    have hrest : ∀ child ∈ rest, program.Leads start child :=
      fun child hchild => hchildren child (.tail _ hchild)
    unfold readFields
    refine .bind (ensures_fetch program start id) fun symbol hsymbol => ?_
    cases symbol with
    | skip symbol =>
      have hskipped := hid.tail (mem_childrenOf hsymbol (.head _))
      exact .bind (hrun symbol hskipped) fun _ _ => meetsFrom_readFields rest values hrest
    | inject type bytes =>
      rcases rest with _ | ⟨value, _ | ⟨last, more⟩⟩
      · exact .throw (encounters_program _)
      · exact .throw (encounters_program _)
      · exact .bind (meetsFrom_readDefault hrun id bytes last (hrest value (.head _)))
          fun content _ => meetsFrom_readFields more (content :: values)
            fun child hchild => hrest child (.tail _ (.tail _ hchild))
    | reorder arrivals => exact .ofExcept (fun _ _ => trivial) fun _ _ => encounters_program _
    | _ =>
      exact .bind (hrun id hid) fun value _ => meetsFrom_readFields rest (value :: values) hrest

theorem meetsFrom_branch {alternative : SymbolId} {branches : List Branch}
    (halternative : program.symbol? alternative = some (.alternative branches))
    (hleads : program.Leads start alternative) (index : Fin branches.length) :
    program.MeetsFrom start (run (branches.get index).symbol) :=
  hrun _ (hleads.tail (mem_childrenOf halternative
    (List.mem_map_of_mem (List.getElem_mem index.isLt))))

/-- The second symbol of a collection or a union refers to the symbols that read its parts. -/
theorem meetsFrom_runOpened {children : List SymbolId}
    (hchildren : ∀ child ∈ children, program.Leads start child) (head : Symbol)
    {second : Option Symbol}
    (hsecond : ∀ symbol, second = some symbol →
      ∃ id ∈ children, program.symbol? id = some symbol) :
    program.MeetsFrom start (program.runOpened run children head second) := by
  have hbody {collection : Collection} {body : List SymbolId}
      (hopened : second = some (.repetition collection body)) :
      ∀ part ∈ body, program.MeetsFrom start (run part) := by
    intro part hpart
    obtain ⟨id, hid, hsymbol⟩ := hsecond _ hopened
    exact hrun part ((hchildren id hid).tail (mem_childrenOf hsymbol hpart))
  unfold runOpened
  split
  · split
    · exact (Reader.Ensures.readArray (fun _ => encounters_of_ofData) (hbody rfl _ (.head _))).mono
        (fun _ _ => trivial) fun _ h => h
    · exact .throw (encounters_program _)
  · split
    · exact (Reader.Ensures.readMap (fun _ => encounters_of_ofData)
        (hbody rfl _ (.tail _ (.head _)))).mono (fun _ _ => trivial) fun _ h => h
    · exact .throw (encounters_program _)
  · exact meetsFrom_of_scalar (Reader.scalar_readEnum _)
  · obtain ⟨id, hid, hsymbol⟩ := hsecond _ rfl
    exact .bind (meetsFrom_of_scalar (Reader.scalar_branchIndex _)) fun index _ =>
      .bind (meetsFrom_branch hrun hsymbol (hchildren id hid) index) fun _ _ => .pure trivial
  · exact meetsFrom_readFields hrun children [] hchildren

theorem meetsFrom_runSequence {children : List SymbolId}
    (hchildren : ∀ child ∈ children, program.Leads start child) :
    program.MeetsFrom start (program.runSequence run children) := by
  cases children with
  | nil => exact .throw (encounters_program _)
  | cons first rest =>
    rw [runSequence_cons]
    refine .bind (ensures_fetch program start first) fun head _ =>
      .bind (ensures_fetchSecond program start rest) fun second hsecond => ?_
    refine meetsFrom_runOpened hrun hchildren head fun symbol hsymbol => ?_
    obtain ⟨id, hid, hfound⟩ := hsecond symbol hsymbol
    exact ⟨id, .tail _ hid, hfound⟩

/-- A symbol to which references lead meets nothing else when no symbol below it does. -/
theorem meetsFrom_runStep (hid : program.Leads start id) :
    program.MeetsFrom start (program.runStep run id) := by
  refine .bind (ensures_fetch program start id) fun symbol hsymbol => ?_
  have hchild {child : SymbolId} (h : child ∈ symbol.children) : program.Leads start child :=
    hid.tail (mem_childrenOf hsymbol h)
  cases symbol with
  | terminal terminal => exact meetsFrom_readTerminal program start terminal
  | sequence children => exact meetsFrom_runSequence hrun fun _ => hchild
  | alternative branches =>
    exact .bind (meetsFrom_of_scalar (Reader.scalar_branchIndex _)) fun index _ =>
      meetsFrom_branch hrun hsymbol hid index
  | promote symbol promotion =>
    exact .bind (hrun symbol (hchild (.head _))) fun value _ =>
      .ofExcept (fun _ _ => trivial) fun _ => encounters_of_apply
  | select alternative => exact hrun alternative (hchild (.head _))
  | adjust index symbol =>
    exact .bind (hrun symbol (hchild (.head _))) fun _ _ => .pure trivial
  | mismatch cause =>
    refine .throw ?_
    rintro _ ⟨⟩
    exact ⟨id, hid, hsymbol⟩
  | _ => exact .throw (encounters_program _)

omit hrun

/-! ## Whole runs -/

/-- A run meets only mismatches to which references lead from where it starts.  The induction is
on its depth. -/
theorem meetsFrom_runWithin (program : Program) {start id : SymbolId} (depth : Nat)
    (hid : program.Leads start id) :
    program.MeetsFrom start (program.runWithin depth id) := by
  induction depth generalizing id with
  | zero => exact .throw nofun
  | succ depth ih => exact meetsFrom_runStep (fun _ => ih) hid

/-- A mismatch that decoding meets is one that the root leads to. -/
theorem exists_of_decode {cause : Mismatch} {input rest : Input}
    (h : program.decode input = .error (.mismatch cause) rest) :
    ∃ id, program.Leads program.root id ∧ program.symbol? id = some (.mismatch cause) :=
  (program.meetsFrom_runWithin _ .refl).of_error h cause rfl

end Program

end AvroResolution
