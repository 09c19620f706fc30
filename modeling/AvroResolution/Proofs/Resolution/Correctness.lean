import AvroResolution.Proofs.Decoding.Depth
import AvroResolution.Proofs.Resolution.Direct
import AvroResolution.Proofs.Resolution.Picks
import AvroResolution.Proofs.Resolution.Safety

/-!
# Compiled programs do what resolution says

A compiled program decodes what `Context.directWithin` reads, which walks both trees
without a program.

* `Program.Built.resembles_direct` compares the run of one symbol with the reader of
  the two nodes, given the same comparison below them.  It holds for every comparison
  that the combinators keep.
* By induction on the depth, a run gives only values that direct resolution gives, and
  where the picks stand the two give the same answers.
* `SchemaPair.decode_eq_direct` is the result for whole programs.
-/

namespace AvroResolution

namespace Program

variable {context : Context} {program : Program} {builder : Builder} {id : SymbolId}
  {rel : (α : Type) → Reader α → Reader α → Prop} {read : Node → Node → Reader Value}
  {run : SymbolId → Reader Value}

open Reader

/-! ## Fields -/

/-- A default that its reader takes leaves nothing over. -/
theorem readWhole_of_takes {x : Reader Value} {bytes : List UInt8} (hx : Takes x bytes)
    (inject : SymbolId) :
    readWhole x bytes inject = (do
      let (value, _) ← replay x bytes
      return value) := by
  funext input
  rw [readWhole, bind_run, bind_run, replay]
  have htakes := hx []
  rw [List.append_nil] at htakes
  cases hrun : x (.ofList bytes) with
  | error fault rest => rfl
  | ok value rest =>
    rw [hrun] at htakes
    obtain rfl : rest = .ofList [] := htakes
    rfl

theorem parts_written {pairs : List (Field Node × Option ReaderField)} {parts : List FieldRead}
    (hread : ∀ field link symbol, (field, some link) ∈ pairs →
      builder.Reads context field.type link.field.type symbol → program.Leads id symbol →
        rel Value (run symbol) (read field.type link.field.type))
    (hskip : ∀ field symbol, (field, none) ∈ pairs →
      builder.Reads context field.type field.type symbol → program.Leads id symbol →
        rel Unit (run symbol).passed (read field.type field.type).passed)
    (h : List.Forall₂ (WrittenRead context program builder run id) pairs parts) :
    List.Forall₂ (Congruence.Part rel) parts (pairs.map (Context.directWritten read)) := by
  rw [List.forall₂_map_right_iff]
  induction h with
  | nil => exact .nil
  | cons hpart _ ih =>
    refine .cons ?_ (ih (fun field link symbol hmem => hread field link symbol (.tail _ hmem))
      fun field symbol hmem => hskip field symbol (.tail _ hmem))
    cases hpart with
    | linked hsymbol hleads => exact .kept (hread _ _ _ (.head _) hsymbol hleads)
    | dropped hvalue hleads => exact .dropped (hskip _ _ (.head _) hvalue hleads)

theorem parts_defaulted (hrel : Congruence rel) {fields : List DefaultedField}
    {parts : List FieldRead}
    (htakes : ∀ field ∈ fields, ∀ bytes value,
      encodeDefault (context.registry field.reader.field.type.side) field.reader.field.type
        field.default = .ok bytes →
      builder.Reads context field.reader.field.type field.reader.field.type value →
        Takes (run value) bytes)
    (hread : ∀ field ∈ fields, ∀ value,
      builder.Reads context field.reader.field.type field.reader.field.type value →
        program.Leads id value →
          rel Value (run value) (read field.reader.field.type field.reader.field.type))
    (h : List.Forall₂ (DefaultRead context program builder run id) fields parts) :
    List.Forall₂ (Congruence.Part rel) parts
      (fields.map fun field => .kept (context.directDefaulted read field)) := by
  rw [List.forall₂_map_right_iff]
  induction h with
  | nil => exact .nil
  | cons hpart _ ih =>
    refine .cons ?_ (ih (fun field hmem => htakes field (.tail _ hmem))
      fun field hmem => hread field (.tail _ hmem))
    cases hpart with
    | intro hbytes hvalue hleads =>
      rw [readWhole_of_takes (htakes _ (.head _) _ _ hbytes hvalue)]
      refine .kept ?_
      rw [Context.directDefaulted]
      dsimp only
      rw [hbytes]
      exact hrel.bind (hrel.replay (hread _ (.head _) _ hvalue hleads) _) fun _ => hrel.refl _

/-! ## Runs -/

/-- The run of a symbol is compared with reading the two nodes, given the comparison
below them.  For a node that is skipped it is enough to compare what is taken.  The exceptions
are a run too short to look at the symbol and a pair that was picked too early. -/
theorem Built.resembles_direct (hbuilt : program.Built context builder)
    (haddressable : context.Addressable) (hrel : Congruence rel) {depth : Nat}
    {writer reader : Node}
    (hendless : depth < 2 → rel Value (throw .endless) (context.directStep read writer reader))
    (hmispicked : ∀ w r symbol, builder.Adjusts context w r id symbol → context.Misfit w r →
      rel Value (program.runWithin depth id) (context.directStep read writer reader))
    (hread : ∀ less < depth, depth ≤ less + 2 → ∀ inner inner' symbol,
      builder.Reads context inner inner' symbol → context.Holds inner → context.Holds inner' →
        inner'.side = reader.side → program.Leads id symbol →
          rel Value (program.runWithin less symbol) (read inner inner'))
    (hskip : ∀ less < depth, depth ≤ less + 2 → ∀ node symbol,
      builder.Reads context node node symbol → context.Holds node → node.side = writer.side →
        program.Leads id symbol →
          rel Unit (program.runWithin less symbol).passed (read node node).passed)
    (hreads : builder.Reads context writer reader id) (hwriter : context.Holds writer)
    (hreader : context.Holds reader) :
    rel Value (program.runWithin depth id) (context.directStep read writer reader) := by
  have hruns := hbuilt.runs hreads depth
  generalize program.runWithin depth id = x at hruns hmispicked ⊢
  cases hruns with
  | endless hdepth => exact hendless hdepth
  | atom hreading =>
    obtain ⟨shape, _, hdirect⟩ := Context.directStep_eq read hreading
    rw [hdirect]
    exact hrel.refl _
  | promotion hreading =>
    obtain ⟨shape, _, hdirect⟩ := Context.directStep_eq read hreading
    rw [hdirect]
    exact hrel.refl _
  | mismatch hreading =>
    obtain ⟨shape, _, hdirect⟩ := Context.directStep_eq read hreading
    rw [hdirect]
    exact hrel.refl _
  | enum hreading =>
    obtain ⟨shape, _, hdirect⟩ := Context.directStep_eq read hreading
    rw [hdirect]
    exact hrel.of_eq (readEnum_between _ _ _ _)
  | array hreading hless hnear hitem hleads =>
    obtain ⟨hwi, hri⟩ := Context.holds_of_reading hwriter hreader hreading
    have hside := Context.side_of_reading hreader hreading
    obtain ⟨shape, _, hdirect⟩ := Context.directStep_eq read hreading
    rw [hdirect]
    exact hrel.array (hread _ hless hnear _ _ _ hitem hwi hri hside hleads)
  | map hreading hless hnear hvalue hleads =>
    obtain ⟨hwv, hrv⟩ := Context.holds_of_reading hwriter hreader hreading
    have hside := Context.side_of_reading hreader hreading
    obtain ⟨shape, _, hdirect⟩ := Context.directStep_eq read hreading
    rw [hdirect]
    exact hrel.map (hread _ hless hnear _ _ _ hvalue hwv hrv hside hleads)
  | missing hreading hmissing =>
    obtain ⟨shape, _, hdirect⟩ := Context.directStep_eq read hreading
    rw [hdirect, Context.directAs, Context.directRecords, hmissing]
    exact hrel.refl _
  | @records w r matching written defaulted less hreading hless hnear _ hmatching hwritten
      hdefaulted =>
    obtain ⟨hwdefines, hrdefines⟩ := Context.holds_of_reading hwriter hreader hreading
    obtain ⟨shape, _, hdirect⟩ := Context.directStep_eq read hreading
    rw [hdirect, Context.directAs, Context.directRecords, hmatching]
    have hwside : w.id.side = writer.side := by
      obtain ⟨_, _, hw, _, hrule⟩ := Context.rule_of_reading? hreading
      cases hrule
      exact (hwriter.record hw).2
    have hrside := Context.side_of_reading hreader hreading
    have hfields {field : ReaderField} (hmem : field ∈ ReaderField.ofFields r.fields) :
        field.field.type.side = reader.side :=
      (hrdefines.field (List.mem_of_getElem? (ReaderField.mem_ofFields.1 hmem))).2.trans hrside
    refine hrel.readRecord (List.rel_append (parts_written ?_ ?_ hwritten)
      (parts_defaulted hrel ?_ ?_ hdefaulted)) _
    · intro field link symbol hmem hsymbol hleads
      have hfield := (hwdefines.field (List.of_mem_zip hmem).1).1
      exact hread less hless hnear _ _ _ hsymbol hfield (hrdefines.of_linked hmatching hmem)
        (hfields (Matching.mem_of_linked hmatching hmem)) hleads
    · intro field symbol hmem hsymbol hleads
      obtain ⟨hfield, hside⟩ := hwdefines.field (List.of_mem_zip hmem).1
      exact hskip less hless hnear _ _ hsymbol hfield (hside.trans hwside) hleads
    · intro field hmem bytes value hbytes hvalue
      have hfield := hrdefines.of_defaulted hmatching hmem
      exact (hbuilt.follows haddressable (Nat.le_refl less) hvalue hfield hfield).takes
        (haddressable.takes_default hrdefines hmatching hmem hbytes less)
    · intro field hmem value hvalue hleads
      have hfield := hrdefines.of_defaulted hmatching hmem
      exact hread less hless hnear _ _ _ hvalue hfield hfield
        (hfields (Matching.mem_of_defaulted hmatching hmem)) hleads
  | @select branches alternatives less hreading hless hnear hlength hbranches hleads =>
    have hholds := Context.holds_of_reading hwriter hreader hreading
    obtain ⟨shape, _, hdirect⟩ := Context.directStep_eq read hreading
    rw [hdirect]
    refine hrel.branchIndex hlength fun index hindex hindex' => ?_
    exact hread less hless hnear _ _ _
      (hbranches index _ _ (List.getElem?_eq_getElem hindex') (List.getElem?_eq_getElem hindex))
      (hholds _ (List.getElem_mem hindex')) hreader rfl (hleads _ (List.getElem_mem hindex))
  | @adjust branch symbol index less shape branches kept hreading hless hnear hshape hkept hpick
      hbranch hleads hid =>
    rcases hkept.pick_eq_or hpick with hchoice | ⟨w, r, rfl, hr, hnames, hmisfit⟩
    · have hholds := Context.holds_of_reading hwriter hreader hreading
      obtain ⟨found, hfound, hdirect⟩ := Context.directStep_eq read hreading
      cases hshape.symm.trans hfound
      rw [hdirect, Context.directAs, Context.directBranch, Context.choice, hchoice]
      have hmem := List.fst_mem_of_mem_zipIdx (hkept.mem_of_pick hpick)
      have hside := Context.side_of_reading hreader hreading branch hmem
      exact hrel.bind (hread less hless hnear _ _ _ hbranch hwriter (hholds _ hmem) hside hleads)
        fun _ => hrel.refl _
    · rw [hbuilt.symbol] at hid
      exact hmispicked w r symbol (hbranch.adjusts hshape hr hid hnames) hmisfit
  | @unbranched shape branches kept hreading hshape hkept hpick hid =>
    obtain ⟨rfl, hnone⟩ := Context.pick_eq_none hpick
    obtain ⟨found, hfound, hdirect⟩ := Context.directStep_eq read hreading
    cases hshape.symm.trans hfound
    have hunfit : context.fitting shape branches.zipIdx = [] := hkept.fitting.symm
    rw [hdirect, Context.directAs, Context.directBranch, Context.choice, hunfit, hnone]
    exact hrel.refl _

/-- A run gives what direct resolution gives that may go as deep.  Where a pick may not
stand no fault counts, because a pair that was picked too early gives no value.  The
induction is on the depth of the run. -/
theorem Built.simulates_direct (hbuilt : program.Built context builder)
    (haddressable : context.Addressable) (counts : DecodeFault → Prop)
    (hcounts : ¬counts .endless)
    (hpicks : (∃ fault, counts fault) → program.PicksStand context builder) {depth more : Nat}
    (hle : depth ≤ more) {writer reader : Node} (hreads : builder.Reads context writer reader id)
    (hwriter : context.Holds writer) (hreader : context.Holds reader)
    (hleads : program.Leads program.root id) :
    Simulates (fun _ => True) counts Eq (program.runWithin depth id)
      (context.directWithin more writer reader) := by
  induction depth using Nat.strongRecOn generalizing more writer reader id with
  | ind depth ih =>
    rcases Nat.eq_zero_or_pos depth with rfl | hpos
    · exact .throw_left hcounts _
    obtain ⟨more, rfl⟩ : ∃ less, more = less + 1 := ⟨more - 1, by omega⟩
    refine hbuilt.resembles_direct haddressable (Congruence.simulates counts)
      (fun _ => .throw_left hcounts _) ?_ ?_ ?_ hreads hwriter hreader
    · intro w r symbol hadjusts hmisfit
      have hfails := hbuilt.fails_of_adjusts hadjusts hmisfit depth
      refine hfails.simulates (fun fault hfault => ?_) _
      have hstand := hpicks ⟨fault, hfault⟩
      exact hbuilt.picksStand_iff.1 hstand w r id symbol hleads hadjusts hmisfit
    · intro less hless _ inner inner' symbol hreads hinner hinner' _ hsymbolLeads
      exact ih less hless (by omega) hreads hinner hinner' (hleads.trans hsymbolLeads)
    · intro less hless _ node symbol hreads hnode _ hsymbolLeads
      exact (Congruence.simulates counts).passed
        (ih less hless (by omega) hreads hnode hnode (hleads.trans hsymbolLeads))

/-- Where the picks stand, a run that goes twice as deep answers as direct resolution
does.  The induction is on the depth of direct resolution. -/
theorem Built.direct_approximates (hbuilt : program.Built context builder)
    (haddressable : context.Addressable) (hstand : program.PicksStand context builder)
    {less depth : Nat} (hle : 2 * less ≤ depth) {writer reader : Node}
    (hreads : builder.Reads context writer reader id) (hwriter : context.Holds writer)
    (hreader : context.Holds reader) (hleads : program.Leads program.root id) :
    Approximates (context.directWithin less writer reader) (program.runWithin depth id) := by
  induction less generalizing depth writer reader id with
  | zero => exact .throw_left (by simp) _
  | succ less ih =>
    refine hbuilt.resembles_direct haddressable (Congruence.simulates _).flip
      (fun hdepth => absurd hdepth (by omega)) ?_ ?_ ?_ hreads hwriter hreader
    · intro w r symbol hadjusts hmisfit
      exact absurd hmisfit (hbuilt.picksStand_iff.1 hstand w r id symbol hleads hadjusts)
    · intro more hless hnear inner inner' symbol hreads hinner hinner' _ hsymbolLeads
      exact ih (by omega) hreads hinner hinner' (hleads.trans hsymbolLeads)
    · intro more hless hnear node symbol hreads hnode _ hsymbolLeads
      exact (Congruence.simulates _).passed
        (ih (by omega) hreads hnode hnode (hleads.trans hsymbolLeads))

end Program

/-! ## Decoding -/

namespace SchemaPair

variable {pair : SchemaPair} {config : Config} {program : Program}

/-- The picks of the program's unions stand when its compilation is finished. -/
def PicksStand (pair : SchemaPair) (config : Config) (program : Program) : Prop :=
  ∀ builder, pair.build config = .ok (program.root, builder) →
    program.PicksStand (pair.context config) builder

/-- Direct resolution of the two schemas, at most `depth` nodes deep. -/
noncomputable def directWithin (pair : SchemaPair) (config : Config) (depth : Nat) :
    Reader Value :=
  (pair.context config).directWithin depth pair.writerRoot pair.readerRoot

/-- A value that a compiled program decodes is the value of direct resolution, and leaves
the same bytes.  Where the picks stand, all answers are those of direct resolution, and
the program never answers only where direct resolution never does.  Where a pick does not
stand, the program has a union that it never reads. -/
theorem decode_eq_direct (hprogram : pair.program config = .ok program)
    (haddressable : pair.addressable = true) (input : Input) :
    (∀ value rest, program.decode input = .ok value rest →
      ∃ depth, pair.directWithin config depth input = .ok value rest) ∧
    (pair.PicksStand config program → ∀ answer, ¬Reader.GivesUp answer →
      (program.decode input = answer ↔
        ∃ depth, pair.directWithin config depth input = answer)) ∧
    (¬pair.PicksStand config program → ∃ id index symbol, program.Leads program.root id ∧
      program.symbol? id = some (.adjust index symbol) ∧
        ∀ depth, Reader.Fails (program.runWithin depth id)) := by
  obtain ⟨builder, hbuild, hbuilt, hreads⟩ := built hprogram
  have hcontext := addressable_context haddressable config
  have hwriter := pair.holds_writerRoot config
  have hreader := pair.holds_readerRoot config
  refine ⟨?_, ?_, ?_⟩
  · intro value rest hdecode
    have hsimulates := hbuilt.simulates_direct hcontext (fun _ => False) id
      (fun ⟨_, h⟩ => h.elim) (Nat.le_refl (program.runDepth input.length)) hreads hwriter hreader
      .refl
    obtain ⟨_, other, hother, rfl⟩ := hsimulates.of_ok trivial hdecode
    exact ⟨_, hother⟩
  · intro hstand answer hanswer
    rw [Program.decode_eq_iff hanswer]
    constructor
    · rintro ⟨depth, rfl⟩
      have hsimulates := hbuilt.simulates_direct hcontext (· ≠ .endless) (by simp)
        (fun _ => hstand builder hbuild) (Nat.le_refl depth) hreads hwriter hreader .refl
      exact ⟨depth, Reader.Approximates.eq hsimulates hanswer⟩
    · rintro ⟨depth, rfl⟩
      exact ⟨2 * depth, (hbuilt.direct_approximates hcontext (hstand builder hbuild)
        (Nat.le_refl _) hreads hwriter hreader .refl).eq hanswer⟩
  · intro hfalls
    have hfalls : ¬program.PicksStand (pair.context config) builder := by
      intro hstand
      refine hfalls fun other hother => ?_
      cases hbuild.symm.trans hother
      exact hstand
    rw [hbuilt.picksStand_iff] at hfalls
    push Not at hfalls
    obtain ⟨w, r, id, symbol, hleads, hadjusts, hmisfit⟩ := hfalls
    obtain ⟨index, hid⟩ := hadjusts.adjusts
    rw [← hbuilt.symbol] at hid
    exact ⟨id, index, symbol, hleads, hid, hbuilt.fails_of_adjusts hadjusts hmisfit⟩

/-- A point read as a spot, which is one of two records and has another name. -/
def spots : SchemaPair :=
  .twoTrees
    (.record ⟨"Point", none, []⟩ [⟨"x", .primitive .int, none, []⟩])
    (.union [.record ⟨"Label", none, []⟩ [⟨"x", .primitive .string, none, []⟩],
      .record ⟨"Spot", none, []⟩
        [⟨"x", .primitive .long, none, []⟩, ⟨"size", .primitive .int, some (.integer 3), []⟩]])

theorem decode_eq_direct_spots :
    ∃ program value rest, spots.program {} = .ok program ∧ spots.PicksStand {} program ∧
      program.decode (.ofList [4]) = .ok value rest ∧
        ∃ depth, spots.directWithin {} depth (.ofList [4]) = .ok value rest := by
  obtain ⟨program, hprogram, h⟩ := Reader.exists_ok (spots.program {})
    (fun program => Reader.isValue (program.decode (.ofList [4]))) (by decide +kernel)
  obtain ⟨value, rest, hdecode⟩ := Reader.exists_value h
  obtain ⟨⟨root, builder⟩, hbuild, hfit⟩ := Reader.exists_ok (spots.build {})
    (fun built => built.2.adjustsFit) (by decide +kernel)
  have hstand : spots.PicksStand {} program := by
    intro other hother
    cases hbuild.symm.trans hother
    exact Program.picksStand_of_adjustsFit hfit
  have hdirect := decode_eq_direct hprogram (by decide +kernel) (.ofList [4])
  have hanswer : ¬Reader.GivesUp (program.decode (.ofList [4])) := by
    rw [hdecode]
    rintro ⟨_, ⟨⟩⟩
  exact ⟨program, value, rest, hprogram, hstand, hdecode,
    hdecode ▸ (hdirect.2.1 hstand _ hanswer).1 rfl⟩

end SchemaPair

/-! ## A pick that does not stand -/

namespace Chains

/-- The branches that more chains are read as. -/
def either : Schema := .union [.reference "Named", .reference "Counted"]

/-- A list of more chains and a tag. -/
def chain (name : String) (more : Schema) (tag : Primitive) : Schema :=
  .record ⟨name, none, []⟩ [⟨"more", .array more, none, []⟩, ⟨"tag", .primitive tag, none, []⟩]

def chainNode (side : Side) (ordinal : Nat) (name : String) (more : Schema) (tag : Primitive) :
    RecordNode :=
  ⟨⟨side, ordinal⟩, ⟨name, none, []⟩,
    [⟨"more", ⟨side, ordinal + 1, .array more⟩, none, []⟩,
      ⟨"tag", ⟨side, ordinal + 1, .primitive tag⟩, none, []⟩]⟩

/-- Numbered chains read as chains that are named, which they are not, or counted. -/
def schemas : SchemaPair :=
  .twoTrees (chain "Numbered" (.reference "Numbered") .int)
    (.union [chain "Named" either .string, chain "Counted" either .int])

def numbered : RecordNode := chainNode .writer 0 "Numbered" (.reference "Numbered") .int

def named : RecordNode := chainNode .reader 0 "Named" either .string

def counted : RecordNode := chainNode .reader 1 "Counted" either .int

/-- The fields of one chain are linked to those of another in their order. -/
def linked (reader : RecordNode) : Matching :=
  ⟨reader.fields.zipIdx.map fun (field, index) => some ⟨index, field⟩, []⟩

theorem misfit_named : (schemas.context {}).Misfit numbered named := by
  have hmatching : Matching.ofFields {} numbered.fields named.fields = .ok (linked named) := rfl
  exact .types hmatching (.tail _ (.head _)) rfl

theorem not_misfit_counted : ¬(schemas.context {}).Misfit numbered counted := by
  have hmatching : Matching.ofFields {} numbered.fields counted.fields = .ok (linked counted) := rfl
  intro hmisfit
  cases hmisfit with
  | missing hmissing => cases hmatching.symm.trans hmissing
  | types hmatching' hlinked hreading =>
    cases hmatching.symm.trans hmatching'
    rcases List.mem_cons.1 hlinked with h | hlinked
    · cases h; cases hreading
    · cases List.mem_singleton.1 hlinked; cases hreading
  | records hmatching' hlinked hreading =>
    cases hmatching.symm.trans hmatching'
    rcases List.mem_cons.1 hlinked with h | hlinked
    · cases h; cases hreading
    · cases List.mem_singleton.1 hlinked; cases hreading
  | branches hmatching' hlinked hreading =>
    cases hmatching.symm.trans hmatching'
    rcases List.mem_cons.1 hlinked with h | hlinked
    · cases h; cases hreading
    · cases List.mem_singleton.1 hlinked; cases hreading

/-- Whatever its nodes, a union of the two branches is read as the second one. -/
theorem choice_eq {first second : Node}
    (hfirst : (schemas.context {}).shape? first = some (.named (.record named)))
    (hsecond : (schemas.context {}).shape? second = some (.named (.record counted))) :
    (schemas.context {}).choice (.named (.record numbered)) [first, second] = some (second, 1) := by
  have hfirst' : ¬(schemas.context {}).Fits (.named (.record numbered)) (first, 0) := by
    rintro ⟨w, r, hw, hr, hfits⟩
    cases hw
    cases hfirst.symm.trans (Context.recordAt?_eq_some.1 hr)
    exact hfits misfit_named
  have hsecond' : (schemas.context {}).Fits (.named (.record numbered)) (second, 1) :=
    ⟨numbered, counted, rfl, Context.recordAt?_eq_some.2 hsecond, not_misfit_counted⟩
  have hfitting : (schemas.context {}).fitting (.named (.record numbered))
      [first, second].zipIdx = [(second, 1)] := by
    simp [Context.fitting, hfirst', hsecond']
  have htype : [first, second].zipIdx.find?
      ((schemas.context {}).isOfType (.named (.record numbered))) = none := by
    simp [Context.isOfType, hfirst, hsecond]
    decide
  have hshared : [(second, 1)].filter
      ((schemas.context {}).sharesName (.named (.record numbered))) = [] := by
    simp [Context.sharesName, Context.recordAt?, hsecond]
    decide
  rw [Context.choice, Context.pick, hfitting, htype, hshared]
  rfl

/-- Reads a counted chain, at most `depth` chains deep, and wraps it. -/
def readCounted : (depth : Nat) → Reader Value
  | 0 => throw .endless
  | depth + 1 => do
    let value ← Program.readRecord [⟨"more", 0⟩, ⟨"tag", 1⟩]
      [.kept (Program.readArray (readCounted depth)),
        .kept (Program.readTerminal (.primitive .int))]
    return .union 1 value

/-- Direct resolution of more chains reads them as counted ones. -/
theorem directWithin_eq (depth : Nat) :
    (schemas.context {}).directWithin (3 * depth) ⟨.writer, 1, .reference "Numbered"⟩
      ⟨.reader, 2, either⟩ = readCounted depth := by
  induction depth with
  | zero => rfl
  | succ depth ih =>
    have hbranch : (schemas.context {}).directWithin (3 * (depth + 1))
        ⟨.writer, 1, .reference "Numbered"⟩ ⟨.reader, 2, either⟩ =
          (schemas.context {}).directBranch ((schemas.context {}).directWithin (3 * depth + 2))
            ⟨.writer, 1, .reference "Numbered"⟩ (.named (.record numbered))
            [⟨.reader, 2, .reference "Named"⟩, ⟨.reader, 2, .reference "Counted"⟩] := rfl
    rw [hbranch, Context.directBranch, choice_eq rfl rfl, readCounted, ← ih]
    rfl

theorem directWithin_root (depth : Nat) :
    schemas.directWithin {} (3 * (depth + 1)) = readCounted (depth + 1) := by
  have hbranch : schemas.directWithin {} (3 * (depth + 1)) =
      (schemas.context {}).directBranch ((schemas.context {}).directWithin (3 * depth + 2))
        schemas.writerRoot (.named (.record numbered))
        [⟨.reader, 0, chain "Named" either .string⟩, ⟨.reader, 1, chain "Counted" either .int⟩] :=
    rfl
  rw [hbranch, Context.directBranch, choice_eq rfl rfl, readCounted, ← directWithin_eq depth]
  rfl

/-- The program refuses a chain of chains that direct resolution reads to its end: it
picked the named ones before it knew that they do not fit. -/
theorem decode_ne_direct :
    ∃ program fault rest, schemas.program {} = .ok program ∧
      program.decode (.ofList [2, 0, 2, 0, 4]) = .error fault rest ∧
        schemas.directWithin {} 6 (.ofList [2, 0, 2, 0, 4]) = .ok (.union 1 (.record
          [("more", .array [.union 1 (.record [("more", .array []), ("tag", .int 1)])]),
            ("tag", .int 2)])) (.ofList []) := by
  obtain ⟨program, hprogram, h⟩ := Reader.exists_ok (schemas.program {})
    (fun program => !Reader.isValue (program.decode (.ofList [2, 0, 2, 0, 4]))) (by decide +kernel)
  obtain ⟨fault, rest, hdecode⟩ := Reader.exists_fault (Bool.not_eq_true' _ ▸ h)
  refine ⟨program, fault, rest, hprogram, hdecode, ?_⟩
  rw [directWithin_root 1]
  rfl

end Chains

end AvroResolution
