import AvroResolution.Proofs.Decoding.Blocks
import AvroResolution.Proofs.Decoding.Counterparts
import AvroResolution.Proofs.Resolution.Replay

/-!
# Blocks do not matter

A collection is written in blocks, and the writer is free in how it cuts them.

* `Program.ReadsBlocks` says that a symbol reads the blocks of a collection.  Such is the root
  of every program that is compiled for two arrays or for two maps, or for one of them on its
  own (`Program.CompiledFor`).
* `Program.exists_depth`: items that are decoded each on its own are read by runs of one depth,
  whatever stands behind them.
* `Program.decode_blocks` is the result: what is decoded is known from the items alone, however
  they are cut.  An array refuses its items exactly if too many of them have no bytes.
-/

namespace AvroResolution

namespace Program

variable {program : Program} {builder : Builder}

/-- The symbol reads the blocks of a collection, the parts of each item by the symbols of
`body`. -/
def ReadsBlocks (program : Program) (id : SymbolId) (collection : Collection)
    (body : List SymbolId) : Prop :=
  ∃ start items, program.symbol? id = some (.sequence [start, items]) ∧
    program.symbol? start = some (.terminal (.start collection)) ∧
      program.symbol? items = some (.repetition collection body)

/-! ## Compiled programs -/

theorem ReadsBlocks.of_builder (hsymbol : ∀ id, program.symbol? id = builder.symbol? id)
    {id start items : SymbolId} {collection : Collection} {body : List SymbolId}
    (hid : builder.symbol? id = some (.sequence [start, items]))
    (hstart : builder.symbol? start = some (.terminal (.start collection)))
    (hitems : builder.symbol? items = some (.repetition collection body)) :
    program.ReadsBlocks id collection body :=
  ⟨start, items, (hsymbol id).trans hid, (hsymbol start).trans hstart,
    (hsymbol items).trans hitems⟩

theorem exists_array {shape : Shape} (h : shape.kind = .array) : ∃ items, shape = .array items := by
  cases shape with
  | array items => exact ⟨items, rfl⟩
  | named definition => cases definition <;> cases h
  | _ => cases h

theorem exists_map {shape : Shape} (h : shape.kind = .map) : ∃ values, shape = .map values := by
  cases shape with
  | map values => exact ⟨values, rfl⟩
  | named definition => cases definition <;> cases h
  | _ => cases h

/-- The program is compiled for a writer and a reader of one kind, or for the data of a schema
of that kind on its own. -/
inductive CompiledFor (program : Program) (kind : Kind) : Prop
  | pair {pair : SchemaPair} {config : Config} {w r : Shape}
      (hprogram : pair.program config = .ok program)
      (hwriter : (pair.context config).shape? pair.writerRoot = some w) (hw : w.kind = kind)
      (hreader : (pair.context config).shape? pair.readerRoot = some r) (hr : r.kind = kind)
  | schema {schema : Schema} {shape : Shape} (hprogram : Program.validating schema = .ok program)
      (hshape : schema.ownContext.shape? (.root .writer schema) = some shape)
      (hkind : shape.kind = kind)

theorem CompiledFor.readsBlocks_array (h : program.CompiledFor .array) :
    ∃ item, program.ReadsBlocks program.root .array [item] := by
  cases h with
  | pair hprogram hwriter hw hreader hr =>
    obtain ⟨builder, _, hbuilt, hreads⟩ := SchemaPair.built hprogram
    obtain ⟨_, rfl⟩ := exists_array hw
    obtain ⟨_, rfl⟩ := exists_array hr
    have harrays := Context.reading?_eq_some.2 ⟨_, _, hwriter, hreader, rfl⟩
    cases hreads with
    | array _ _ hstart hitems hid =>
      exact ⟨_, .of_builder hbuilt.symbol hid hstart hitems⟩
    | _ hother => cases harrays.symm.trans hother
  | schema hprogram hshape hkind =>
    obtain ⟨builder, hvalidated⟩ := Program.validated hprogram
    obtain ⟨_, rfl⟩ := exists_array hkind
    cases hvalidated.root with
    | array _ _ hstart hitems hid =>
      exact ⟨_, .of_builder hvalidated.symbol hid hstart hitems⟩
    | _ hother => cases hshape.symm.trans hother

theorem CompiledFor.readsBlocks_map (h : program.CompiledFor .map) :
    ∃ key value, program.ReadsBlocks program.root .map [key, value] := by
  cases h with
  | pair hprogram hwriter hw hreader hr =>
    obtain ⟨builder, _, hbuilt, hreads⟩ := SchemaPair.built hprogram
    obtain ⟨_, rfl⟩ := exists_map hw
    obtain ⟨_, rfl⟩ := exists_map hr
    have hmaps := Context.reading?_eq_some.2 ⟨_, _, hwriter, hreader, rfl⟩
    cases hreads with
    | map _ _ _ hstart hentries hid =>
      exact ⟨_, _, .of_builder hbuilt.symbol hid hstart hentries⟩
    | _ hother => cases hmaps.symm.trans hother
  | schema hprogram hshape hkind =>
    obtain ⟨builder, hvalidated⟩ := Program.validated hprogram
    obtain ⟨_, rfl⟩ := exists_map hkind
    cases hvalidated.root with
    | map _ _ hstart hentries hid =>
      exact ⟨_, _, .of_builder hvalidated.symbol hid hstart hentries⟩
    | _ hother => cases hshape.symm.trans hother

/-! ## Running from a symbol -/

/-- Where a program starts is all the same to its symbols. -/
theorem runWithin_startAt (program : Program) (start : SymbolId) (depth : Nat) (id : SymbolId) :
    (program.startAt start).runWithin depth id = program.runWithin depth id := by
  have hsame : Counterpart (fun _ => Eq) (program.startAt start) program :=
    List.forall₂_same.2 fun symbol _ => .same symbol
  exact hsame.runWithin .eq depth id

/-- Items that are decoded each on its own are read by runs of one depth. -/
theorem exists_depth {item : SymbolId} {items : List Item}
    (h : ∀ part ∈ items,
      (program.startAt item).decode (.ofList part.bytes) = .ok part.value (.ofList [])) :
    ∃ depth, ∀ part ∈ items,
      Reader.Yields (program.runWithin depth item) part.bytes part.value := by
  induction items with
  | nil => exact ⟨0, nofun⟩
  | cons part rest ih =>
    obtain ⟨depth, hdepth⟩ := ih fun other hother => h other (.tail _ hother)
    obtain ⟨own, hown⟩ := (decode_eq_iff Reader.not_givesUp_ok).1 (h part (.head _))
    rw [runWithin_startAt, ← List.append_nil part.bytes] at hown
    have hyields := (runWithin_delimits program own item).yields hown
    have hdeeper {less : Nat} {other : Item} (hle : less ≤ max depth own)
        (hless : Reader.Yields (program.runWithin less item) other.bytes other.value) :
        Reader.Yields (program.runWithin (max depth own) item) other.bytes other.value := by
      intro tail
      rw [(runWithin_mono program hle item).eq, hless tail]
      rw [hless tail]
      exact Reader.not_givesUp_ok
    refine ⟨max depth own, fun other hother => ?_⟩
    rcases List.mem_cons.1 hother with rfl | hother
    · exact hdeeper (Nat.le_max_right ..) hyields
    · exact hdeeper (Nat.le_max_left ..) (hdepth other hother)

/-- What a run answers, `decode` answers, but for giving up. -/
theorem responds_decode {depth : Nat} {bytes : List UInt8} {answer : Except DecodeFault Value}
    (h : Reader.Responds (program.runWithin depth program.root) bytes answer)
    (hends : answer ≠ .error .endless) : Reader.Responds program.decode bytes answer := by
  cases answer with
  | ok value =>
    intro tail
    exact (decode_eq_iff Reader.not_givesUp_ok).2 ⟨depth, h tail⟩
  | error fault =>
    have hfault : fault ≠ .endless := fun hsame => hends (congrArg _ hsame)
    intro tail
    obtain ⟨rest, hrun⟩ := h tail
    exact ⟨rest, (decode_eq_iff (Reader.not_givesUp_error hfault)).2 ⟨depth, hrun⟩⟩

/-! ## Collections in blocks -/

theorem responds_decode_array {item : SymbolId}
    (hreads : program.ReadsBlocks program.root .array [item]) {blocks : List (Block Item)}
    {stop : List UInt8} (hblocks : ∀ block ∈ blocks, block.Headed)
    (hparts : ∀ part ∈ blocks.flatMap (·.rows),
      (program.startAt item).decode (.ofList part.bytes) = .ok part.value (.ofList []))
    (hstop : Reader.Yields Reader.long stop 0) :
    Reader.Responds program.decode (blocks.flatMap (Block.bytes Item.bytes) ++ stop)
      (if (blocks.flatMap (·.rows)).countP (·.bytes.isEmpty) ≤ zeroWidthLimit then
        .ok (.array ((blocks.flatMap (·.rows)).map (·.value)))
      else .error (.data (.zeroWidthItems zeroWidthLimit))) := by
  obtain ⟨start, items, hid, hstart, hitems⟩ := hreads
  obtain ⟨depth, hdepth⟩ := exists_depth hparts
  have hread := responds_readArray hblocks hdepth hstop
  rw [← runStep_array hid hstart hitems] at hread
  have hrun : Reader.Responds (program.runWithin (depth + 1) program.root) _ _ := hread
  refine responds_decode hrun ?_
  split <;> nofun

theorem yields_decode_map {key value : SymbolId}
    (hreads : program.ReadsBlocks program.root .map [key, value]) {blocks : List (Block Entry)}
    {stop : List UInt8} (hblocks : ∀ block ∈ blocks, block.Headed)
    (hparts : ∀ entry ∈ blocks.flatMap (·.rows),
      Reader.string (.ofList entry.keyBytes) = .ok entry.key (.ofList []) ∧
        (program.startAt value).decode (.ofList entry.content.bytes) =
          .ok entry.content.value (.ofList []))
    (hstop : Reader.Yields Reader.long stop 0) :
    Reader.Yields program.decode (blocks.flatMap (Block.bytes Entry.bytes) ++ stop)
      (.map ((blocks.flatMap (·.rows)).map fun entry => (entry.key, entry.content.value))) := by
  obtain ⟨start, entries, hid, hstart, hentries⟩ := hreads
  have hcontents : ∀ content ∈ (blocks.flatMap (·.rows)).map (·.content),
      (program.startAt value).decode (.ofList content.bytes) = .ok content.value (.ofList []) := by
    intro content hcontent
    obtain ⟨entry, hentry, rfl⟩ := List.mem_map.1 hcontent
    exact (hparts entry hentry).2
  obtain ⟨depth, hdepth⟩ := exists_depth hcontents
  have hkeys : ∀ entry ∈ blocks.flatMap (·.rows),
      Reader.Yields Reader.string entry.keyBytes entry.key := by
    intro entry hentry
    have hkey := (hparts entry hentry).1
    rw [← List.append_nil entry.keyBytes] at hkey
    exact Reader.delimits_string.yields hkey
  have hread := yields_readMap_blocks hblocks hkeys
    (fun entry hentry => hdepth entry.content (List.mem_map_of_mem hentry)) hstop
  rw [← runStep_map hid hstart hentries] at hread
  intro tail
  exact (decode_eq_iff Reader.not_givesUp_ok).2 ⟨depth + 1, hread tail⟩

/-- However its items are cut into blocks, a collection is decoded alike.  Let each item be
bytes that are decoded as a value on their own, and let every block have items and announce
their number, by itself or negated and before any size.  Then the blocks, ended by a count of
zero, are decoded as the array of the values or as the map of the keys and values, in order,
and the bytes behind them are left.  An array of more than `zeroWidthLimit` items without bytes
in all of its blocks is refused instead. -/
theorem decode_blocks (program : Program) :
    (program.CompiledFor .array →
      ∃ item, program.ReadsBlocks program.root .array [item] ∧
        ∀ (blocks : List (Block Item)) stop, (∀ block ∈ blocks, block.Headed) →
          (∀ part ∈ blocks.flatMap (·.rows),
            (program.startAt item).decode (.ofList part.bytes) = .ok part.value (.ofList [])) →
          Reader.Yields Reader.long stop 0 →
            Reader.Responds program.decode (blocks.flatMap (Block.bytes Item.bytes) ++ stop)
              (if (blocks.flatMap (·.rows)).countP (·.bytes.isEmpty) ≤ zeroWidthLimit then
                .ok (.array ((blocks.flatMap (·.rows)).map (·.value)))
              else .error (.data (.zeroWidthItems zeroWidthLimit)))) ∧
    (program.CompiledFor .map →
      ∃ key value, program.ReadsBlocks program.root .map [key, value] ∧
        ∀ (blocks : List (Block Entry)) stop, (∀ block ∈ blocks, block.Headed) →
          (∀ entry ∈ blocks.flatMap (·.rows),
            Reader.string (.ofList entry.keyBytes) = .ok entry.key (.ofList []) ∧
              (program.startAt value).decode (.ofList entry.content.bytes) =
                .ok entry.content.value (.ofList [])) →
          Reader.Yields Reader.long stop 0 →
            Reader.Yields program.decode (blocks.flatMap (Block.bytes Entry.bytes) ++ stop)
              (.map ((blocks.flatMap (·.rows)).map fun entry =>
                (entry.key, entry.content.value)))) := by
  constructor
  · intro hcompiled
    obtain ⟨item, hreads⟩ := hcompiled.readsBlocks_array
    exact ⟨item, hreads, fun blocks stop hblocks hparts hstop =>
      responds_decode_array hreads hblocks hparts hstop⟩
  · intro hcompiled
    obtain ⟨key, value, hreads⟩ := hcompiled.readsBlocks_map
    exact ⟨key, value, hreads, fun blocks stop hblocks hparts hstop =>
      yields_decode_map hreads hblocks hparts hstop⟩

/-- Integers read as long integers. -/
def numbers : SchemaPair :=
  .twoTrees (.array (.primitive .int)) (.array (.primitive .long))

/-- The program reads blocks of what the symbol 1 reads, which is as many numbers as bytes. -/
def opensNumbers (program : Program) : Bool :=
  match program.symbol? program.root, program.symbol? 2, program.symbol? 3,
    (program.startAt 1).decode (.ofList [2]), (program.startAt 1).decode (.ofList [4]),
    (program.startAt 1).decode (.ofList [6]) with
  | some (.sequence [2, 3]), some (.terminal (.start .array)), some (.repetition .array [1]),
    .ok (.long 1) ⟨[], _, _⟩, .ok (.long 2) ⟨[], _, _⟩, .ok (.long 3) ⟨[], _, _⟩ => true
  | _, _, _, _, _, _ => false

/-- One number, and then two in a block that is announced with a size of seven. -/
def numberBlocks : List (Block Item) :=
  [⟨[2], [⟨[2], .long 1⟩]⟩, ⟨[3, 14], [⟨[4], .long 2⟩, ⟨[6], .long 3⟩]⟩]

theorem headed_numberBlocks : ∀ block ∈ numberBlocks, block.Headed := by
  intro block hblock
  rcases List.mem_cons.1 hblock with rfl | hblock
  · exact ⟨nofun, @BlockHeader.of_count 1 (by decide)⟩
  · obtain rfl := List.mem_singleton.1 hblock
    exact ⟨nofun, @BlockHeader.of_size 2 (by decide) 7⟩

/-- Integers by name read as long integers. -/
def ages : SchemaPair :=
  .twoTrees (.map (.primitive .int)) (.map (.primitive .long))

/-- The program reads blocks of a string each and what the symbol 2 reads. -/
def opensAges (program : Program) : Bool :=
  match program.symbol? program.root, program.symbol? 4,
    Reader.string (.ofList [2, 97]), Reader.string (.ofList [2, 98]),
    (program.startAt 2).decode (.ofList [2]), (program.startAt 2).decode (.ofList [4]) with
  | some (.sequence [3, 4]), some (.repetition .map [0, 2]), .ok "a" ⟨[], _, _⟩,
    .ok "b" ⟨[], _, _⟩, .ok (.long 1) ⟨[], _, _⟩, .ok (.long 2) ⟨[], _, _⟩ => true
  | _, _, _, _, _, _ => false

/-- One age, and then another one in a block that is announced with a size of three. -/
def ageBlocks : List (Block Entry) :=
  [⟨[2], [⟨[2, 97], "a", ⟨[2], .long 1⟩⟩]⟩, ⟨[1, 6], [⟨[2, 98], "b", ⟨[4], .long 2⟩⟩]⟩]

theorem headed_ageBlocks : ∀ block ∈ ageBlocks, block.Headed := by
  intro block hblock
  rcases List.mem_cons.1 hblock with rfl | hblock
  · exact ⟨nofun, @BlockHeader.of_count 1 (by decide)⟩
  · obtain rfl := List.mem_singleton.1 hblock
    exact ⟨nofun, @BlockHeader.of_size 1 (by decide) 3⟩

theorem decode_blocks_numbers :
    (∃ program, numbers.program {} = .ok program ∧
      program.decode (.ofList [2, 2, 3, 14, 4, 6, 0, 9]) =
        .ok (.array [.long 1, .long 2, .long 3]) (.ofList [9])) ∧
    ∃ program, ages.program {} = .ok program ∧
      program.decode (.ofList [2, 2, 97, 2, 1, 6, 2, 98, 4, 0, 9]) =
        .ok (.map [("a", .long 1), ("b", .long 2)]) (.ofList [9]) := by
  constructor
  · obtain ⟨program, hprogram, hopens⟩ := Reader.exists_ok (numbers.program {}) opensNumbers
      (by decide +kernel)
    rw [opensNumbers] at hopens
    split at hopens
    · rename_i hroot hstart hitems hone htwo hthree
      obtain ⟨item, ⟨start, items, hid, _, hbody⟩, hblocks⟩ := (decode_blocks program).1
        (.pair hprogram rfl rfl rfl rfl)
      cases hroot.symm.trans hid
      cases hitems.symm.trans hbody
      have hparts : ∀ part ∈ numberBlocks.flatMap (·.rows),
          (program.startAt 1).decode (.ofList part.bytes) = .ok part.value (.ofList []) := by
        intro part hpart
        rcases List.mem_cons.1 hpart with rfl | hpart
        · exact hone.trans (congrArg _ (Input.ext rfl))
        rcases List.mem_cons.1 hpart with rfl | hpart
        · exact htwo.trans (congrArg _ (Input.ext rfl))
        obtain rfl := List.mem_singleton.1 hpart
        exact hthree.trans (congrArg _ (Input.ext rfl))
      have hresponds := hblocks numberBlocks [0] headed_numberBlocks hparts (Reader.long_run 0)
      rw [if_pos (by decide)] at hresponds
      exact ⟨program, hprogram, hresponds [9]⟩
    · cases hopens
  · obtain ⟨program, hprogram, hopens⟩ := Reader.exists_ok (ages.program {}) opensAges
      (by decide +kernel)
    rw [opensAges] at hopens
    split at hopens
    · rename_i hroot hentries hfirst hsecond hone htwo
      obtain ⟨key, value, ⟨start, entries, hid, _, hbody⟩, hblocks⟩ := (decode_blocks program).2
        (.pair hprogram rfl rfl rfl rfl)
      cases hroot.symm.trans hid
      cases hentries.symm.trans hbody
      have hparts : ∀ entry ∈ ageBlocks.flatMap (·.rows),
          Reader.string (.ofList entry.keyBytes) = .ok entry.key (.ofList []) ∧
            (program.startAt 2).decode (.ofList entry.content.bytes) =
              .ok entry.content.value (.ofList []) := by
        intro entry hentry
        rcases List.mem_cons.1 hentry with rfl | hentry
        · exact ⟨hfirst.trans (congrArg _ (Input.ext rfl)), hone.trans (congrArg _ (Input.ext rfl))⟩
        obtain rfl := List.mem_singleton.1 hentry
        exact ⟨hsecond.trans (congrArg _ (Input.ext rfl)), htwo.trans (congrArg _ (Input.ext rfl))⟩
      exact ⟨program, hprogram,
        hblocks ageBlocks [0] headed_ageBlocks hparts (Reader.long_run 0) [9]⟩
    · cases hopens

end Program

end AvroResolution
