import AvroResolution.Proofs.Decoding.Delimiting

/-!
# Blocks

The items of a collection may be cut into blocks in many ways.  What is read depends on the
items alone.

* `Reader.Responds` gives the answer of a reader to bytes, whatever stands behind them: the
  value that it reads from all of them, or a fault.
* `BlockHeader` says which bytes announce a number of items.  The number may be written as it
  is, or negated and before a size in bytes, and no byte of it has to be canonical.
* `Reader.Responds.blocks` is the result for any step that is applied to the items: the blocks
  are answered as one run over the items of all of them.
* `Program.responds_readArray` and `Program.yields_readMap_blocks` apply it to collections.  All
  blocks of an array count their items without bytes together.
-/

namespace AvroResolution

namespace Reader

variable {α β σ ρ : Type}

/-! ## Answers to bytes -/

/-- Whatever stands behind the bytes, the reader takes just them and gives the value, or it
fails with the fault. -/
def Responds (x : Reader α) (bytes : List UInt8) : Except DecodeFault α → Prop
  | .ok value => Yields x bytes value
  | .error fault => ∀ tail, ∃ rest, x (.ofList (bytes ++ tail)) = .error fault rest

namespace Responds

variable {x : Reader α} {f : α → Reader β} {first second : List UInt8}

/-- The answer may be that of another reader for everything that stands behind the bytes. -/
theorem of_runs {bytes : List UInt8} {answer : Except DecodeFault α}
    (h : ∀ tail, ∃ y : Reader α, Responds y bytes answer ∧
      x (.ofList (bytes ++ tail)) = y (.ofList (bytes ++ tail))) : Responds x bytes answer := by
  cases answer with
  | ok value =>
    intro tail
    obtain ⟨y, hy, hsame⟩ := h tail
    rw [hsame]
    exact hy tail
  | error fault =>
    intro tail
    obtain ⟨y, hy, hsame⟩ := h tail
    rw [hsame]
    exact hy tail

/-- Behind bytes that are read, the answer is that of what follows. -/
theorem after {value : α} {answer : Except DecodeFault β} (hx : Yields x first value)
    (hf : Responds (f value) second answer) : Responds (x >>= f) (first ++ second) answer := by
  have hrun (tail : List UInt8) :
      (x >>= f) (.ofList (first ++ second ++ tail)) = f value (.ofList (second ++ tail)) := by
    rw [List.append_assoc]
    exact bind_of_ok (hx _)
  cases answer with
  | ok result =>
    intro tail
    rw [hrun]
    exact hf tail
  | error fault =>
    intro tail
    rw [hrun]
    exact hf tail

protected theorem bind {answer : Except DecodeFault α} {next : α → Except DecodeFault β}
    (hx : Responds x first answer)
    (hf : ∀ value, answer = .ok value → Responds (f value) second (next value)) :
    Responds (x >>= f) (first ++ second) (answer >>= next) := by
  cases answer with
  | error fault =>
    intro tail
    obtain ⟨rest, hrun⟩ := hx (second ++ tail)
    rw [← List.append_assoc] at hrun
    exact ⟨rest, bind_of_error hrun⟩
  | ok value =>
    exact .after hx (hf value rfl)

theorem bind_pure {answer : Except DecodeFault α} (hx : Responds x first answer) (g : α → β) :
    Responds (x >>= fun value => pure (g value)) first (answer.map g) := by
  have hpure (value : α) : Responds (pure (g value)) [] (Except.ok (g value)) :=
    Yields.pure (g value)
  have h := hx.bind fun value _ => hpure value
  rw [List.append_nil] at h
  cases answer <;> exact h

/-- The steps over rows are answered as a fold over the rows. -/
protected theorem iterate {step : σ → Reader σ} {encode : ρ → List UInt8}
    {next : σ → ρ → Except DecodeFault σ} {rows : List ρ}
    (hstep : ∀ row ∈ rows, ∀ state, Responds (step state) (encode row) (next state row))
    (state : σ) :
    Responds (Reader.iterate step rows.length state) (rows.flatMap encode)
      (rows.foldlM next state) := by
  induction rows generalizing state with
  | nil => exact Yields.pure state
  | cons row rest ih =>
    rw [List.foldlM_cons, List.flatMap_cons]
    exact .bind (hstep row (.head _) state) fun state _ =>
      ih (fun other hother => hstep other (.tail _ hother)) state

end Responds

theorem Consumes.ne_nil {x : Reader α} (h : Consumes x) {bytes : List UInt8} {value : α}
    (hx : Yields x bytes value) : bytes ≠ [] := by
  rintro rfl
  exact Nat.lt_irrefl _ (h _ _ _ (hx []))

end Reader

open Reader

/-! ## Headers -/

/-- The bytes announce a block of so many items. -/
inductive BlockHeader (count : Nat) : List UInt8 → Prop
  | counted {bytes : List UInt8} {number : Int64} (hnumber : Yields long bytes number)
      (hcount : number.toInt = count) : BlockHeader count bytes
  | sized {first second : List UInt8} {number size : Int64} (hnumber : Yields long first number)
      (hcount : number.toInt = -count) (hsize : Yields long second size) :
      BlockHeader count (first ++ second)

namespace BlockHeader

variable {count : Nat}

theorem of_count (h : count < 2 ^ 63) : BlockHeader count (zigzagBytes (.ofNat count)) :=
  .counted (long_run _) (Int64.toInt_ofNat_of_lt h)

theorem of_size (h : count ≤ 2 ^ 63) (size : Int64) :
    BlockHeader count (zigzagBytes (.ofInt (-count)) ++ zigzagBytes size) :=
  .sized (long_run _) (Int64.toInt_ofInt_of_le (by omega) (by omega)) (long_run size)

theorem yields {bytes : List UInt8} (h : BlockHeader count bytes) (hcount : count ≠ 0) :
    Yields blockCount bytes count := by
  cases h with
  | @counted _ number hnumber hvalue =>
    have hnonneg : ¬number < 0 := by
      rw [Int64.lt_iff_toInt_lt, hvalue]
      exact Int.not_lt.2 (Int.natCast_nonneg count)
    refine .bind_pure hnumber ?_
    rw [if_neg hnonneg, hvalue, Int.natAbs_natCast]
    exact .pure count
  | @sized first second number size hnumber hvalue hsize =>
    have hnegative : number < 0 := by
      rw [Int64.lt_iff_toInt_lt, hvalue]
      exact Int.neg_neg_of_pos (Int.natCast_pos.2 (Nat.pos_of_ne_zero hcount))
    refine .bind hnumber ?_
    rw [if_pos hnegative, hvalue, Int.natAbs_neg, Int.natAbs_natCast]
    exact .bind_pure hsize (.pure count)

end BlockHeader

/-- A block of rows behind the bytes that announce it. -/
structure Block (ρ : Type) where
  header : List UInt8
  rows : List ρ

namespace Block

variable {ρ : Type}

/-- The block has rows, and its header announces them. -/
def Headed (block : Block ρ) : Prop :=
  block.rows ≠ [] ∧ BlockHeader block.rows.length block.header

/-- The bytes of a block, given those of a row. -/
def bytes (encode : ρ → List UInt8) (block : Block ρ) : List UInt8 :=
  block.header ++ block.rows.flatMap encode

theorem Headed.yields {block : Block ρ} (h : block.Headed) :
    Yields blockCount block.header block.rows.length :=
  h.2.yields fun hzero => h.1 (List.length_eq_zero_iff.1 hzero)

theorem Headed.bytes_pos {block : Block ρ} (h : block.Headed) (encode : ρ → List UInt8) :
    0 < (block.bytes encode).length := by
  have hheader := List.length_pos_iff.2 (consumes_blockCount.ne_nil h.yields)
  rw [bytes, List.length_append]
  omega

/-- Every block takes a byte, so there are no more blocks than bytes. -/
theorem length_le {blocks : List (Block ρ)} (hblocks : ∀ block ∈ blocks, block.Headed)
    (encode : ρ → List UInt8) : blocks.length ≤ (blocks.flatMap (bytes encode)).length := by
  induction blocks with
  | nil => exact Nat.le_refl 0
  | cons block rest ih =>
    have hfirst := (hblocks block (.head _)).bytes_pos encode
    have hrest := ih fun other hother => hblocks other (.tail _ hother)
    rw [List.flatMap_cons, List.length_append, List.length_cons]
    omega

end Block

/-! ## Runs over all blocks -/

namespace Reader

variable {σ ρ : Type} {step : σ → Reader σ} {encode : ρ → List UInt8}
  {next : σ → ρ → Except DecodeFault σ} {cut : List (Block ρ)} {stop : List UInt8}

theorem yields_stop (hstop : Yields long stop 0) : Yields blockCount stop 0 :=
  .bind_pure hstop (.pure 0)

section

variable (hblocks : ∀ block ∈ cut, block.Headed)
  (hstep : ∀ block ∈ cut, ∀ row ∈ block.rows, ∀ state,
    Responds (step state) (encode row) (next state row))
  (hstop : Yields long stop 0)
include hblocks hstep hstop

/-- Where one block ends and the next one begins is lost in the fold.  The induction is on the
blocks. -/
theorem Responds.blocksWithin {limit : Nat} (hlimit : cut.length < limit) (state : σ) :
    Responds (Reader.blocksWithin step limit state) (cut.flatMap (Block.bytes encode) ++ stop)
      ((cut.flatMap (·.rows)).foldlM next state) := by
  obtain ⟨limit, rfl⟩ : ∃ fewer, limit = fewer + 1 := ⟨limit - 1, by omega⟩
  induction cut generalizing limit state with
  | nil =>
    refine Yields.bind_pure (yields_stop hstop) ?_
    rw [if_pos rfl]
    exact .pure state
  | cons block rest ih =>
    have hblock := hblocks block (.head _)
    have hsome : block.rows.length ≠ 0 := fun hzero => hblock.1 (List.length_eq_zero_iff.1 hzero)
    have hrest := ih (fun other hother => hblocks other (.tail _ hother))
      (fun other hother => hstep other (.tail _ hother))
    rw [List.length_cons] at hlimit
    obtain ⟨limit, rfl⟩ : ∃ fewer, limit = fewer + 1 := ⟨limit - 1, by omega⟩
    rw [List.flatMap_cons, List.flatMap_cons, List.foldlM_append, Block.bytes, List.append_assoc,
      List.append_assoc]
    refine .after hblock.yields ?_
    rw [if_neg hsome]
    exact .bind (.iterate (hstep block (.head _)) state) fun next _ =>
      hrest next limit (by omega)

/-- Blocks are answered as one run over the rows of all of them. -/
theorem Responds.blocks (state : σ) :
    Responds (Reader.blocks step state) (cut.flatMap (Block.bytes encode) ++ stop)
      ((cut.flatMap (·.rows)).foldlM next state) := by
  have hlength := Block.length_le hblocks encode
  refine .of_runs fun tail => ⟨Reader.blocksWithin step
    ((cut.flatMap (Block.bytes encode) ++ stop ++ tail).length + 1) state, ?_, rfl⟩
  refine .blocksWithin hblocks hstep hstop ?_ state
  rw [List.length_append, List.length_append]
  omega

end

end Reader

/-! ## Collections -/

/-- The bytes of one item and the value that they stand for. -/
structure Item where
  bytes : List UInt8
  value : Value

/-- The bytes of one entry's key, the key and the item behind it. -/
structure Entry where
  keyBytes : List UInt8
  key : String
  content : Item

def Entry.bytes (entry : Entry) : List UInt8 :=
  entry.keyBytes ++ entry.content.bytes

namespace Program

/-- What an array has read after one more item. -/
def ArrayProgress.add (progress : ArrayProgress) (item : Item) :
    Except DecodeFault ArrayProgress :=
  let zeroWidth := progress.zeroWidth + if item.bytes.isEmpty then 1 else 0
  if zeroWidthLimit < zeroWidth then .error (.data (.zeroWidthItems zeroWidthLimit))
  else .ok ⟨item.value :: progress.items, zeroWidth⟩

/-- The number of items without bytes is all that decides whether items can be added.  The
induction is on the items. -/
theorem ArrayProgress.foldlM_add (items : List Item) (progress : ArrayProgress)
    (hlimit : progress.zeroWidth ≤ zeroWidthLimit) :
    items.foldlM add progress =
      if progress.zeroWidth + items.countP (·.bytes.isEmpty) ≤ zeroWidthLimit then
        .ok ⟨(items.map (·.value)).reverse ++ progress.items,
          progress.zeroWidth + items.countP (·.bytes.isEmpty)⟩
      else .error (.data (.zeroWidthItems zeroWidthLimit)) := by
  induction items generalizing progress with
  | nil => exact (if_pos hlimit).symm
  | cons item rest ih =>
    rw [List.foldlM_cons, List.countP_cons, Nat.add_comm (rest.countP _), ← Nat.add_assoc]
    by_cases hfull : zeroWidthLimit < progress.zeroWidth + if item.bytes.isEmpty then 1 else 0
    · rw [add, if_pos hfull, if_neg (by omega)]
      rfl
    · rw [add, if_neg hfull]
      refine (ih _ (Nat.le_of_not_lt hfull)).trans ?_
      rw [List.map_cons, List.reverse_cons, List.append_assoc]
      rfl

theorem responds_readItem {read : Reader Value} {item : Item}
    (hitem : Yields read item.bytes item.value) (progress : ArrayProgress) :
    Responds (readItem read progress) item.bytes (progress.add item) := by
  have hrun (tail : List UInt8) := readItem_run read progress (.ofList (item.bytes ++ tail))
  simp only [hitem _, ArrayProgress.widthAfter_append] at hrun
  by_cases hfull : zeroWidthLimit < progress.zeroWidth + if item.bytes.isEmpty then 1 else 0
  · rw [ArrayProgress.add, if_pos hfull]
    intro tail
    rw [hrun, if_pos hfull]
    exact ⟨_, rfl⟩
  · rw [ArrayProgress.add, if_neg hfull]
    intro tail
    rw [hrun, if_neg hfull]

section

variable {read : Reader Value} {stop : List UInt8}

theorem responds_readArray {blocks : List (Block Item)} (hblocks : ∀ block ∈ blocks, block.Headed)
    (hitems : ∀ item ∈ blocks.flatMap (·.rows), Yields read item.bytes item.value)
    (hstop : Yields long stop 0) :
    Responds (readArray read) (blocks.flatMap (Block.bytes Item.bytes) ++ stop)
      (if (blocks.flatMap (·.rows)).countP (·.bytes.isEmpty) ≤ zeroWidthLimit then
        .ok (.array ((blocks.flatMap (·.rows)).map (·.value)))
      else .error (.data (.zeroWidthItems zeroWidthLimit))) := by
  have hread := Responds.blocks hblocks (fun block hblock item hitem progress =>
    responds_readItem (hitems item (List.mem_flatMap_of_mem hblock hitem)) progress) hstop ⟨[], 0⟩
  have hall := hread.bind_pure fun progress => Value.array progress.items.reverse
  rw [ArrayProgress.foldlM_add _ _ (Nat.zero_le _), Nat.zero_add, List.append_nil] at hall
  split
  · rename_i hfits
    rw [if_pos hfits] at hall
    have hreversed := List.reverse_reverse ((blocks.flatMap (·.rows)).map (·.value))
    rw [← hreversed]
    exact hall
  · rename_i hfull
    rw [if_neg hfull] at hall
    exact hall

theorem yields_readEntry {entry : Entry}
    (hkey : Yields Reader.string entry.keyBytes entry.key)
    (hcontent : Yields read entry.content.bytes entry.content.value)
    (entries : List (String × Value)) :
    Yields (readEntry read entries) entry.bytes ((entry.key, entry.content.value) :: entries) :=
  .bind hkey (.bind_pure hcontent (.pure _))

theorem foldlM_entries (entries : List Entry) (read : List (String × Value)) :
    entries.foldlM (fun read entry => Except.ok ((entry.key, entry.content.value) :: read)) read =
      (.ok ((entries.map fun entry => (entry.key, entry.content.value)).reverse ++ read) :
        Except DecodeFault _) := by
  induction entries generalizing read with
  | nil => rfl
  | cons entry rest ih =>
    rw [List.foldlM_cons, List.map_cons, List.reverse_cons, List.append_assoc]
    exact ih _

theorem yields_readMap_blocks {blocks : List (Block Entry)}
    (hblocks : ∀ block ∈ blocks, block.Headed)
    (hkeys : ∀ entry ∈ blocks.flatMap (·.rows), Yields Reader.string entry.keyBytes entry.key)
    (hcontents : ∀ entry ∈ blocks.flatMap (·.rows),
      Yields read entry.content.bytes entry.content.value)
    (hstop : Yields long stop 0) :
    Yields (readMap read) (blocks.flatMap (Block.bytes Entry.bytes) ++ stop)
      (.map ((blocks.flatMap (·.rows)).map fun entry => (entry.key, entry.content.value))) := by
  have hentry (entry : Entry) (hmem : entry ∈ blocks.flatMap (·.rows))
      (entries : List (String × Value)) :
      Responds (readEntry read entries) entry.bytes
        (.ok ((entry.key, entry.content.value) :: entries)) :=
    yields_readEntry (hkeys entry hmem) (hcontents entry hmem) entries
  have hread := Responds.blocks hblocks (fun block hblock entry hrow entries =>
    hentry entry (List.mem_flatMap_of_mem hblock hrow) entries) hstop []
  rw [foldlM_entries, List.append_nil] at hread
  have hall := hread.bind_pure fun entries => Value.map entries.reverse
  have hreversed := List.reverse_reverse
    ((blocks.flatMap (·.rows)).map fun entry => (entry.key, entry.content.value))
  rw [← hreversed]
  exact hall

end

end Program

end AvroResolution
