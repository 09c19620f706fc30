import AvroResolution.Proofs.Compilation.ResolvingSteps
import AvroResolution.Proofs.Schema.Trees

/-!
# Arenas of trees without references

What is compiled for trees that refer to nothing is smaller than what it is compiled for.  So no
pair of records is met inside of itself, and a union adjusts to what is complete.

* `Builder.OpensAbove` says that the pairs of records whose slots are empty are larger than a
  bound.  `Builder.Closes` says that no new slot is left empty.
* `Builder.Reads.exists_symbol`: the symbol of two nodes is there if the pairs whose slots are
  empty are larger.
* `Builder.AdjustsBack` is the invariant of the compilation: a union adjusts to a symbol whose
  children were there before the union.
-/

namespace AvroResolution

namespace Builder

variable {context : Context} {roots : List Node} {builder middle after : Builder}

/-! ## Slots that are empty -/

/-- A record of the second builder whose slot is empty was in the first, with its slot empty. -/
def Closes (builder after : Builder) : Prop :=
  ∀ key id, after.memo.lookup key = some id → after.symbol? id = none →
    builder.memo.lookup key = some id ∧ builder.symbol? id = none

/-- The pairs of records whose slots are empty are larger than the bound. -/
def OpensAbove (context : Context) (builder : Builder) (bound : Nat) : Prop :=
  ∀ w r id, context.Defines w → context.Defines r →
    builder.memo.lookup (.resolving w.id r.id) = some id → builder.symbol? id = none →
      bound < max w.size r.size

theorem Closes.refl (builder : Builder) : builder.Closes builder :=
  fun _ _ hkey hnone => ⟨hkey, hnone⟩

theorem Closes.trans (h : builder.Closes middle) (h' : middle.Closes after) :
    builder.Closes after := by
  intro key id hkey hnone
  obtain ⟨hkey, hnone⟩ := h' key id hkey hnone
  exact h key id hkey hnone

theorem Closes.of_grows (hgrows : builder.Grows after)
    (h : ∀ key id, after.memo.lookup key = some id → after.symbol? id = none →
      builder.memo.lookup key = some id) : builder.Closes after := by
  intro key id hkey hnone
  refine ⟨h key id hkey hnone, ?_⟩
  cases hsymbol : builder.symbol? id with
  | none => rfl
  | some symbol =>
    rw [hgrows.symbol id symbol hsymbol] at hnone
    cases hnone

theorem OpensAbove.closes {bound : Nat} (h : builder.OpensAbove context bound)
    (hcloses : builder.Closes after) : after.OpensAbove context bound := by
  intro w r id hw hr hkey hnone
  obtain ⟨hkey, hnone⟩ := hcloses _ id hkey hnone
  exact h w r id hw hr hkey hnone

theorem OpensAbove.mono {bound less : Nat} (h : builder.OpensAbove context bound)
    (hle : less ≤ bound) : builder.OpensAbove context less :=
  fun w r id hw hr hkey hnone => Nat.lt_of_le_of_lt hle (h w r id hw hr hkey hnone)

theorem opensAbove_empty (context : Context) (bound : Nat) :
    Builder.empty.OpensAbove context bound := by
  intro w r id _ _ hkey
  cases hkey

/-- A pair of records that is opened is larger than what is smaller than one of them. -/
theorem OpensAbove.opened {w r : RecordNode} {bound less : Nat}
    (hsound : builder.Sound (ReadsKey context)) (h : builder.OpensAbove context bound)
    (hle : less ≤ bound) (hlt : less < max w.size r.size) (hw : context.Defines w)
    (hr : context.Defines r) :
    (builder.opened (.resolving w.id r.id)).OpensAbove context less := by
  intro w' r' id hw' hr' hkey hnone
  by_cases hsame : MemoKey.resolving w'.id r'.id = .resolving w.id r.id
  · injection hsame with hwid hrid
    rwa [hw'.eq hw hwid, hr'.eq hr hrid]
  · have hold : builder.memo.lookup (.resolving w'.id r'.id) = some id :=
      (lookup_remember_of_ne _ hsame).symm.trans hkey
    have hnew : (builder.opened (.resolving w.id r.id)).symbol? id = builder.symbol? id :=
      symbol?_pushSlot_of_ne none (Nat.ne_of_lt (hsound.bounded _ _ hold))
    exact Nat.lt_of_le_of_lt hle (h w' r' id hw' hr' hold (hnew.symm.trans hnone))

/-! ## Symbols of two nodes -/

/-- A symbol that reads two nodes is there, if the pairs whose slots are empty are larger. -/
theorem Reads.exists_symbol {writer reader : Node} {id : SymbolId}
    (h : builder.Reads context writer reader id) (hwriter : writer.schema.references = [])
    (hreader : reader.schema.references = [])
    (hopens : builder.OpensAbove context (max writer.preorder.length reader.preorder.length)) :
    ∃ symbol, builder.symbol? id = some symbol := by
  cases h with
  | @records _ _ _ w r hreading hw hr hid =>
    obtain ⟨_, _, hwshape, hrshape, hrule⟩ := Context.rule_of_reading? hreading
    cases hrule
    have hwsize : w.size ≤ writer.preorder.length := Context.size_le hwriter hwshape
    have hrsize : r.size ≤ reader.preorder.length := Context.size_le hreader hrshape
    cases hsymbol : builder.symbol? id with
    | some symbol => exact ⟨symbol, rfl⟩
    | none =>
      have := hopens w r id hw hr hid hsymbol
      omega
  | atom _ hid => exact ⟨_, hid⟩
  | promotion _ _ hid => exact ⟨_, hid⟩
  | enum _ _ _ hid => exact ⟨_, hid⟩
  | array _ _ _ _ hid => exact ⟨_, hid⟩
  | map _ _ _ _ _ hid => exact ⟨_, hid⟩
  | select _ _ _ _ hid => exact ⟨_, hid⟩
  | adjust _ _ _ _ _ hid => exact ⟨_, hid⟩
  | unbranched _ _ _ _ hid => exact ⟨_, hid⟩
  | mismatch _ hid => exact ⟨_, hid⟩

theorem ReadsWritten.lt_size (hsound : builder.Sound (ReadsKey context))
    {linked : Field Node × Option ReaderField} {written : Compile.WrittenField}
    (h : ReadsWritten context builder linked written) : written.symbol < builder.slots.size := by
  cases h with
  | linked hsymbol => exact hsymbol.lt_size hsound
  | dropped _ hsymbol => exact lt_size_of_symbol? hsymbol

theorem ReadsDefault.lt_size (hsound : builder.Sound (ReadsKey context)) {field : DefaultedField}
    {symbols : List SymbolId} (h : ReadsDefault context builder field symbols) :
    ∀ id ∈ symbols, id < builder.slots.size := by
  cases h with
  | intro _ hinject hvalue hlast =>
    intro id hid
    simp only [List.mem_cons, List.not_mem_nil, or_false] at hid
    rcases hid with rfl | rfl | rfl
    · exact lt_size_of_symbol? hinject
    · exact hvalue.lt_size hsound
    · exact lt_size_of_symbol? hlast

/-- The children of a symbol that reads two nodes are in the arena. -/
theorem Reads.children_lt {writer reader : Node} {id : SymbolId} {symbol : Symbol}
    (hsound : builder.Sound (ReadsKey context)) (h : builder.Reads context writer reader id)
    (hsymbol : builder.symbol? id = some symbol) :
    ∀ child ∈ symbol.children, child < builder.slots.size := by
  have hpair {first second : SymbolId} {symbol symbol' : Symbol}
      (hfirst : builder.symbol? first = some symbol)
      (hsecond : builder.symbol? second = some symbol') :
      ∀ child ∈ [first, second], child < builder.slots.size :=
    List.forall_mem_cons.2 ⟨lt_size_of_symbol? hfirst,
      List.forall_mem_singleton.2 (lt_size_of_symbol? hsecond)⟩
  cases h with
  | atom _ hid =>
    cases hsymbol.symm.trans hid
    exact nofun
  | promotion _ hsource hid =>
    cases hsymbol.symm.trans hid
    exact List.forall_mem_singleton.2 (lt_size_of_symbol? hsource)
  | enum _ hordinal hremap hid =>
    cases hsymbol.symm.trans hid
    exact hpair hordinal hremap
  | array _ _ hstart hitems hid =>
    cases hsymbol.symm.trans hid
    exact hpair hstart hitems
  | map _ _ _ hstart hentries hid =>
    cases hsymbol.symm.trans hid
    exact hpair hstart hentries
  | select _ _ _ halternative hid =>
    cases hsymbol.symm.trans hid
    exact List.forall_mem_singleton.2 (lt_size_of_symbol? halternative)
  | adjust _ _ _ _ hbranch hid =>
    cases hsymbol.symm.trans hid
    exact List.forall_mem_singleton.2 (hbranch.lt_size hsound)
  | unbranched _ _ _ _ hid =>
    cases hsymbol.symm.trans hid
    exact nofun
  | mismatch _ hid =>
    cases hsymbol.symm.trans hid
    exact nofun
  | records _ hw hr hid =>
    cases hsound.readsRecord hw hr hid hsymbol with
    | missing _ hmismatch =>
      cases hsymbol.symm.trans hmismatch
      exact nofun
    | fields _ hwritten hdefaulted horder hsequence =>
      cases hsymbol.symm.trans hsequence
      intro child hchild
      rcases List.mem_append.1 hchild with hchild | hchild
      · rcases List.mem_append.1 hchild with hchild | hchild
        · obtain ⟨part, hpart, rfl⟩ := List.mem_map.1 hchild
          obtain ⟨_, _, hread⟩ := exists_of_forall₂_right hwritten hpart
          exact hread.lt_size hsound
        · obtain ⟨symbols, hsymbols, hchild⟩ := List.mem_flatten.1 hchild
          obtain ⟨_, _, hread⟩ := exists_of_forall₂_right hdefaulted hsymbols
          exact hread.lt_size hsound child hchild
      · obtain rfl := List.mem_singleton.1 hchild
        exact lt_size_of_symbol? horder

/-! ## Unions that adjust -/

/-- The symbol reads two nodes of the trees, and what it adjusts to was complete before it. -/
def AdjustsBackAt (context : Context) (roots : List Node) (builder : Builder)
    (id symbol : SymbolId) : Prop :=
  (∃ writer ∈ Node.forest roots, ∃ reader ∈ Node.forest roots,
    builder.Reads context writer reader id) ∧
  ∃ found, builder.symbol? symbol = some found ∧ ∀ child ∈ found.children, child < id

/-- Every union that adjusts refers to what was complete before it. -/
def AdjustsBack (context : Context) (roots : List Node) (builder : Builder) : Prop :=
  ∀ id index symbol, builder.symbol? id = some (.adjust index symbol) →
    builder.AdjustsBackAt context roots id symbol

theorem AdjustsBackAt.grow {id symbol : SymbolId} (hgrows : builder.Grows after)
    (h : builder.AdjustsBackAt context roots id symbol) :
    after.AdjustsBackAt context roots id symbol := by
  obtain ⟨⟨writer, hwriter, reader, hreader, hreads⟩, found, hfound, hchildren⟩ := h
  exact ⟨⟨writer, hwriter, reader, hreader, hreads.grow hgrows⟩, found,
    hgrows.symbol _ _ hfound, hchildren⟩

theorem AdjustsBack.grow (h : builder.AdjustsBack context roots) (hgrows : builder.Grows after)
    (hnew : ∀ id index symbol, after.symbol? id = some (.adjust index symbol) →
      builder.symbol? id = some (.adjust index symbol) ∨
        after.AdjustsBackAt context roots id symbol) : after.AdjustsBack context roots := by
  intro id index symbol hid
  rcases hnew id index symbol hid with hold | hback
  · exact (h id index symbol hold).grow hgrows
  · exact hback

theorem AdjustsBack.pushSlot (h : builder.AdjustsBack context roots) {slot : Option Symbol}
    (hslot : ∀ index symbol, slot = some (.adjust index symbol) →
      (builder.pushSlot slot).AdjustsBackAt context roots builder.slots.size symbol) :
    (builder.pushSlot slot).AdjustsBack context roots := by
  refine h.grow (builder.extends_pushSlot slot).toGrows fun id index symbol hid => ?_
  by_cases hnew : id = builder.slots.size
  · subst hnew
    rw [symbol?_pushSlot_self] at hid
    exact .inr (hslot index symbol hid)
  · rw [symbol?_pushSlot_of_ne slot hnew] at hid
    exact .inl hid

theorem AdjustsBack.remember (h : builder.AdjustsBack context roots) {key : MemoKey}
    (id : SymbolId) (hfresh : builder.memo.lookup key = none) :
    (builder.remember key id).AdjustsBack context roots :=
  h.grow (builder.extends_remember id hfresh).toGrows fun _ _ _ => .inl

end Builder

end AvroResolution
