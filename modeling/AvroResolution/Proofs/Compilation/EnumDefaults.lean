import AvroResolution.Proofs.Compilation.Resolving

/-!
# Compiling with and without enum defaults

Whether enum defaults are allowed changes the remaps of an arena and nothing else.

* `EnumAdjustment.Completes` compares the remaps of two enums: places that lead nowhere may
  lead somewhere in the second one.  `Symbol.Completes` and `Builder.Completes` are the same for
  symbols and for arenas under construction.
* `Compile.Accords` says that two compilations keep step: on compared arenas they fail with one
  fault, or they return one value and leave compared arenas.  There is one lemma for each
  function of the compiler.
* `Compile.accords_resolving` is the result for two trees, `Builder.Completes.finish` for the
  programs that their arenas become.
-/

namespace AvroResolution

/-! ## Arenas -/

/-- Both remaps give symbols of one enum.  They agree on every place that the first one maps. -/
structure EnumAdjustment.Completes (before after : EnumAdjustment) : Prop where
  symbols : after.symbols = before.symbols
  ordinals : List.Forall₂ (fun old new => old = none ∨ new = old) before.ordinals after.ordinals

/-- The symbols are the same, but that a remap may map more places. -/
inductive Symbol.Completes : Symbol → Symbol → Prop
  | same (symbol : Symbol) : Completes symbol symbol
  | remap {before after : EnumAdjustment} (h : before.Completes after) :
      Completes (.remap before) (.remap after)

/-- Without enum defaults fewer places are mapped. -/
theorem EnumAdjustment.completes_between (config : Config) (on : Bool) (ws rs : List String)
    (default? : Option String) :
    (EnumAdjustment.between { config with enumDefaults := false } ws rs default?).Completes
      (.between { config with enumDefaults := on } ws rs default?) where
  symbols := rfl
  ordinals := by
    rw [between, between, List.forall₂_map_left_iff, List.forall₂_map_right_iff]
    refine List.forall₂_same.2 fun symbol _ => ?_
    cases rs.idxOf? symbol with
    | none => exact .inl rfl
    | some index => exact .inr rfl

namespace Builder

/-- The arenas have compared symbols at the same places and remember the same. -/
structure Completes (builder other : Builder) : Prop where
  slots : List.Forall₂ (Option.Rel Symbol.Completes) builder.slots.toList other.slots.toList
  memo : other.memo = builder.memo

theorem completes_empty : Builder.empty.Completes Builder.empty :=
  ⟨.nil, rfl⟩

namespace Completes

variable {builder other : Builder} (h : builder.Completes other)
include h

theorem size_eq : other.slots.size = builder.slots.size := by
  rw [← Array.length_toList, ← Array.length_toList, h.slots.length_eq]

theorem symbol? (id : SymbolId) :
    Option.Rel Symbol.Completes (builder.symbol? id) (other.symbol? id) := by
  have hslot := rel_getElem? h.slots id
  rw [Array.getElem?_toList, Array.getElem?_toList] at hslot
  rw [Builder.symbol?, Builder.symbol?]
  generalize builder.slots[id]? = slot, other.slots[id]? = slot' at hslot ⊢
  cases hslot with
  | none => exact .none
  | some hslot => exact hslot

theorem terminal?_eq (terminal : Terminal) :
    other.terminal? terminal = builder.terminal? terminal := by
  rw [terminal?, terminal?, ← other.slots.toArray_toList, ← builder.slots.toArray_toList,
    List.findIdx?_toArray, List.findIdx?_toArray]
  refine (findIdx?_eq_of_forall₂ h.slots fun slot slot' hslot => ?_).symm
  cases hslot with
  | none => rfl
  | some hsymbol => cases hsymbol <;> rfl

/-- A remap is no mismatch and no sequence, so match errors are seen alike. -/
theorem hasMatchError_eq (id : SymbolId) : other.hasMatchError id = builder.hasMatchError id := by
  have hid := h.symbol? id
  rw [hasMatchError, hasMatchError]
  generalize builder.symbol? id = symbol?, other.symbol? id = symbol?' at hid ⊢
  cases hid with
  | none => rfl
  | @some symbol _ hsymbol =>
    cases hsymbol with
    | remap => rfl
    | same =>
      cases symbol with
      | sequence children =>
        refine congrArg (List.any children) (funext fun child => ?_)
        have hchild := h.symbol? child
        generalize builder.symbol? child = symbol?, other.symbol? child = symbol?' at hchild ⊢
        cases hchild with
        | none => rfl
        | some hsymbol => cases hsymbol <;> rfl
      | _ => rfl

theorem pushSlot {slot slot' : Option Symbol} (hslot : Option.Rel Symbol.Completes slot slot') :
    (builder.pushSlot slot).Completes (other.pushSlot slot') := by
  refine ⟨?_, h.memo⟩
  rw [Builder.pushSlot, Builder.pushSlot, Array.toList_push, Array.toList_push]
  exact List.rel_append h.slots (.cons hslot .nil)

theorem remember (key : MemoKey) (id : SymbolId) :
    (builder.remember key id).Completes (other.remember key id) :=
  ⟨h.slots, congrArg ((key, id) :: ·) h.memo⟩

theorem meet (key : MemoKey) (id : SymbolId) :
    (builder.meet key id).Completes (other.meet key id) :=
  ⟨h.slots, h.memo⟩

theorem fillSlot (id : SymbolId) (symbol : Symbol) :
    (builder.fillSlot id symbol).Completes (other.fillSlot id symbol) := by
  refine ⟨?_, h.memo⟩
  rw [Builder.fillSlot, Builder.fillSlot, Array.toList_setIfInBounds, Array.toList_setIfInBounds]
  exact forall₂_set h.slots (.some (.same symbol)) id

end Completes

end Builder

/-! ## Two compilations side by side -/

/-- Both computations fail with one fault, or they return related values. -/
inductive Agrees {ε α β : Type} (related : α → β → Prop) : Except ε α → Except ε β → Prop
  | ok {value : α} {other : β} (h : related value other) : Agrees related (.ok value) (.ok other)
  | error (fault : ε) : Agrees related (.error fault) (.error fault)

theorem Agrees.bind {ε α β γ δ : Type} {related : α → β → Prop} {related' : γ → δ → Prop}
    {x : Except ε α} {y : Except ε β} {f : α → Except ε γ} {g : β → Except ε δ}
    (h : Agrees related x y)
    (hnext : ∀ value other, related value other → Agrees related' (f value) (g other)) :
    Agrees related' (x >>= f) (y >>= g) := by
  cases h with
  | ok h => exact hnext _ _ h
  | error fault => exact .error fault

theorem Agrees.mapM {ε α β γ δ : Type} {related : α → β → Prop} {related' : γ → δ → Prop}
    {f : α → Except ε γ} {g : β → Except ε δ} {items : List α} {others : List β}
    (h : List.Forall₂ related items others)
    (hf : ∀ item other, related item other → Agrees related' (f item) (g other)) :
    Agrees (List.Forall₂ related') (items.mapM f) (others.mapM g) := by
  induction h with
  | nil => exact .ok .nil
  | cons hfirst _ ih =>
    rw [List.mapM_cons, List.mapM_cons]
    exact (hf _ _ hfirst).bind fun _ _ hvalue =>
      ih.bind fun _ _ hvalues => .ok (.cons hvalue hvalues)

namespace Compile

variable {α β : Type}

/-- The values that two compilations return are the same, and the arenas that they leave
compare. -/
def SameResult (result other : α × Builder) : Prop :=
  other.1 = result.1 ∧ result.2.Completes other.2

/-- On compared arenas the compilations fail with one fault or have the same result. -/
def Accords (x y : Compile α) : Prop :=
  ∀ builder other, builder.Completes other → Agrees SameResult (x builder) (y other)

namespace Accords

protected theorem pure (value : α) : Accords (Pure.pure value) (Pure.pure value) :=
  fun _ _ h => .ok ⟨rfl, h⟩

protected theorem throw (fault : SchemaFault) :
    Accords (throw fault : Compile α) (throw fault : Compile α) :=
  fun _ _ _ => .error fault

protected theorem bind {x y : Compile α} {next next' : α → Compile β} (h : Accords x y)
    (hnext : ∀ value, Accords (next value) (next' value)) :
    Accords (x >>= next) (y >>= next') := by
  intro builder other hbuilder
  refine (h builder other hbuilder).bind ?_
  rintro ⟨_, middle⟩ ⟨value, middle'⟩ ⟨rfl, hmiddle⟩
  exact hnext value middle middle' hmiddle

protected theorem mapM {γ : Type} {items : List γ} {x y : γ → Compile α}
    (h : ∀ item, Accords (x item) (y item)) : Accords (items.mapM x) (items.mapM y) := by
  induction items with
  | nil => exact .pure []
  | cons item rest ih =>
    rw [List.mapM_cons, List.mapM_cons]
    exact (h item).bind fun value => ih.bind fun values => .pure (value :: values)

end Accords

/-! ## The arena and the memory -/

theorem accords_push {symbol symbol' : Symbol} (h : symbol.Completes symbol') :
    Accords (push symbol) (push symbol') :=
  fun _ _ hbuilder => .ok ⟨hbuilder.size_eq, hbuilder.pushSlot (.some h)⟩

theorem accords_pushSame (symbol : Symbol) : Accords (push symbol) (push symbol) :=
  accords_push (.same symbol)

theorem accords_terminal (wanted : Terminal) : Accords (terminal wanted) (terminal wanted) := by
  intro builder other hbuilder
  rw [terminal, terminal, hbuilder.terminal?_eq]
  cases builder.terminal? wanted with
  | some id => exact .ok ⟨rfl, hbuilder⟩
  | none => exact accords_pushSame _ builder other hbuilder

theorem accords_hasMatchError (id : SymbolId) :
    Accords (hasMatchError id) (hasMatchError id) := by
  intro builder other hbuilder
  rw [hasMatchError, hasMatchError, hbuilder.hasMatchError_eq]
  exact .ok ⟨rfl, hbuilder⟩

theorem accords_memoise (key : MemoKey) (id : SymbolId) :
    Accords (memoise key id) (memoise key id) :=
  fun _ _ hbuilder => .ok ⟨rfl, hbuilder.remember key id⟩

theorem accords_blocks (collection : Collection) (body : List SymbolId) :
    Accords (blocks collection body) (blocks collection body) :=
  (accords_terminal _).bind fun _ => (accords_pushSame _).bind fun _ => accords_pushSame _

theorem accords_enumeration {before after : EnumAdjustment} (h : before.Completes after) :
    Accords (enumeration before) (enumeration after) :=
  (accords_terminal _).bind fun _ => (accords_push (.remap h)).bind fun _ => accords_pushSame _

theorem accords_onFirstSight (key : MemoKey) {compile compile' : Compile SymbolId}
    (h : Accords compile compile') :
    Accords (onFirstSight key compile) (onFirstSight key compile') := by
  have hsymbolOf : Accords (symbolOf key) (symbolOf key) := by
    intro builder other hbuilder
    have hlookup : other.memo.lookup key = builder.memo.lookup key := by rw [hbuilder.memo]
    rw [symbolOf, symbolOf, hlookup]
    cases builder.memo.lookup key with
    | some id => exact .ok ⟨rfl, hbuilder.meet key id⟩
    | none => exact .ok ⟨rfl, hbuilder⟩
  refine hsymbolOf.bind fun known? => ?_
  cases known? with
  | some id => exact .pure id
  | none => exact h

theorem accords_reserveFor (key : MemoKey) {body body' : Compile Symbol} (h : Accords body body') :
    Accords (reserveFor key body) (reserveFor key body') := by
  have hreserve : Accords reserve reserve :=
    fun _ _ hbuilder => .ok ⟨hbuilder.size_eq, hbuilder.pushSlot .none⟩
  have hfill (id : SymbolId) (symbol : Symbol) : Accords (fill id symbol) (fill id symbol) :=
    fun _ _ hbuilder => .ok ⟨rfl, hbuilder.fillSlot id symbol⟩
  refine hreserve.bind fun id => (accords_memoise key id).bind fun _ => ?_
  exact h.bind fun symbol => (hfill id symbol).bind fun _ => .pure id

/-! ## Resolving -/

variable {context : Context}

/-- A reader of the schemas, which has no part in the arena. -/
theorem accords_look (node : Node) : Accords (context.look node) (context.look node) := by
  intro builder other hbuilder
  rw [Context.look, Context.look]
  cases (context.registry node.side).look node with
  | ok shape => exact .ok ⟨rfl, hbuilder⟩
  | error dangling => exact .error _

theorem accords_defaultBytes (field : DefaultedField) :
    Accords (defaultBytes context field) (defaultBytes context field) := by
  intro builder other hbuilder
  rw [defaultBytes, defaultBytes]
  cases encodeDefault (context.registry field.reader.field.type.side) field.reader.field.type
    field.default with
  | ok bytes => exact .ok ⟨rfl, hbuilder⟩
  | error fault => exact .error _

end Compile

/-- The context with enum defaults allowed or not. -/
def Context.withEnumDefaults (context : Context) (on : Bool) : Context :=
  { context with config := { context.config with enumDefaults := on } }

namespace Compile

section

variable {context : Context} {resolve resolve' : Node → Node → Compile SymbolId}
  (hresolve : ∀ writer reader, Accords (resolve writer reader) (resolve' writer reader))
include hresolve

theorem accords_resolveWritten (linked : Field Node × Option ReaderField) :
    Accords (resolveWritten resolve linked) (resolveWritten resolve' linked) := by
  rcases linked with ⟨field, _ | reader⟩
  · exact (hresolve field.type field.type).bind fun value =>
      (accords_pushSame (.skip value)).bind fun _ => .pure _
  · exact (hresolve field.type reader.field.type).bind fun _ => .pure _

theorem accords_resolveDefaulted (field : DefaultedField) :
    Accords (resolveDefaulted (context.withEnumDefaults false) resolve field)
      (resolveDefaulted (context.withEnumDefaults true) resolve' field) :=
  (accords_defaultBytes field).bind fun _ => (accords_pushSame _).bind fun _ =>
    (hresolve _ _).bind fun _ => (accords_pushSame _).bind fun _ => .pure _

theorem accords_resolveFields (w : RecordNode) (matching : Matching) :
    Accords (resolveFields (context.withEnumDefaults false) resolve w matching)
      (resolveFields (context.withEnumDefaults true) resolve' w matching) :=
  (Accords.mapM (accords_resolveWritten hresolve)).bind fun _ =>
    (Accords.mapM (accords_resolveDefaulted hresolve)).bind fun _ =>
      (accords_pushSame _).bind fun _ => .pure _

theorem accords_resolveRecords (w r : RecordNode) :
    Accords (resolveRecords (context.withEnumDefaults false) resolve w r)
      (resolveRecords (context.withEnumDefaults true) resolve' w r) := by
  have hconfig : Matching.ofFields (context.withEnumDefaults true).config w.fields r.fields =
      Matching.ofFields (context.withEnumDefaults false).config w.fields r.fields := rfl
  rw [resolveRecords_eq, resolveRecords_eq, hconfig]
  refine accords_onFirstSight _ ?_
  cases Matching.ofFields (context.withEnumDefaults false).config w.fields r.fields with
  | error field =>
    exact (accords_pushSame _).bind fun id => (accords_memoise _ id).bind fun _ => .pure id
  | ok matching => exact accords_reserveFor _ (accords_resolveFields hresolve w matching)

/-- No branch is chosen by what an enum maps. -/
theorem accords_branchOfType (writer : Shape) (candidates : List (Node × Nat))
    (structural : Option (Node × Nat)) :
    Accords (branchOfType (context.withEnumDefaults false) resolve writer candidates structural)
      (branchOfType (context.withEnumDefaults true) resolve' writer candidates structural) := by
  induction candidates generalizing structural with
  | nil => exact .pure structural
  | cons candidate rest ih =>
    rw [branchOfType_cons, branchOfType_cons]
    refine (accords_look candidate.1).bind fun shape => ?_
    split
    · exact .pure (some candidate)
    · split
      · exact (accords_resolveRecords hresolve _ _).bind fun id =>
          (accords_hasMatchError id).bind fun failed => ih _
      · exact ih structural

omit hresolve in
theorem accords_branchByPromotion (writer : Shape) (candidates : List (Node × Nat)) :
    Accords (branchByPromotion (context.withEnumDefaults false) writer candidates)
      (branchByPromotion (context.withEnumDefaults true) writer candidates) := by
  induction candidates with
  | nil => exact .pure none
  | cons candidate rest ih =>
    refine (accords_look candidate.1).bind fun shape => ?_
    split
    · split
      · exact .pure _
      · exact ih
    · exact ih

theorem accords_chooseBranch (writer : Shape) (branches : List Node) :
    Accords (chooseBranch (context.withEnumDefaults false) resolve writer branches)
      (chooseBranch (context.withEnumDefaults true) resolve' writer branches) := by
  refine (accords_branchOfType hresolve writer branches.zipIdx none).bind fun chosen? => ?_
  cases chosen? with
  | some chosen => exact .pure _
  | none => exact accords_branchByPromotion writer branches.zipIdx

theorem accords_resolveReaderUnion (writer : Node) (w r : Shape) (branches : List Node) :
    Accords (resolveReaderUnion (context.withEnumDefaults false) resolve writer w r branches)
      (resolveReaderUnion (context.withEnumDefaults true) resolve' writer w r branches) := by
  refine (accords_chooseBranch hresolve w branches).bind fun chosen? => ?_
  cases chosen? with
  | none => exact accords_pushSame _
  | some chosen => exact (hresolve writer chosen.1).bind fun _ => accords_pushSame _

theorem accords_resolveWriterUnion (branches : List Node) (reader : Node) :
    Accords (resolveWriterUnion resolve branches reader)
      (resolveWriterUnion resolve' branches reader) := by
  refine (Accords.mapM fun branch => (hresolve branch reader).bind fun _ => .pure _).bind
    fun alternatives => ?_
  exact (accords_pushSame _).bind fun _ => accords_pushSame _

/-- Only the rule for two enums looks at the setting. -/
theorem accords_ofReading (writer reader : Node) (w r : Shape) (reading : Reading) :
    Accords (ofReading (context.withEnumDefaults false) resolve writer reader w r reading)
      (ofReading (context.withEnumDefaults true) resolve' writer reader w r reading) := by
  cases reading with
  | atom type => exact accords_terminal _
  | promotion promotion => exact (accords_terminal _).bind fun _ => accords_pushSame _
  | enum ws rs default? =>
    exact accords_enumeration (EnumAdjustment.completes_between context.config true ws rs default?)
  | array wi ri => exact (hresolve wi ri).bind fun _ => accords_blocks _ _
  | map wv rv =>
    exact (accords_terminal _).bind fun _ => (hresolve wv rv).bind fun _ => accords_blocks _ _
  | records wr rr => exact accords_resolveRecords hresolve wr rr
  | writerUnion branches => exact accords_resolveWriterUnion hresolve branches reader
  | readerUnion branches => exact accords_resolveReaderUnion hresolve writer w r branches
  | mismatch cause => exact accords_pushSame _

end

/-- The setting has no part in a compilation but for what enums map.  The induction is on the
depth. -/
theorem accords_resolving (context : Context) (depth : Nat) (writer reader : Node) :
    Accords (resolving (context.withEnumDefaults false) depth writer reader)
      (resolving (context.withEnumDefaults true) depth writer reader) := by
  induction depth generalizing writer reader with
  | zero => exact .throw _
  | succ depth ih =>
    rw [resolving, resolving, resolvingStep_eq, resolvingStep_eq]
    refine (accords_look writer).bind fun w => ?_
    refine (accords_look reader).bind fun r => ?_
    exact accords_ofReading ih writer reader w r _

end Compile

/-! ## Programs -/

/-- The programs start at one symbol and have compared symbols at the same places. -/
structure Program.Completes (program other : Program) : Prop where
  root : other.root = program.root
  symbols : List.Forall₂ Symbol.Completes program.symbols.toList other.symbols.toList

theorem Builder.Completes.finish {builder other : Builder} (h : builder.Completes other)
    (root : SymbolId) : Agrees Program.Completes (builder.finish root) (other.finish root) := by
  have hfilled : Agrees (List.Forall₂ Symbol.Completes)
      (builder.slots.toList.zipIdx.mapM filled) (other.slots.toList.zipIdx.mapM filled) := by
    refine Agrees.mapM (forall₂_zipIdx h.slots 0) ?_
    rintro ⟨slot, id⟩ ⟨slot', _⟩ ⟨hslot, rfl⟩
    cases hslot with
    | none => exact .error _
    | some hsymbol => exact .ok hsymbol
  rw [finish_eq, finish_eq]
  exact hfilled.bind fun symbols symbols' hsymbols => .ok ⟨rfl, hsymbols⟩

end AvroResolution
