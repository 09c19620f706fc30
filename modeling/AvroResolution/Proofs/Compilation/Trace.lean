import AvroResolution.Proofs.Compilation.Builder

/-!
# How an arena grows

`Builder.Trace` tells the history of an arena as steps of four kinds: a symbol is
pushed, a record is met again, a pair of records that lacks a field is pushed and
remembered, and a record reserves its slot, goes through steps of its own and is filled.

* `Builder.Trace.filled`: a history leaves none of its own slots empty.
* `Builder.Orderly` is what every history keeps: symbols refer into the arena, and
  all but the records refer backwards.
* `Compile.Proceeds` says of a compilation that it goes by such steps, or that it
  fails for a known cause.  It is `Compile.Gives` with the steps and the failures.
-/

namespace AvroResolution

/-- A symbol that starts the reading of a default. -/
def Symbol.isInject : Symbol → Bool
  | .inject _ _ => true
  | _ => false

namespace Builder

/-! ## Steps -/

/-- The key belongs to records that the trees define. -/
def Names (context : Context) : MemoKey → Prop
  | .validating id => ∃ record, context.Defines record ∧ record.id = id
  | .resolving writer reader => ∃ w r, context.Defines w ∧ context.Defines r ∧
      w.id = writer ∧ r.id = reader

/-- The symbol may be pushed.  Only a record has symbols among its children that inject
a default, and only records refer to symbols that come later.  A union adjusts to a
pair of records of two names if the pair shows no mismatch. -/
def Admits (context : Context) (builder : Builder) : Symbol → Prop
  | .terminal terminal => builder.terminal? terminal = none
  | .sequence children => ∀ child ∈ children, ∃ symbol, builder.symbol? child = some symbol ∧
      symbol.isInject = false
  | .adjust _ symbol => ∀ w r, context.Defines w → context.Defines r →
      builder.memo.lookup (.resolving w.id r.id) = some symbol →
        w.heading.fullname ≠ r.heading.fullname → builder.hasMatchError symbol = false
  | _ => True

/-- The slot at the end, reserved for a record. -/
def opened (builder : Builder) (key : MemoKey) : Builder :=
  (builder.pushSlot none).remember key builder.slots.size

/-- The second builder comes from the first by steps of compilation. -/
inductive Trace (context : Context) : Builder → Builder → Prop
  | refl (builder : Builder) : Trace context builder builder
  | push {builder middle : Builder} {symbol : Symbol} (hbefore : Trace context builder middle)
      (hsymbol : middle.Admits context symbol)
      (hchildren : ∀ child ∈ symbol.children, child < middle.slots.size) :
      Trace context builder (middle.pushSlot (some symbol))
  | met {builder middle : Builder} {key : MemoKey} {id : SymbolId}
      (hbefore : Trace context builder middle) (hid : middle.memo.lookup key = some id) :
      Trace context builder (middle.meet key id)
  | missing {builder middle : Builder} {key : MemoKey} {cause : Mismatch}
      (hbefore : Trace context builder middle) (hkey : Names context key)
      (hfresh : middle.memo.lookup key = none) :
      Trace context builder
        ((middle.pushSlot (some (.mismatch cause))).remember key middle.slots.size)
  | record {builder middle last : Builder} {key : MemoKey} {children : List SymbolId}
      {order : Nat} {arrivals : List Arrival}
      (hbefore : Trace context builder middle) (hkey : Names context key)
      (hfresh : middle.memo.lookup key = none)
      (hinside : Trace context (middle.opened key) last)
      (hchildren : ∀ child ∈ children, child < last.slots.size)
      (horder : last.symbol? order = some (.reorder arrivals))
      (hlast : last.slots.size = order + 1) :
      Trace context builder (last.fillSlot middle.slots.size (.sequence (children ++ [order])))

variable {context : Context} {builder middle after last : Builder}

theorem Trace.trans (h : Trace context builder middle) (h' : Trace context middle after) :
    Trace context builder after := by
  induction h' with
  | refl => exact h
  | push _ hsymbol hchildren ih => exact .push (ih h) hsymbol hchildren
  | met _ hid ih => exact .met (ih h) hid
  | missing _ hkey hfresh ih => exact .missing (ih h) hkey hfresh
  | record _ hkey hfresh hinside hchildren horder hlast ih _ =>
    exact .record (ih h) hkey hfresh hinside hchildren horder hlast

/-! ## Slots -/

theorem Extends.symbol?_eq (h : builder.Extends after) {id : SymbolId}
    (hid : id < builder.slots.size) : after.symbol? id = builder.symbol? id := by
  cases hsymbol : builder.symbol? id with
  | none => exact h.reserved id hid hsymbol
  | some symbol => exact h.symbol id symbol hsymbol

theorem lt_size_of_symbol? {id : SymbolId} {symbol : Symbol}
    (h : builder.symbol? id = some symbol) : id < builder.slots.size := by
  by_contra hle
  rw [symbol?_of_size_le (Nat.le_of_not_lt hle)] at h
  cases h

theorem size_pushSlot (builder : Builder) (slot : Option Symbol) :
    (builder.pushSlot slot).slots.size = builder.slots.size + 1 := by
  simp [pushSlot]

theorem size_fillSlot (builder : Builder) (id : SymbolId) (symbol : Symbol) :
    (builder.fillSlot id symbol).slots.size = builder.slots.size := by
  simp [fillSlot]

theorem size_opened (builder : Builder) (key : MemoKey) :
    (builder.opened key).slots.size = builder.slots.size + 1 :=
  builder.size_pushSlot none

theorem Extends.symbol?_opened {key : MemoKey} (h : (builder.opened key).Extends last) :
    last.symbol? builder.slots.size = none := by
  have hlt : builder.slots.size < (builder.opened key).slots.size := by
    rw [size_opened]
    exact Nat.lt_succ_self _
  rw [h.symbol?_eq hlt]
  exact builder.symbol?_pushSlot_self none

theorem extends_opened (builder : Builder) {key : MemoKey}
    (hfresh : builder.memo.lookup key = none) : builder.Extends (builder.opened key) :=
  (builder.extends_pushSlot none).trans (extends_remember _ _ hfresh)

/-- Filling a slot that was opened later changes nothing that was there before. -/
theorem Extends.fillSlot {key : MemoKey} (hfresh : builder.memo.lookup key = none)
    (h : (builder.opened key).Extends last) (symbol : Symbol) :
    builder.Extends (last.fillSlot builder.slots.size symbol) := by
  have hall := (builder.extends_opened hfresh).trans h
  refine ⟨hall.toGrows.trans (grows_fillSlot symbol h.symbol?_opened), ?_, ?_⟩
  · rw [size_fillSlot]
    exact hall.size
  · intro id hid hnone
    rw [symbol?_fillSlot_of_ne symbol (Nat.ne_of_lt hid)]
    exact hall.reserved id hid hnone

theorem Trace.extends (h : Trace context builder after) : builder.Extends after := by
  induction h with
  | refl builder => exact .refl builder
  | push _ _ _ ih => exact ih.trans (extends_pushSlot _ _)
  | met _ _ ih => exact ih.trans (extends_meet _ _ _)
  | missing _ _ hfresh ih =>
    exact ih.trans ((extends_pushSlot _ _).trans (extends_remember _ _ hfresh))
  | record _ _ hfresh _ _ _ _ ih ihinside => exact ih.trans (ihinside.fillSlot hfresh _)

/-- The slots that a history adds are filled in the end.  The induction is on the
history; the slot of a record is filled by its last step. -/
theorem Trace.filled (h : Trace context builder after) {id : Nat}
    (hlow : builder.slots.size ≤ id) (hhigh : id < after.slots.size) :
    ∃ symbol, after.symbol? id = some symbol := by
  induction h with
  | refl => exact absurd hhigh (Nat.not_lt_of_le hlow)
  | @push builder middle symbol _ _ _ ih =>
    rw [size_pushSlot] at hhigh
    by_cases hid : id = middle.slots.size
    · exact ⟨symbol, hid ▸ middle.symbol?_pushSlot_self (some symbol)⟩
    · rw [symbol?_pushSlot_of_ne _ hid]
      exact ih hlow (by omega)
  | met _ _ ih => exact ih hlow hhigh
  | @missing builder middle key cause _ _ _ ih =>
    have hhigh : id < (middle.pushSlot (some (.mismatch cause))).slots.size := hhigh
    have hsame : ((middle.pushSlot (some (.mismatch cause))).remember key
        middle.slots.size).symbol? id = (middle.pushSlot (some (.mismatch cause))).symbol? id := rfl
    rw [size_pushSlot] at hhigh
    rw [hsame]
    by_cases hid : id = middle.slots.size
    · exact ⟨_, hid ▸ middle.symbol?_pushSlot_self _⟩
    · rw [symbol?_pushSlot_of_ne _ hid]
      exact ih hlow (by omega)
  | @record builder middle last key children order _ _ _ hfresh hinside _ _ _ ih ihinside =>
    rw [size_fillSlot] at hhigh
    by_cases hid : id = middle.slots.size
    · subst hid
      exact ⟨_, symbol?_fillSlot_self hhigh _⟩
    · rw [symbol?_fillSlot_of_ne _ hid]
      by_cases hold : id < middle.slots.size
      · obtain ⟨symbol, hsymbol⟩ := ih hlow hold
        exact ⟨symbol, hinside.extends.symbol _ _
          ((middle.extends_opened hfresh).symbol _ _ hsymbol)⟩
      · exact ihinside (by rw [size_opened]; omega) hhigh

/-! ## The order of an arena -/

/-- The symbol is the finished sequence of a record. -/
def IsRecord (context : Context) (builder : Builder) (id : SymbolId) (symbol : Symbol) : Prop :=
  ∃ children order arrivals, symbol = .sequence (children ++ [order]) ∧
    builder.symbol? order = some (.reorder arrivals) ∧
      ∃ key, Names context key ∧ builder.memo.lookup key = some id

/-- The symbol refers backwards, and injects no default. -/
def LooksBack (builder : Builder) (id : SymbolId) (symbol : Symbol) : Prop :=
  (∀ child ∈ symbol.children, child < id) ∧
    ∀ children, symbol = .sequence children → ∀ child ∈ children,
      ∃ symbol, builder.symbol? child = some symbol ∧ symbol.isInject = false

/-- Symbols refer into the arena, and those that are no records refer backwards. -/
structure Orderly (context : Context) (builder : Builder) : Prop where
  children : ∀ id symbol, builder.symbol? id = some symbol →
    ∀ child ∈ symbol.children, child < builder.slots.size
  form : ∀ id symbol, builder.symbol? id = some symbol →
    builder.IsRecord context id symbol ∨ builder.LooksBack id symbol

theorem orderly_empty (context : Context) : Builder.empty.Orderly context :=
  ⟨nofun, nofun⟩

theorem IsRecord.grow (hgrows : builder.Grows after) {id : SymbolId} {symbol : Symbol}
    (h : builder.IsRecord context id symbol) : after.IsRecord context id symbol := by
  obtain ⟨children, order, arrivals, hsymbol, horder, key, hkey, hid⟩ := h
  exact ⟨children, order, arrivals, hsymbol, hgrows.symbol _ _ horder, key, hkey,
    hgrows.memo _ _ hid⟩

theorem LooksBack.grow (hgrows : builder.Grows after) {id : SymbolId} {symbol : Symbol}
    (h : builder.LooksBack id symbol) : after.LooksBack id symbol := by
  refine ⟨h.1, fun children hsequence child hchild => ?_⟩
  obtain ⟨found, hfound, hinject⟩ := h.2 children hsequence child hchild
  exact ⟨found, hgrows.symbol _ _ hfound, hinject⟩

/-- An arena that changes in one slot stays in order if the symbol there is. -/
theorem Orderly.grow (h : builder.Orderly context) (hgrows : builder.Grows after)
    (hsize : builder.slots.size ≤ after.slots.size) (changed : SymbolId)
    (hold : ∀ id, id ≠ changed → after.symbol? id = builder.symbol? id)
    (hnew : ∀ symbol, after.symbol? changed = some symbol →
      (∀ child ∈ symbol.children, child < after.slots.size) ∧
        (after.IsRecord context changed symbol ∨ after.LooksBack changed symbol)) :
    after.Orderly context := by
  constructor
  · intro id symbol hid child hchild
    by_cases hchanged : id = changed
    · subst hchanged
      exact (hnew symbol hid).1 child hchild
    · rw [hold id hchanged] at hid
      exact Nat.lt_of_lt_of_le (h.children id symbol hid child hchild) hsize
  · intro id symbol hid
    by_cases hchanged : id = changed
    · subst hchanged
      exact (hnew symbol hid).2
    · rw [hold id hchanged] at hid
      exact (h.form id symbol hid).imp (.grow hgrows) (.grow hgrows)

theorem Orderly.pushSlot (h : builder.Orderly context) {slot : Option Symbol}
    (hslot : ∀ symbol, slot = some symbol →
      (∀ child ∈ symbol.children, child < builder.slots.size) ∧
        builder.Admits context symbol) : (builder.pushSlot slot).Orderly context := by
  have hextends := builder.extends_pushSlot slot
  refine h.grow hextends.toGrows hextends.size builder.slots.size
    (fun id hid => symbol?_pushSlot_of_ne slot hid) ?_
  intro symbol hsymbol
  rw [symbol?_pushSlot_self] at hsymbol
  obtain ⟨hchildren, hadmits⟩ := hslot symbol hsymbol
  refine ⟨fun child hchild => Nat.lt_of_lt_of_le (hchildren child hchild) hextends.size,
    .inr ⟨hchildren, ?_⟩⟩
  rintro children rfl child hchild
  obtain ⟨found, hfound, hinject⟩ := hadmits child hchild
  exact ⟨found, hextends.symbol _ _ hfound, hinject⟩

theorem Orderly.meet (h : builder.Orderly context) (key : MemoKey) (id : SymbolId) :
    (builder.meet key id).Orderly context :=
  ⟨h.children, h.form⟩

theorem Orderly.remember (h : builder.Orderly context) {key : MemoKey} (id : SymbolId)
    (hfresh : builder.memo.lookup key = none) : (builder.remember key id).Orderly context :=
  have hextends := builder.extends_remember id hfresh
  ⟨h.children, fun other symbol hother =>
    (h.form other symbol hother).imp (.grow hextends.toGrows) (.grow hextends.toGrows)⟩

theorem Orderly.opened (h : builder.Orderly context) {key : MemoKey}
    (hfresh : builder.memo.lookup key = none) : (builder.opened key).Orderly context :=
  have hreserved : (builder.pushSlot none).Orderly context :=
    h.pushSlot fun _ hsymbol => nomatch hsymbol
  hreserved.remember _ hfresh

/-- A history keeps the order. -/
theorem Trace.orderly (h : Trace context builder after) (hbuilder : builder.Orderly context) :
    after.Orderly context := by
  induction h with
  | refl => exact hbuilder
  | push _ hsymbol hchildren ih =>
    refine (ih hbuilder).pushSlot ?_
    rintro symbol ⟨⟩
    exact ⟨hchildren, hsymbol⟩
  | met _ _ ih => exact (ih hbuilder).meet _ _
  | missing _ _ hfresh ih =>
    refine .remember ((ih hbuilder).pushSlot ?_) _ hfresh
    rintro symbol ⟨⟩
    exact ⟨nofun, trivial⟩
  | @record builder middle last key children order arrivals _ hkey hfresh hinside hchildren horder
      hlast ih ihinside =>
    have hinner := ihinside ((ih hbuilder).opened hfresh)
    have hextends := hinside.extends
    have hsize := hextends.size
    rw [size_opened] at hsize
    have hgrows := grows_fillSlot (.sequence (children ++ [order])) hextends.symbol?_opened
    refine hinner.grow hgrows (Nat.le_of_eq (size_fillSlot _ _ _).symm) middle.slots.size
      (fun id hid => symbol?_fillSlot_of_ne _ hid) ?_
    intro symbol hsymbol
    rw [symbol?_fillSlot_self hsize] at hsymbol
    cases hsymbol
    refine ⟨?_, .inl ⟨children, order, arrivals, rfl, hgrows.symbol _ _ horder, key, hkey,
      hextends.memo _ _ (lookup_remember_self _ _ _)⟩⟩
    intro child hchild
    rw [size_fillSlot]
    rcases List.mem_append.1 hchild with hchild | hchild
    · exact hchildren child hchild
    · rw [List.mem_singleton.1 hchild, hlast]
      exact Nat.lt_succ_self _

/-- A builder that compilation may start from. -/
structure Tidy (compiled : Builder → MemoKey → SymbolId → Prop) (context : Context)
    (builder : Builder) : Prop where
  sound : builder.Sound compiled
  orderly : builder.Orderly context

theorem tidy_empty (compiled : Builder → MemoKey → SymbolId → Prop) (context : Context) :
    Builder.empty.Tidy compiled context :=
  ⟨sound_empty, orderly_empty context⟩

theorem Tidy.opened {compiled : Builder → MemoKey → SymbolId → Prop} (hlasting : Lasting compiled)
    (h : builder.Tidy compiled context) {key : MemoKey}
    (hfresh : builder.memo.lookup key = none) : (builder.opened key).Tidy compiled context :=
  ⟨h.sound.remember hlasting none hfresh (.inl rfl), h.orderly.opened hfresh⟩

/-! ## Finishing -/

theorem mapM_filled {slots : List (Option Symbol)} {start : Nat}
    (h : ∀ slot ∈ slots, ∃ symbol, slot = some symbol) :
    ∃ symbols, (slots.zipIdx start).mapM filled = .ok symbols := by
  induction slots generalizing start with
  | nil => exact ⟨[], rfl⟩
  | cons slot rest ih =>
    obtain ⟨symbol, rfl⟩ := h slot (.head _)
    obtain ⟨symbols, hsymbols⟩ := @ih (start + 1) fun slot hslot => h slot (.tail _ hslot)
    refine ⟨symbol :: symbols, ?_⟩
    rw [List.zipIdx_cons, List.mapM_cons, hsymbols]
    rfl

/-- An arena without empty slots is a program. -/
theorem exists_finish (h : ∀ id < builder.slots.size, ∃ symbol, builder.symbol? id = some symbol)
    (root : SymbolId) : ∃ program, builder.finish root = .ok program := by
  have hslots : ∀ slot ∈ builder.slots.toList, ∃ symbol, slot = some symbol := by
    intro slot hslot
    obtain ⟨id, hid, rfl⟩ := List.mem_iff_getElem.1 hslot
    obtain ⟨symbol, hsymbol⟩ := h id (by simpa using hid)
    rw [symbol?, Option.join_eq_some_iff] at hsymbol
    exact ⟨symbol, by simpa using (Array.getElem?_eq_some_iff.1 hsymbol).2⟩
  obtain ⟨symbols, hsymbols⟩ := mapM_filled hslots
  exact ⟨⟨symbols.toArray, root⟩, by rw [finish_eq, hsymbols]; rfl⟩

end Builder

namespace Compile

variable {α β : Type} {compiled : Builder → MemoKey → SymbolId → Prop} {context : Context}
  {faulty : SchemaFault → Prop} {builder : Builder}

/-! ## Compilations that proceed by steps -/

/-- The compilation goes by steps, unless it fails for a known cause. -/
def Steps (context : Context) (faulty : SchemaFault → Prop) (builder : Builder)
    (x : Compile α) : Prop :=
  match x builder with
  | .ok (_, after) => Builder.Trace context builder after
  | .error fault => faulty fault

/-- From a tidy builder the compilation goes by steps to a tidy one, unless it fails for a
known cause. -/
def Proceeds (compiled : Builder → MemoKey → SymbolId → Prop) (context : Context)
    (faulty : SchemaFault → Prop) (builder : Builder) (x : Compile α)
    (post : α → Builder → Prop) : Prop :=
  builder.Tidy compiled context →
    match x builder with
    | .ok (value, after) =>
      after.Tidy compiled context ∧ Builder.Trace context builder after ∧ post value after
    | .error fault => faulty fault

namespace Proceeds

variable {x : Compile α} {post : α → Builder → Prop}

theorem of_ok (h : Proceeds compiled context faulty builder x post)
    (htidy : builder.Tidy compiled context) {value : α} {after : Builder}
    (hx : x builder = .ok (value, after)) :
    after.Tidy compiled context ∧ Builder.Trace context builder after ∧ post value after := by
  have hrun := h htidy
  rwa [hx] at hrun

theorem of_error (h : Proceeds compiled context faulty builder x post)
    (htidy : builder.Tidy compiled context) {fault : SchemaFault} (hx : x builder = .error fault) :
    faulty fault := by
  have hrun := h htidy
  rwa [hx] at hrun

/-- What a compilation gives may be known apart from the steps that it goes. -/
theorem of_steps (hgives : Gives compiled builder x post)
    (h : builder.Tidy compiled context → Steps context faulty builder x) :
    Proceeds compiled context faulty builder x post := by
  intro htidy
  have hrun := h htidy
  rw [Steps] at hrun
  cases hx : x builder with
  | error fault =>
    rw [hx] at hrun
    exact hrun
  | ok result =>
    rcases result with ⟨value, after⟩
    rw [hx] at hrun
    obtain ⟨hsound, _, hpost⟩ := hgives htidy.sound value after hx
    exact ⟨⟨hsound, hrun.orderly htidy.orderly⟩, hrun, hpost⟩

theorem steps (h : Proceeds compiled context faulty builder x post)
    (htidy : builder.Tidy compiled context) : Steps context faulty builder x := by
  have hrun := h htidy
  rw [Steps]
  cases hx : x builder with
  | error fault =>
    rw [hx] at hrun
    exact hrun
  | ok result =>
    rw [hx] at hrun
    exact hrun.2.1

theorem of_gives (hgives : Gives compiled builder x post)
    (h : Proceeds compiled context faulty builder x fun _ _ => True) :
    Proceeds compiled context faulty builder x post :=
  .of_steps hgives h.steps

theorem and_gives {post' : α → Builder → Prop}
    (h : Proceeds compiled context faulty builder x post)
    (hgives : Gives compiled builder x post') :
    Proceeds compiled context faulty builder x fun value after =>
      post value after ∧ post' value after := by
  intro htidy
  have hrun := h htidy
  cases hx : x builder with
  | error fault =>
    rw [hx] at hrun
    exact hrun
  | ok result =>
    rcases result with ⟨value, after⟩
    rw [hx] at hrun
    exact ⟨hrun.1, hrun.2.1, hrun.2.2, (hgives htidy.sound value after hx).2.2⟩

protected theorem pure {value : α} (h : post value builder) :
    Proceeds compiled context faulty builder (pure value) post :=
  fun htidy => ⟨htidy, .refl builder, h⟩

protected theorem bind {f : α → Compile β} {mid : α → Builder → Prop}
    {post : β → Builder → Prop} (hx : Proceeds compiled context faulty builder x mid)
    (hf : ∀ value middle, builder.Extends middle → middle.Tidy compiled context →
      mid value middle → Proceeds compiled context faulty middle (f value) post) :
    Proceeds compiled context faulty builder (x >>= f) post := by
  intro htidy
  have hrun := hx htidy
  simp only [bind, StateT.bind, Except.bind]
  cases hfirst : x builder with
  | error fault =>
    rw [hfirst] at hrun
    exact hrun
  | ok result =>
    rcases result with ⟨value, middle⟩
    rw [hfirst] at hrun
    obtain ⟨hmiddle, htrace, hmid⟩ := hrun
    have hrest := hf value middle htrace.extends hmiddle hmid hmiddle
    dsimp only
    cases hlast : f value middle with
    | error fault =>
      rw [hlast] at hrest
      exact hrest
    | ok result =>
      rw [hlast] at hrest
      exact ⟨hrest.1, htrace.trans hrest.2.1, hrest.2.2⟩

theorem mono {post' : α → Builder → Prop} (h : Proceeds compiled context faulty builder x post)
    (hpost : ∀ value after, builder.Extends after → after.Tidy compiled context →
      post value after → post' value after) :
    Proceeds compiled context faulty builder x post' := by
  intro htidy
  have hrun := h htidy
  cases hx : x builder with
  | error fault =>
    rw [hx] at hrun
    exact hrun
  | ok result =>
    rw [hx] at hrun
    exact ⟨hrun.1, hrun.2.1, hpost _ _ hrun.2.1.extends hrun.1 hrun.2.2⟩

/-- A list is compiled one after the other. -/
protected theorem mapM {f : α → Compile β} (each : α → β → Builder → Prop) (items : List α)
    (hlasting : ∀ item value middle after, Builder.Extends middle after →
      each item value middle → each item value after)
    (hf : ∀ item ∈ items, ∀ middle, builder.Extends middle →
      Proceeds compiled context faulty middle (f item) (each item)) :
    Proceeds compiled context faulty builder (items.mapM f)
      fun values after => List.Forall₂ (fun item value => each item value after) items values := by
  induction items generalizing builder with
  | nil =>
    rw [List.mapM_nil]
    exact .pure .nil
  | cons item rest ih =>
    rw [List.mapM_cons]
    refine .bind (hf item (.head _) builder (.refl builder)) ?_
    intro value middle hmiddle _ hvalue
    refine .bind (ih fun item hitem later hlater =>
      hf item (.tail _ hitem) later (hmiddle.trans hlater)) ?_
    intro values after hafter _ hvalues
    exact .pure (.cons (hlasting item value middle after hafter hvalue) hvalues)

end Proceeds

/-! ## Steps of a compilation -/

theorem proceeds_push (hlasting : Builder.Lasting compiled) {symbol : Symbol}
    (hadmits : builder.Admits context symbol)
    (hchildren : ∀ child ∈ symbol.children, child < builder.slots.size) :
    Proceeds compiled context faulty builder (push symbol) fun id after =>
      id = builder.slots.size ∧ after = builder.pushSlot (some symbol) := by
  intro htidy
  have htrace : Builder.Trace context builder (builder.pushSlot (some symbol)) :=
    .push (.refl builder) hadmits hchildren
  exact ⟨⟨htidy.sound.pushSlot hlasting _, htrace.orderly htidy.orderly⟩, htrace, rfl, rfl⟩

theorem proceeds_terminal (hlasting : Builder.Lasting compiled) (wanted : Terminal) :
    Proceeds compiled context faulty builder (terminal wanted)
      fun id after => after.symbol? id = some (.terminal wanted) := by
  refine .of_steps (gives_terminal hlasting wanted) fun _ => ?_
  rw [Steps, terminal]
  cases hfound : builder.terminal? wanted with
  | some id => exact .refl builder
  | none => exact .push (.refl builder) hfound fun _ hchild => absurd hchild List.not_mem_nil

/-- A sequence of symbols that are there, none of which injects a default, may be
pushed. -/
theorem proceeds_sequence (hlasting : Builder.Lasting compiled) {children : List SymbolId}
    (h : ∀ child ∈ children, ∃ symbol, builder.symbol? child = some symbol ∧
      symbol.isInject = false) :
    Proceeds compiled context faulty builder (push (.sequence children)) fun _ _ => True := by
  have hadmits : builder.Admits context (.sequence children) := h
  refine (proceeds_push hlasting hadmits ?_).mono fun _ _ _ _ _ => trivial
  intro child hchild
  obtain ⟨symbol, hsymbol, _⟩ := h child hchild
  exact Builder.lt_size_of_symbol? hsymbol

theorem proceeds_blocks (hlasting : Builder.Lasting compiled) (collection : Collection)
    {body : List SymbolId} (hbody : ∀ child ∈ body, child < builder.slots.size) :
    Proceeds compiled context faulty builder (blocks collection body) fun _ _ => True := by
  refine .bind (proceeds_terminal hlasting _) ?_
  intro start first hfirst _ hstart
  refine .bind (proceeds_push hlasting trivial fun child hchild =>
    Nat.lt_of_lt_of_le (hbody child hchild) hfirst.size) ?_
  rintro items second hsecond _ ⟨rfl, rfl⟩
  refine proceeds_sequence hlasting ?_
  intro child hchild
  rcases List.mem_cons.1 hchild with rfl | hchild
  · exact ⟨_, hsecond.symbol _ _ hstart, rfl⟩
  · obtain rfl := List.mem_singleton.1 hchild
    exact ⟨_, first.symbol?_pushSlot_self _, rfl⟩

theorem proceeds_enumeration (hlasting : Builder.Lasting compiled) (adjustment : EnumAdjustment) :
    Proceeds compiled context faulty builder (enumeration adjustment) fun _ _ => True := by
  refine .bind (proceeds_terminal hlasting _) ?_
  intro ordinal first _ _ hordinal
  refine .bind (proceeds_push hlasting trivial nofun) ?_
  rintro remap second hsecond _ ⟨rfl, rfl⟩
  refine proceeds_sequence hlasting ?_
  intro child hchild
  rcases List.mem_cons.1 hchild with rfl | hchild
  · exact ⟨_, hsecond.symbol _ _ hordinal, rfl⟩
  · obtain rfl := List.mem_singleton.1 hchild
    exact ⟨_, first.symbol?_pushSlot_self _, rfl⟩

theorem proceeds_look {node : Node}
    (hfaulty : ∀ dangling, (context.registry node.side).look node = .error dangling →
      faulty (.danglingReference dangling.name)) :
    Proceeds compiled context faulty builder (context.look node)
      fun shape _ => context.shape? node = some shape := by
  refine .of_steps (gives_look context node) fun _ => ?_
  rw [Steps, Context.look]
  cases hlook : (context.registry node.side).look node with
  | ok shape => exact .refl builder
  | error dangling => exact hfaulty dangling hlook

/-! ## Records -/

theorem steps_onFirstSight {key : MemoKey} {compile : Compile SymbolId}
    (h : builder.memo.lookup key = none → Steps context faulty builder compile) :
    Steps context faulty builder (onFirstSight key compile) := by
  rw [Steps]
  cases hlookup : builder.memo.lookup key with
  | some id =>
    rw [onFirstSight_of_some hlookup]
    exact .met (.refl builder) hlookup
  | none =>
    rw [onFirstSight_of_none hlookup]
    exact h hlookup

/-- A pair of records that lacks a field is a symbol at once. -/
theorem steps_missing {key : MemoKey} (hkey : Builder.Names context key)
    (hfresh : builder.memo.lookup key = none) (cause : Mismatch) :
    Steps context faulty builder (pushFor key (.mismatch cause)) :=
  .missing (.refl builder) hkey hfresh

/-- The last symbol of a record orders its fields. -/
def ClosesRecord (symbol : Symbol) (builder : Builder) : Prop :=
  ∃ children order arrivals, symbol = .sequence (children ++ [order]) ∧
    (∀ child ∈ children, child < builder.slots.size) ∧
      builder.symbol? order = some (.reorder arrivals) ∧ builder.slots.size = order + 1

/-- A record compiles its parts once its slot is open, and fills the slot. -/
theorem reserveFor_ok {key : MemoKey} {body : Compile Symbol} {id : SymbolId} {after : Builder} :
    reserveFor key body builder = .ok (id, after) ↔
      ∃ symbol last, body (builder.opened key) = .ok (symbol, last) ∧
        id = builder.slots.size ∧ after = last.fillSlot builder.slots.size symbol := by
  have hrun : reserveFor key body builder = (body (builder.opened key)).bind fun result =>
      .ok (builder.slots.size, result.2.fillSlot builder.slots.size result.1) := rfl
  rw [hrun]
  cases body (builder.opened key) with
  | error fault => simp [Except.bind]
  | ok result =>
    rcases result with ⟨symbol, last⟩
    simp [Except.bind, eq_comm]

theorem steps_reserveFor (hlasting : Builder.Lasting compiled) {key : MemoKey}
    (hkey : Builder.Names context key) (hfresh : builder.memo.lookup key = none)
    {body : Compile Symbol} (htidy : builder.Tidy compiled context)
    (hbody : Proceeds compiled context faulty (builder.opened key) body ClosesRecord) :
    Steps context faulty builder (reserveFor key body) := by
  have hreserve : reserveFor key body builder = (body (builder.opened key)).bind fun result =>
      .ok (builder.slots.size, result.2.fillSlot builder.slots.size result.1) := rfl
  have hrun := hbody (htidy.opened hlasting hfresh)
  rw [Steps, hreserve]
  cases hinside : body (builder.opened key) with
  | error fault =>
    rw [hinside] at hrun
    exact hrun
  | ok result =>
    rcases result with ⟨symbol, last⟩
    rw [hinside] at hrun
    obtain ⟨_, htrace, children, order, arrivals, rfl, hchildren, horder, hlast⟩ := hrun
    exact .record (.refl builder) hkey hfresh htrace hchildren horder hlast

end Compile

end AvroResolution
