import AvroResolution.Proofs.Lists
import AvroResolution.Proofs.Schema.Look

/-!
# Laws of building

A compilation only adds to its builder.

* `Builder.Grows`: the symbols and the remembered records of a builder are still
  there.  `Builder.Extends`: besides, what was reserved is still reserved.
* `Builder.Sound` is the invariant of a compilation: every record that is
  remembered has a symbol of its own, which is reserved or compiled as it should
  be.
* `Compile.Gives` says what a compilation gives when it succeeds on a sound
  builder.  `Compile.gives_reserveFor` is the rule for a record that reserves its
  symbol before its fields are compiled.
-/

namespace AvroResolution

namespace Builder

/-! ## Growing -/

/-- Symbols and remembered records stay. -/
structure Grows (builder after : Builder) : Prop where
  symbol : ∀ id symbol, builder.symbol? id = some symbol → after.symbol? id = some symbol
  memo : ∀ key id, builder.memo.lookup key = some id → after.memo.lookup key = some id

/-- Symbols and remembered records stay, and no old slot is filled. -/
structure Extends (builder after : Builder) : Prop extends Grows builder after where
  size : builder.slots.size ≤ after.slots.size
  reserved : ∀ id < builder.slots.size, builder.symbol? id = none → after.symbol? id = none

theorem Grows.trans {first second third : Builder} (h : first.Grows second)
    (h' : second.Grows third) : first.Grows third :=
  ⟨fun id symbol hid => h'.symbol id symbol (h.symbol id symbol hid),
    fun key id hkey => h'.memo key id (h.memo key id hkey)⟩

theorem Extends.refl (builder : Builder) : builder.Extends builder :=
  ⟨⟨fun _ _ h => h, fun _ _ h => h⟩, Nat.le_refl _, fun _ _ h => h⟩

theorem Extends.trans {first second third : Builder} (h : first.Extends second)
    (h' : second.Extends third) : first.Extends third := by
  refine ⟨h.toGrows.trans h'.toGrows, Nat.le_trans h.size h'.size, ?_⟩
  intro id hid hnone
  exact h'.reserved id (Nat.lt_of_lt_of_le hid h.size) (h.reserved id hid hnone)

/-! ## Slots -/

/-- A slot is added, with a symbol in it or empty. -/
def Event.ofSlot (id : SymbolId) : Option Symbol → Event
  | some symbol => .push id symbol
  | none => .reserve id

/-- Another slot at the end. -/
def pushSlot (builder : Builder) (slot : Option Symbol) : Builder :=
  { builder with
    slots := builder.slots.push slot, log := .ofSlot builder.slots.size slot :: builder.log }

/-- Another record to remember. -/
def remember (builder : Builder) (key : MemoKey) (id : SymbolId) : Builder :=
  { builder with memo := (key, id) :: builder.memo, log := .bound key id :: builder.log }

/-- A record that is met again. -/
def meet (builder : Builder) (key : MemoKey) (id : SymbolId) : Builder :=
  { builder with log := .met key id :: builder.log }

/-- A symbol in a slot. -/
def fillSlot (builder : Builder) (id : SymbolId) (symbol : Symbol) : Builder :=
  { builder with
    slots := builder.slots.setIfInBounds id (some symbol), log := .fill id symbol :: builder.log }

theorem symbol?_of_size_le {builder : Builder} {id : SymbolId} (h : builder.slots.size ≤ id) :
    builder.symbol? id = none := by
  rw [symbol?, Array.getElem?_eq_none h]
  rfl

theorem symbol?_pushSlot_self (builder : Builder) (slot : Option Symbol) :
    (builder.pushSlot slot).symbol? builder.slots.size = slot := by
  simp [symbol?, pushSlot]

theorem symbol?_pushSlot_of_ne {builder : Builder} (slot : Option Symbol) {id : SymbolId}
    (h : id ≠ builder.slots.size) : (builder.pushSlot slot).symbol? id = builder.symbol? id := by
  simp [symbol?, pushSlot, Array.getElem?_push, h]

theorem symbol?_fillSlot_self {builder : Builder} {id : SymbolId} (h : id < builder.slots.size)
    (symbol : Symbol) : (builder.fillSlot id symbol).symbol? id = some symbol := by
  simp [symbol?, fillSlot, h]

theorem symbol?_fillSlot_of_ne {builder : Builder} {id other : SymbolId} (symbol : Symbol)
    (h : other ≠ id) : (builder.fillSlot id symbol).symbol? other = builder.symbol? other := by
  simp [symbol?, fillSlot, h.symm]

theorem extends_pushSlot (builder : Builder) (slot : Option Symbol) :
    builder.Extends (builder.pushSlot slot) := by
  have hne : ∀ id < builder.slots.size, id ≠ builder.slots.size := fun id h => Nat.ne_of_lt h
  refine ⟨⟨?_, fun _ _ h => h⟩, by simp [pushSlot], ?_⟩
  · intro id symbol h
    by_cases hid : id < builder.slots.size
    · rw [symbol?_pushSlot_of_ne slot (hne id hid), h]
    · rw [symbol?_of_size_le (Nat.le_of_not_lt hid)] at h
      cases h
  · intro id hid h
    rw [symbol?_pushSlot_of_ne slot (hne id hid), h]

theorem extends_meet (builder : Builder) (key : MemoKey) (id : SymbolId) :
    builder.Extends (builder.meet key id) :=
  ⟨⟨fun _ _ h => h, fun _ _ h => h⟩, Nat.le_refl _, fun _ _ h => h⟩

theorem lookup_remember_self (builder : Builder) (key : MemoKey) (id : SymbolId) :
    (builder.remember key id).memo.lookup key = some id := by
  simp [remember]

theorem lookup_remember_of_ne {builder : Builder} {key other : MemoKey} (id : SymbolId)
    (h : other ≠ key) : (builder.remember key id).memo.lookup other =
      builder.memo.lookup other := by
  simp [remember, List.lookup_cons, beq_eq_false_iff_ne.2 h]

theorem extends_remember (builder : Builder) {key : MemoKey} (id : SymbolId)
    (hfresh : builder.memo.lookup key = none) : builder.Extends (builder.remember key id) := by
  refine ⟨⟨fun _ _ h => h, ?_⟩, Nat.le_refl _, fun _ _ h => h⟩
  intro other found h
  have hne : other ≠ key := by
    rintro rfl
    rw [hfresh] at h
    cases h
  rw [lookup_remember_of_ne id hne, h]

theorem grows_fillSlot {builder : Builder} {id : SymbolId} (symbol : Symbol)
    (h : builder.symbol? id = none) : builder.Grows (builder.fillSlot id symbol) := by
  refine ⟨?_, fun _ _ h => h⟩
  intro other found hother
  have hne : other ≠ id := by
    rintro rfl
    rw [h] at hother
    cases hother
  rw [symbol?_fillSlot_of_ne symbol hne, hother]

/-! ## The invariant -/

/-- Every remembered record has a symbol of its own, which is reserved or is
`compiled` for the record. -/
structure Sound (compiled : Builder → MemoKey → SymbolId → Prop) (builder : Builder) : Prop where
  bounded : ∀ key id, builder.memo.lookup key = some id → id < builder.slots.size
  injective : ∀ key key' id, builder.memo.lookup key = some id →
    builder.memo.lookup key' = some id → key = key'
  compiled : ∀ key id, builder.memo.lookup key = some id →
    builder.symbol? id = none ∨ compiled builder key id

/-- What a symbol is compiled for does not change when the builder grows. -/
def Lasting (compiled : Builder → MemoKey → SymbolId → Prop) : Prop :=
  ∀ builder after key id, Grows builder after → compiled builder key id →
    compiled after key id

variable {compiled : Builder → MemoKey → SymbolId → Prop} {builder : Builder}

theorem sound_empty : Sound compiled Builder.empty :=
  ⟨nofun, nofun, nofun⟩

theorem Sound.pushSlot (hlasting : Lasting compiled) (h : builder.Sound compiled)
    (slot : Option Symbol) : (builder.pushSlot slot).Sound compiled := by
  have hextends := builder.extends_pushSlot slot
  refine ⟨?_, h.injective, ?_⟩
  · intro key id hkey
    exact Nat.lt_of_lt_of_le (h.bounded key id hkey) hextends.size
  · intro key id hkey
    rcases h.compiled key id hkey with hnone | hcompiled
    · exact .inl (hextends.reserved id (h.bounded key id hkey) hnone)
    · exact .inr (hlasting builder _ key id hextends.toGrows hcompiled)

theorem Sound.meet (hlasting : Lasting compiled) (h : builder.Sound compiled) (key : MemoKey)
    (id : SymbolId) : (builder.meet key id).Sound compiled := by
  refine ⟨h.bounded, h.injective, fun other found hother => ?_⟩
  exact (h.compiled other found hother).imp_right
    (hlasting builder _ other found (builder.extends_meet key id).toGrows)

/-- A new record gets the slot at the end. -/
theorem Sound.remember (hlasting : Lasting compiled) (h : builder.Sound compiled)
    (slot : Option Symbol) {key : MemoKey} (hfresh : builder.memo.lookup key = none)
    (hslot : slot = none ∨
      compiled ((builder.pushSlot slot).remember key builder.slots.size) key builder.slots.size) :
    ((builder.pushSlot slot).remember key builder.slots.size).Sound compiled := by
  have hold := h.pushSlot hlasting slot
  have hextends := extends_remember (builder.pushSlot slot) builder.slots.size hfresh
  have hbelow : ∀ other, (builder.pushSlot slot).memo.lookup other ≠ some builder.slots.size :=
    fun other hother => Nat.lt_irrefl _ (h.bounded other _ hother)
  refine ⟨?_, ?_, ?_⟩
  · intro other id hother
    by_cases hsame : other = key
    · subst hsame
      rw [lookup_remember_self] at hother
      cases hother
      simp [Builder.remember, Builder.pushSlot]
    · rw [lookup_remember_of_ne _ hsame] at hother
      exact hold.bounded other id hother
  · intro other other' id hother hother'
    by_cases hsame : other = key
    · subst hsame
      rw [lookup_remember_self] at hother
      cases hother
      by_contra hne
      rw [lookup_remember_of_ne _ (fun h => hne h.symm)] at hother'
      exact hbelow other' hother'
    · rw [lookup_remember_of_ne _ hsame] at hother
      by_cases hsame' : other' = key
      · subst hsame'
        rw [lookup_remember_self] at hother'
        cases hother'
        exact absurd hother (hbelow other)
      · rw [lookup_remember_of_ne _ hsame'] at hother'
        exact hold.injective other other' id hother hother'
  · intro other id hother
    by_cases hsame : other = key
    · subst hsame
      rw [lookup_remember_self] at hother
      cases hother
      rcases hslot with rfl | hcompiled
      · exact .inl (symbol?_pushSlot_self builder none)
      · exact .inr hcompiled
    · rw [lookup_remember_of_ne _ hsame] at hother
      rcases hold.compiled other id hother with hnone | hcompiled
      · exact .inl hnone
      · exact .inr (hlasting _ _ other id hextends.toGrows hcompiled)

/-- A record fills the slot that it reserved. -/
theorem Sound.fillSlot (hlasting : Lasting compiled) (h : builder.Sound compiled)
    {key : MemoKey} {id : SymbolId} {symbol : Symbol} (hkey : builder.memo.lookup key = some id)
    (hnone : builder.symbol? id = none)
    (hcompiled : compiled (builder.fillSlot id symbol) key id) :
    (builder.fillSlot id symbol).Sound compiled := by
  refine ⟨?_, h.injective, ?_⟩
  · intro other found hother
    simpa [Builder.fillSlot] using h.bounded other found hother
  · intro other found hother
    by_cases hsame : found = id
    · subst hsame
      obtain rfl := h.injective other key found hother hkey
      exact .inr hcompiled
    · rw [symbol?_fillSlot_of_ne symbol hsame]
      rcases h.compiled other found hother with hnone' | hcompiled'
      · exact .inl hnone'
      · exact .inr (hlasting _ _ other found (grows_fillSlot symbol hnone) hcompiled')

/-! ## The finished program -/

/-- The symbol of a slot that must not be empty. -/
def filled : Option Symbol × Nat → Except SchemaFault Symbol
  | (some symbol, _) => .ok symbol
  | (none, id) => .error (.internal (.unfilledSymbol id))

theorem finish_eq (builder : Builder) (root : SymbolId) :
    builder.finish root = (do
      let symbols ← builder.slots.toList.zipIdx.mapM filled
      return ⟨symbols.toArray, root⟩) := by
  rw [finish]
  congr 2
  funext ⟨slot, id⟩
  cases slot <;> rfl

theorem of_mapM_filled :
    ∀ {slots : List (Option Symbol)} {start : Nat} {symbols : List Symbol},
      (slots.zipIdx start).mapM filled = .ok symbols → slots = symbols.map some
  | [], _, _, h => by
    cases h
    rfl
  | slot :: rest, start, symbols, h => by
    rw [List.zipIdx_cons, List.mapM_cons] at h
    cases slot with
    | none => cases h
    | some symbol =>
      cases hrest : (rest.zipIdx (start + 1)).mapM filled with
      | error fault =>
        rw [hrest] at h
        cases h
      | ok others =>
        rw [hrest] at h
        cases h
        rw [List.map_cons, of_mapM_filled hrest]

/-- The finished program has the symbols of the builder, and no slot is empty. -/
theorem of_finish {builder : Builder} {root : SymbolId} {program : Program}
    (h : builder.finish root = .ok program) :
    program.root = root ∧ (∀ id, program.symbol? id = builder.symbol? id) ∧
      program.length = builder.slots.size := by
  rw [finish_eq] at h
  cases hsymbols : builder.slots.toList.zipIdx.mapM filled with
  | error fault =>
    rw [hsymbols] at h
    cases h
  | ok symbols =>
    rw [hsymbols] at h
    cases h
    have hslots := of_mapM_filled hsymbols
    refine ⟨rfl, ?_, ?_⟩
    · intro id
      have hslot : builder.slots[id]? = symbols[id]?.map some := by
        rw [← Array.getElem?_toList, hslots, List.getElem?_map]
      rw [Program.symbol?, symbol?, hslot]
      cases hid : symbols[id]? <;> simp [hid]
    · have hlength := congrArg List.length hslots
      simpa [Program.length] using hlength.symm

/-- Every record of a finished program is compiled. -/
theorem Sound.compiled_of_finish {builder : Builder} {root : SymbolId} {program : Program}
    (hsound : builder.Sound compiled) (h : builder.finish root = .ok program) {key : MemoKey}
    {id : SymbolId} (hid : builder.memo.lookup key = some id) : compiled builder key id := by
  obtain ⟨_, hsymbol, hlength⟩ := of_finish h
  have hlt : id < program.symbols.size := by
    have := hsound.bounded key id hid
    rwa [← hlength] at this
  rcases hsound.compiled key id hid with hnone | hcompiled
  · rw [← hsymbol, Program.symbol?, Array.getElem?_eq_getElem hlt] at hnone
    cases hnone
  · exact hcompiled

end Builder

namespace Compile

variable {α β : Type} {compiled : Builder → MemoKey → SymbolId → Prop} {builder : Builder}

/-! ## Running a compilation -/

theorem bind_ok {x : Compile α} {f : α → Compile β} {after : Builder} {value : β} :
    (x >>= f) builder = .ok (value, after) ↔
      ∃ first middle, x builder = .ok (first, middle) ∧ f first middle = .ok (value, after) := by
  simp only [bind, StateT.bind, Except.bind]
  cases x builder with
  | error fault => simp
  | ok pair =>
    rcases pair with ⟨first, middle⟩
    constructor
    · intro h
      exact ⟨first, middle, rfl, h⟩
    · rintro ⟨_, _, h, hf⟩
      cases h
      exact hf

/-- What a compilation gives when it starts from a sound builder and succeeds. -/
def Gives (compiled : Builder → MemoKey → SymbolId → Prop) (builder : Builder) (x : Compile α)
    (post : α → Builder → Prop) : Prop :=
  builder.Sound compiled → ∀ value after, x builder = .ok (value, after) →
    after.Sound compiled ∧ builder.Extends after ∧ post value after

namespace Gives

variable {x : Compile α} {post : α → Builder → Prop}

protected theorem pure {value : α} (h : post value builder) :
    Gives compiled builder (pure value) post := by
  intro hsound _ _ hx
  cases hx
  exact ⟨hsound, .refl builder, h⟩

protected theorem throw (fault : SchemaFault) :
    Gives compiled builder (throw fault : Compile α) post := by
  intro _ _ _ hx
  cases hx

protected theorem bind {f : α → Compile β} {mid : α → Builder → Prop}
    {post : β → Builder → Prop} (hx : Gives compiled builder x mid)
    (hf : ∀ value middle, builder.Extends middle → mid value middle →
      Gives compiled middle (f value) post) : Gives compiled builder (x >>= f) post := by
  intro hsound value after hrun
  obtain ⟨first, middle, hfirst, hrest⟩ := bind_ok.1 hrun
  obtain ⟨hsound, hextends, hmid⟩ := hx hsound first middle hfirst
  obtain ⟨hsound, hextends', hpost⟩ := hf first middle hextends hmid hsound value after hrest
  exact ⟨hsound, hextends.trans hextends', hpost⟩

theorem mono {post' : α → Builder → Prop} (h : Gives compiled builder x post)
    (hpost : ∀ value after, builder.Extends after → post value after → post' value after) :
    Gives compiled builder x post' := by
  intro hsound value after hx
  obtain ⟨hsound, hextends, hvalue⟩ := h hsound value after hx
  exact ⟨hsound, hextends, hpost value after hextends hvalue⟩

/-- A list is compiled one after the other. -/
protected theorem mapM {f : α → Compile β} (each : α → β → Builder → Prop) (items : List α)
    (hlasting : ∀ item value middle after, Builder.Extends middle after →
      each item value middle → each item value after)
    (hf : ∀ item ∈ items, ∀ middle, builder.Extends middle →
      Gives compiled middle (f item) (each item)) :
    Gives compiled builder (items.mapM f)
      fun values after => List.Forall₂ (fun item value => each item value after) items values := by
  induction items generalizing builder with
  | nil =>
    rw [List.mapM_nil]
    exact .pure .nil
  | cons item rest ih =>
    rw [List.mapM_cons]
    refine .bind (hf item (.head _) builder (.refl builder)) ?_
    intro value middle hmiddle hvalue
    refine .bind (ih fun item hitem later hlater =>
      hf item (.tail _ hitem) later (hmiddle.trans hlater)) ?_
    intro values after hafter hvalues
    exact .pure (.cons (hlasting item value middle after hafter hvalue) hvalues)

end Gives

/-! ## The arena -/

theorem gives_push (hlasting : Builder.Lasting compiled) (symbol : Symbol) :
    Gives compiled builder (push symbol) fun id after => after.symbol? id = some symbol := by
  intro hsound _ _ hx
  cases hx
  exact ⟨hsound.pushSlot hlasting (some symbol), builder.extends_pushSlot (some symbol),
    builder.symbol?_pushSlot_self (some symbol)⟩

theorem gives_terminal (hlasting : Builder.Lasting compiled) (wanted : Terminal) :
    Gives compiled builder (terminal wanted)
      fun id after => after.symbol? id = some (.terminal wanted) := by
  intro hsound id after hx
  rw [terminal] at hx
  split at hx
  · rename_i found hfound
    cases hx
    refine ⟨hsound, .refl builder, ?_⟩
    obtain ⟨hlt, hslot, _⟩ := Array.findIdx?_eq_some_iff_getElem.1 hfound
    split at hslot
    · rename_i other hother
      rw [Builder.symbol?, Array.getElem?_eq_getElem hlt, hother, of_decide_eq_true hslot]
      rfl
    · cases hslot
  · exact gives_push hlasting (.terminal wanted) hsound id after hx

theorem gives_hasMatchError (id : SymbolId) :
    Gives compiled builder (hasMatchError id) fun failed after =>
      after.hasMatchError id = failed := by
  intro hsound _ _ hx
  cases hx
  exact ⟨hsound, .refl builder, rfl⟩

theorem gives_look (context : Context) (node : Node) :
    Gives compiled builder (context.look node)
      fun shape _ => context.shape? node = some shape := by
  intro hsound shape after hx
  rw [Context.look] at hx
  split at hx
  · rename_i found hfound
    cases hx
    refine ⟨hsound, .refl builder, ?_⟩
    rw [Context.shape?, Registry.shape?, hfound]
    rfl
  · cases hx

/-! ## Records -/

/-- A record is compiled once.  A symbol of its own is reserved, its parts are
compiled, and the symbol is filled. -/
def onFirstSight (key : MemoKey) (compile : Compile SymbolId) : Compile SymbolId := do
  match ← symbolOf key with
  | some id => return id
  | none => compile

theorem onFirstSight_of_none {key : MemoKey} {compile : Compile SymbolId}
    (h : builder.memo.lookup key = none) : onFirstSight key compile builder = compile builder := by
  simp only [onFirstSight, symbolOf, bind, StateT.bind, Except.bind, h]

theorem onFirstSight_of_some {key : MemoKey} {compile : Compile SymbolId} {id : SymbolId}
    (h : builder.memo.lookup key = some id) :
    onFirstSight key compile builder = .ok (id, builder.meet key id) := by
  simp only [onFirstSight, symbolOf, bind, StateT.bind, Except.bind, h]
  rfl

theorem gives_onFirstSight (hlasting : Builder.Lasting compiled) {key : MemoKey}
    {compile : Compile SymbolId}
    (h : builder.memo.lookup key = none → Gives compiled builder compile
      fun id after => after.memo.lookup key = some id) :
    Gives compiled builder (onFirstSight key compile)
      fun id after => after.memo.lookup key = some id := by
  intro hsound id after hx
  cases hlookup : builder.memo.lookup key with
  | some found =>
    rw [onFirstSight_of_some hlookup] at hx
    cases hx
    exact ⟨hsound.meet hlasting key id, builder.extends_meet key id, hlookup⟩
  | none =>
    rw [onFirstSight_of_none hlookup] at hx
    exact h hlookup hsound id after hx

/-- The symbol of a record whose parts `body` compiles. -/
def reserveFor (key : MemoKey) (body : Compile Symbol) : Compile SymbolId := do
  let id ← reserve
  memoise key id
  let symbol ← body
  fill id symbol
  return id

theorem gives_reserveFor (hlasting : Builder.Lasting compiled) {key : MemoKey}
    {body : Compile Symbol} (hfresh : builder.memo.lookup key = none)
    (hbody : ∀ middle, Gives compiled middle body fun symbol after =>
      ∀ filled id, Builder.Grows after filled → filled.symbol? id = some symbol →
        compiled filled key id) :
    Gives compiled builder (reserveFor key body)
      fun id after => after.memo.lookup key = some id := by
  intro hsound id after hx
  simp only [reserveFor, bind_ok] at hx
  obtain ⟨_, _, hreserve, _, middle, hmemoise, symbol, last, hsymbol, _, _, hfill, hreturn⟩ := hx
  cases hreserve
  cases hmemoise
  cases hfill
  cases hreturn
  have hstart := hsound.remember hlasting none hfresh (.inl rfl)
  have hextends : builder.Extends
      ((builder.pushSlot none).remember key builder.slots.size) :=
    (builder.extends_pushSlot none).trans (Builder.extends_remember _ _ hfresh)
  obtain ⟨hlast, hbelow, hpost⟩ := hbody _ hstart symbol last hsymbol
  have hkey : last.memo.lookup key = some builder.slots.size :=
    hbelow.memo _ _ (Builder.lookup_remember_self _ _ _)
  have hreserved : last.symbol? builder.slots.size = none :=
    hbelow.reserved _ (by simp [Builder.remember, Builder.pushSlot])
      (builder.symbol?_pushSlot_self none)
  have hgrows := Builder.grows_fillSlot symbol hreserved
  have hfilled := Builder.symbol?_fillSlot_self (hlast.bounded _ _ hkey) symbol
  refine ⟨hlast.fillSlot hlasting hkey hreserved (hpost _ _ hgrows hfilled), ?_, hkey⟩
  have hall := hextends.trans hbelow
  refine ⟨hall.toGrows.trans hgrows, ?_, ?_⟩
  · simpa using hall.size
  · intro old hold hnone
    exact (Builder.symbol?_fillSlot_of_ne symbol (Nat.ne_of_lt hold)).trans
      (hall.reserved old hold hnone)

/-- The symbol of a record that is a symbol at once. -/
def pushFor (key : MemoKey) (symbol : Symbol) : Compile SymbolId := do
  let id ← push symbol
  memoise key id
  return id

theorem gives_pushFor (hlasting : Builder.Lasting compiled) {key : MemoKey} {symbol : Symbol}
    (hfresh : builder.memo.lookup key = none)
    (hcompiled : ∀ after id, Builder.symbol? after id = some symbol → compiled after key id) :
    Gives compiled builder (pushFor key symbol)
      fun id after => after.memo.lookup key = some id := by
  intro hsound id after hx
  simp only [pushFor, bind_ok] at hx
  obtain ⟨_, _, hpush, _, _, hmemoise, hreturn⟩ := hx
  cases hpush
  cases hmemoise
  cases hreturn
  refine ⟨hsound.remember hlasting (some symbol) hfresh (.inr (hcompiled _ _ ?_)),
    (builder.extends_pushSlot _).trans (Builder.extends_remember _ _ hfresh),
    Builder.lookup_remember_self _ _ _⟩
  exact builder.symbol?_pushSlot_self (some symbol)

/-! ## Compound symbols -/

theorem gives_blocks (hlasting : Builder.Lasting compiled) (collection : Collection)
    (body : List SymbolId) :
    Gives compiled builder (blocks collection body) fun id after =>
      ∃ start items, after.symbol? start = some (.terminal (.start collection)) ∧
        after.symbol? items = some (.repetition collection body) ∧
        after.symbol? id = some (.sequence [start, items]) := by
  refine .bind (gives_terminal hlasting _) ?_
  intro start first _ hstart
  refine .bind (gives_push hlasting _) ?_
  intro items second hsecond hitems
  refine (gives_push hlasting _).mono ?_
  intro id third hthird hid
  exact ⟨start, items, hthird.symbol _ _ (hsecond.symbol _ _ hstart),
    hthird.symbol _ _ hitems, hid⟩

theorem gives_enumeration (hlasting : Builder.Lasting compiled) (adjustment : EnumAdjustment) :
    Gives compiled builder (enumeration adjustment) fun id after =>
      ∃ ordinal remap, after.symbol? ordinal = some (.terminal .enum) ∧
        after.symbol? remap = some (.remap adjustment) ∧
        after.symbol? id = some (.sequence [ordinal, remap]) := by
  refine .bind (gives_terminal hlasting _) ?_
  intro ordinal first _ hordinal
  refine .bind (gives_push hlasting _) ?_
  intro remap second hsecond hremap
  refine (gives_push hlasting _).mono ?_
  intro id third hthird hid
  exact ⟨ordinal, remap, hthird.symbol _ _ (hsecond.symbol _ _ hordinal),
    hthird.symbol _ _ hremap, hid⟩

end Compile

end AvroResolution
