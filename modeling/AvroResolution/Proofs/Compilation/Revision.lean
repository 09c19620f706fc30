import AvroResolution.Proofs.Compilation.Descent
import AvroResolution.Proofs.Default.Revision

/-!
# Building programs from revised trees

What a compilation of revised trees is built from.

* `Matching.ofFields_revise` and `Shape.reading_revise`: fields are matched and types are
  compared whatever the nodes below them are.  Of the defaults only those count that fill a
  field.
* `Context.Revises` says that one context is the revised other one.  Then the same branches
  are considered, and a compilation goes on with the same pairs of nodes
  (`Context.Revises.descends`).
* `Builder.mapTypes` changes the types of the defaults in a builder.  The functions of a
  builder take no notice.
* `Compile.Follows` says that one compilation does on a changed builder what another one
  does, unless that one stops for its depth.  There is one lemma for each function that
  changes a builder.
-/

namespace AvroResolution

/-! ## Matching -/

def ReaderField.revise (revision : Revision) (reader : ReaderField) : ReaderField :=
  { reader with field := reader.field.revise revision }

def Links.revise (revision : Revision) (links : Links) : Links :=
  links.map (Option.map (ReaderField.revise revision))

def DefaultedField.revise (revision : Revision) (field : DefaultedField) : DefaultedField :=
  { field with reader := field.reader.revise revision }

def Matching.revise (revision : Revision) (matching : Matching) : Matching :=
  ⟨matching.links.revise revision, matching.defaulted.map (DefaultedField.revise revision)⟩

section

variable (revision : Revision)

theorem ReaderField.ofFields_revise (fields : List (Field Node)) :
    ofFields (fields.map (Field.revise revision)) = (ofFields fields).map (revise revision) := by
  rw [ofFields, ofFields, List.zipIdx_map, List.map_map, List.map_map]
  rfl

theorem fieldIndex?_revise (fields : List (Field Node)) (name : String) :
    fieldIndex? (fields.map (Field.revise revision)) name = fieldIndex? fields name := by
  rw [fieldIndex?, List.findIdx?_map]
  rfl

namespace Links

theorem linkByName_revise (writer : List (Field Node)) (links : Links) (reader : ReaderField) :
    linkByName (writer.map (Field.revise revision)) (links.revise revision)
        (reader.revise revision) = (linkByName writer links reader).revise revision := by
  rw [linkByName, linkByName, fieldIndex?_revise]
  simp only [ReaderField.revise, Field.revise]
  split
  · exact (List.map_set (f := Option.map (ReaderField.revise revision)) (a := some reader)).symm
  · rfl

theorem claim?_revise (writer : List (Field Node)) (links : Links) (reader : ReaderField) :
    (links.revise revision).claim? (writer.map (Field.revise revision)) (reader.revise revision) =
      links.claim? writer reader := by
  have hfree (index : Nat) :
      ((links.revise revision)[index]?.join).isNone = (links[index]?.join).isNone := by
    rw [revise, List.getElem?_map]
    rcases links[index]? with _ | _ | _ <;> rfl
  simp only [claim?, fieldIndex?_revise, hfree, ReaderField.revise, Field.revise]

theorem linkByAlias_revise (writer : List (Field Node)) (links : Links)
    (reader : ReaderField) :
    linkByAlias (writer.map (Field.revise revision)) (links.revise revision)
        (reader.revise revision) = (linkByAlias writer links reader).revise revision := by
  rw [linkByAlias, linkByAlias, fieldIndex?_revise, claim?_revise]
  simp only [ReaderField.revise, Field.revise]
  split
  · rfl
  · split
    · exact (List.map_set (f := Option.map (ReaderField.revise revision)) (a := some reader)).symm
    · rfl

theorem ofFields_revise (config : Config) (writer reader : List (Field Node)) :
    ofFields config (writer.map (Field.revise revision)) (reader.map (Field.revise revision)) =
      (ofFields config writer reader).revise revision := by
  have hstart : List.replicate (writer.map (Field.revise revision)).length none =
      revise revision (List.replicate writer.length none) := by
    rw [revise, List.map_replicate, List.length_map]
    rfl
  have hfold {link link' : Links → ReaderField → Links}
      (hlink : ∀ links reader, link' (links.revise revision) (reader.revise revision) =
        (link links reader).revise revision) (readers : List ReaderField) (links : Links) :
      (readers.map (ReaderField.revise revision)).foldl link' (links.revise revision) =
        (readers.foldl link links).revise revision := by
    rw [List.foldl_map, List.foldl_hom (revise revision) (H := hlink)]
  simp only [ofFields, ReaderField.ofFields_revise, hstart,
    hfold (linkByName_revise revision writer)]
  split
  · exact hfold (linkByAlias_revise revision writer) _ _
  · rfl

theorem reads_revise (links : Links) (index : Nat) :
    (links.revise revision).reads index = links.reads index := by
  rw [reads, reads, revise, List.any_map]
  congr 1
  funext link
  cases link <;> rfl

end Links

namespace Matching

theorem unmatched_revise (links : Links) (writer reader : List (Field Node)) :
    unmatched (links.revise revision) (writer.map (Field.revise revision))
        (reader.map (Field.revise revision)) =
      (unmatched links writer reader).map (ReaderField.revise revision) := by
  simp only [unmatched, ReaderField.ofFields_revise, List.filter_map, Function.comp_def,
    fieldIndex?_revise, Links.reads_revise, ReaderField.revise, Field.revise]

variable {revision} in
theorem defaults_revise {readers : List ReaderField}
    (hkeep : ∀ reader ∈ readers, revision.default? reader.field = reader.field.default?) :
    defaults (readers.map (ReaderField.revise revision)) =
      (defaults readers).map (List.map (DefaultedField.revise revision)) := by
  induction readers with
  | nil => rfl
  | cons reader rest ih =>
    have hrest := ih fun other hother => hkeep other (.tail _ hother)
    have hdefault : (reader.revise revision).field.default? = reader.field.default? :=
      hkeep reader (.head _)
    rw [List.map_cons, defaults, defaults, hdefault]
    cases reader.field.default? with
    | none => rfl
    | some literal =>
      simp only [hrest]
      cases defaults rest <;> rfl

variable {revision} in
/-- Fields are matched whatever their types are, if the defaults that fill a field stay. -/
theorem ofFields_revise (config : Config) {writer reader : List (Field Node)}
    (hkeep : ∀ field ∈ unmatched (Links.ofFields config writer reader) writer reader,
      revision.default? field.field = field.field.default?) :
    ofFields config (writer.map (Field.revise revision)) (reader.map (Field.revise revision)) =
      (ofFields config writer reader).map (revise revision) := by
  simp only [ofFields, Links.ofFields_revise, unmatched_revise, defaults_revise hkeep]
  cases defaults (unmatched (Links.ofFields config writer reader) writer reader) <;> rfl

end Matching

/-! ## Shapes -/

def Reading.revise : Reading → Reading
  | .atom type => .atom type
  | .promotion widening => .promotion widening
  | .enum writer reader default? => .enum writer reader default?
  | .array writer reader => .array (revision.node writer) (revision.node reader)
  | .map writer reader => .map (revision.node writer) (revision.node reader)
  | .records writer reader => .records (writer.revise revision) (reader.revise revision)
  | .writerUnion branches => .writerUnion (branches.map revision.node)
  | .readerUnion branches => .readerUnion (branches.map revision.node)
  | .mismatch cause => .mismatch cause

/-- Types are compared whatever the nodes below them are. -/
theorem Shape.reading_revise (w r : Shape) :
    (w.revise revision).reading (r.revise revision) = (w.reading r).revise revision := by
  have hmismatch :
      Reading.mismatch (.types (w.revise revision).typeName (r.revise revision).typeName) =
        (Reading.mismatch (.types w.typeName r.typeName)).revise revision := by
    rw [typeName_revise, typeName_revise]
    rfl
  cases w with
  | primitive wt =>
    cases r with
    | primitive rt =>
      simp only [revise, reading]
      split
      · rfl
      · split <;> rfl
    | union => rfl
    | _ => exact hmismatch
  | named wd =>
    cases r with
    | named rd =>
      cases wd <;> cases rd <;> first | rfl | exact hmismatch | skip
      · simp only [revise, Definition.revise, reading]
        split <;> rfl
      · simp only [revise, Definition.revise, reading]
        split <;> rfl
    | union => cases wd <;> rfl
    | _ => cases wd <;> exact hmismatch
  | array wi =>
    cases r with
    | array | union => rfl
    | _ => exact hmismatch
  | map wv =>
    cases r with
    | map | union => rfl
    | _ => exact hmismatch
  | union branches => cases r <;> rfl

theorem Shape.isOfType_revise (w r : Shape) :
    (w.revise revision).isOfType (r.revise revision) = w.isOfType r := by
  have hkinds :
      decide ((w.revise revision).kind = (r.revise revision).kind) = decide (w.kind = r.kind) :=
    decide_eq_decide.2 (by rw [kind_revise, kind_revise])
  cases w with
  | named wd =>
    cases r with
    | named rd =>
      rw [Bool.eq_iff_iff, revise, revise, isOfType_named, isOfType_named]
      simp only [Definition.kind_revise, Definition.fullname_revise]
    | _ => exact hkinds
  | _ => cases r <;> exact hkinds

end

/-! ## Contexts -/

/-- The second context is the revised first one. -/
structure Context.Revises (revision : Revision) (context image : Context) : Prop where
  config : image.config = context.config
  shared : image.shared = context.shared
  typeName : ∀ node : Node, (revision.node node).schema.typeName = node.schema.typeName
  look : ∀ node : Node, (image.registry (revision.node node).side).look (revision.node node) =
    ((context.registry node.side).look node).map (Shape.revise revision)

/-- A branch of a union with its place, revised. -/
def Revision.branch (revision : Revision) (candidate : Node × Nat) : Node × Nat :=
  (revision.node candidate.1, candidate.2)

theorem Revision.zipIdx_branches (revision : Revision) (branches : List Node) :
    (branches.map revision.node).zipIdx = branches.zipIdx.map revision.branch := by
  rw [List.zipIdx_map]
  rfl

namespace Context.Revises

variable {revision : Revision} {context image : Context} (h : context.Revises revision image)
include h

theorem key (w r : RecordNode) :
    image.key (w.revise revision) (r.revise revision) = context.key w r := by
  simp only [Context.key, Context.identify, h.shared, RecordNode.revise]

theorem shape? (node : Node) :
    image.shape? (revision.node node) = (context.shape? node).map (Shape.revise revision) := by
  rw [Context.shape?, Registry.shape?, h.look, Context.shape?, Registry.shape?]
  cases (context.registry node.side).look node <;> rfl

theorem reading? (writer reader : Node) :
    image.reading? (revision.node writer) (revision.node reader) =
      (context.reading? writer reader).map (Reading.revise revision) := by
  rw [Context.reading?, Context.reading?, h.shape?, h.shape?]
  cases context.shape? writer with
  | none => rfl
  | some w =>
    cases context.shape? reader with
    | none => rfl
    | some r => exact congrArg some (Shape.reading_revise revision w r)

theorem isOfType (writer : Shape) (candidate : Node × Nat) :
    image.isOfType (writer.revise revision) (revision.branch candidate) =
      context.isOfType writer candidate := by
  rw [Context.isOfType, Revision.branch, h.shape?, Option.any_map, Context.isOfType]
  congr 1
  funext shape
  exact Shape.isOfType_revise revision writer shape

theorem isPromoted (writer : Shape) (candidate : Node × Nat) :
    image.isPromoted (writer.revise revision) (revision.branch candidate) =
      context.isPromoted writer candidate := by
  rw [Context.isPromoted, Revision.branch, h.shape?, Option.any_map, Context.isPromoted]
  simp only [Shape.kind_revise]

theorem recordAt? (candidate : Node × Nat) :
    image.recordAt? (revision.branch candidate) =
      (context.recordAt? candidate).map (RecordNode.revise revision) := by
  rw [Context.recordAt?, Revision.branch, h.shape?, Context.recordAt?]
  cases context.shape? candidate.1 with
  | none => rfl
  | some shape =>
    cases shape with
    | named definition => cases definition <;> rfl
    | _ => rfl

theorem considers {writer : Shape} {candidate : Node × Nat}
    (hconsiders : context.Considers writer candidate) :
    image.Considers (writer.revise revision) (revision.branch candidate) := by
  rcases hconsiders with htype | ⟨w, r, rfl, hr⟩ | hpromoted
  · exact .inl ((h.isOfType writer candidate).trans htype)
  · exact .inr (.inl ⟨_, _, rfl, by rw [h.recordAt?, hr]; rfl⟩)
  · exact .inr (.inr ((h.isPromoted writer candidate).trans hpromoted))

end Context.Revises

theorem Links.mem_zip_revise (revision : Revision) {fields : List (Field Node)} {links : Links}
    {field : Field Node} {link : Option ReaderField} (hlinked : (field, link) ∈ fields.zip links) :
    (field.revise revision, link.map (ReaderField.revise revision)) ∈
      (fields.map (Field.revise revision)).zip (links.revise revision) := by
  rw [Links.revise, List.zip_map]
  exact List.mem_map.2 ⟨_, hlinked, rfl⟩

/-- What a compilation goes on with is revised with it, if no default that fills a field is
changed. -/
theorem Context.Revises.descends {revision : Revision} {context image : Context}
    (h : context.Revises revision image) {writer reader : Node} {other : Node × Node}
    (hkeep : ∀ w r, context.reading? writer reader = some (.records w r) →
      ∀ field ∈ Matching.unmatched (Links.ofFields context.config w.fields r.fields) w.fields
        r.fields, revision.default? field.field = field.field.default?)
    (hdescends : context.Descends (writer, reader) other) :
    image.Descends (revision.node writer, revision.node reader)
      (revision.node other.1, revision.node other.2) := by
  have hreads {reading : Reading} (hreading : context.reading? writer reader = some reading) :
      image.reading? (revision.node writer) (revision.node reader) =
        some (reading.revise revision) := by
    rw [h.reading?, hreading, Option.map_some]
  have hmatches {w r : RecordNode} {matching : Matching}
      (hreading : context.reading? writer reader = some (.records w r))
      (hmatching : Matching.ofFields context.config w.fields r.fields = .ok matching) :
      Matching.ofFields image.config (w.revise revision).fields (r.revise revision).fields =
        .ok (matching.revise revision) := by
    have hrevised := Matching.ofFields_revise context.config (hkeep w r hreading)
    rw [hmatching] at hrevised
    rw [h.config]
    exact hrevised
  cases hdescends with
  | items hreading => exact .items (hreads hreading)
  | values hreading => exact .values (hreads hreading)
  | linked hreading hmatching hlinked =>
    exact .linked (hreads hreading) (hmatches hreading hmatching)
      (Links.mem_zip_revise revision hlinked)
  | skipped hreading hmatching hskipped =>
    exact .skipped (hreads hreading) (hmatches hreading hmatching)
      (Links.mem_zip_revise revision hskipped)
  | filled hreading hmatching hfilled =>
    exact .filled (hreads hreading) (hmatches hreading hmatching) (List.mem_map_of_mem hfilled)
  | alternatives hreading hbranch =>
    exact .alternatives (hreads hreading) (List.mem_map_of_mem hbranch)
  | @branches _ _ shape branches before after candidate hreading hshape hsplit hbefore
      hconsiders =>
    have hsplit' : (branches.map revision.node).zipIdx =
        before.map revision.branch ++ revision.branch candidate :: after.map revision.branch := by
      rw [Revision.zipIdx_branches, hsplit, List.map_append, List.map_cons]
    refine .branches (hreads hreading) (by rw [h.shape?, hshape]; rfl) hsplit' ?_
      (h.considers hconsiders)
    intro other hother
    obtain ⟨earlier, hearlier, rfl⟩ := List.mem_map.1 hother
    rw [h.isOfType]
    exact hbefore earlier hearlier

/-! ## Arenas -/

/-- A symbol with another type of its default. -/
def Symbol.mapType (f : Schema → Schema) : Symbol → Symbol
  | .inject type bytes => .inject (f type) bytes
  | symbol => symbol

theorem Symbol.mapType_id : mapType id = id := by
  funext symbol
  cases symbol <;> rfl

namespace Builder

/-- An event with another type of its default. -/
def Event.mapType (f : Schema → Schema) : Event → Event
  | .push id symbol => .push id (symbol.mapType f)
  | .fill id symbol => .fill id (symbol.mapType f)
  | event => event

theorem Event.mapType_id : Event.mapType id = id := by
  funext event
  cases event with
  | push slot symbol => exact congrArg (Event.push slot) (congrFun Symbol.mapType_id symbol)
  | fill slot symbol => exact congrArg (Event.fill slot) (congrFun Symbol.mapType_id symbol)
  | _ => rfl

/-- A builder with other types of its defaults. -/
def mapTypes (f : Schema → Schema) (builder : Builder) : Builder :=
  { builder with
    slots := builder.slots.map (Option.map (Symbol.mapType f))
    log := builder.log.map (Event.mapType f) }

variable (f : Schema → Schema)

theorem mapTypes_empty : Builder.empty.mapTypes f = Builder.empty := by
  simp [mapTypes, empty]

variable (builder : Builder)

theorem mapTypes_id : builder.mapTypes id = builder := by
  simp [mapTypes, Symbol.mapType_id, Event.mapType_id]

theorem symbol?_mapTypes (id : SymbolId) :
    (builder.mapTypes f).symbol? id = (builder.symbol? id).map (Symbol.mapType f) := by
  rw [symbol?, symbol?, mapTypes, Array.getElem?_map]
  rcases builder.slots[id]? with _ | _ | _ <;> rfl

theorem terminal?_mapTypes (terminal : Terminal) :
    (builder.mapTypes f).terminal? terminal = builder.terminal? terminal := by
  rw [terminal?, terminal?, mapTypes, Array.findIdx?_map]
  congr 1
  funext slot
  rcases slot with _ | symbol
  · rfl
  · cases symbol <;> rfl

theorem hasMatchError_mapTypes (id : SymbolId) :
    (builder.mapTypes f).hasMatchError id = builder.hasMatchError id := by
  rw [hasMatchError, hasMatchError, symbol?_mapTypes]
  simp only [symbol?_mapTypes]
  rcases builder.symbol? id with _ | symbol
  · rfl
  · cases symbol with
    | sequence children =>
      refine congrArg (List.any children) (funext fun child => ?_)
      rcases builder.symbol? child with _ | symbol
      · rfl
      · cases symbol <;> rfl
    | _ => rfl

end Builder

/-- A program with other types of its defaults. -/
def Program.mapTypes (f : Schema → Schema) (program : Program) : Program :=
  { program with symbols := program.symbols.map (Symbol.mapType f) }

theorem Program.mapTypes_id (program : Program) : program.mapTypes id = program := by
  simp [mapTypes, Symbol.mapType_id]

theorem Builder.finish_mapTypes (f : Schema → Schema) (builder : Builder) (root : SymbolId) :
    (builder.mapTypes f).finish root = (builder.finish root).map (Program.mapTypes f) := by
  have hmapM (slots : List (Option Symbol × Nat)) :
      (slots.map fun slot => (slot.1.map (Symbol.mapType f), slot.2)).mapM filled =
        (slots.mapM filled).map (List.map (Symbol.mapType f)) := by
    induction slots with
    | nil => rfl
    | cons slot rest ih =>
      rcases slot with ⟨_ | symbol, id⟩
      · rfl
      · rw [List.map_cons, List.mapM_cons, List.mapM_cons, ih]
        cases rest.mapM filled <;> rfl
  have hslots : (builder.mapTypes f).slots.toList.zipIdx =
      builder.slots.toList.zipIdx.map fun slot =>
        (slot.1.map (Symbol.mapType f), slot.2) := by
    rw [mapTypes, Array.toList_map, List.zipIdx_map]
    rfl
  rw [finish_eq, finish_eq, hslots, hmapM]
  cases builder.slots.toList.zipIdx.mapM filled with
  | error fault => rfl
  | ok symbols => simp [Except.map, Program.mapTypes, bind, Except.bind, pure, Except.pure]

/-! ## Two compilations side by side -/

namespace Compile

variable {α β γ δ : Type} {types : Schema → Schema} {f : α → β}

/-- On a builder with other types of its defaults `y` does what `x` does, with `f` of the
result, unless `x` stops for its depth. -/
def Follows (types : Schema → Schema) (f : α → β) (x : Compile α) (y : Compile β) : Prop :=
  ∀ builder, x builder = .error (.internal .tooDeep) ∨
    y (builder.mapTypes types) =
      (x builder).map fun result => (f result.1, result.2.mapTypes types)

namespace Follows

theorem pure (value : α) : Follows types f (Pure.pure value) (Pure.pure (f value)) :=
  fun _ => .inr rfl

theorem tooDeep (y : Compile β) : Follows types f (throw (.internal .tooDeep)) y :=
  fun _ => .inl rfl

/-- What comes next is compared for the values that the first one may return. -/
theorem bind {x : Compile α} {y : Compile β} {g : γ → δ} {next : α → Compile γ}
    {next' : β → Compile δ} (h : Follows types f x y)
    (hnext : ∀ value, x.Returns value → Follows types g (next value) (next' (f value))) :
    Follows types g (x >>= next) (y >>= next') := by
  intro builder
  have hbind : (x >>= next) builder = (x builder >>= fun result => next result.1 result.2) := rfl
  have hbind' : (y >>= next') (builder.mapTypes types) =
      (y (builder.mapTypes types) >>= fun result => next' result.1 result.2) := rfl
  rw [hbind, hbind']
  rcases h builder with hdeep | hsame
  · rw [hdeep]
    exact .inl rfl
  · rw [hsame]
    cases hx : x builder with
    | error fault => exact .inr rfl
    | ok result => exact hnext result.1 ⟨builder, result.2, hx⟩ result.2

theorem mapM {g : γ → δ} {items : List γ} {x : γ → Compile α} {y : δ → Compile β}
    (h : ∀ item ∈ items, Follows types f (x item) (y (g item))) :
    Follows types (List.map f) (items.mapM x) ((items.map g).mapM y) := by
  induction items with
  | nil => exact pure []
  | cons item rest ih =>
    rw [List.map_cons, List.mapM_cons, List.mapM_cons]
    refine (h item (.head _)).bind fun value _ => ?_
    refine (ih fun other hother => h other (.tail _ hother)).bind fun values _ => ?_
    exact pure (value :: values)

end Follows

/-! ## The arena and the memory -/

theorem follows_push (symbol : Symbol) :
    Follows types id (push symbol) (push (symbol.mapType types)) := by
  intro builder
  right
  simp [push, Builder.mapTypes, Builder.Event.mapType, Except.map]

theorem follows_terminal (wanted : Terminal) :
    Follows types id (terminal wanted) (terminal wanted) := by
  intro builder
  rw [terminal, terminal, Builder.terminal?_mapTypes]
  cases builder.terminal? wanted with
  | some id => exact .inr rfl
  | none => exact follows_push (.terminal wanted) builder

theorem follows_hasMatchError (symbol : SymbolId) :
    Follows types id (hasMatchError symbol) (hasMatchError symbol) := by
  intro builder
  right
  rw [hasMatchError, Builder.hasMatchError_mapTypes]
  rfl

theorem follows_memoise (key : MemoKey) (symbol : SymbolId) :
    Follows types id (memoise key symbol) (memoise key symbol) :=
  fun _ => .inr rfl

theorem follows_mismatch (revision : Revision) (w r : Shape) :
    Follows types id (mismatch w r) (mismatch (w.revise revision) (r.revise revision)) := by
  rw [mismatch, mismatch, Shape.typeName_revise, Shape.typeName_revise]
  exact follows_push _

theorem follows_blocks (collection : Collection) (body : List SymbolId) :
    Follows types id (blocks collection body) (blocks collection body) := by
  refine (follows_terminal _).bind fun start _ => ?_
  refine (follows_push (.repetition collection body)).bind fun items _ => ?_
  exact follows_push (.sequence [start, items])

theorem follows_enumeration (adjustment : EnumAdjustment) :
    Follows types id (enumeration adjustment) (enumeration adjustment) := by
  refine (follows_terminal _).bind fun ordinal _ => ?_
  refine (follows_push (.remap adjustment)).bind fun remap _ => ?_
  exact follows_push (.sequence [ordinal, remap])

theorem follows_onFirstSight (key : MemoKey) {compile compile' : Compile SymbolId}
    (h : Follows types id compile compile') :
    Follows types id (onFirstSight key compile) (onFirstSight key compile') := by
  have hsymbolOf : Follows types id (symbolOf key) (symbolOf key) := by
    intro builder
    right
    simp only [symbolOf, Builder.mapTypes]
    cases builder.memo.lookup key <;> rfl
  refine hsymbolOf.bind fun known? _ => ?_
  cases known? with
  | some symbol => exact .pure symbol
  | none => exact h

theorem follows_reserveFor (key : MemoKey) {body body' : Compile Symbol}
    (h : Follows types (Symbol.mapType types) body body') :
    Follows types id (reserveFor key body) (reserveFor key body') := by
  have hreserve : Follows types id reserve reserve := by
    intro builder
    right
    simp [reserve, Builder.mapTypes, Builder.Event.mapType, Except.map]
  refine hreserve.bind fun reserved _ => ?_
  refine (follows_memoise key reserved).bind fun _ _ => ?_
  refine h.bind fun symbol _ => ?_
  have hfill : Follows types id (fill reserved symbol)
      (fill reserved (symbol.mapType types)) := by
    intro builder
    right
    simp [fill, Builder.mapTypes, Builder.Event.mapType, Except.map]
  exact hfill.bind fun _ _ => .pure reserved

end Compile

end AvroResolution
