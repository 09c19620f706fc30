import AvroResolution.Compilation.Resolving
import AvroResolution.Proofs.Schema.Look

/-!
# How one type is read as another

The rules of resolution without an arena.

* `Shape.reading` gives the rule for a pair of shapes as a `Reading`.
* `Context.pick` is the choice of a branch of the reader's union, when it is known
  which record branches fit.
* `Context.Misfit` says that two records cannot be read as each other at first
  sight: a field without default is missing, or a matched pair of fields has
  nothing in common.  Two fields of which one is a union have nothing in common
  when no branch can be picked, so the definition refers to itself; a misfit has
  a finite reason.
* `Context.choice` is the pick among the records that are no misfits.
-/

namespace AvroResolution

/-! ## Readings -/

/-- A type that one terminal reads. -/
inductive Atom where
  | primitive (type : Primitive)
  | fixed (size : Nat)

def Atom.terminal : Atom → Terminal
  | .primitive type => .primitive type
  | .fixed size => .fixed size

/-- How a writer's type is read as a reader's. -/
inductive Reading where
  | atom (type : Atom)
  | promotion (promotion : Promotion)
  | enum (writer reader : List String) (default? : Option String)
  | array (writer reader : Node)
  | map (writer reader : Node)
  | records (writer reader : RecordNode)
  | writerUnion (branches : List Node)
  | readerUnion (branches : List Node)
  | mismatch (cause : Mismatch)

namespace Shape

/-- The rule for a pair of shapes. -/
def reading (w r : Shape) : Reading :=
  match w, r with
  | .named (.fixed wh ws), .named (.fixed rh rs) =>
    if wh.fullname = rh.fullname ∧ ws = rs then .atom (.fixed ws)
    else .mismatch (.types w.typeName r.typeName)
  | .named (.enum wh ws _), .named (.enum rh rs default?) =>
    if wh.fullname = rh.fullname then .enum ws rs default?
    else .mismatch (.types w.typeName r.typeName)
  | .named (.record wr), .named (.record rr) => .records wr rr
  | .array wi, .array ri => .array wi ri
  | .map wv, .map rv => .map wv rv
  | .union branches, _ => .writerUnion branches
  | _, .union branches => .readerUnion branches
  | .primitive wt, .primitive rt =>
    if wt = rt then .atom (.primitive wt)
    else
      match Promotion.between? (.primitive wt) (.primitive rt) with
      | some promotion => .promotion promotion
      | none => .mismatch (.types w.typeName r.typeName)
  | _, _ => .mismatch (.types w.typeName r.typeName)

/-- The rules, by the shapes that they are for. -/
inductive Rule : Shape → Shape → Reading → Prop
  | primitive (type : Primitive) :
      Rule (.primitive type) (.primitive type) (.atom (.primitive type))
  | fixed {wh rh : Heading} (size : Nat) (hname : wh.fullname = rh.fullname) :
      Rule (.named (.fixed wh size)) (.named (.fixed rh size)) (.atom (.fixed size))
  | promotion {wt rt : Primitive} (promotion : Promotion) (hsource : wt = promotion.source)
      (htarget : rt = promotion.target) :
      Rule (.primitive wt) (.primitive rt) (.promotion promotion)
  | enum {wh rh : Heading} (ws rs : List String) (unused? default? : Option String)
      (hname : wh.fullname = rh.fullname) :
      Rule (.named (.enum wh ws unused?)) (.named (.enum rh rs default?)) (.enum ws rs default?)
  | array (wi ri : Node) : Rule (.array wi) (.array ri) (.array wi ri)
  | map (wv rv : Node) : Rule (.map wv) (.map rv) (.map wv rv)
  | records (wr rr : RecordNode) :
      Rule (.named (.record wr)) (.named (.record rr)) (.records wr rr)
  | writerUnion (branches : List Node) (r : Shape) :
      Rule (.union branches) r (.writerUnion branches)
  | readerUnion {w : Shape} (branches : List Node) (hw : ∀ branches, w ≠ .union branches) :
      Rule w (.union branches) (.readerUnion branches)
  | mismatch (w r : Shape) : Rule w r (.mismatch (.types w.typeName r.typeName))

theorem kinds_of_between? {w r : Kind} {promotion : Promotion}
    (h : Promotion.between? w r = some promotion) :
    w = .primitive promotion.source ∧ r = .primitive promotion.target := by
  unfold Promotion.between? at h
  split at h <;> cases h <;> exact ⟨rfl, rfl⟩

theorem rule_reading (w r : Shape) : Rule w r (w.reading r) := by
  unfold reading
  split
  · split
    · rename_i h
      obtain ⟨hname, rfl⟩ := h
      exact .fixed _ hname
    · exact .mismatch _ _
  · split
    · exact .enum _ _ _ _ ‹_›
    · exact .mismatch _ _
  · exact .records _ _
  · exact .array _ _
  · exact .map _ _
  · exact .writerUnion _ _
  · exact .readerUnion _ ‹_›
  · split
    · rename_i h
      subst h
      exact .primitive _
    · split
      · rename_i promotion h
        obtain ⟨hsource, htarget⟩ := kinds_of_between? h
        exact .promotion promotion (Kind.primitive.inj hsource) (Kind.primitive.inj htarget)
      · exact .mismatch _ _
  · exact .mismatch _ _

theorem reading_self (shape : Shape) :
    (∀ cause, shape.reading shape ≠ .mismatch cause) ∧
      ∀ branches, shape.reading shape ≠ .readerUnion branches := by
  cases shape with
  | named definition => cases definition <;> simp [reading]
  | primitive type => simp [reading]
  | _ => exact ⟨nofun, nofun⟩

/-- Whether two shapes are of one kind and, if they have names, of one name. -/
def isOfType : Shape → Shape → Bool
  | .named w, .named r => w.kind = r.kind && w.fullname = r.fullname
  | w, r => w.kind = r.kind

theorem isOfType_named {w r : Definition} :
    (Shape.named w).isOfType (.named r) = true ↔ w.kind = r.kind ∧ w.fullname = r.fullname := by
  simp [isOfType]

end Shape

namespace Context

variable {context : Context}

/-- The rule for a pair of nodes, unless one of them is a reference to nothing. -/
def reading? (context : Context) (writer reader : Node) : Option Reading := do
  let w ← context.shape? writer
  let r ← context.shape? reader
  return w.reading r

theorem reading?_eq_some {writer reader : Node} {reading : Reading} :
    context.reading? writer reader = some reading ↔
      ∃ w r, context.shape? writer = some w ∧ context.shape? reader = some r ∧
        w.reading r = reading := by
  simp [reading?, Option.bind_eq_some_iff]

theorem rule_of_reading? {writer reader : Node} {reading : Reading}
    (h : context.reading? writer reader = some reading) :
    ∃ w r, context.shape? writer = some w ∧ context.shape? reader = some r ∧
      Shape.Rule w r reading := by
  obtain ⟨w, r, hw, hr, rfl⟩ := reading?_eq_some.1 h
  exact ⟨w, r, hw, hr, w.rule_reading r⟩

/-- The nodes that a rule goes on with belong to their trees. -/
theorem holds_of_reading {writer reader : Node} {reading : Reading}
    (hwriter : context.Holds writer) (hreader : context.Holds reader)
    (h : context.reading? writer reader = some reading) :
    match reading with
    | .array wi ri => context.Holds wi ∧ context.Holds ri
    | .map wv rv => context.Holds wv ∧ context.Holds rv
    | .records w r => context.Defines w ∧ context.Defines r
    | .writerUnion branches => ∀ branch ∈ branches, context.Holds branch
    | .readerUnion branches => ∀ branch ∈ branches, context.Holds branch
    | _ => True := by
  obtain ⟨w, r, hw, hr, hrule⟩ := rule_of_reading? h
  cases hrule with
  | array => exact ⟨(hwriter.part hw (.head _)).1, (hreader.part hr (.head _)).1⟩
  | map => exact ⟨(hwriter.part hw (.head _)).1, (hreader.part hr (.head _)).1⟩
  | records => exact ⟨(hwriter.record hw).1, (hreader.record hr).1⟩
  | writerUnion => exact fun _ hbranch => (hwriter.part hw hbranch).1
  | readerUnion => exact fun _ hbranch => (hreader.part hr hbranch).1
  | _ => trivial

/-- A rule goes on with nodes of the reader's side in the place of the reader's. -/
theorem side_of_reading {writer reader : Node} {reading : Reading}
    (hreader : context.Holds reader) (h : context.reading? writer reader = some reading) :
    match reading with
    | .array _ ri => ri.side = reader.side
    | .map _ rv => rv.side = reader.side
    | .records _ r => r.id.side = reader.side
    | .readerUnion branches => ∀ branch ∈ branches, branch.side = reader.side
    | _ => True := by
  obtain ⟨w, r, _, hr, hrule⟩ := rule_of_reading? h
  cases hrule with
  | array => exact (hreader.part hr (.head _)).2
  | map => exact (hreader.part hr (.head _)).2
  | records => exact (hreader.record hr).2
  | readerUnion => exact fun _ hbranch => (hreader.part hr hbranch).2
  | _ => trivial

/-! ## Branches -/

/-- Whether a branch is of the writer's own type. -/
def isOfType (context : Context) (writer : Shape) (candidate : Node × Nat) : Bool :=
  (context.shape? candidate.1).any writer.isOfType

/-- The record at a branch. -/
def recordAt? (context : Context) (candidate : Node × Nat) : Option RecordNode :=
  match context.shape? candidate.1 with
  | some (.named (.record record)) => some record
  | _ => none

/-- Whether writer and branch are records with one unqualified name. -/
def sharesName (context : Context) (writer : Shape) (candidate : Node × Nat) : Bool :=
  match writer with
  | .named (.record w) => (context.recordAt? candidate).any fun r => w.heading.name = r.heading.name
  | _ => false

/-- Whether a branch is reached by a promotion that may choose it. -/
def isPromoted (context : Context) (writer : Shape) (candidate : Node × Nat) : Bool :=
  (context.shape? candidate.1).any fun branch =>
    (Promotion.between? writer.kind branch.kind).any Promotion.choosesBranch

/-- The branch that a writer's type is read as, where `fitting` are the record
branches that it fits.  The first branch of its own type comes first, then the
last fitting one with its unqualified name, then the first fitting one, then the
first one reached by promotion. -/
def pick (context : Context) (writer : Shape) (candidates fitting : List (Node × Nat)) :
    Option (Node × Nat) :=
  (candidates.find? (context.isOfType writer)).or <|
    (fitting.filter (context.sharesName writer)).getLast?.or <|
      fitting.head?.or (candidates.find? (context.isPromoted writer))

/-- Two records of which the one cannot be read as the other at first sight. -/
inductive Misfit (context : Context) : RecordNode → RecordNode → Prop
  | missing {writer reader : RecordNode} {field : String}
      (hmissing : Matching.ofFields context.config writer.fields reader.fields = .error field) :
      Misfit context writer reader
  | types {writer reader : RecordNode} {matching : Matching} {field : Field Node}
      {link : ReaderField} {cause : Mismatch}
      (hmatching : Matching.ofFields context.config writer.fields reader.fields = .ok matching)
      (hlinked : (field, some link) ∈ writer.fields.zip matching.links)
      (hreading : context.reading? field.type link.field.type = some (.mismatch cause)) :
      Misfit context writer reader
  | records {writer reader inner inner' : RecordNode} {matching : Matching} {field : Field Node}
      {link : ReaderField} {name : String}
      (hmatching : Matching.ofFields context.config writer.fields reader.fields = .ok matching)
      (hlinked : (field, some link) ∈ writer.fields.zip matching.links)
      (hreading : context.reading? field.type link.field.type = some (.records inner inner'))
      (hmissing : Matching.ofFields context.config inner.fields inner'.fields = .error name) :
      Misfit context writer reader
  | branches {writer reader : RecordNode} {matching : Matching} {field : Field Node}
      {link : ReaderField} {shape : Shape} {branches : List Node}
      (hmatching : Matching.ofFields context.config writer.fields reader.fields = .ok matching)
      (hlinked : (field, some link) ∈ writer.fields.zip matching.links)
      (hreading : context.reading? field.type link.field.type = some (.readerUnion branches))
      (hshape : context.shape? field.type = some shape)
      (hnone : context.pick shape branches.zipIdx [] = none)
      (hmisfits : ∀ candidate ∈ branches.zipIdx, ∀ inner inner', shape = .named (.record inner) →
        context.recordAt? candidate = some inner' → Misfit context inner inner') :
      Misfit context writer reader

/-- A record branch that is no misfit for the writer's record. -/
def Fits (context : Context) (writer : Shape) (candidate : Node × Nat) : Prop :=
  ∃ w r, writer = .named (.record w) ∧ context.recordAt? candidate = some r ∧
    ¬context.Misfit w r

open Classical in
/-- The record branches that fit. -/
noncomputable def fitting (context : Context) (writer : Shape) (candidates : List (Node × Nat)) :
    List (Node × Nat) :=
  candidates.filter fun candidate => context.Fits writer candidate

theorem mem_fitting {writer : Shape} {candidates : List (Node × Nat)} {candidate : Node × Nat} :
    candidate ∈ context.fitting writer candidates ↔
      candidate ∈ candidates ∧ context.Fits writer candidate := by
  simp [fitting]

/-- The branch of the reader's union that the rules choose. -/
noncomputable def choice (context : Context) (writer : Shape) (branches : List Node) :
    Option (Node × Nat) :=
  context.pick writer branches.zipIdx (context.fitting writer branches.zipIdx)

/-! ## Picking among too many -/

/-- A selection of record branches that leaves out none that fit. -/
structure Sifted (context : Context) (writer : Shape) (candidates kept : List (Node × Nat)) :
    Prop where
  subset : kept ⊆ candidates
  fitting : context.fitting writer kept = context.fitting writer candidates
  records : ∀ candidate ∈ kept, ∃ w r, writer = .named (.record w) ∧
    context.recordAt? candidate = some r

namespace Sifted

variable {writer : Shape} {candidate : Node × Nat} {candidates kept : List (Node × Nat)}

protected theorem nil : context.Sifted writer [] [] :=
  ⟨fun _ h => h, rfl, nofun⟩

/-- The record branches that fit are a selection that leaves out none. -/
theorem fits : context.Sifted writer candidates (context.fitting writer candidates) := by
  refine ⟨fun _ h => (mem_fitting.1 h).1, ?_, ?_⟩
  · rw [Context.fitting, Context.fitting, List.filter_filter]
    simp
  · intro candidate h
    obtain ⟨w, r, hw, hr, _⟩ := (mem_fitting.1 h).2
    exact ⟨w, r, hw, hr⟩

theorem keep (h : context.Sifted writer candidates kept) {w r : RecordNode}
    (hw : writer = .named (.record w)) (hr : context.recordAt? candidate = some r) :
    context.Sifted writer (candidate :: candidates) (candidate :: kept) := by
  refine ⟨List.cons_subset_cons _ h.subset, ?_, ?_⟩
  · have htail := h.fitting
    rw [Context.fitting, Context.fitting] at htail ⊢
    rw [List.filter_cons, List.filter_cons, htail]
  · intro other hother
    rcases List.mem_cons.1 hother with rfl | hother
    · exact ⟨w, r, hw, hr⟩
    · exact h.records other hother

theorem pass (h : context.Sifted writer candidates kept)
    (hfits : ¬context.Fits writer candidate) :
    context.Sifted writer (candidate :: candidates) kept := by
  refine ⟨List.subset_cons_of_subset _ h.subset, ?_, h.records⟩
  rw [h.fitting, Context.fitting, Context.fitting, List.filter_cons_of_neg (by simpa using hfits)]

end Sifted

theorem getLast?_filter {α : Type} {p : α → Bool} {l : List α} {a : α}
    (h : l.getLast? = some a) (ha : p a = true) : (l.filter p).getLast? = some a := by
  obtain ⟨front, rfl⟩ := List.getLast?_eq_some_iff.1 h
  rw [List.filter_append, List.filter_cons_of_pos ha, List.filter_nil, List.getLast?_concat]

theorem head?_filter {α : Type} {p : α → Bool} {l : List α} {a : α}
    (h : l.head? = some a) (ha : p a = true) : (l.filter p).head? = some a := by
  obtain ⟨rest, rfl⟩ := List.head?_eq_some_iff.1 h
  rw [List.filter_cons_of_pos ha, List.head?_cons]

/-- The pick does not change when branches that do not fit are left out, provided
that the branch picked is not one of them. -/
theorem Sifted.pick_eq {writer : Shape} {candidates kept : List (Node × Nat)}
    (h : context.Sifted writer candidates kept)
    (hpicked : ∀ candidate, context.pick writer candidates kept = some candidate →
      candidate ∈ kept → context.Fits writer candidate) :
    context.pick writer candidates (context.fitting writer candidates) =
      context.pick writer candidates kept := by
  rw [← h.fitting, pick, pick]
  rw [pick] at hpicked
  cases htype : candidates.find? (context.isOfType writer) with
  | some candidate => rfl
  | none =>
    rw [htype, Option.none_or] at hpicked
    rw [Option.none_or, Option.none_or]
    have hcomm : (context.fitting writer kept).filter (context.sharesName writer) =
        context.fitting writer (kept.filter (context.sharesName writer)) := by
      rw [Context.fitting, Context.fitting, List.filter_filter, List.filter_filter]
      exact List.filter_congr fun candidate _ => Bool.and_comm _ _
    rw [hcomm]
    cases hnamed : (kept.filter (context.sharesName writer)).getLast? with
    | some candidate =>
      have hmem : candidate ∈ kept := (List.mem_filter.1 (List.mem_of_getLast? hnamed)).1
      have hfits := hpicked candidate (by rw [hnamed]; rfl) hmem
      rw [Context.fitting, getLast?_filter hnamed (by simpa using hfits)]
      rfl
    | none =>
      rw [List.getLast?_eq_none_iff.1 hnamed]
      rw [hnamed, Option.none_or] at hpicked
      cases hfirst : kept.head? with
      | some candidate =>
        have hmem : candidate ∈ kept := List.mem_of_head? hfirst
        have hfits := hpicked candidate (by rw [hfirst]; rfl) hmem
        rw [Context.fitting, Context.fitting, head?_filter hfirst (by simpa using hfits)]
        rfl
      | none =>
        rw [List.head?_eq_none_iff.1 hfirst]
        rfl

theorem pick_eq_none {writer : Shape} {candidates kept : List (Node × Nat)}
    (h : context.pick writer candidates kept = none) :
    kept = [] ∧ context.pick writer candidates [] = none := by
  have hkept : kept = [] := by
    rw [pick, Option.or_eq_none_iff, Option.or_eq_none_iff, Option.or_eq_none_iff] at h
    exact List.head?_eq_none_iff.1 h.2.2.1
  subst hkept
  exact ⟨rfl, h⟩

theorem pick_cases {writer : Shape} {candidates kept : List (Node × Nat)}
    {candidate : Node × Nat} (h : context.pick writer candidates kept = some candidate) :
    candidate ∈ kept ∨ candidate ∈ candidates ∧
      (context.isOfType writer candidate = true ∨ context.isPromoted writer candidate = true) := by
  rw [pick] at h
  rcases Option.or_eq_some_iff.1 h with h | ⟨_, h⟩
  · exact .inr ⟨List.mem_of_find?_eq_some h, .inl (List.find?_some h)⟩
  · rcases Option.or_eq_some_iff.1 h with h | ⟨_, h⟩
    · exact .inl (List.mem_filter.1 (List.mem_of_getLast? h)).1
    · rcases Option.or_eq_some_iff.1 h with h | ⟨_, h⟩
      · exact .inl (List.mem_of_head? h)
      · exact .inr ⟨List.mem_of_find?_eq_some h, .inr (List.find?_some h)⟩

theorem Sifted.mem_of_pick {writer : Shape} {candidates kept : List (Node × Nat)}
    {candidate : Node × Nat} (h : context.Sifted writer candidates kept)
    (hpick : context.pick writer candidates kept = some candidate) : candidate ∈ candidates := by
  rcases pick_cases hpick with hmem | ⟨hmem, _⟩
  · exact h.subset hmem
  · exact hmem

theorem fst_mem_of_choice {writer : Shape} {branches : List Node} {chosen : Node × Nat}
    (h : context.choice writer branches = some chosen) : chosen.1 ∈ branches := by
  have hmem : chosen ∈ branches.zipIdx := by
    rcases pick_cases h with hmem | ⟨hmem, _⟩
    · exact (mem_fitting.1 hmem).1
    · exact hmem
  exact List.fst_mem_of_mem_zipIdx hmem

theorem recordAt?_eq_some {candidate : Node × Nat} {record : RecordNode} :
    context.recordAt? candidate = some record ↔
      context.shape? candidate.1 = some (.named (.record record)) := by
  unfold recordAt?
  split
  · rename_i found hfound
    rw [hfound]
    simp
  · rename_i hnone
    exact ⟨nofun, fun h => absurd h (hnone record)⟩

/-- The branch picked is the one that the rules choose, unless it is a misfit of another
name. -/
theorem Sifted.pick_eq_or {writer : Shape} {candidates kept : List (Node × Nat)}
    {candidate : Node × Nat} (h : context.Sifted writer candidates kept)
    (hpick : context.pick writer candidates kept = some candidate) :
    context.pick writer candidates (context.fitting writer candidates) = some candidate ∨
      ∃ w r, writer = .named (.record w) ∧ context.recordAt? candidate = some r ∧
        w.heading.fullname ≠ r.heading.fullname ∧ context.Misfit w r := by
  cases htype : candidates.find? (context.isOfType writer) with
  | some found =>
    left
    rw [pick, htype, Option.some_or] at hpick ⊢
    exact hpick
  | none =>
    by_cases hpicked : candidate ∈ kept → context.Fits writer candidate
    · left
      rw [h.pick_eq fun other hother => Option.some.inj (hpick.symm.trans hother) ▸ hpicked, hpick]
    · right
      rw [Classical.not_imp] at hpicked
      obtain ⟨hmem, hfits⟩ := hpicked
      obtain ⟨w, r, rfl, hr⟩ := h.records candidate hmem
      refine ⟨w, r, rfl, hr, ?_, ?_⟩
      · intro hname
        have hother := List.find?_eq_none.1 htype candidate (h.subset hmem)
        rw [isOfType, recordAt?_eq_some.1 hr] at hother
        have hsame : (Shape.named (.record w)).isOfType (.named (.record r)) = true :=
          Shape.isOfType_named.2 ⟨rfl, hname⟩
        exact hother hsame
      · by_contra hmisfit
        exact hfits ⟨w, r, rfl, hr, hmisfit⟩

end Context

end AvroResolution
