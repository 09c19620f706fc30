import AvroResolution.Proofs.Compilation.Resolving

/-!
# The pairs that a compilation goes on with

Compiling a pair of nodes leads to the compilation of other pairs.

* `Context.Descends` says which ones.  A writer's type that meets a union is compared with
  the branches that `Context.Considers` lists, up to the first one of its own type.
* `Compile.Returns` says what a compilation may give, whatever is in its builder.
  `Compile.returns_chooseBranch`: the branch that is chosen is one that was considered.
-/

namespace AvroResolution

namespace Context

/-- The branch is one that data of the writer's type may be read as, at first sight. -/
def Considers (context : Context) (writer : Shape) (candidate : Node × Nat) : Prop :=
  context.isOfType writer candidate = true ∨
    (∃ w r, writer = .named (.record w) ∧ context.recordAt? candidate = some r) ∨
      context.isPromoted writer candidate = true

/-- Every branch that is considered has the property, up to the first one of the writer's own
type. -/
def AllConsidered (context : Context) (writer : Shape) (candidates : List (Node × Nat))
    (good : Node × Nat → Prop) : Prop :=
  ∀ before candidate after, candidates = before ++ candidate :: after →
    (∀ other ∈ before, context.isOfType writer other = false) →
      context.Considers writer candidate → good candidate

/-- The pairs of nodes that compiling a pair of nodes goes on with. -/
inductive Descends (context : Context) : Node × Node → Node × Node → Prop
  | items {writer reader wi ri : Node}
      (hreading : context.reading? writer reader = some (.array wi ri)) :
      Descends context (writer, reader) (wi, ri)
  | values {writer reader wv rv : Node}
      (hreading : context.reading? writer reader = some (.map wv rv)) :
      Descends context (writer, reader) (wv, rv)
  | linked {writer reader : Node} {w r : RecordNode} {matching : Matching} {field : Field Node}
      {link : ReaderField}
      (hreading : context.reading? writer reader = some (.records w r))
      (hmatching : Matching.ofFields context.config w.fields r.fields = .ok matching)
      (hlinked : (field, some link) ∈ w.fields.zip matching.links) :
      Descends context (writer, reader) (field.type, link.field.type)
  | skipped {writer reader : Node} {w r : RecordNode} {matching : Matching} {field : Field Node}
      (hreading : context.reading? writer reader = some (.records w r))
      (hmatching : Matching.ofFields context.config w.fields r.fields = .ok matching)
      (hskipped : (field, none) ∈ w.fields.zip matching.links) :
      Descends context (writer, reader) (field.type, field.type)
  | filled {writer reader : Node} {w r : RecordNode} {matching : Matching}
      {field : DefaultedField}
      (hreading : context.reading? writer reader = some (.records w r))
      (hmatching : Matching.ofFields context.config w.fields r.fields = .ok matching)
      (hfilled : field ∈ matching.defaulted) :
      Descends context (writer, reader) (field.reader.field.type, field.reader.field.type)
  | alternatives {writer reader branch : Node} {branches : List Node}
      (hreading : context.reading? writer reader = some (.writerUnion branches))
      (hbranch : branch ∈ branches) : Descends context (writer, reader) (branch, reader)
  | branches {writer reader : Node} {shape : Shape} {branches : List Node}
      {before after : List (Node × Nat)} {candidate : Node × Nat}
      (hreading : context.reading? writer reader = some (.readerUnion branches))
      (hshape : context.shape? writer = some shape)
      (hsplit : branches.zipIdx = before ++ candidate :: after)
      (hbefore : ∀ other ∈ before, context.isOfType shape other = false)
      (hconsiders : context.Considers shape candidate) :
      Descends context (writer, reader) (writer, candidate.1)

/-- What is gone on with by the rule for the pair, unless it is that of a reader's union. -/
theorem Descends.of_reading {context : Context} {pair other : Node × Node} {reading : Reading}
    (h : context.Descends pair other) (hreading : context.reading? pair.1 pair.2 = some reading) :
    match reading with
    | .array wi ri => other = (wi, ri)
    | .map wv rv => other = (wv, rv)
    | .records w r => ∃ matching,
        Matching.ofFields context.config w.fields r.fields = .ok matching ∧
          ((∃ field link, (field, some link) ∈ w.fields.zip matching.links ∧
              other = (field.type, link.field.type)) ∨
            (∃ field, (field, none) ∈ w.fields.zip matching.links ∧
              other = (field.type, field.type)) ∨
            ∃ field ∈ matching.defaulted,
              other = (field.reader.field.type, field.reader.field.type))
    | .writerUnion parts => ∃ branch ∈ parts, other = (branch, pair.2)
    | .readerUnion _ => True
    | _ => False := by
  cases h with
  | items h =>
    cases hreading.symm.trans h
    rfl
  | values h =>
    cases hreading.symm.trans h
    rfl
  | linked h hmatching hlinked =>
    cases hreading.symm.trans h
    exact ⟨_, hmatching, .inl ⟨_, _, hlinked, rfl⟩⟩
  | skipped h hmatching hskipped =>
    cases hreading.symm.trans h
    exact ⟨_, hmatching, .inr (.inl ⟨_, hskipped, rfl⟩)⟩
  | filled h hmatching hfilled =>
    cases hreading.symm.trans h
    exact ⟨_, hmatching, .inr (.inr ⟨_, hfilled, rfl⟩)⟩
  | alternatives h hbranch =>
    cases hreading.symm.trans h
    exact ⟨_, hbranch, rfl⟩
  | branches h =>
    cases hreading.symm.trans h
    trivial

variable {context : Context} {writer : Shape} {candidate : Node × Nat}
  {candidates : List (Node × Nat)} {good : Node × Nat → Prop}

theorem AllConsidered.head (h : context.AllConsidered writer (candidate :: candidates) good)
    (hconsiders : context.Considers writer candidate) : good candidate :=
  h [] candidate candidates rfl nofun hconsiders

theorem AllConsidered.tail (h : context.AllConsidered writer (candidate :: candidates) good)
    (hnot : context.isOfType writer candidate = false) :
    context.AllConsidered writer candidates good := by
  intro before other after hsplit hbefore hconsiders
  refine h (candidate :: before) other after (by rw [hsplit]; rfl) ?_ hconsiders
  intro earlier hearlier
  rcases List.mem_cons.1 hearlier with rfl | hearlier
  · exact hnot
  · exact hbefore earlier hearlier

end Context

namespace Compile

variable {α γ : Type}

/-- The compilation gives the value on some builder. -/
def Returns (x : Compile α) (value : α) : Prop :=
  ∃ builder after, x builder = .ok (value, after)

theorem Returns.of_pure {value other : α} (h : Returns (pure value) other) : other = value := by
  obtain ⟨builder, after, hpure⟩ := h
  cases hpure
  rfl

theorem Returns.of_bind {x : Compile α} {next : α → Compile γ} {value : γ}
    (h : Returns (x >>= next) value) : ∃ first, x.Returns first ∧ (next first).Returns value := by
  obtain ⟨builder, after, hbind⟩ := h
  have hbind : (x builder >>= fun result => next result.1 result.2) = .ok (value, after) := hbind
  cases hx : x builder with
  | error fault =>
    rw [hx] at hbind
    cases hbind
  | ok result =>
    rw [hx] at hbind
    exact ⟨result.1, ⟨builder, result.2, hx⟩, result.2, after, hbind⟩

/-- Each value of a list is one that its item gives. -/
theorem Returns.of_mapM {f : α → Compile γ} {items : List α} {values : List γ}
    (h : Returns (items.mapM f) values) :
    List.Forall₂ (fun item value => (f item).Returns value) items values := by
  induction items generalizing values with
  | nil =>
    rw [List.mapM_nil] at h
    obtain rfl := h.of_pure
    exact .nil
  | cons item rest ih =>
    rw [List.mapM_cons] at h
    obtain ⟨value, hvalue, h⟩ := h.of_bind
    obtain ⟨others, hothers, h⟩ := h.of_bind
    obtain rfl := h.of_pure
    exact .cons hvalue (ih hothers)

variable {context : Context} {resolve : Node → Node → Compile SymbolId} {writer : Shape}
  {candidates : List (Node × Nat)} {good : Node × Nat → Prop}

theorem returns_look {node : Node} {shape : Shape} (h : Returns (context.look node) shape) :
    context.shape? node = some shape := by
  obtain ⟨builder, after, hlook⟩ := h
  rw [Context.look] at hlook
  split at hlook
  · rename_i found hfound
    cases hlook
    rw [Context.shape?, Registry.shape?, hfound]
    rfl
  · cases hlook

/-- A branch of the writer's type or structure was considered.  If there is none, no branch is
of the writer's type. -/
theorem returns_branchOfType {structural chosen? : Option (Node × Nat)}
    (hgood : context.AllConsidered writer candidates good)
    (hstructural : ∀ chosen, structural = some chosen → good chosen)
    (h : Returns (branchOfType context resolve writer candidates structural) chosen?) :
    (∀ chosen, chosen? = some chosen → good chosen) ∧
      (chosen? = none → ∀ candidate ∈ candidates, context.isOfType writer candidate = false) := by
  induction candidates generalizing structural with
  | nil =>
    obtain rfl := h.of_pure
    exact ⟨hstructural, fun _ candidate hmem => absurd hmem List.not_mem_nil⟩
  | cons candidate rest ih =>
    rw [branchOfType_cons] at h
    obtain ⟨shape, hshape, h⟩ := h.of_bind
    have hshape := returns_look hshape
    have hisOfType : context.isOfType writer candidate = writer.isOfType shape := by
      rw [Context.isOfType, hshape]
      rfl
    split at h
    · rename_i htype
      obtain rfl := h.of_pure
      refine ⟨?_, by rintro ⟨⟩⟩
      rintro chosen ⟨⟩
      exact hgood.head (.inl (hisOfType.trans htype))
    · rename_i htype
      have hnot : context.isOfType writer candidate = false :=
        hisOfType.trans (Bool.eq_false_iff.2 htype)
      have hrest {kept : Option (Node × Nat)} (hkept : ∀ chosen, kept = some chosen → good chosen)
          (h : Returns (branchOfType context resolve writer rest kept) chosen?) :
          (∀ chosen, chosen? = some chosen → good chosen) ∧ (chosen? = none →
            ∀ other ∈ candidate :: rest, context.isOfType writer other = false) := by
        obtain ⟨hsome, hnone⟩ := ih (hgood.tail hnot) hkept h
        refine ⟨hsome, fun h other hother => ?_⟩
        rcases List.mem_cons.1 hother with rfl | hother
        · exact hnot
        · exact hnone h other hother
      split at h
      · rename_i w r _ _
        have hrecord := Context.recordAt?_eq_some.2 hshape
        obtain ⟨id, _, h⟩ := h.of_bind
        obtain ⟨failed, _, h⟩ := h.of_bind
        refine hrest (fun chosen hchosen => ?_) h
        split at hchosen
        · cases hchosen
          exact hgood.head (.inr (.inl ⟨w, r, rfl, hrecord⟩))
        · exact hstructural chosen hchosen
      · exact hrest hstructural h

theorem returns_branchByPromotion {chosen : Node × Nat}
    (h : Returns (branchByPromotion context writer candidates) (some chosen)) :
    chosen ∈ candidates ∧ context.isPromoted writer chosen = true := by
  induction candidates with
  | nil => cases h.of_pure
  | cons candidate rest ih =>
    rcases candidate with ⟨branch, index⟩
    rw [branchByPromotion] at h
    obtain ⟨shape, hshape, h⟩ := h.of_bind
    have hshape := returns_look hshape
    have hrest (h : Returns (branchByPromotion context writer rest) (some chosen)) :
        chosen ∈ (branch, index) :: rest ∧ context.isPromoted writer chosen = true := by
      obtain ⟨hmem, hpromoted⟩ := ih h
      exact ⟨.tail _ hmem, hpromoted⟩
    split at h
    · rename_i promotion hpromotion
      split at h
      · rename_i hchooses
        cases h.of_pure
        refine ⟨.head _, ?_⟩
        rw [Context.isPromoted, hshape, Option.any_some, hpromotion, Option.any_some, hchooses]
      · exact hrest h
    · exact hrest h

/-- The branch that is chosen was considered. -/
theorem returns_chooseBranch {branches : List Node} {chosen : Node × Nat}
    (hgood : context.AllConsidered writer branches.zipIdx good)
    (h : Returns (chooseBranch context resolve writer branches) (some chosen)) : good chosen := by
  obtain ⟨first?, hfirst, h⟩ := h.of_bind
  have hstart : ∀ chosen, (none : Option (Node × Nat)) = some chosen → good chosen := nofun
  obtain ⟨hsome, hnone⟩ := returns_branchOfType hgood hstart hfirst
  split at h
  · cases h.of_pure
    exact hsome _ rfl
  · obtain ⟨hmem, hpromoted⟩ := returns_branchByPromotion h
    obtain ⟨before, after, hsplit⟩ := List.append_of_mem hmem
    refine hgood before chosen after hsplit ?_ (.inr (.inr hpromoted))
    intro other hother
    exact hnone rfl other (by rw [hsplit]; exact List.mem_append_left _ hother)

end Compile

end AvroResolution
