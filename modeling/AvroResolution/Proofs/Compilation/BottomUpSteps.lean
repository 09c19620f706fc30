import AvroResolution.Proofs.Compilation.BottomUp

/-!
# Compiling trees without references

`Compile.Settles` says of a compilation that it closes the slots that it opens, and keeps it so
that unions adjust to what was complete.  There is one lemma for each function of the compiler;
`Compile.settles_resolving` is the induction on the depth.
-/

namespace AvroResolution

namespace Compile

variable {α β : Type} {context : Context} {roots : List Node}
  {resolve : Node → Node → Compile SymbolId} {builder : Builder} {bound : Nat}

/-! ## Compilations that close what they open -/

/-- The compilation leaves no new slot empty, and its unions adjust to what was complete. -/
def Closing (context : Context) (roots : List Node) (builder : Builder) (x : Compile α) : Prop :=
  ∀ value after, x builder = .ok (value, after) →
    builder.Closes after ∧ after.AdjustsBack context roots

/-- From a sound builder whose unions adjust to what was complete, the compilation gives such a
builder, and leaves no new slot empty. -/
def Settles (context : Context) (roots : List Node) (builder : Builder) (x : Compile α)
    (post : α → Builder → Prop) : Prop :=
  builder.AdjustsBack context roots →
    Gives (Builder.ReadsKey context) builder x fun value after =>
      builder.Closes after ∧ after.AdjustsBack context roots ∧ post value after

namespace Settles

variable {x : Compile α} {post : α → Builder → Prop}

protected theorem pure {value : α} (h : post value builder) :
    Settles context roots builder (pure value) post :=
  fun hback => .pure ⟨.refl builder, hback, h⟩

protected theorem throw (fault : SchemaFault) :
    Settles context roots builder (throw fault : Compile α) post :=
  fun _ => .throw fault

protected theorem bind {f : α → Compile β} {mid : α → Builder → Prop}
    {post : β → Builder → Prop} (hx : Settles context roots builder x mid)
    (hf : ∀ value middle, builder.Closes middle → mid value middle →
      Settles context roots middle (f value) post) :
    Settles context roots builder (x >>= f) post := by
  intro hback
  refine Gives.bind (hx hback) ?_
  rintro value middle _ ⟨hcloses, hmiddle, hmid⟩
  refine (hf value middle hcloses hmid hmiddle).mono ?_
  rintro result after _ ⟨hafter, hback, hpost⟩
  exact ⟨hcloses.trans hafter, hback, hpost⟩

/-- What a compilation gives may be known apart from what it closes. -/
theorem of_closing (hgives : Gives (Builder.ReadsKey context) builder x post)
    (h : builder.AdjustsBack context roots → builder.Sound (Builder.ReadsKey context) →
      Closing context roots builder x) : Settles context roots builder x post := by
  intro hback hsound value after hx
  obtain ⟨hcloses, hafter⟩ := h hback hsound value after hx
  obtain ⟨hsound, hextends, hpost⟩ := hgives hsound value after hx
  exact ⟨hsound, hextends, hcloses, hafter, hpost⟩

theorem of_gives (hgives : Gives (Builder.ReadsKey context) builder x post)
    (h : Settles context roots builder x fun _ _ => True) :
    Settles context roots builder x post := by
  refine .of_closing hgives fun hback hsound value after hx => ?_
  obtain ⟨_, _, hcloses, hafter, _⟩ := h hback hsound value after hx
  exact ⟨hcloses, hafter⟩

/-- A compilation that changes nothing settles. -/
theorem of_unchanged (hgives : Gives (Builder.ReadsKey context) builder x post)
    (h : ∀ value after, x builder = .ok (value, after) → after = builder) :
    Settles context roots builder x post := by
  refine .of_closing hgives fun hback _ value after hx => ?_
  obtain rfl := h value after hx
  exact ⟨.refl _, hback⟩

/-- A list is compiled one after the other. -/
protected theorem mapM {f : α → Compile β} (items : List α)
    (hf : ∀ item ∈ items, ∀ middle, builder.Closes middle →
      Settles context roots middle (f item) fun _ _ => True) :
    Settles context roots builder (items.mapM f) fun _ _ => True := by
  induction items generalizing builder with
  | nil =>
    rw [List.mapM_nil]
    exact .pure trivial
  | cons item rest ih =>
    rw [List.mapM_cons]
    refine .bind (hf item (.head _) builder (.refl builder)) ?_
    intro value middle hmiddle _
    refine .bind (ih fun item hitem later hlater =>
      hf item (.tail _ hitem) later (hmiddle.trans hlater)) ?_
    intro values after _ _
    exact .pure trivial

end Settles

/-! ## The arena -/

theorem settles_push {symbol : Symbol} (h : ∀ index target, symbol ≠ .adjust index target) :
    Settles context roots builder (push symbol) fun _ _ => True := by
  refine .of_closing ((gives_push (Builder.lasting_readsKey context) symbol).mono
    fun _ _ _ _ => trivial) fun hback _ _ _ hx => ?_
  cases hx
  refine ⟨.of_grows (builder.extends_pushSlot (some symbol)).toGrows fun _ _ hkey _ => hkey,
    hback.pushSlot ?_⟩
  intro index target hsymbol
  exact absurd (Option.some.inj hsymbol) (h index target)

theorem settles_terminal (wanted : Terminal) :
    Settles context roots builder (terminal wanted) fun _ _ => True := by
  intro hback hsound id after hx
  cases hfound : builder.terminal? wanted with
  | some found =>
    rw [terminal, hfound] at hx
    cases hx
    exact ⟨hsound, .refl _, .refl _, hback, trivial⟩
  | none =>
    rw [terminal, hfound] at hx
    exact settles_push (by rintro _ _ ⟨⟩) hback hsound id after hx

theorem settles_look (node : Node) :
    Settles context roots builder (context.look node)
      fun shape _ => context.shape? node = some shape := by
  refine .of_unchanged (gives_look context node) fun shape after hx => ?_
  rw [Context.look] at hx
  split at hx <;> cases hx
  rfl

theorem settles_hasMatchError (id : SymbolId) :
    Settles context roots builder (hasMatchError id) fun _ _ => True :=
  .of_unchanged ((gives_hasMatchError id).mono fun _ _ _ _ => trivial) fun _ _ hx => by
    cases hx
    rfl

theorem settles_blocks (collection : Collection) (body : List SymbolId) :
    Settles context roots builder (blocks collection body) fun _ _ => True := by
  refine .bind (settles_terminal (.start collection)) ?_
  intro start first _ _
  refine .bind (settles_push (by rintro _ _ ⟨⟩)) ?_
  intro items second _ _
  exact settles_push (by rintro _ _ ⟨⟩)

theorem settles_enumeration (adjustment : EnumAdjustment) :
    Settles context roots builder (enumeration adjustment) fun _ _ => True := by
  refine .bind (settles_terminal .enum) ?_
  intro ordinal first _ _
  refine .bind (settles_push (by rintro _ _ ⟨⟩)) ?_
  intro remap second _ _
  exact settles_push (by rintro _ _ ⟨⟩)

/-! ## Records -/

theorem closing_onFirstSight {key : MemoKey} {compile : Compile SymbolId}
    (hback : builder.AdjustsBack context roots)
    (h : builder.memo.lookup key = none → Closing context roots builder compile) :
    Closing context roots builder (onFirstSight key compile) := by
  intro id after hx
  cases hlookup : builder.memo.lookup key with
  | some found =>
    rw [onFirstSight_of_some hlookup] at hx
    cases hx
    have hgrows := (builder.extends_meet key id).toGrows
    exact ⟨.of_grows hgrows fun _ _ hkey _ => hkey, hback.grow hgrows fun _ _ _ => .inl⟩
  | none =>
    rw [onFirstSight_of_none hlookup] at hx
    exact h hlookup id after hx

theorem closing_missing {key : MemoKey} (hback : builder.AdjustsBack context roots)
    (hfresh : builder.memo.lookup key = none) (cause : Mismatch) :
    Closing context roots builder (pushFor key (.mismatch cause)) := by
  intro id after hx
  obtain ⟨rfl, rfl⟩ : builder.slots.size = id ∧
      (builder.pushSlot (some (.mismatch cause))).remember key builder.slots.size = after :=
    Prod.mk.inj (Except.ok.inj hx)
  have hextends := (builder.extends_pushSlot (some (.mismatch cause))).trans
    (Builder.extends_remember _ builder.slots.size hfresh)
  refine ⟨.of_grows hextends.toGrows fun other found hother hnone => ?_,
    (hback.pushSlot (by rintro _ _ ⟨⟩)).remember _ hfresh⟩
  by_cases hsame : other = key
  · subst hsame
    rw [Builder.lookup_remember_self] at hother
    cases hother
    cases (builder.symbol?_pushSlot_self (some (.mismatch cause))).symm.trans hnone
  · exact (Builder.lookup_remember_of_ne _ hsame).symm.trans hother

/-- A record that is filled is closed. -/
theorem closing_reserveFor {key : MemoKey} {body : Compile Symbol}
    (hback : builder.AdjustsBack context roots)
    (hsound : builder.Sound (Builder.ReadsKey context)) (hfresh : builder.memo.lookup key = none)
    (hbody : Settles context roots (builder.opened key) body fun symbol _ =>
      ∃ children, symbol = .sequence children) :
    Closing context roots builder (reserveFor key body) := by
  intro id after hx
  obtain ⟨symbol, last, hinside, rfl, rfl⟩ := reserveFor_ok.1 hx
  have hopened : (builder.opened key).AdjustsBack context roots :=
    (hback.pushSlot (by rintro _ _ ⟨⟩)).remember _ hfresh
  have hstart : (builder.opened key).Sound (Builder.ReadsKey context) :=
    hsound.remember (Builder.lasting_readsKey context) none hfresh (.inl rfl)
  obtain ⟨_, hinner, hcloses, hlast, children, rfl⟩ := hbody hopened hstart _ _ hinside
  have hsize : builder.slots.size < last.slots.size :=
    Nat.lt_of_lt_of_le (by rw [Builder.size_opened]; exact Nat.lt_succ_self _) hinner.size
  have hgrows := Builder.grows_fillSlot (.sequence children) hinner.symbol?_opened
  refine ⟨.of_grows (hinner.fillSlot hfresh _).toGrows fun other found hother hnone => ?_,
    hlast.grow hgrows fun other index target hother => .inl ?_⟩
  · have hne : found ≠ builder.slots.size := by
      rintro rfl
      rw [Builder.symbol?_fillSlot_self hsize] at hnone
      cases hnone
    rw [Builder.symbol?_fillSlot_of_ne _ hne] at hnone
    obtain ⟨hother, _⟩ := hcloses other found hother hnone
    by_cases hsame : other = key
    · subst hsame
      rw [Builder.opened, Builder.lookup_remember_self] at hother
      cases hother
      exact absurd rfl hne
    · exact (Builder.lookup_remember_of_ne _ hsame).symm.trans hother
  · by_cases hne : other = builder.slots.size
    · subst hne
      rw [Builder.symbol?_fillSlot_self hsize] at hother
      cases hother
    · rwa [Builder.symbol?_fillSlot_of_ne _ hne] at hother

section

variable (hspans : context.Spans roots)
  (hplain : ∀ node ∈ Node.forest roots, node.schema.references = [])
  (hgives : ∀ builder writer reader, context.Holds writer → context.Holds reader →
    Gives (Builder.ReadsKey context) builder (resolve writer reader)
      fun id after => after.Reads context writer reader id)
  (hsettles : ∀ builder writer reader, writer ∈ Node.forest roots → reader ∈ Node.forest roots →
    builder.OpensAbove context (max writer.preorder.length reader.preorder.length) →
      Settles context roots builder (resolve writer reader) fun _ _ => True)
include hsettles

/-- Below a pair of records all pairs that are met are smaller than those that are open. -/
theorem settles_inside {writer reader : Node} (hwriter : writer ∈ Node.forest roots)
    (hreader : reader ∈ Node.forest roots) (hwidth : writer.preorder.length < bound)
    (hwidth' : reader.preorder.length < bound)
    (hopens : ∀ less < bound, builder.OpensAbove context less) :
    Settles context roots builder (resolve writer reader) fun _ _ => True :=
  hsettles builder writer reader hwriter hreader (hopens _ (Nat.max_lt.2 ⟨hwidth, hwidth'⟩))

theorem settles_resolveWritten {linked : Field Node × Option ReaderField}
    (hfield : linked.1.type ∈ Node.forest roots) (hwidth : linked.1.type.preorder.length < bound)
    (hlink : ∀ reader, linked.2 = some reader → reader.field.type ∈ Node.forest roots ∧
      reader.field.type.preorder.length < bound)
    (hopens : ∀ less < bound, builder.OpensAbove context less) :
    Settles context roots builder (resolveWritten resolve linked) fun _ _ => True := by
  rcases linked with ⟨field, _ | reader⟩
  · refine .bind (settles_inside hsettles hfield hfield hwidth hwidth hopens) ?_
    intro value first _ _
    refine .bind (settles_push (by rintro _ _ ⟨⟩)) ?_
    intro symbol second _ _
    exact .pure trivial
  · obtain ⟨hreader, hwidth'⟩ := hlink reader rfl
    refine .bind (settles_inside hsettles hfield hreader hwidth hwidth' hopens) ?_
    intro symbol first _ _
    exact .pure trivial

omit hsettles in
theorem settles_defaultBytes (field : DefaultedField) :
    Settles context roots builder (defaultBytes context field) fun _ _ => True := by
  refine .of_unchanged ((gives_defaultBytes field).mono fun _ _ _ _ => trivial) fun _ _ hx => ?_
  simp only [defaultBytes] at hx
  split at hx <;> cases hx
  rfl

theorem settles_resolveDefaulted {field : DefaultedField}
    (hfield : field.reader.field.type ∈ Node.forest roots)
    (hwidth : field.reader.field.type.preorder.length < bound)
    (hopens : ∀ less < bound, builder.OpensAbove context less) :
    Settles context roots builder (resolveDefaulted context resolve field) fun _ _ => True := by
  refine .bind (settles_defaultBytes field) ?_
  intro bytes first hfirst _
  refine .bind (settles_push (by rintro _ _ ⟨⟩)) ?_
  intro inject second hsecond _
  have hsecondOpens : ∀ less < bound, second.OpensAbove context less :=
    fun less hless => (hopens less hless).closes (hfirst.trans hsecond)
  refine .bind (settles_inside hsettles hfield hfield hwidth hwidth hsecondOpens) ?_
  intro value third _ _
  refine .bind (settles_push (by rintro _ _ ⟨⟩)) ?_
  intro injectEnd fourth _ _
  exact .pure trivial

theorem settles_resolveFields {w r : RecordNode} (hw : Node.Declares roots w)
    (hr : Node.Declares roots r) {matching : Matching}
    (hmatching : Matching.ofFields context.config w.fields r.fields = .ok matching)
    (hopens : ∀ less < max w.size r.size, builder.OpensAbove context less) :
    Settles context roots builder (resolveFields context resolve w matching)
      fun symbol _ => ∃ children, symbol = .sequence children := by
  have hreader {reader : ReaderField} (hmem : reader ∈ ReaderField.ofFields r.fields) :
      reader.field.type ∈ Node.forest roots ∧
        reader.field.type.preorder.length < max w.size r.size := by
    have hfield := List.mem_of_getElem? (ReaderField.mem_ofFields.1 hmem)
    exact ⟨hr.field_mem hfield,
      Nat.lt_of_lt_of_le (RecordNode.length_field_lt hfield) (Nat.le_max_right _ _)⟩
  refine .bind (.mapM _ ?_) ?_
  · rintro ⟨field, link⟩ hmem middle hmiddle
    have hfield := (List.of_mem_zip hmem).1
    refine settles_resolveWritten hsettles (hw.field_mem hfield)
      (Nat.lt_of_lt_of_le (RecordNode.length_field_lt hfield) (Nat.le_max_left _ _)) ?_
      fun less hless => (hopens less hless).closes hmiddle
    rintro reader rfl
    exact hreader (Matching.mem_of_linked hmatching hmem)
  intro written first hfirst _
  refine .bind (.mapM _ ?_) ?_
  · intro field hmem middle hmiddle
    obtain ⟨htype, hwidth⟩ := hreader (Matching.mem_of_defaulted hmatching hmem)
    exact settles_resolveDefaulted hsettles htype hwidth fun less hless =>
      (hopens less hless).closes (hfirst.trans hmiddle)
  intro defaulted second _ _
  refine .bind (settles_push (by rintro _ _ ⟨⟩)) ?_
  intro order third _ _
  exact .pure ⟨_, rfl⟩

variable [context.Unshared]
include hspans hgives

theorem settles_resolveRecords {w r : RecordNode} (hw : Node.Declares roots w)
    (hr : Node.Declares roots r) (hopens : builder.OpensAbove context (max w.size r.size)) :
    Settles context roots builder (resolveRecords context resolve w r) fun _ _ => True := by
  have hwdefines := hspans.defines hw
  have hrdefines := hspans.defines hr
  refine .of_closing ((gives_resolveRecords hgives hwdefines hrdefines).mono
    fun _ _ _ _ => trivial) fun hback hsound => ?_
  rw [resolveRecords_eq, context.key_eq]
  refine closing_onFirstSight hback fun hfresh => ?_
  split
  · exact closing_missing hback hfresh _
  · rename_i matching hmatching
    refine closing_reserveFor hback hsound hfresh
      (settles_resolveFields hsettles hw hr hmatching fun less hless => ?_)
    exact hopens.opened hsound (Nat.le_of_lt hless) hless hwdefines hrdefines

/-! ## Branches -/

include hplain

theorem settles_branchOfType {writer : Shape}
    (hwriter : ∀ w, writer = .named (.record w) → Node.Declares roots w ∧ w.size ≤ bound)
    (candidates : List (Node × Nat))
    (hmem : ∀ candidate ∈ candidates, candidate.1 ∈ Node.forest roots ∧
      candidate.1.preorder.length ≤ bound)
    (structural : Option (Node × Nat)) (hopens : builder.OpensAbove context bound) :
    Settles context roots builder (branchOfType context resolve writer candidates structural)
      fun _ _ => True := by
  induction candidates generalizing builder structural with
  | nil => exact .pure trivial
  | cons candidate rest ih =>
    obtain ⟨hcandidate, hwidth⟩ := hmem candidate (.head _)
    have hrest : ∀ candidate ∈ rest, candidate.1 ∈ Node.forest roots ∧
        candidate.1.preorder.length ≤ bound := fun candidate h => hmem candidate (.tail _ h)
    rw [branchOfType_cons]
    refine .bind (settles_look candidate.1) ?_
    intro shape first hfirst hshape
    have hfirstOpens := hopens.closes hfirst
    split
    · exact .pure trivial
    · split
      · rename_i w r _
        obtain ⟨hw, hwsize⟩ := hwriter w rfl
        have hrsize : r.size ≤ bound :=
          Nat.le_trans (Context.size_le (hplain _ hcandidate) hshape) hwidth
        refine .bind (settles_resolveRecords hspans hgives hsettles hw
          (hspans.declares hcandidate hshape)
          (hfirstOpens.mono (Nat.max_le.2 ⟨hwsize, hrsize⟩))) ?_
        intro id second hsecond _
        refine .bind (settles_hasMatchError id) ?_
        intro failed third hthird _
        exact ih hrest _ (hfirstOpens.closes (hsecond.trans hthird))
      · exact ih hrest structural hfirstOpens

omit hspans hplain hgives hsettles [context.Unshared] in
theorem settles_branchByPromotion (writer : Shape) (candidates : List (Node × Nat)) :
    Settles context roots builder (branchByPromotion context writer candidates)
      fun _ _ => True := by
  induction candidates generalizing builder with
  | nil => exact .pure trivial
  | cons candidate rest ih =>
    rcases candidate with ⟨branch, index⟩
    rw [branchByPromotion]
    refine .bind (settles_look branch) ?_
    intro shape first _ _
    split
    · split
      · exact .pure trivial
      · exact ih
    · exact ih

theorem settles_chooseBranch {writer : Shape}
    (hwriter : ∀ w, writer = .named (.record w) → Node.Declares roots w ∧ w.size ≤ bound)
    {branches : List Node} (hbranches : ∀ branch ∈ branches, branch ∈ Node.forest roots ∧
      branch.preorder.length ≤ bound) (hopens : builder.OpensAbove context bound) :
    Settles context roots builder (chooseBranch context resolve writer branches)
      fun chosen _ => ∃ kept, context.Sifted writer branches.zipIdx kept ∧
        chosen = context.pick writer branches.zipIdx kept := by
  have hdefines : ∀ w, writer = .named (.record w) → context.Defines w :=
    fun w hw => hspans.defines (hwriter w hw).1
  refine .of_gives (gives_chooseBranch hgives hdefines fun branch hbranch =>
    hspans.holds (hbranches branch hbranch).1) ?_
  refine .bind (settles_branchOfType hspans hplain hgives hsettles hwriter _ (fun candidate h =>
    hbranches _ (List.fst_mem_of_mem_zipIdx h)) none hopens) ?_
  intro chosen first _ _
  split
  · exact .pure trivial
  · exact settles_branchByPromotion writer _

/-! ## Pairs of nodes -/

omit hspans hplain hgives [context.Unshared] in
theorem settles_resolveWriterUnion {reader : Node} {branches : List Node}
    (hbranches : ∀ branch ∈ branches, branch ∈ Node.forest roots ∧
      branch.preorder.length ≤ bound) (hreader : reader ∈ Node.forest roots)
    (hwidth : reader.preorder.length ≤ bound) (hopens : builder.OpensAbove context bound) :
    Settles context roots builder (resolveWriterUnion resolve branches reader)
      fun _ _ => True := by
  refine .bind (.mapM _ ?_) ?_
  · intro branch hbranch middle hmiddle
    obtain ⟨hmem, hle⟩ := hbranches branch hbranch
    refine .bind (hsettles middle branch reader hmem hreader
      ((hopens.closes hmiddle).mono (Nat.max_le.2 ⟨hle, hwidth⟩))) ?_
    intro symbol after _ _
    exact .pure trivial
  intro alternatives first _ _
  refine .bind (settles_push (by rintro _ _ ⟨⟩)) ?_
  intro alternative second _ _
  exact settles_push (by rintro _ _ ⟨⟩)

theorem settles_resolveReaderUnion {writer reader : Node} {w r : Shape} {branches : List Node}
    (hreading : context.reading? writer reader = some (.readerUnion branches))
    (hwriter : writer ∈ Node.forest roots) (hreader : reader ∈ Node.forest roots)
    (hw : context.shape? writer = some w)
    (hbranches : ∀ branch ∈ branches, branch ∈ Node.forest roots ∧
      branch.preorder.length < reader.preorder.length)
    (hopens : builder.OpensAbove context (max writer.preorder.length reader.preorder.length)) :
    Settles context roots builder (resolveReaderUnion context resolve writer w r branches)
      fun _ _ => True := by
  have hrecord : ∀ record, w = .named (.record record) → Node.Declares roots record ∧
      record.size ≤ max writer.preorder.length reader.preorder.length := by
    rintro record rfl
    exact ⟨hspans.declares hwriter hw,
      Nat.le_trans (Context.size_le (hplain _ hwriter) hw) (Nat.le_max_left _ _)⟩
  refine .bind (settles_chooseBranch hspans hplain hgives hsettles hrecord (fun branch h =>
    ⟨(hbranches branch h).1, Nat.le_trans (Nat.le_of_lt (hbranches branch h).2)
      (Nat.le_max_right _ _)⟩) hopens) ?_
  rintro chosen first hfirst ⟨kept, hkept, rfl⟩
  split
  · rename_i branch index hpick
    obtain ⟨hbranch, hlt⟩ := hbranches branch (List.fst_mem_of_mem_zipIdx (hkept.mem_of_pick hpick))
    have hfirst := (hopens.closes hfirst).mono (show max writer.preorder.length
      branch.preorder.length ≤ max writer.preorder.length reader.preorder.length by omega)
    refine .bind (.of_gives (hgives first writer branch (hspans.holds hwriter)
      (hspans.holds hbranch)) (hsettles first writer branch hwriter hbranch hfirst)) ?_
    intro symbol second hsecond hsymbol
    refine .of_closing ((gives_push (Builder.lasting_readsKey context) _).mono
      fun _ _ _ _ => trivial) fun hback hsound _ _ hx => ?_
    cases hx
    have hgrows := (second.extends_pushSlot (some (.adjust index symbol))).toGrows
    obtain ⟨found, hfound⟩ := hsymbol.exists_symbol (hplain _ hwriter) (hplain _ hbranch)
      (hfirst.closes hsecond)
    refine ⟨.of_grows hgrows fun _ _ hkey _ => hkey, hback.pushSlot ?_⟩
    rintro _ _ ⟨⟩
    refine ⟨⟨writer, hwriter, reader, hreader, .adjust hreading hw hkept hpick
      (hsymbol.grow hgrows) (second.symbol?_pushSlot_self _)⟩, found, hgrows.symbol _ _ hfound, ?_⟩
    exact hsymbol.children_lt hsound hfound
  · exact settles_push (by rintro _ _ ⟨⟩)

/-- Every rule settles. -/
theorem settles_ofReading {writer reader : Node} {w r : Shape}
    (hwriter : writer ∈ Node.forest roots) (hreader : reader ∈ Node.forest roots)
    (hw : context.shape? writer = some w) (hr : context.shape? reader = some r)
    (hopens : builder.OpensAbove context (max writer.preorder.length reader.preorder.length)) :
    Settles context roots builder (ofReading context resolve writer reader w r (w.reading r))
      fun _ _ => True := by
  have hreading : context.reading? writer reader = some (w.reading r) :=
    Context.reading?_eq_some.2 ⟨w, r, hw, hr, rfl⟩
  have hrule := w.rule_reading r
  have hwriterSize := Context.size_le (hplain _ hwriter) hw
  have hreaderSize := Context.size_le (hplain _ hreader) hr
  -- The parts of the two shapes are met under a smaller bound.
  have hparts {wpart rpart : Node} {first : Builder} (hwpart : wpart ∈ w.parts)
      (hrpart : rpart ∈ r.parts) (hfirst : builder.Closes first) :
      Settles context roots first (resolve wpart rpart) fun _ _ => True := by
    have hwlt := Shape.length_part_lt hwpart
    have hrlt := Shape.length_part_lt hrpart
    exact hsettles first wpart rpart (hspans.part hwriter hw hwpart)
      (hspans.part hreader hr hrpart) ((hopens.closes hfirst).mono (by omega))
  cases hcase : w.reading r with
  | atom type => exact settles_terminal _
  | promotion promotion =>
    refine .bind (settles_terminal (.primitive promotion.source)) ?_
    intro symbol first _ _
    exact settles_push (by rintro _ _ ⟨⟩)
  | enum ws rs default? => exact settles_enumeration _
  | array wi ri =>
    rw [hcase] at hrule
    cases hrule
    refine .bind (hparts (.head _) (.head _) (.refl builder)) ?_
    intro item first _ _
    exact settles_blocks .array [item]
  | map wv rv =>
    rw [hcase] at hrule
    cases hrule
    refine .bind (settles_terminal (.primitive .string)) ?_
    intro key first hfirst _
    refine .bind (hparts (.head _) (.head _) hfirst) ?_
    intro value second _ _
    exact settles_blocks .map [key, value]
  | records wr rr =>
    rw [hcase] at hrule
    cases hrule
    exact settles_resolveRecords hspans hgives hsettles (hspans.declares hwriter hw)
      (hspans.declares hreader hr)
      (hopens.mono (max_le_max hwriterSize hreaderSize))
  | writerUnion branches =>
    rw [hcase] at hrule
    cases hrule
    refine settles_resolveWriterUnion hsettles (fun branch hbranch => ?_) hreader
      (Nat.le_max_right _ _) hopens
    have hlt := @Shape.length_part_lt (.union branches) branch hbranch
    exact ⟨hspans.part hwriter hw hbranch, by omega⟩
  | readerUnion branches =>
    rw [hcase] at hrule hreading
    cases hrule
    refine settles_resolveReaderUnion hspans hplain hgives hsettles hreading hwriter hreader hw
      (fun branch hbranch => ?_) hopens
    have hlt := @Shape.length_part_lt (.union branches) branch hbranch
    exact ⟨hspans.part hreader hr hbranch, by omega⟩
  | mismatch cause => exact settles_push (by rintro _ _ ⟨⟩)

end

/-- Compiling two nodes of trees without references settles, when the pairs of records whose slots
are empty are larger than the two. -/
theorem settles_resolving [context.Unshared] (hspans : context.Spans roots)
    (hplain : ∀ node ∈ Node.forest roots, node.schema.references = []) (depth : Nat)
    (builder : Builder) (writer reader : Node) (hwriter : writer ∈ Node.forest roots)
    (hreader : reader ∈ Node.forest roots)
    (hopens : builder.OpensAbove context (max writer.preorder.length reader.preorder.length)) :
    Settles context roots builder (resolving context depth writer reader) fun _ _ => True := by
  induction depth generalizing builder writer reader with
  | zero => exact .throw _
  | succ depth ih =>
    rw [resolving, resolvingStep_eq]
    refine .bind (settles_look writer) ?_
    intro w first hfirst hw
    refine .bind (settles_look reader) ?_
    intro r second hsecond hr
    exact settles_ofReading hspans hplain (gives_resolving context depth) ih hwriter hreader hw hr
      (hopens.closes (hfirst.trans hsecond))

end Compile

end AvroResolution
