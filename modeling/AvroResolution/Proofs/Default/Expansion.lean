import AvroResolution.Proofs.Default.Completeness

/-!
# What is refused is what never ends

A default that is omitted inside of itself is refused.  Here the encoder is run with that check and
without it, to a depth of expansions below which anything may be written.

* `expandWithin` expands without the check, `guardWithin` with it.  `Registry.Ends` says that the
  expansions without the check come to an end, `Registry.Endless` that they reach every depth;
  one of the two holds (`Registry.endless_iff`).
* `Sequential` properties of encodings hold of a literal if they hold of the defaults of its tree
  (`Sequential.encodeAs`), and so do `Coherent` relations of two runs (`Coherent.encodeAs`).
* `Registry.guardWithin_eq`: with the check no run goes deeper than the tree has fields, because
  the names that are being expanded are different.
* `Registry.fillOmitted_or_met`: where a name stands for one default only (`Node.DefaultsApart`),
  a default that is met inside of itself is met there again, and so on.
* `encodeDefault_refuses` is the result.
-/

namespace AvroResolution

/-! ## Expansions to a depth -/

section

variable (registry : Registry) (beyond : String → Node → Literal → Encoding)

/-- Writes the default of an omitted field, whether it is being expanded or not.  What is omitted
inside of `depth` expansions is left to `beyond`. -/
def expandWithin : Nat → String → Node → Literal → Encoding
  | 0, key, node, literal => beyond key node literal
  | depth + 1, _, node, literal => literal.encodeAs registry (expandWithin depth) node

/-- Writes the default named `key` of an omitted field, while the defaults in `expanding` are being
expanded.  What is omitted inside of `depth` further expansions is left to `beyond`. -/
def guardWithin : Nat → List String → String → Node → Literal → Encoding
  | 0, _, key, node, literal => beyond key node literal
  | depth + 1, expanding, key, node, literal =>
    if key ∈ expanding then
      .error (.recursiveDefault key)
    else
      literal.encodeAs registry (guardWithin depth (key :: expanding)) node

end

/-- The encoding was refused for a default that needs itself. -/
def Refused (encoding : Encoding) : Prop :=
  ∃ key, encoding = .error (.recursiveDefault key)

instance (encoding : Encoding) : Decidable (Refused encoding) :=
  match encoding with
  | .error (.recursiveDefault key) => isTrue ⟨key, rfl⟩
  | .ok _ | .error (.wrongKind ..) | .error (.notNumeric ..) | .error .emptyUnion
  | .error (.notLatin1 ..) | .error (.missingDefault _) | .error (.unknownSymbol ..)
  | .error (.outOfRange ..) | .error (.unresolvedName _) => isFalse nofun

namespace Registry

variable (registry : Registry) (node : Node) (literal : Literal)

/-- Without the check the literal is written with the given result, and only finitely many
expansions are inside of one another. -/
def Ends (result : Encoding) : Prop :=
  ∃ depth, ∀ beyond, literal.encodeAs registry (expandWithin registry beyond depth) node = result

/-- Without the check there is an expansion at every depth before the literal is written: whatever
is made of that one is made of the literal. -/
def Endless : Prop :=
  ∀ depth fault,
    literal.encodeAs registry (expandWithin registry (fun _ _ _ => .error fault) depth) node =
      .error fault

end Registry

/-! ## Properties of what is written in sequence -/

/-- A property of encodings in several runs side by side that holds of a part which is the same in
all runs and not refused, and of parts that are written one after the other. -/
structure Sequential {ι : Type} (holds : (ι → Encoding) → Prop) : Prop where
  part : ∀ result, ¬Refused result → holds fun _ => result
  append : ∀ {first : ι → Encoding} {next : ι → List UInt8 → Encoding}, holds first →
    (∀ bytes, holds fun i => next i bytes) → holds fun i => first i >>= next i

theorem not_refused_ok (bytes : List UInt8) : ¬Refused (.ok bytes) := nofun

theorem not_refused_bind {α : Type} {first : Except EncodeFault α} {next : α → Encoding}
    (hfirst : ∀ key, first ≠ .error (.recursiveDefault key)) (hnext : ∀ a, ¬Refused (next a)) :
    ¬Refused (first >>= next) := by
  rintro ⟨key, h⟩
  cases first with
  | error fault => exact hfirst key (by cases h; rfl)
  | ok a => exact hnext a ⟨key, h⟩

theorem not_refused_latin1Bytes (kind : Kind) (literal : Literal) :
    ¬Refused (latin1Bytes kind literal) := by
  cases literal with
  | string text =>
    rw [latin1Bytes]
    induction text.toList with
    | nil => exact not_refused_ok []
    | cons character rest ih =>
      rw [List.mapM_cons]
      refine not_refused_bind (fun key => ?_) fun byte => ?_
      · split <;> rintro ⟨⟩
      · exact not_refused_bind (fun key h => ih ⟨key, h⟩) fun _ => not_refused_ok _
  | _ => rintro ⟨_, ⟨⟩⟩

theorem not_refused_encodePrimitive (type : Primitive) (literal : Literal) :
    ¬Refused (encodePrimitive type literal) := by
  cases type with
  | null | boolean | string => cases literal <;> rintro ⟨_, ⟨⟩⟩
  | int | long =>
    refine not_refused_bind (fun key => ?_) fun _ => not_refused_ok _
    cases literal with
    | integer n =>
      rw [integerLiteral]
      split <;> rintro ⟨⟩
    | _ => rintro ⟨⟩
  | float | double =>
    refine not_refused_bind (fun key => ?_) fun _ => not_refused_ok _
    cases literal <;> rintro ⟨⟩
  | bytes =>
    exact not_refused_bind (fun key h => not_refused_latin1Bytes _ _ ⟨key, h⟩) fun _ =>
      not_refused_ok _

theorem not_refused_encodeEnum (heading : Heading) (symbols : List String) (literal : Literal) :
    ¬Refused (encodeEnum heading symbols literal) := by
  cases literal with
  | string symbol =>
    rw [encodeEnum]
    split <;> rintro ⟨_, ⟨⟩⟩
  | _ => rintro ⟨_, ⟨⟩⟩

theorem not_refused_encodeFixed (size : Nat) (literal : Literal) :
    ¬Refused (encodeFixed size literal) :=
  not_refused_bind (fun key h => not_refused_latin1Bytes _ _ ⟨key, h⟩) fun _ => not_refused_ok _

namespace Registry

variable {registry : Registry} {root node : Node} {literal : Literal}

theorem Holds.of_mem_parts {part : Node} (hnode : registry.Holds node) (hpart : part ∈ node.parts) :
    registry.Holds part := by
  obtain ⟨root, rfl, hmem⟩ := hnode
  exact ⟨root, rfl, Node.part_mem_preorder hmem hpart⟩

/-- The type that a literal is written as is one of the same tree. -/
theorem Holds.target (hnode : registry.Holds node) {target : DefaultTarget}
    (htarget : registry.defaultTarget node = .ok target) :
    ∃ inner, registry.Holds inner ∧ registry.shape? inner = some target.type.shape := by
  induction node using Node.induction generalizing target with
  | step node ih =>
    rcases node with ⟨side, ordinal, schema⟩
    cases schema with
    | logical base logicalType =>
      have hpart : (⟨side, ordinal, base⟩ : Node) ∈
          Node.parts ⟨side, ordinal, .logical base logicalType⟩ := .head _
      exact ih _ hpart (hnode.of_mem_parts hpart) htarget
    | union branches =>
      cases branches with
      | nil => cases htarget
      | cons first rest =>
        have hpart : (⟨side, ordinal, first⟩ : Node) ∈
            Node.parts ⟨side, ordinal, .union (first :: rest)⟩ := .head _
        rw [defaultTarget, defaultTargetFrom] at htarget
        obtain ⟨below, hfirst, htarget⟩ := bind_eq_ok.1 htarget
        cases htarget
        obtain ⟨inner, hinner, hshape⟩ := ih _ hpart (hnode.of_mem_parts hpart) hfirst
        exact ⟨inner, hinner, hshape⟩
    | reference name =>
      rw [defaultTarget, defaultTargetFrom] at htarget
      split at htarget
      · rename_i entry hfind
        cases htarget
        refine ⟨_, hnode, ?_⟩
        rw [shape?, look, lookFrom, hfind]
        rfl
      · cases htarget
    | _ =>
      cases htarget
      exact ⟨_, hnode, rfl⟩

theorem defaultTarget_ne_recursive (node : Node) (key : String) :
    registry.defaultTarget node ≠ .error (.recursiveDefault key) := by
  induction node using Node.induction with
  | step node ih =>
    rcases node with ⟨side, ordinal, schema⟩
    cases schema with
    | logical base logicalType => exact ih ⟨side, ordinal, base⟩ (.head _)
    | union branches =>
      cases branches with
      | nil => rintro ⟨⟩
      | cons first rest =>
        have hfirst := ih ⟨side, ordinal, first⟩ (.head _)
        rw [defaultTarget] at hfirst
        rw [defaultTarget, defaultTargetFrom]
        cases h : registry.defaultTargetFrom side ordinal first with
        | ok target => rintro ⟨⟩
        | error fault =>
          intro hrecursive
          cases hrecursive
          exact hfirst h
    | reference name =>
      rw [defaultTarget, defaultTargetFrom]
      split <;> rintro ⟨⟩
    | _ => rintro ⟨⟩

/-- The default of a field of the tree, with the name under which it is expanded. -/
def HasDefault (registry : Registry) (key : String) (node : Node) (literal : Literal) : Prop :=
  ∃ record field, registry.Defines record ∧ field ∈ record.fields ∧
    fieldKey record field = key ∧ field.type = node ∧ field.default? = some literal

theorem HasDefault.holds {key : String} (h : registry.HasDefault key node literal) :
    registry.Holds node := by
  obtain ⟨record, field, hrecord, hfield, -, rfl, -⟩ := h
  exact (hrecord.field hfield).1

end Registry

namespace Sequential

open Registry

variable {ι : Type} {holds : (ι → Encoding) → Prop} {registry : Registry} {node : Node}
  {omitted : ι → String → Node → Literal → Encoding}

theorem map (h : Sequential holds) {first : ι → Encoding} (hfirst : holds first)
    (f : List UInt8 → List UInt8) : holds fun i => first i >>= fun bytes => .ok (f bytes) :=
  h.append hfirst fun _ => h.part _ (not_refused_ok _)

theorem encodeElements (h : Sequential holds) {items : Node} {elements : List Literal}
    (helements : ∀ element ∈ elements,
      holds fun i => element.encodeAs registry (omitted i) items) :
    holds fun i => Literal.encodeElements registry (omitted i) elements items := by
  induction elements with
  | nil => simpa only [Literal.encodeElements] using h.part _ (not_refused_ok [])
  | cons element rest ih =>
    simp only [Literal.encodeElements]
    refine h.append (helements element (.head _)) fun part => ?_
    exact h.map (ih fun other hother => helements other (.tail _ hother)) (part ++ ·)

theorem encodeMapEntries (h : Sequential holds) {values : Node}
    {entries : List (String × Literal)}
    (hentries : ∀ entry ∈ entries,
      holds fun i => entry.2.encodeAs registry (omitted i) values) :
    holds fun i =>
      AvroResolution.encodeMapEntries values
        (Literal.entryEncoders registry (omitted i) entries) := by
  induction entries with
  | nil =>
    simpa only [Literal.entryEncoders, AvroResolution.encodeMapEntries] using
      h.part _ (not_refused_ok [])
  | cons entry rest ih =>
    rcases entry with ⟨key, literal⟩
    simp only [Literal.entryEncoders, AvroResolution.encodeMapEntries]
    refine h.append (hentries (key, literal) (.head _)) fun part => ?_
    exact h.map (ih fun other hother => hentries other (.tail _ hother))
      ((Step.string key).encode ++ part ++ ·)

/-- A field is written from its entry, from its default or not at all. -/
theorem encodeFields (h : Sequential holds) (omitted : ι → String → Node → Literal → Encoding)
    {record : RecordNode} {entries : List (String × Literal)} {fields : List (Field Node)}
    (hgiven : ∀ field ∈ fields, ∀ literal, Literal.entry? field.name entries = some literal →
      holds fun i => literal.encodeAs registry (omitted i) field.type)
    (homitted : ∀ field ∈ fields, Literal.entry? field.name entries = none →
      ∀ literal, field.default? = some literal →
        holds fun i => omitted i (fieldKey record field) field.type literal) :
    holds fun i => AvroResolution.encodeFields (omitted i) record.heading.fullname
      (Literal.entryEncoders registry (omitted i) entries) fields := by
  induction fields with
  | nil => exact h.part _ (not_refused_ok [])
  | cons field rest ih =>
    have hrest := ih (fun other hother => hgiven other (.tail _ hother))
      fun other hother => homitted other (.tail _ hother)
    simp only [AvroResolution.encodeFields, entry?_entryEncoders]
    cases hentry : Literal.entry? field.name entries with
    | some literal =>
      exact h.append (hgiven field (.head _) literal hentry) fun part => h.map hrest (part ++ ·)
    | none =>
      cases hdefault : field.default? with
      | none => exact h.part (.error (.missingDefault field.name)) (by rintro ⟨_, ⟨⟩⟩)
      | some literal =>
        exact h.append (homitted field (.head _) hentry literal hdefault) fun part =>
          h.map hrest (part ++ ·)

/-- The content of a literal is written from its parts and from the defaults that it omits. -/
theorem encodeContent (h : Sequential holds) (hnode : registry.Holds node) {literal : Literal}
    {type : PlainType} (hshape : registry.shape? node = some type.shape)
    (hparts : ∀ part ∈ literal.parts, ∀ node, registry.Holds node →
      holds fun i => part.encodeAs registry (omitted i) node)
    (homitted : ∀ key node literal, registry.HasDefault key node literal →
      holds fun i => omitted i key node literal) :
    holds fun i => Registry.encodeContent registry (omitted i) literal type := by
  have hlook := look_of_shape? hshape
  cases type with
  | primitive type => exact h.part _ (not_refused_encodePrimitive type literal)
  | named definition =>
    cases definition with
    | enum heading symbols default? =>
      exact h.part _ (not_refused_encodeEnum heading symbols literal)
    | fixed heading size => exact h.part _ (not_refused_encodeFixed size literal)
    | record record =>
      have hrecord := (hnode.record hlook).1
      cases literal with
      | object entries =>
        refine h.encodeFields omitted (fun field hfield literal hentry => ?_)
          fun field hfield _ literal hdefault => ?_
        · exact hparts literal (List.mem_map_of_mem (Literal.mem_of_entry hentry)) field.type
            (hrecord.field hfield).1
        · exact homitted _ _ _ ⟨record, field, hrecord, hfield, rfl, rfl, hdefault⟩
      | _ => exact h.part _ nofun
  | array items =>
    cases literal with
    | array elements =>
      have hitems := (hnode.part hlook (.head _)).1
      exact h.map (h.encodeElements fun element helement => hparts element helement items hitems)
        (encodeBlock elements.length)
    | _ => exact h.part _ nofun
  | map values =>
    cases literal with
    | object entries =>
      have hvalues := (hnode.part hlook (.head _)).1
      exact h.map (h.encodeMapEntries fun entry hentry =>
        hparts entry.2 (List.mem_map_of_mem hentry) values hvalues) (encodeBlock entries.length)
    | _ => exact h.part _ nofun

/-- A sequential property holds of a literal if it holds of the defaults of the tree.  The
induction is on the literal. -/
theorem encodeAs (h : Sequential holds) (omitted : ι → String → Node → Literal → Encoding)
    (hnode : registry.Holds node) (literal : Literal)
    (homitted : ∀ key node literal, registry.HasDefault key node literal →
      holds fun i => omitted i key node literal) :
    holds fun i => literal.encodeAs registry (omitted i) node := by
  induction literal using Literal.induction generalizing node with
  | step literal ih =>
    simp only [encodeAs_eq]
    cases htarget : registry.defaultTarget node with
    | error fault =>
      refine h.part (.error fault) ?_
      rintro ⟨key, hkey⟩
      cases hkey
      exact defaultTarget_ne_recursive node key htarget
    | ok target =>
      obtain ⟨inner, hinner, hshape⟩ := hnode.target htarget
      exact h.map (h.encodeContent hinner hshape (fun part hpart node hnode => ih part hpart hnode)
        homitted) ((List.replicate target.unions (Step.index 0).encode).flatten ++ ·)

end Sequential

/-! ## Two runs -/

/-- A relation of two encodings that holds of equal parts which are not refused, and of parts that
are written one after the other. -/
structure Coherent (related : Encoding → Encoding → Prop) : Prop where
  part : ∀ result, ¬Refused result → related result result
  append : ∀ {first second : Encoding} {next other : List UInt8 → Encoding}, related first second →
    (∀ bytes, related (next bytes) (other bytes)) → related (first >>= next) (second >>= other)

/-- Two runs that are related on the defaults of the tree are related on a literal. -/
theorem Coherent.encodeAs {related : Encoding → Encoding → Prop} (h : Coherent related)
    {registry : Registry} {node : Node} {first second : String → Node → Literal → Encoding}
    (hnode : registry.Holds node) (literal : Literal)
    (homitted : ∀ key node literal, registry.HasDefault key node literal →
      related (first key node literal) (second key node literal)) :
    related (literal.encodeAs registry first node) (literal.encodeAs registry second node) :=
  have hruns : Sequential fun runs : Bool → Encoding => related (runs false) (runs true) :=
    ⟨h.part, h.append⟩
  hruns.encodeAs (fun run => bif run then second else first) hnode literal homitted

theorem coherent_eq : Coherent Eq where
  part _ _ := rfl
  append hfirst hnext := by rw [hfirst, funext hnext]

/-- The runs are the same, unless the first is refused. -/
theorem coherent_unless_refused :
    Coherent fun first second => Refused first ∨ first = second where
  part _ _ := .inr rfl
  append {first second next other} hfirst hnext := by
    rcases hfirst with ⟨key, rfl⟩ | rfl
    · exact .inl ⟨key, rfl⟩
    · cases first with
      | error fault => exact .inr rfl
      | ok bytes => exact hnext bytes

/-- The runs are the same, unless the first meets the fault. -/
theorem coherent_unless_met (fault : EncodeFault) :
    Coherent fun first second => first = .error fault ∨ first = second where
  part _ _ := .inr rfl
  append {first second next other} hfirst hnext := by
    rcases hfirst with rfl | rfl
    · exact .inl rfl
    · cases first with
      | error other => exact .inr rfl
      | ok bytes => exact hnext bytes

/-- The second run meets the fault, unless the runs are the same and not refused. -/
theorem coherent_or_met (fault : EncodeFault) :
    Coherent fun first second => second = .error fault ∨ ¬Refused first ∧ first = second where
  part result hresult := .inr ⟨hresult, rfl⟩
  append {first second next other} hfirst hnext := by
    rcases hfirst with rfl | ⟨hresult, rfl⟩
    · exact .inl rfl
    · cases first with
      | error other =>
        refine .inr ⟨?_, rfl⟩
        rintro ⟨key, hkey⟩
        cases hkey
        exact hresult ⟨key, rfl⟩
      | ok bytes => exact hnext bytes

/-! ## With the check -/

namespace Registry

variable {registry : Registry} {root node : Node} {literal : Literal} {expanding : List String}
  {key : String} {beyond : String → Node → Literal → Encoding} {depth budget : Nat}

/-- What is being expanded are different defaults of the tree. -/
structure Expanding (root : Node) (expanding : List String) : Prop where
  nodup : expanding.Nodup
  known : expanding ⊆ root.fieldKeys

theorem Expanding.nil (root : Node) : Expanding root [] :=
  ⟨.nil, List.nil_subset _⟩

theorem Expanding.length_le (h : Expanding root expanding) :
    expanding.length ≤ (ofRoot root).fieldCount := by
  rw [← Node.length_fieldKeys]
  exact (List.subperm_of_subset h.nodup h.known).length_le

theorem Expanding.cons (h : Expanding root expanding)
    (hdefault : (ofRoot root).HasDefault key node literal) (hnew : key ∉ expanding) :
    Expanding root (key :: expanding) := by
  obtain ⟨record, field, hrecord, hfield, rfl, -, -⟩ := hdefault
  refine ⟨List.nodup_cons.2 ⟨hnew, h.nodup⟩, List.cons_subset.2 ⟨?_, h.known⟩⟩
  exact List.mem_flatMap.2 ⟨record, Node.mem_records hrecord, List.mem_map_of_mem hfield⟩

/-- With the check no expansion is more than as many deep as the tree has fields. -/
theorem guardWithin_eq (h : Expanding root expanding)
    (hdefault : (ofRoot root).HasDefault key node literal)
    (hdepth : (ofRoot root).fieldCount < expanding.length + depth)
    (hbudget : (ofRoot root).fieldCount ≤ expanding.length + budget) :
    guardWithin (ofRoot root) beyond depth expanding key node literal =
      fillOmitted (ofRoot root) budget expanding key node literal := by
  induction depth generalizing expanding key node literal budget with
  | zero =>
    have hlength := h.length_le
    omega
  | succ depth ih =>
    rw [guardWithin]
    by_cases hmem : key ∈ expanding
    · rw [if_pos hmem]
      cases budget with
      | zero => rfl
      | succ budget => rw [fillOmitted, if_pos hmem]
    · have hcons := h.cons hdefault hmem
      have hlength := hcons.length_le
      rw [List.length_cons] at hlength
      obtain ⟨less, rfl⟩ := Nat.exists_eq_add_one.2 (show 0 < budget by omega)
      rw [if_neg hmem, fillOmitted, if_neg hmem]
      refine coherent_eq.encodeAs hdefault.holds literal fun key node literal hdefault => ?_
      exact ih hcons hdefault (by rw [List.length_cons]; omega) (by rw [List.length_cons]; omega)

/-! ## Without the check -/

/-- At the end of the expansions either nothing is omitted or the fault is met that is put there. -/
theorem sequential_settled :
    Sequential fun runs : (String → Node → Literal → Encoding) → Encoding =>
      (∃ result, ∀ beyond, runs beyond = result) ∨
        ∀ fault, runs (fun _ _ _ => .error fault) = .error fault where
  part result _ := .inl ⟨result, fun _ => rfl⟩
  append {first next} hfirst hnext := by
    rcases hfirst with ⟨result, hresult⟩ | hfault
    · simp only [hresult]
      cases result with
      | error fault => exact .inl ⟨.error fault, fun _ => rfl⟩
      | ok bytes => exact hnext bytes
    · exact .inr fun fault => congrArg (· >>= next _) (hfault fault)

theorem expandWithin_settled (depth : Nat) (hdefault : registry.HasDefault key node literal) :
    (∃ result, ∀ beyond, expandWithin registry beyond depth key node literal = result) ∨
      ∀ fault, expandWithin registry (fun _ _ _ => .error fault) depth key node literal =
        .error fault := by
  induction depth generalizing key node literal with
  | zero => exact .inr fun _ => rfl
  | succ depth ih =>
    exact sequential_settled.encodeAs (fun beyond => expandWithin registry beyond depth)
      hdefault.holds literal fun _ _ _ hdefault => ih hdefault

/-- The expansions either come to an end or reach every depth. -/
theorem endless_iff (hnode : registry.Holds node) :
    registry.Endless node literal ↔ ∀ result, ¬registry.Ends node literal result := by
  constructor
  · rintro hendless result ⟨depth, hresult⟩
    have hempty := (hendless depth .emptyUnion).symm.trans (hresult _)
    have hname := (hendless depth (.unresolvedName "")).symm.trans (hresult _)
    cases hempty.trans hname.symm
  · intro hends depth
    refine (sequential_settled.encodeAs (fun beyond => expandWithin registry beyond depth) hnode
      literal fun _ _ _ hdefault => expandWithin_settled depth hdefault).resolve_left ?_
    rintro ⟨result, hresult⟩
    exact hends result ⟨depth, hresult⟩

/-- What is not refused is written without the check as well. -/
theorem fillOmitted_eq_expandWithin (hdefault : registry.HasDefault key node literal) :
    Refused (fillOmitted registry budget expanding key node literal) ∨
      fillOmitted registry budget expanding key node literal =
        expandWithin registry beyond budget key node literal := by
  induction budget generalizing expanding key node literal with
  | zero => exact .inl ⟨key, rfl⟩
  | succ budget ih =>
    rw [fillOmitted]
    split
    · exact .inl ⟨key, rfl⟩
    · exact coherent_unless_refused.encodeAs hdefault.holds literal fun _ _ _ hdefault =>
        ih hdefault

theorem ends_of_not_refused (hnode : registry.Holds node)
    (h : ¬Refused (literal.encodeAs registry (fillOmitted registry budget expanding) node)) :
    registry.Ends node literal
      (literal.encodeAs registry (fillOmitted registry budget expanding) node) :=
  ⟨budget, fun _ => ((coherent_unless_refused.encodeAs hnode literal fun _ _ _ hdefault =>
    fillOmitted_eq_expandWithin hdefault).resolve_left h).symm⟩

/-- A fault that is met at a depth is met at every lesser depth. -/
theorem expandWithin_succ (fault : EncodeFault) (depth : Nat)
    (hdefault : registry.HasDefault key node literal) :
    expandWithin registry (fun _ _ _ => .error fault) depth key node literal = .error fault ∨
      expandWithin registry (fun _ _ _ => .error fault) depth key node literal =
        expandWithin registry (fun _ _ _ => .error fault) (depth + 1) key node literal := by
  induction depth generalizing key node literal with
  | zero => exact .inl rfl
  | succ depth ih =>
    exact (coherent_unless_met fault).encodeAs hdefault.holds literal fun _ _ _ hdefault =>
      ih hdefault

theorem expandWithin_fault_of_le {fault : EncodeFault} {less : Nat}
    (hdefault : registry.HasDefault key node literal) (hle : less ≤ depth)
    (h : expandWithin registry (fun _ _ _ => .error fault) depth key node literal =
      .error fault) :
    expandWithin registry (fun _ _ _ => .error fault) less key node literal = .error fault := by
  induction hle with
  | refl => exact h
  | @step depth _ ih =>
    refine ih ?_
    rcases expandWithin_succ fault depth hdefault with hfault | hsame
    · exact hfault
    · exact hsame.trans h

end Registry

/-! ## What is refused -/

/-- The name under which a default is expanded is that of one field of the tree only. -/
def Node.DefaultsApart (root : Node) : Prop :=
  root.NamesApart ∧ ∀ record ∈ root.records, (record.fields.map (·.name)).Nodup

instance (root : Node) : Decidable root.DefaultsApart :=
  inferInstanceAs (Decidable (_ ∧ _))

namespace Registry

theorem HasDefault.eq (hapart : root.DefaultsApart) {other : Node} {literal' : Literal}
    (h : (ofRoot root).HasDefault key node literal)
    (h' : (ofRoot root).HasDefault key other literal') : node = other ∧ literal = literal' := by
  obtain ⟨record, field, hrecord, hfield, rfl, rfl, hdefault⟩ := h
  obtain ⟨record', field', hrecord', hfield', hkey, rfl, hdefault'⟩ := h'
  obtain ⟨rfl, hname⟩ := hapart.1.eq_of_fieldKey hrecord hrecord' hfield hfield' hkey.symm
  obtain rfl :=
    List.inj_on_of_nodup_map (hapart.2 _ (Node.mem_records hrecord)) hfield hfield' hname
  exact ⟨rfl, Option.some.inj (hdefault.symm.trans hdefault')⟩

/-- Where what is being expanded meets the fault, the default does so too or is written as without
the check.  The induction is on the depth: a default that is written at one depth is written at the
next, and one that meets the fault there may be expanded as what is being expanded. -/
theorem fillOmitted_or_met (depth : Nat) (hapart : root.DefaultsApart) (fault : EncodeFault)
    (h : Expanding root expanding) (hdefault : (ofRoot root).HasDefault key node literal)
    (hbudget : (ofRoot root).fieldCount ≤ expanding.length + budget)
    (hmet : ∀ key ∈ expanding, ∀ node literal, (ofRoot root).HasDefault key node literal →
      expandWithin (ofRoot root) (fun _ _ _ => .error fault) depth key node literal =
        .error fault) :
    expandWithin (ofRoot root) (fun _ _ _ => .error fault) depth key node literal = .error fault ∨
      ¬Refused (fillOmitted (ofRoot root) budget expanding key node literal) ∧
        fillOmitted (ofRoot root) budget expanding key node literal =
          expandWithin (ofRoot root) (fun _ _ _ => .error fault) depth key node literal := by
  induction depth generalizing expanding key node literal budget with
  | zero => exact .inl rfl
  | succ depth ih =>
    have hless : ∀ key ∈ expanding, ∀ node literal, (ofRoot root).HasDefault key node literal →
        expandWithin (ofRoot root) (fun _ _ _ => .error fault) depth key node literal =
          .error fault := fun key hkey node literal hdefault =>
      expandWithin_fault_of_le hdefault (Nat.le_succ depth) (hmet key hkey node literal hdefault)
    by_cases hmem : key ∈ expanding
    · exact .inl (hmet key hmem node literal hdefault)
    · by_cases hfault : expandWithin (ofRoot root) (fun _ _ _ => .error fault) depth key node
          literal = .error fault
      · have hcons := h.cons hdefault hmem
        have hlength := hcons.length_le
        rw [List.length_cons] at hlength
        obtain ⟨left, rfl⟩ := Nat.exists_eq_add_one.2 (show 0 < budget by omega)
        rw [fillOmitted, if_neg hmem]
        refine (coherent_or_met fault).encodeAs hdefault.holds literal fun _ _ _ hinner => ?_
        refine ih hcons hinner (by rw [List.length_cons]; omega) ?_
        intro other hother node' literal' hdefault'
        rcases List.mem_cons.1 hother with rfl | hother
        · obtain ⟨rfl, rfl⟩ := hdefault.eq hapart hdefault'
          exact hfault
        · exact hless other hother node' literal' hdefault'
      · obtain ⟨hwritten, hsame⟩ := (ih h hdefault hbudget hless).resolve_left hfault
        exact .inr ⟨hwritten, hsame.trans ((expandWithin_succ fault depth hdefault).resolve_left
          hfault)⟩

/-- At any depth a literal meets the fault, or it is written as without the check. -/
theorem encodeAs_or_met (hapart : root.DefaultsApart) (hnode : (ofRoot root).Holds node)
    (literal : Literal) (hbudget : (ofRoot root).fieldCount ≤ budget) (depth : Nat)
    (fault : EncodeFault) :
    literal.encodeAs (ofRoot root) (expandWithin (ofRoot root) (fun _ _ _ => .error fault) depth)
        node = .error fault ∨
      ¬Refused (literal.encodeAs (ofRoot root) (fillOmitted (ofRoot root) budget []) node) ∧
        literal.encodeAs (ofRoot root) (fillOmitted (ofRoot root) budget []) node =
          literal.encodeAs (ofRoot root)
            (expandWithin (ofRoot root) (fun _ _ _ => .error fault) depth) node :=
  (coherent_or_met fault).encodeAs hnode literal fun _ _ _ hdefault =>
    fillOmitted_or_met depth hapart fault (.nil root) hdefault (by simpa using hbudget) nofun

/-- What is refused is what never ends, and all else is written as without the check. -/
theorem refused_iff_endless (hapart : root.DefaultsApart) (hnode : (ofRoot root).Holds node)
    (hbudget : (ofRoot root).fieldCount ≤ budget) :
    Refused (literal.encodeAs (ofRoot root) (fillOmitted (ofRoot root) budget []) node) ↔
      (ofRoot root).Endless node literal := by
  constructor
  · intro hrefused depth fault
    exact (encodeAs_or_met hapart hnode literal hbudget depth fault).resolve_right fun hwritten =>
      hwritten.1 hrefused
  · intro hendless
    by_contra hwritten
    exact (endless_iff hnode).1 hendless _ (ends_of_not_refused hnode hwritten)

/-- The literal comes to an end with one result only: a result is not each of two faults. -/
theorem Ends.eq (hapart : root.DefaultsApart) (hnode : (ofRoot root).Holds node)
    (hbudget : (ofRoot root).fieldCount ≤ budget) {result : Encoding}
    (h : (ofRoot root).Ends node literal result) :
    literal.encodeAs (ofRoot root) (fillOmitted (ofRoot root) budget []) node = result := by
  obtain ⟨depth, hresult⟩ := h
  have hmet (fault : EncodeFault) := encodeAs_or_met hapart hnode literal hbudget depth fault
  simp only [hresult] at hmet
  rcases hmet .emptyUnion with hempty | ⟨-, hsame⟩
  · rcases hmet (.unresolvedName "") with hname | ⟨-, hsame⟩
    · cases hempty.symm.trans hname
    · exact hsame
  · exact hsame

/-- A default that is refused is refused by itself. -/
theorem refused_default (hapart : root.DefaultsApart)
    (hdefault : (ofRoot root).HasDefault key node literal)
    (hbudget : (ofRoot root).fieldCount ≤ budget)
    (h : Refused (fillOmitted (ofRoot root) budget [] key node literal)) :
    Refused (literal.encodeAs (ofRoot root) (fillOmitted (ofRoot root) budget []) node) := by
  refine (refused_iff_endless hapart hdefault.holds hbudget).2 fun depth fault => ?_
  exact (fillOmitted_or_met (depth + 1) hapart fault (.nil root) hdefault
    (by simpa using hbudget) nofun).resolve_right fun hwritten => hwritten.1 h

/-- What is refused is refused for one of its parts. -/
theorem sequential_refused (reason : Prop) :
    Sequential fun run : Unit → Encoding => Refused (run ()) → reason where
  part _ hresult hrefused := absurd hrefused hresult
  append {first next} hfirst hnext := by
    rintro ⟨key, hkey⟩
    cases h : first () with
    | error fault =>
      simp only [h] at hkey
      cases hkey
      exact hfirst ⟨key, h⟩
    | ok bytes =>
      simp only [h] at hkey
      exact hnext bytes ⟨key, hkey⟩

/-- A record is refused only for a field whose literal is refused by itself, not for what its other
fields take. -/
theorem exists_refused_field (hapart : root.DefaultsApart) (hnode : (ofRoot root).Holds node)
    (hbudget : (ofRoot root).fieldCount ≤ budget) {record : RecordNode}
    (hshape : (ofRoot root).shape? node = some (.named (.record record)))
    {entries : List (String × Literal)}
    (h : Refused ((Literal.object entries).encodeAs (ofRoot root)
      (fillOmitted (ofRoot root) budget []) node)) :
    ∃ field ∈ record.fields, ∃ literal, field.literal? entries = some literal ∧
      Refused
        (literal.encodeAs (ofRoot root) (fillOmitted (ofRoot root) budget []) field.type) := by
  have hrecord := (hnode.record (look_of_shape? hshape)).1
  rw [encodeAs_plain (.named (.record record)) hshape, encodeContent] at h
  refine (sequential_refused _).encodeFields (fun _ => fillOmitted (ofRoot root) budget [])
    (fun field hfield literal hentry hrefused => ?_)
    (fun field hfield hentry literal hdefault hrefused => ?_) h
  · refine ⟨field, hfield, literal, ?_, hrefused⟩
    rw [Field.literal?, hentry, Option.some_or]
  · refine ⟨field, hfield, literal, ?_, ?_⟩
    · rw [Field.literal?, hentry, Option.none_or, hdefault]
    · exact refused_default hapart ⟨record, field, hrecord, hfield, rfl, rfl, hdefault⟩ hbudget
        hrefused

end Registry

/-- The check of defaults that need themselves.  Whatever the tree, it lets no expansion go deeper
than the tree has fields: what is put below that depth is never met.  Where the name under which a
default is expanded is that of one field only, the check is exact.  It refuses the literals whose
expansions would reach every depth; all others come to an end without it, with the same bytes or
the same fault; and a record is not refused for what its fields need together, one default in
several of them included, but only for a field whose literal would be refused by itself. -/
theorem encodeDefault_refuses {root node : Node} (hnode : node ∈ root.preorder)
    (literal : Literal) :
    (∀ depth, (Registry.ofRoot root).fieldCount < depth → ∀ beyond,
      literal.encodeAs (.ofRoot root) (guardWithin (.ofRoot root) beyond depth []) node =
        encodeDefault (.ofRoot root) node literal) ∧
    (root.DefaultsApart →
      (Refused (encodeDefault (.ofRoot root) node literal) ↔
        (Registry.ofRoot root).Endless node literal) ∧
      (∀ result, (Registry.ofRoot root).Ends node literal result ↔
        ¬Refused (encodeDefault (.ofRoot root) node literal) ∧
          encodeDefault (.ofRoot root) node literal = result) ∧
      ∀ record entries, (Registry.ofRoot root).shape? node = some (.named (.record record)) →
        literal = .object entries →
          (∀ field ∈ record.fields, ∀ given, field.literal? entries = some given →
            ¬Refused (encodeDefault (.ofRoot root) field.type given)) →
            ¬Refused (encodeDefault (.ofRoot root) node literal)) := by
  have hholds : (Registry.ofRoot root).Holds node := ⟨root, rfl, hnode⟩
  have hbudget (other : Node) : (Registry.ofRoot root).fieldCount ≤
      (Registry.ofRoot root).fieldCount + (Registry.ofRoot other).fieldCount :=
    Nat.le_add_right ..
  refine ⟨fun depth hdepth beyond => ?_,
    fun hapart => ⟨?_, fun result => ⟨fun hends => ?_, ?_⟩, ?_⟩⟩
  · refine coherent_eq.encodeAs hholds literal fun key node literal hdefault => ?_
    refine Registry.guardWithin_eq (.nil root) hdefault ?_ ?_
    · rwa [List.length_nil, Nat.zero_add]
    · rw [List.length_nil, Nat.zero_add]
      exact hbudget _
  · exact Registry.refused_iff_endless hapart hholds (hbudget node)
  · refine ⟨fun hrefused => ?_, hends.eq hapart hholds (hbudget node)⟩
    have hendless := (Registry.refused_iff_endless hapart hholds (hbudget node)).1 hrefused
    exact (Registry.endless_iff hholds).1 hendless result hends
  · rintro ⟨hwritten, rfl⟩
    exact Registry.ends_of_not_refused hholds hwritten
  · rintro record entries hshape rfl hfields hrefused
    obtain ⟨field, hfield, given, hgiven, hrefused⟩ :=
      Registry.exists_refused_field hapart hholds (hbudget node) hshape hrefused
    have hfieldHolds := ((hholds.record (Registry.look_of_shape? hshape)).1.field hfield).1
    refine hfields field hfield given hgiven ?_
    exact (Registry.refused_iff_endless hapart hfieldHolds (hbudget field.type)).2
      ((Registry.refused_iff_endless hapart hfieldHolds (hbudget node)).1 hrefused)

namespace Schema

/-- A line between two points, each of which is filled with the one default of a point. -/
def line : Schema :=
  .record ⟨"Line", none, []⟩
    [⟨"from", .record ⟨"Point", none, []⟩ [⟨"x", .primitive .int, some (.integer 1), []⟩],
        some (.object []), []⟩,
      ⟨"to", .reference "Point", some (.object []), []⟩]

/-- A list of numbers that is filled with itself. -/
def selfFilled : Schema :=
  .record ⟨"Node", none, []⟩
    [⟨"v", .primitive .int, some (.integer 0), []⟩,
      ⟨"next", .reference "Node", some (.object []), []⟩]

/-- A record with two fields of one name, whose own default is filled otherwise than itself. -/
def repeated : Schema :=
  .record ⟨"R", none, []⟩
    [⟨"f", .primitive .int, some (.integer 1), []⟩,
      ⟨"g", .primitive .int, some (.string "bad"), []⟩,
      ⟨"f", .reference "R", some (.object []), []⟩]

end Schema

theorem encodeDefault_refuses_line :
    (∀ beyond, (Literal.object []).encodeAs (.ofRoot (.root .reader Schema.line))
        (guardWithin (.ofRoot (.root .reader Schema.line)) beyond 4 [])
          (.root .reader Schema.line) =
        Schema.line.encodeDefault Schema.line (.object [])) ∧
      ¬Refused (Schema.line.encodeDefault Schema.line (.object [])) ∧
      (Registry.ofRoot (.root .reader Schema.line)).Ends (.root .reader Schema.line) (.object [])
        (Schema.line.encodeDefault Schema.line (.object [])) ∧
      (Registry.ofRoot (.root .reader Schema.selfFilled)).Endless
        (.root .reader Schema.selfFilled) (.object []) := by
  have hline := encodeDefault_refuses (Node.self_mem_preorder (.root .reader Schema.line))
    (.object [])
  have hselfFilled := encodeDefault_refuses
    (Node.self_mem_preorder (.root .reader Schema.selfFilled)) (.object [])
  have hwritten : ¬Refused (Schema.line.encodeDefault Schema.line (.object [])) := by
    refine (hline.2 (by decide +kernel)).2.2 _ [] rfl rfl fun field hfield given hgiven => ?_
    rcases List.mem_cons.1 hfield with rfl | hfield
    · obtain rfl := Option.some.inj hgiven
      decide +kernel
    · obtain rfl := List.mem_singleton.1 hfield
      obtain rfl := Option.some.inj hgiven
      decide +kernel
  exact ⟨hline.1 4 (by decide +kernel), hwritten,
    ((hline.2 (by decide +kernel)).2.1 _).2 ⟨hwritten, rfl⟩,
    (hselfFilled.2 (by decide +kernel)).1.1 (by decide +kernel)⟩

/-- The names of fields have to be different within a record as well: the literal is refused for
the name of another field, while without the check it comes to an end. -/
theorem encodeDefault_refuses_repeated :
    (Node.root .reader Schema.repeated).NamesApart ∧
      Refused (Schema.repeated.encodeDefault Schema.repeated (.object [("g", .integer 5)])) ∧
      (Registry.ofRoot (.root .reader Schema.repeated)).Ends (.root .reader Schema.repeated)
        (.object [("g", .integer 5)]) (.error (.notNumeric .int (.string "bad"))) ∧
      ¬(Registry.ofRoot (.root .reader Schema.repeated)).Endless (.root .reader Schema.repeated)
        (.object [("g", .integer 5)]) := by
  have hends : (Registry.ofRoot (.root .reader Schema.repeated)).Ends
      (.root .reader Schema.repeated) (.object [("g", .integer 5)])
        (.error (.notNumeric .int (.string "bad"))) := ⟨2, fun _ => rfl⟩
  refine ⟨by decide +kernel, by decide +kernel, hends, fun hendless => ?_⟩
  exact (Registry.endless_iff (Registry.holds_root _)).1 hendless _ hends

end AvroResolution
