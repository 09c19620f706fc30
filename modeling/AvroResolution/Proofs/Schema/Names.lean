import AvroResolution.Proofs.Schema.Look
import Mathlib.Data.List.Dedup
import Mathlib.Data.List.TakeWhile

/-!
# The names of a tree

A registry keeps the definitions of a tree in preorder.  The same names can be kept in a table
without an order, which a walk over the tree fills: a name that is bound already stays bound as it
is.  A name that the table does not bind is searched for among all its bindings, and these come in
any order.

* `EndsIn` says what the last segment of a full name is.
* `Node.FirstOf`: the place where a tree defines a full name first.  `Node.StandsFor`: the place
  that a name stands for, in terms of the nodes of the tree alone.
* `NameTable.collect` is the table of a tree, and `NameTable.get?` looks a name up in it, given
  some order of its bindings.  `NameTable.collect_eq`: every name is bound where it is defined
  first.
* `NameTable.follow` goes from a node through references and logical types, for a number of rounds.
* `Registry.find?_of_any_order`: a name is found in every order of the table alike, and it is
  found in the registry alike.  Following ends at every node.
-/

namespace AvroResolution

/-! ## Segments -/

/-- The name is what stands after the last point of the full name, or all of it. -/
def EndsIn (fullname name : String) : Prop :=
  '.' ∉ name.toList ∧ (fullname = name ∨ ∃ qualifier, fullname = qualifier ++ "." ++ name)

theorem not_mem_lastSegment (name : String) : '.' ∉ (lastSegment name).toList := by
  intro hpoint
  rw [lastSegment, String.toList_ofList, List.mem_reverse] at hpoint
  simpa using List.mem_takeWhile_imp hpoint

/-- What has no point is kept as it is, also behind a point. -/
theorem takeWhile_append_of_not_mem {name : String} (h : '.' ∉ name.toList) (rest : List Char) :
    (name.toList.reverse ++ rest).takeWhile (· ≠ '.') =
      name.toList.reverse ++ rest.takeWhile (· ≠ '.') := by
  refine List.takeWhile_append_of_pos fun c hc => decide_eq_true ?_
  rintro rfl
  exact h (List.mem_reverse.1 hc)

theorem lastSegment_of_not_mem {name : String} (h : '.' ∉ name.toList) :
    lastSegment name = name := by
  have htake := takeWhile_append_of_not_mem h []
  rw [List.append_nil] at htake
  rw [lastSegment, htake]
  simp

theorem lastSegment_append_point {name : String} (h : '.' ∉ name.toList) (qualifier : String) :
    lastSegment (qualifier ++ "." ++ name) = name := by
  have hreverse : (qualifier ++ "." ++ name).toList.reverse =
      name.toList.reverse ++ '.' :: qualifier.toList.reverse := by simp
  rw [lastSegment, hreverse, takeWhile_append_of_not_mem h]
  simp

/-- A name is its last segment, or a point comes before that. -/
theorem lastSegment_cases (name : String) :
    name = lastSegment name ∨ ∃ qualifier, name = qualifier ++ "." ++ lastSegment name := by
  have hsplit : name.toList.reverse.takeWhile (· ≠ '.') ++ name.toList.reverse.dropWhile (· ≠ '.') =
      name.toList.reverse := List.takeWhile_append_dropWhile
  cases hrest : name.toList.reverse.dropWhile (· ≠ '.') with
  | nil =>
    rw [hrest, List.append_nil] at hsplit
    left
    rw [lastSegment, hsplit]
    simp
  | cons point before =>
    have hhead := List.head?_dropWhile_not (fun c => decide (c ≠ '.')) name.toList.reverse
    rw [hrest] at hhead
    obtain rfl : point = '.' := by simpa using hhead
    right
    refine ⟨String.ofList before.reverse, String.toList_injective ?_⟩
    rw [hrest] at hsplit
    have hreverse := congrArg List.reverse hsplit
    simpa [lastSegment] using hreverse.symm

theorem lastSegment_eq_iff {fullname name : String} :
    lastSegment fullname = name ↔ EndsIn fullname name := by
  constructor
  · rintro rfl
    exact ⟨not_mem_lastSegment fullname, lastSegment_cases fullname⟩
  · rintro ⟨hpoint, rfl | ⟨qualifier, rfl⟩⟩
    · exact lastSegment_of_not_mem hpoint
    · exact lastSegment_append_point hpoint qualifier

/-! ## What a name stands for -/

/-- A node and its position in the preorder of its tree. -/
structure Place where
  position : Nat
  node : Node

/-- The full name that a node defines. -/
def Node.defines? (node : Node) : Option String :=
  node.definition?.map Definition.fullname

/-- The definition at a place, the way a registry lists it. -/
def Place.listed? (place : Place) : Option Registry.Entry :=
  place.node.definition?.map fun definition => ⟨place.position, definition⟩

namespace Node

/-- The nodes of a tree with their positions. -/
def places (root : Node) : List Place :=
  root.preorder.zipIdx.map fun (node, position) => ⟨position, node⟩

/-- No node of the tree before the place defines the full name, which the place defines. -/
structure FirstOf (root : Node) (fullname : String) (place : Place) : Prop where
  node : root.preorder[place.position]? = some place.node
  name : place.node.defines? = some fullname
  first : ∀ position < place.position, ∀ node, root.preorder[position]? = some node →
    node.defines? ≠ some fullname

/-- The place that a name stands for: where a tree first defines it as a full name, or else where
it first defines the only full name that ends in it. -/
inductive StandsFor (root : Node) (name : String) : Place → Prop
  | full {place : Place} (h : root.FirstOf name place) : StandsFor root name place
  | last {place : Place} {fullname : String}
      (hnone : ∀ node ∈ root.preorder, node.defines? ≠ some name)
      (hends : EndsIn fullname name) (hfirst : root.FirstOf fullname place)
      (honly : ∀ node ∈ root.preorder, ∀ other, node.defines? = some other →
        EndsIn other name → other = fullname) : StandsFor root name place

end Node

/-! ## Tables of names -/

/-- Full names and the places that they are bound to. -/
def NameTable := String → Option Place

namespace NameTable

/-- A binding for a full name that has none yet. -/
def insertNew (table : NameTable) (fullname : String) (place : Place) : NameTable :=
  fun other => if other = fullname then (table fullname).or (some place) else table other

/-- A walk over a tree: how many nodes it has met, and the names that they define. -/
structure Walk where
  met : Nat
  table : NameTable

namespace Walk

/-- The walk meets a node that defines no name. -/
def pass (walk : Walk) : Walk :=
  ⟨walk.met + 1, walk.table⟩

/-- The walk meets a node that defines a full name. -/
def define (walk : Walk) (fullname : String) (node : Node) : Walk :=
  ⟨walk.met + 1, walk.table.insertNew fullname ⟨walk.met, node⟩⟩

mutual

/-- The walk goes over a subtree that `ordinal` record definitions come before. -/
def visit (side : Side) (ordinal : Nat) (walk : Walk) : Schema → Walk
  | .record heading fields =>
    visitFields side (ordinal + 1)
      (walk.define heading.fullname ⟨side, ordinal, .record heading fields⟩) fields
  | .enum heading symbols default? =>
    walk.define heading.fullname ⟨side, ordinal, .enum heading symbols default?⟩
  | .fixed heading size => walk.define heading.fullname ⟨side, ordinal, .fixed heading size⟩
  | .array items => visit side ordinal walk.pass items
  | .map values => visit side ordinal walk.pass values
  | .union branches => visitBranches side ordinal walk.pass branches
  | .logical base _ => visit side ordinal walk.pass base
  | _ => walk.pass

/-- The walk goes over the fields of a record. -/
def visitFields (side : Side) (ordinal : Nat) (walk : Walk) : List (Field Schema) → Walk
  | [] => walk
  | ⟨_, type, _, _⟩ :: rest =>
    visitFields side (ordinal + type.recordCount) (visit side ordinal walk type) rest

/-- The walk goes over the branches of a union. -/
def visitBranches (side : Side) (ordinal : Nat) (walk : Walk) : List Schema → Walk
  | [] => walk
  | branch :: rest =>
    visitBranches side (ordinal + branch.recordCount) (visit side ordinal walk branch) rest

end

end Walk

/-- The table of a tree. -/
def collect (root : Node) : NameTable :=
  (Walk.visit root.side root.ordinal ⟨0, fun _ => none⟩ root.schema).table

/-- The bindings of a table in some order. -/
structure IsOrder (table : NameTable) (order : List (String × Place)) : Prop where
  nodup : order.Nodup
  mem : ∀ binding, binding ∈ order ↔ table binding.1 = some binding.2

/-- The place that a name is bound to, or else the only binding whose full name ends in it. -/
def get? (table : NameTable) (order : List (String × Place)) (name : String) : Option Place :=
  (table name).or
    (match order.filter fun binding => lastSegment binding.1 = name with
    | [(_, place)] => some place
    | _ => none)

/-- The node that is reached through references and logical types, if that takes fewer steps than
there are rounds. -/
def follow (table : NameTable) (order : List (String × Place)) :
    Nat → Node → Option (Except DanglingReference Node)
  | 0, _ => none
  | rounds + 1, node =>
    match node.schema with
    | .reference name =>
      match table.get? order name with
      | some place => follow table order rounds place.node
      | none => some (.error ⟨name⟩)
    | .logical base _ => follow table order rounds ⟨node.side, node.ordinal, base⟩
    | _ => some (.ok node)

/-! ## Collecting -/

namespace Walk

/-- The walk meets a node. -/
def meet (walk : Walk) (node : Node) : Walk :=
  match node.defines? with
  | some fullname => walk.define fullname node
  | none => walk.pass

mutual

/-- A walk meets the nodes of a subtree in preorder. -/
theorem visit_eq (side : Side) : ∀ (schema : Schema) (ordinal : Nat) (walk : Walk),
    walk.visit side ordinal schema = (Node.preorderFrom side ordinal schema).foldl meet walk
  | .primitive _, _, _ => rfl
  | .enum _ _ _, _, _ => rfl
  | .fixed _ _, _, _ => rfl
  | .reference _, _, _ => rfl
  | .record _ fields, ordinal, _ => visitFields_eq side fields (ordinal + 1) _
  | .array items, ordinal, walk => visit_eq side items ordinal walk.pass
  | .map values, ordinal, walk => visit_eq side values ordinal walk.pass
  | .union branches, ordinal, walk => visitBranches_eq side branches ordinal walk.pass
  | .logical base _, ordinal, walk => visit_eq side base ordinal walk.pass

theorem visitFields_eq (side : Side) : ∀ (fields : List (Field Schema)) (ordinal : Nat)
    (walk : Walk), walk.visitFields side ordinal fields =
      (Node.fieldPreorder side ordinal fields).foldl meet walk
  | [], _, _ => rfl
  | ⟨_, type, _, _⟩ :: rest, ordinal, walk => by
    rw [visitFields, Node.fieldPreorder, List.foldl_append, visit_eq side type,
      visitFields_eq side rest]

theorem visitBranches_eq (side : Side) : ∀ (branches : List Schema) (ordinal : Nat)
    (walk : Walk), walk.visitBranches side ordinal branches =
      (Node.branchPreorder side ordinal branches).foldl meet walk
  | [], _, _ => rfl
  | branch :: rest, ordinal, walk => by
    rw [visitBranches, Node.branchPreorder, List.foldl_append, visit_eq side branch,
      visitBranches_eq side rest]

end

theorem met_meet (walk : Walk) (node : Node) : (walk.meet node).met = walk.met + 1 := by
  rw [meet]
  split <;> rfl

theorem table_meet (walk : Walk) (node : Node) (name : String) :
    (walk.meet node).table name = (walk.table name).or
      (if node.defines? = some name then some ⟨walk.met, node⟩ else none) := by
  rw [meet]
  cases hdefines : node.defines? with
  | none => simp [pass]
  | some fullname =>
    by_cases hname : name = fullname
    · simp [define, insertNew, hname]
    · simp [define, insertNew, hname, Ne.symm hname]

/-- A name that is not bound yet is bound at the first node that defines it.  The induction is on
the nodes that are met. -/
theorem table_foldl (name : String) : ∀ (nodes : List Node) (walk : Walk),
    (nodes.foldl meet walk).table name = (walk.table name).or
      (((nodes.zipIdx walk.met).map fun (node, position) => (⟨position, node⟩ : Place)).find?
        fun place => place.node.defines? = some name)
  | [], _ => by simp
  | node :: rest, walk => by
    rw [List.foldl_cons, table_foldl name rest, table_meet, met_meet, List.zipIdx_cons,
      List.map_cons, Option.or_assoc]
    by_cases hdefines : node.defines? = some name
    · rw [List.find?_cons_of_pos (by simp [hdefines])]
      simp [hdefines]
    · rw [List.find?_cons_of_neg (by simp [hdefines])]
      simp [hdefines]

end Walk

variable {root : Node} {name fullname : String} {place : Place} {order : List (String × Place)}

/-- A name is bound at the first node of the tree that defines it. -/
theorem collect_eq (root : Node) (name : String) :
    collect root name = root.places.find? fun place => place.node.defines? = some name := by
  rw [collect, Walk.visit_eq, Walk.table_foldl]
  rfl

theorem collect_eq_some : collect root name = some place ↔ root.FirstOf name place := by
  rw [collect_eq, List.find?_eq_some_iff_getElem]
  constructor
  · rintro ⟨hname, position, hlt, hplace, hfirst⟩
    have hlt' : position < root.preorder.length := by simpa [Node.places] using hlt
    obtain rfl : ⟨position, root.preorder[position]⟩ = place := by simpa [Node.places] using hplace
    refine ⟨List.getElem?_eq_getElem hlt', of_decide_eq_true hname, ?_⟩
    intro earlier hearlier node hnode
    obtain ⟨hbound, rfl⟩ := List.getElem?_eq_some_iff.1 hnode
    simpa [Node.places] using hfirst earlier hearlier
  · rintro ⟨hnode, hname, hfirst⟩
    obtain ⟨hlt, hget⟩ := List.getElem?_eq_some_iff.1 hnode
    refine ⟨decide_eq_true hname, place.position, by simpa [Node.places] using hlt,
      by simp [Node.places, hget], ?_⟩
    intro earlier hearlier
    simpa [Node.places] using hfirst earlier hearlier _ (List.getElem?_eq_getElem (by omega))

theorem collect_eq_none :
    collect root name = none ↔ ∀ node ∈ root.preorder, node.defines? ≠ some name := by
  rw [collect_eq, List.find?_eq_none]
  constructor
  · intro h node hnode
    obtain ⟨position, hlt, rfl⟩ := List.mem_iff_getElem.1 hnode
    have hplace : ⟨position, root.preorder[position]⟩ ∈ root.places :=
      List.mem_map.2 ⟨(root.preorder[position], position),
        List.mem_zipIdx_iff_getElem?.2 (List.getElem?_eq_getElem hlt), rfl⟩
    simpa using h _ hplace
  · rintro h place hplace
    obtain ⟨⟨node, position⟩, hmem, rfl⟩ := List.mem_map.1 hplace
    simpa using h node (List.fst_mem_of_mem_zipIdx hmem)

/-! ## Looking a name up -/

theorem IsOrder.mem_iff (horder : (collect root).IsOrder order) :
    (fullname, place) ∈ order ↔ root.FirstOf fullname place :=
  (horder.mem (fullname, place)).trans collect_eq_some

/-- Only one binding is found by its last segment if only one full name of the tree ends in it. -/
theorem IsOrder.filter_eq_singleton (horder : (collect root).IsOrder order) :
    (order.filter fun binding => lastSegment binding.1 = name) = [(fullname, place)] ↔
      EndsIn fullname name ∧ root.FirstOf fullname place ∧
        ∀ node ∈ root.preorder, ∀ other, node.defines? = some other →
          EndsIn other name → other = fullname := by
  have hfound {other : String} {place : Place} :
      (other, place) ∈ (order.filter fun binding => lastSegment binding.1 = name) ↔
        root.FirstOf other place ∧ EndsIn other name := by
    rw [List.mem_filter, horder.mem_iff, decide_eq_true_iff, lastSegment_eq_iff]
  rw [← List.perm_singleton,
    List.perm_ext_iff_of_nodup (horder.nodup.filter _) (List.nodup_singleton _)]
  constructor
  · intro hall
    have hfirst := hfound.1 ((hall (fullname, place)).2 (.head _))
    refine ⟨hfirst.2, hfirst.1, ?_⟩
    intro node hnode other hother hends
    -- The other name is bound as well, so it is the one that is found.
    have hbound : collect root other ≠ none := fun hnone =>
      collect_eq_none.1 hnone node hnode hother
    obtain ⟨place', hplace'⟩ := Option.ne_none_iff_exists'.1 hbound
    have hsame := (hall (other, place')).1 (hfound.2 ⟨collect_eq_some.1 hplace', hends⟩)
    exact congrArg Prod.fst (List.mem_singleton.1 hsame)
  · rintro ⟨hends, hfirst, honly⟩ ⟨other, place'⟩
    rw [List.mem_singleton, hfound]
    constructor
    · rintro ⟨hfirst', hends'⟩
      obtain rfl := honly _ (List.mem_of_getElem? hfirst'.node) other hfirst'.name hends'
      have hsame := (collect_eq_some.2 hfirst').symm.trans (collect_eq_some.2 hfirst)
      rw [Option.some.inj hsame]
    · rintro ⟨⟩
      exact ⟨hfirst, hends⟩

/-- In every order a name is looked up to the place that it stands for. -/
theorem get?_eq_some (horder : (collect root).IsOrder order) :
    (collect root).get? order name = some place ↔ root.StandsFor name place := by
  rw [get?]
  constructor
  · intro hget
    cases htable : collect root name with
    | some bound =>
      rw [htable, Option.some_or] at hget
      cases hget
      exact .full (collect_eq_some.1 htable)
    | none =>
      rw [htable, Option.none_or] at hget
      split at hget
      · rename_i fullname bound hfilter
        cases hget
        obtain ⟨hends, hfirst, honly⟩ := horder.filter_eq_singleton.1 hfilter
        exact .last (collect_eq_none.1 htable) hends hfirst honly
      · cases hget
  · intro hplace
    cases hplace with
    | full hfull => rw [collect_eq_some.2 hfull, Option.some_or]
    | last hnone hends hfirst honly =>
      rw [collect_eq_none.2 hnone, Option.none_or,
        horder.filter_eq_singleton.2 ⟨hends, hfirst, honly⟩]

/-- Two orders of a table look a name up alike. -/
theorem IsOrder.get?_eq {order' : List (String × Place)} (horder : (collect root).IsOrder order)
    (horder' : (collect root).IsOrder order') (name : String) :
    (collect root).get? order name = (collect root).get? order' name :=
  Option.ext fun _ => (get?_eq_some horder).trans (get?_eq_some horder').symm

/-- Some order of a table that collects a tree. -/
def someOrder (root : Node) : List (String × Place) :=
  (root.preorder.filterMap Node.defines?).dedup.filterMap fun fullname =>
    (collect root fullname).map fun place => (fullname, place)

theorem isOrder_someOrder (root : Node) : (collect root).IsOrder (someOrder root) := by
  constructor
  · refine List.Nodup.filterMap ?_ (List.nodup_dedup _)
    intro fullname other binding hbinding hbinding'
    obtain ⟨_, _, rfl⟩ := Option.map_eq_some_iff.1 hbinding
    obtain ⟨_, _, hsame⟩ := Option.map_eq_some_iff.1 hbinding'
    exact (congrArg Prod.fst hsame).symm
  · rintro ⟨fullname, place⟩
    rw [someOrder, List.mem_filterMap]
    constructor
    · rintro ⟨name, _, hbinding⟩
      obtain ⟨_, hplace, hsame⟩ := Option.map_eq_some_iff.1 hbinding
      cases hsame
      exact hplace
    · intro hplace
      have hfirst := collect_eq_some.1 hplace
      refine ⟨fullname, List.mem_dedup.2 (List.mem_filterMap.2
        ⟨place.node, List.mem_of_getElem? hfirst.node, hfirst.name⟩), ?_⟩
      rw [hplace, Option.map_some]

end NameTable

/-! ## The registry -/

theorem Node.FirstOf.entry {root : Node} {fullname : String} {place : Place}
    (h : root.FirstOf fullname place) : ∃ entry, place.listed? = some entry := by
  obtain ⟨definition, hdefinition, _⟩ := Option.map_eq_some_iff.1 h.name
  exact ⟨⟨place.position, definition⟩, by rw [Place.listed?, hdefinition, Option.map_some]⟩

theorem Place.listed?_any {place : Place} (test : String → Bool) :
    place.listed?.any (fun entry => test entry.definition.fullname) =
      place.node.defines?.any test := by
  rw [listed?, Node.defines?, Option.any_map, Option.any_map]

namespace Registry

open NameTable (collect)

variable {root : Node} {name fullname : String}

theorem entries_ofRoot (root : Node) :
    (ofRoot root).entries = root.places.filterMap Place.listed? := by
  rw [Node.places, List.filterMap_map]
  rfl

/-- The first entry of a full name is at the first place of the name. -/
theorem find?_entries (root : Node) (fullname : String) :
    ((ofRoot root).entries.find? fun entry => entry.definition.fullname = fullname) =
      (collect root fullname).bind Place.listed? := by
  rw [entries_ofRoot, List.find?_filterMap, NameTable.collect_eq]
  congr 2
  funext place
  refine (Place.listed?_any fun other => other = fullname).trans ?_
  cases place.node.defines? <;> simp

theorem exists_entry_iff :
    (∃ entry ∈ (ofRoot root).entries, entry.definition.fullname = fullname) ↔
      ∃ node ∈ root.preorder, node.defines? = some fullname := by
  constructor
  · rintro ⟨entry, hentry, rfl⟩
    obtain ⟨node, hnode, hdefinition⟩ := mem_entries_ofRoot.1 ⟨entry, hentry, rfl⟩
    exact ⟨node, hnode, by rw [Node.defines?, hdefinition, Option.map_some]⟩
  · rintro ⟨node, hnode, hdefines⟩
    obtain ⟨definition, hdefinition, rfl⟩ := Option.map_eq_some_iff.1 hdefines
    obtain ⟨entry, hentry, rfl⟩ := mem_entries_ofRoot.2 ⟨node, hnode, hdefinition⟩
    exact ⟨entry, hentry, rfl⟩

/-- If only one full name ends in a name, the entries with that ending are the entries of that full
name. -/
theorem filter_entries_of_only (hends : EndsIn fullname name)
    (honly : ∀ entry ∈ (ofRoot root).entries, EndsIn entry.definition.fullname name →
      entry.definition.fullname = fullname) :
    ((ofRoot root).entries.filter fun entry => lastSegment entry.definition.fullname = name) =
      (ofRoot root).entries.filter fun entry => entry.definition.fullname = fullname := by
  refine List.filter_congr fun entry hentry => decide_eq_decide.2 ?_
  rw [lastSegment_eq_iff]
  constructor
  · exact honly entry hentry
  · intro hsame
    rwa [hsame]

theorem findByLastSegment?_eq_some {entry : Entry} :
    (ofRoot root).findByLastSegment? name = some entry ↔
      ∃ fullname place, EndsIn fullname name ∧ root.FirstOf fullname place ∧
        (∀ node ∈ root.preorder, ∀ other, node.defines? = some other →
          EndsIn other name → other = fullname) ∧ place.listed? = some entry := by
  constructor
  · intro hfind
    rw [findByLastSegment?] at hfind
    split at hfind
    · cases hfind
    · rename_i first rest hfilter
      split at hfind
      · rename_i hall
        cases hfind
        have hmem {other : Entry} : other ∈ entry :: rest ↔
            other ∈ (ofRoot root).entries ∧ EndsIn other.definition.fullname name := by
          rw [← hfilter, List.mem_filter, decide_eq_true_iff, lastSegment_eq_iff]
        have hends := (hmem.1 (.head _)).2
        have honly : ∀ other ∈ (ofRoot root).entries, EndsIn other.definition.fullname name →
            other.definition.fullname = entry.definition.fullname := by
          intro other hother hends'
          rcases List.mem_cons.1 (hmem.2 ⟨hother, hends'⟩) with rfl | hrest
          · rfl
          · exact of_decide_eq_true (List.all_eq_true.1 hall other hrest)
        have hhead := congrArg List.head? ((filter_entries_of_only hends honly).symm.trans hfilter)
        rw [List.head?_filter, find?_entries, List.head?_cons] at hhead
        obtain ⟨place, hplace, hentry⟩ := Option.bind_eq_some_iff.1 hhead
        refine ⟨_, place, hends, NameTable.collect_eq_some.1 hplace, ?_, hentry⟩
        intro node hnode other hother hends'
        obtain ⟨twin, htwin, rfl⟩ := exists_entry_iff.2 ⟨node, hnode, hother⟩
        exact honly twin htwin hends'
      · cases hfind
  · rintro ⟨fullname, place, hends, hfirst, honly, hentry⟩
    have hfilter : ((ofRoot root).entries.filter fun entry =>
        lastSegment entry.definition.fullname = name) =
          (ofRoot root).entries.filter fun entry => entry.definition.fullname = fullname := by
      refine filter_entries_of_only hends fun other hother hends' => ?_
      obtain ⟨node, hnode, hdefines⟩ := exists_entry_iff.1 ⟨other, hother, rfl⟩
      exact honly node hnode _ hdefines hends'
    have hhead : ((ofRoot root).entries.filter fun entry =>
        entry.definition.fullname = fullname).head? = some entry := by
      rw [List.head?_filter, find?_entries, NameTable.collect_eq_some.2 hfirst, Option.bind_some,
        hentry]
    obtain ⟨rest, hrest⟩ := List.head?_eq_some_iff.1 hhead
    have hnames : ∀ other ∈ entry :: rest, other.definition.fullname = fullname := by
      intro other hother
      rw [← hrest] at hother
      exact of_decide_eq_true (List.mem_filter.1 hother).2
    rw [findByLastSegment?, hfilter, hrest]
    refine if_pos (List.all_eq_true.2 fun other hother => decide_eq_true ?_)
    rw [hnames other (.tail _ hother), hnames entry (.head _)]

/-- The registry finds the definition of the place that a name stands for. -/
theorem find?_eq_some {entry : Entry} :
    (ofRoot root).find? name = some entry ↔
      ∃ place, root.StandsFor name place ∧ place.listed? = some entry := by
  rw [find?, find?_entries]
  cases htable : collect root name with
  | some bound =>
    have hbound {place : Place} : root.StandsFor name place ↔ place = bound := by
      rw [← NameTable.get?_eq_some (NameTable.isOrder_someOrder root), NameTable.get?, htable,
        Option.some_or, Option.some_inj, eq_comm]
    obtain ⟨found, hfound⟩ := (NameTable.collect_eq_some.1 htable).entry
    simp only [hbound, exists_eq_left, Option.bind_some, hfound]
  | none =>
    have hnone := NameTable.collect_eq_none.1 htable
    rw [Option.bind_none, findByLastSegment?_eq_some]
    constructor
    · rintro ⟨fullname, place, hends, hfirst, honly, hentry⟩
      exact ⟨place, .last hnone hends hfirst honly, hentry⟩
    · rintro ⟨place, hplace, hentry⟩
      cases hplace with
      | full hfull => exact absurd hfull.name (hnone _ (List.mem_of_getElem? hfull.node))
      | last _ hends hfirst honly => exact ⟨_, place, hends, hfirst, honly, hentry⟩

/-- In every order a name is looked up to where the registry finds it. -/
theorem get?_bind_listed? {order : List (String × Place)} (horder : (collect root).IsOrder order)
    (name : String) :
    ((collect root).get? order name).bind Place.listed? = (ofRoot root).find? name := by
  refine Option.ext fun entry => ?_
  rw [find?_eq_some, Option.bind_eq_some_iff]
  simp only [NameTable.get?_eq_some horder]

end Registry

theorem Node.StandsFor.firstOf {root : Node} {name : String} {place : Place}
    (h : root.StandsFor name place) : ∃ fullname, root.FirstOf fullname place := by
  cases h with
  | full hfull => exact ⟨name, hfull⟩
  | last _ _ hfirst _ => exact ⟨_, hfirst⟩

/-- What a name stands for is a definition of the tree. -/
theorem Node.StandsFor.definition {root : Node} {name : String} {place : Place}
    (h : root.StandsFor name place) :
    place.node ∈ root.preorder ∧ ∃ definition, place.node.definition? = some definition := by
  obtain ⟨fullname, hfirst⟩ := h.firstOf
  obtain ⟨definition, hdefinition, _⟩ := Option.map_eq_some_iff.1 hfirst.name
  exact ⟨List.mem_of_getElem? hfirst.node, definition, hdefinition⟩

/-! ## Following -/

/-- Whether a schema is a name or an annotation for another schema. -/
def Schema.isIndirect : Schema → Bool
  | .reference _ => true
  | .logical _ _ => true
  | _ => false

/-- Where a node of a tree leads through references and logical types: to a node of the same tree
that is neither and has the shape that is looked up, or to the reference to nothing. -/
inductive Node.LeadsTo (root node : Node) : Except DanglingReference Node → Prop
  | target {target : Node} {shape : Shape} (hdirect : target.schema.isIndirect = false)
      (hmem : node ∈ root.preorder → target ∈ root.preorder)
      (hshape : target.ownShape? = some shape)
      (hlook : (Registry.ofRoot root).look node = .ok shape) : LeadsTo root node (.ok target)
  | dangling {dangling : DanglingReference}
      (hlook : (Registry.ofRoot root).look node = .error dangling) :
      LeadsTo root node (.error dangling)

/-- A logical type leads where its base does. -/
theorem Node.LeadsTo.of_part {root node part : Node} {found : Except DanglingReference Node}
    (h : root.LeadsTo part found) (hpart : part ∈ node.parts)
    (hlook : (Registry.ofRoot root).look node = (Registry.ofRoot root).look part) :
    root.LeadsTo node found := by
  cases h with
  | target hdirect hmem hshape hpartLook =>
    exact .target hdirect (fun hnode => hmem (Node.part_mem_preorder hnode hpart)) hshape
      (hlook.trans hpartLook)
  | dangling hpartLook => exact .dangling (hlook.trans hpartLook)

namespace NameTable

variable {root node : Node} {name : String} {order : List (String × Place)}

theorem follow_direct {table : NameTable} (h : node.schema.isIndirect = false) (rounds : Nat) :
    table.follow order (rounds + 1) node = some (.ok node) := by
  rcases node with ⟨side, ordinal, schema⟩
  cases schema <;> cases h <;> rfl

theorem ownShape?_of_direct (h : node.schema.isIndirect = false) :
    ∃ shape, node.ownShape? = some shape ∧
      ∀ registry : Registry, registry.look node = .ok shape := by
  rcases node with ⟨side, ordinal, schema⟩
  cases schema <;> cases h <;> exact ⟨_, rfl, fun _ => rfl⟩

theorem isIndirect_of_definition? {definition : Definition}
    (h : node.definition? = some definition) : node.schema.isIndirect = false := by
  rcases node with ⟨side, ordinal, schema⟩
  cases schema <;> cases h <;> rfl

theorem follow_reference (table : NameTable) (rounds : Nat) (side : Side) (ordinal : Nat)
    (name : String) :
    table.follow order (rounds + 1) ⟨side, ordinal, .reference name⟩ =
      match table.get? order name with
      | some place => table.follow order rounds place.node
      | none => some (.error ⟨name⟩) :=
  rfl

theorem look_reference (registry : Registry) (side : Side) (ordinal : Nat) (name : String) :
    registry.look ⟨side, ordinal, .reference name⟩ =
      match registry.find? name with
      | some entry => .ok (.named entry.definition)
      | none => .error ⟨name⟩ :=
  rfl

/-- A reference leads to a definition, which leads no further, so two rounds are enough. -/
theorem exists_follow_reference (root : Node) (side : Side) (ordinal : Nat) (name : String) :
    ∃ found, root.LeadsTo ⟨side, ordinal, .reference name⟩ found ∧
      ∀ order, (collect root).IsOrder order → ∀ rounds, 1 < rounds →
        (collect root).follow order rounds ⟨side, ordinal, .reference name⟩ = some found := by
  have hsome := isOrder_someOrder root
  have hlook := look_reference (.ofRoot root) side ordinal name
  rw [← Registry.get?_bind_listed? hsome] at hlook
  cases hget : (collect root).get? (someOrder root) name with
  | none =>
    rw [hget] at hlook
    refine ⟨.error ⟨name⟩, .dangling hlook, ?_⟩
    intro order horder rounds hrounds
    obtain ⟨rest, rfl⟩ := Nat.exists_eq_add_of_lt hrounds
    rw [follow_reference, horder.get?_eq hsome, hget]
  | some place =>
    obtain ⟨hmem, definition, hdefinition⟩ := ((get?_eq_some hsome).1 hget).definition
    have hplace := isIndirect_of_definition? hdefinition
    rw [hget, Option.bind_some, Place.listed?, hdefinition] at hlook
    refine ⟨.ok place.node, .target hplace (fun _ => hmem)
      (Node.ownShape?_of_definition? hdefinition) hlook, ?_⟩
    intro order horder rounds hrounds
    obtain ⟨rest, rfl⟩ := Nat.exists_eq_add_of_lt hrounds
    rw [follow_reference, horder.get?_eq hsome, hget, Nat.add_comm 1]
    exact follow_direct hplace rest

/-- Following ends, in every order alike, with one round more than there are nodes below.  The
induction is on the logical types above the base. -/
theorem exists_follow (root node : Node) :
    ∃ found, root.LeadsTo node found ∧
      ∀ order, (collect root).IsOrder order → ∀ rounds, node.preorder.length < rounds →
        (collect root).follow order rounds node = some found := by
  induction node using Node.induction with
  | step node ih =>
    by_cases hdirect : node.schema.isIndirect = false
    · obtain ⟨shape, hshape, hlook⟩ := ownShape?_of_direct hdirect
      refine ⟨.ok node, .target hdirect id hshape (hlook _), ?_⟩
      intro order _ rounds hrounds
      obtain ⟨rest, rfl⟩ := Nat.exists_eq_succ_of_ne_zero (Nat.ne_zero_of_lt hrounds)
      exact follow_direct hdirect rest
    rcases node with ⟨side, ordinal, schema⟩
    cases schema with
    | reference name => exact exists_follow_reference root side ordinal name
    | logical base logicalType =>
      have hpart : (⟨side, ordinal, base⟩ : Node) ∈
          Node.parts ⟨side, ordinal, .logical base logicalType⟩ := .head _
      obtain ⟨found, hleads, hfollow⟩ := ih _ hpart
      refine ⟨found, hleads.of_part hpart rfl, ?_⟩
      intro order horder rounds hrounds
      obtain ⟨rest, rfl⟩ := Nat.exists_eq_succ_of_ne_zero (Nat.ne_zero_of_lt hrounds)
      exact hfollow order horder rest (Nat.lt_of_succ_lt_succ hrounds)
    | _ => exact absurd rfl hdirect

end NameTable

/-- A name stands for one place at most, whatever the order in which the bindings of the table of
the tree come.  That place is in the tree, defines a record, an enum or a fixed type, and is where
the registry finds the name.  Following a node ends, in every order at the same node, which has the
shape that the registry finds and is neither a reference nor a logical type. -/
theorem Registry.find?_of_any_order (root : Node) :
    (∃ order, (NameTable.collect root).IsOrder order) ∧
    (∀ name, ∃ place?,
      (∀ order, (NameTable.collect root).IsOrder order →
        (NameTable.collect root).get? order name = place?) ∧
      (∀ place, place? = some place ↔ root.StandsFor name place) ∧
      place?.bind Place.listed? = (ofRoot root).find? name ∧
      ∀ place, place? = some place →
        place.node ∈ root.preorder ∧ ∃ definition, place.node.definition? = some definition) ∧
    ∀ node, ∃ found, root.LeadsTo node found ∧
      ∀ order, (NameTable.collect root).IsOrder order → ∀ rounds, node.preorder.length < rounds →
        (NameTable.collect root).follow order rounds node = some found := by
  have hsome := NameTable.isOrder_someOrder root
  refine ⟨⟨_, hsome⟩, ?_, NameTable.exists_follow root⟩
  intro name
  refine ⟨(NameTable.collect root).get? (NameTable.someOrder root) name,
    fun order horder => horder.get?_eq hsome name, fun place => NameTable.get?_eq_some hsome,
    get?_bind_listed? hsome name, ?_⟩
  intro place hplace
  exact ((NameTable.get?_eq_some hsome).1 hplace).definition

/-- Two enums with one last segment, a fixed type whose full name is defined twice, once in a name
with a point, and a reference to its last segment. -/
def Node.twins : Node :=
  .root .reader (.union [.enum ⟨"Kind", some "a", []⟩ ["A"] none,
    .enum ⟨"Kind", some "b", []⟩ ["B"] none, .fixed ⟨"Id", some "b", []⟩ 4,
    .logical (.fixed ⟨"b.Id", none, []⟩ 8) .uuid, .reference "Id"])

theorem find?_of_any_order_twins :
    ∃ order, (NameTable.collect Node.twins).IsOrder order ∧
      ((NameTable.collect Node.twins).get? order "Id").map Place.position = some 3 ∧
      (NameTable.collect Node.twins).get? order "Kind" = none ∧
      ∃ target, (NameTable.collect Node.twins).follow order 2 ⟨.reader, 0, .reference "Id"⟩ =
        some (.ok target) := by
  obtain ⟨⟨order, horder⟩, hnames, hnodes⟩ := Registry.find?_of_any_order Node.twins
  refine ⟨order, horder, ?_, ?_, ?_⟩
  · obtain ⟨place?, hget, _, hfind, _⟩ := hnames "Id"
    have hposition : ((Registry.ofRoot Node.twins).find? "Id").map (·.position) = some 3 := by
      decide +kernel
    obtain ⟨entry, hentry, hthree⟩ := Option.map_eq_some_iff.1 hposition
    rw [← hfind] at hentry
    obtain ⟨place, rfl, hplace⟩ := Option.bind_eq_some_iff.1 hentry
    obtain ⟨_, _, rfl⟩ := Option.map_eq_some_iff.1 hplace
    rw [hget order horder, Option.map_some, ← hthree]
  · obtain ⟨place?, hget, _, hfind, hdefinition⟩ := hnames "Kind"
    have hnone : ((Registry.ofRoot Node.twins).find? "Kind").isNone = true := by decide +kernel
    rw [hget order horder]
    cases place? with
    | none => rfl
    | some place =>
      obtain ⟨_, definition, hsome⟩ := hdefinition place rfl
      rw [← hfind, Option.bind_some, Place.listed?, hsome] at hnone
      cases hnone
  · obtain ⟨found, hleads, hfollow⟩ := hnodes ⟨.reader, 0, .reference "Id"⟩
    have hok : ((Registry.ofRoot Node.twins).look
        ⟨.reader, 0, .reference "Id"⟩).toOption.isSome = true := by decide +kernel
    have htwo := hfollow order horder 2 (by decide)
    cases hleads with
    | target => exact ⟨_, htwo⟩
    | dangling hlook =>
      rw [hlook] at hok
      cases hok

end AvroResolution
