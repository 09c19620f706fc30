import AvroResolution.Cache
import AvroResolution.Proofs.Resolution.Revision
import Mathlib.Data.List.Dedup

/-!
# What a cache answers

A cache answers as the compiler does, whatever it was asked before.

* `Program.Alike` says that two programs differ at most in logical types directly above each
  other, inside the types of defaults.  `SchemaPair.program_of_key_eq`: pairs with one text
  have such programs, unless a reference is spelled like a primitive type or the two trees of
  a pair are one.
* `Cache.ofCalls` is the cache after some calls, and `Cache.Holds` what then holds of it:
  every pair that was compiled since the last clearing has one entry, and no two entries
  have one number.  `Cache.Holds.get` and `Cache.Holds.clear` are one call,
  `Cache.holds_ofCalls` a whole run.
* `Cache.Retired` says that a number is gone for good.  `Cache.kept_or_retired`: the program
  of an answer stays until the cache is cleared, and then its number is retired.
* `Cache.transparent` is the result.
-/

namespace AvroResolution

/-! ## Programs with one text -/

/-- The symbols are equal, but the types of two defaults may have other logical types
directly above each other, as long as their JSON forms are the same. -/
inductive Symbol.Alike : Symbol → Symbol → Prop
  | refl (symbol : Symbol) : Alike symbol symbol
  | inject {type other : Schema} (bytes : List UInt8) (hform : type.form = other.form)
      (hcollapsed : type.collapsed = other.collapsed) :
      Alike (.inject type bytes) (.inject other bytes)

/-- The programs are equal up to alike symbols. -/
structure Program.Alike (program other : Program) : Prop where
  root : program.root = other.root
  symbols : List.Forall₂ Symbol.Alike program.symbols.toList other.symbols.toList

instance : Std.Refl Symbol.Alike := ⟨.refl⟩

theorem Program.Alike.refl (program : Program) : program.Alike program :=
  ⟨rfl, List.forall₂_refl _⟩

theorem Symbol.alike_of_merged {symbol other : Symbol}
    (h : symbol.mapType Schema.merged = other.mapType Schema.merged) : symbol.Alike other := by
  cases symbol with
  | inject type bytes =>
    cases other with
    | inject type' bytes' =>
      obtain ⟨htype, rfl⟩ := Symbol.inject.inj h
      refine .inject bytes ?_ ?_
      · rw [← type.form_merged, htype, type'.form_merged]
      · rw [← type.collapsed_merged, htype, type'.collapsed_merged]
    | _ => cases h
  | _ =>
    cases other with
    | inject => cases h
    | _ => cases h <;> exact .refl _

theorem Program.alike_of_merged {program other : Program}
    (h : program.mapTypes Schema.merged = other.mapTypes Schema.merged) :
    program.Alike other := by
  have hroot : (program.mapTypes Schema.merged).root = (other.mapTypes Schema.merged).root :=
    congrArg Program.root h
  refine ⟨hroot, ?_⟩
  have hsymbols := congrArg (fun program : Program => program.symbols.toList) h
  simp only [Program.mapTypes, Array.toList_map] at hsymbols
  have hforall := List.forall₂_eq_eq_eq ▸ hsymbols
  rw [List.forall₂_map_left_iff, List.forall₂_map_right_iff] at hforall
  exact hforall.imp fun _ _ => Symbol.alike_of_merged

namespace SchemaPair

/-- The two trees of the pair are separate, and no reference in them is spelled like a
primitive type. -/
def Separate : SchemaPair → Prop
  | .twoTrees writer reader =>
    Schema.SparePrimitives writer.references ∧ Schema.SparePrimitives reader.references
  | .oneTree _ => False

instance (pair : SchemaPair) : Decidable pair.Separate :=
  match pair with
  | .twoTrees writer reader => inferInstanceAs (Decidable (Schema.SparePrimitives
      writer.references ∧ Schema.SparePrimitives reader.references))
  | .oneTree _ => inferInstanceAs (Decidable False)

/-- Whether the pair has a program. -/
def compiles (config : Config) (pair : SchemaPair) : Bool :=
  (pair.program config).toOption.isSome

/-- Pairs with one key have one program, up to the types of its defaults. -/
theorem program_of_key_eq {pair other : SchemaPair} (hpair : pair.Separate)
    (hother : other.Separate) (h : Cache.key pair = Cache.key other) (config : Config) :
    (pair.program config).map (Program.mapTypes Schema.merged) =
      (other.program config).map (Program.mapTypes Schema.merged) := by
  cases pair with
  | oneTree => exact hpair.elim
  | twoTrees writer reader =>
    cases other with
    | oneTree => exact hother.elim
    | twoTrees writer' reader' =>
      obtain ⟨hwriter, hreader⟩ := Prod.mk.inj h
      refine program_congr Schema.revises_merged ?_ config
      rw [mapSchema, mapSchema, Schema.merged_eq_of_text_eq hpair.1 hother.1 hwriter,
        Schema.merged_eq_of_text_eq hpair.2 hother.2 hreader]

end SchemaPair

namespace Cache

/-! ## Calls -/

/-- What a cache may be asked to do. -/
inductive Call where
  | get (pair : SchemaPair)
  | clear

/-- The cache after a call. -/
def next (cache : Cache) : Call → Cache
  | .get pair => (cache.get pair).2
  | .clear => cache.clear

/-- The cache after some calls. -/
def ofCalls (config : Config) (calls : List Call) : Cache :=
  calls.foldl next (empty config)

/-- The pairs that were asked for since the cache was last cleared. -/
def pairsSinceClear (calls : List Call) : List SchemaPair :=
  calls.foldl (fun pairs call =>
    match call with
    | .get pair => pairs ++ [pair]
    | .clear => []) []

/-- The answer for a pair is the fault of its compilation, or a program like the one that
it compiles to. -/
def Answers (answer : Except SchemaFault CachedProgram)
    (compiled : Except SchemaFault Program) : Prop :=
  match compiled with
  | .error fault => answer = .error fault
  | .ok program => ∃ known, answer = .ok known ∧ known.program.Alike program

theorem ofCalls_concat (config : Config) (calls : List Call) (call : Call) :
    ofCalls config (calls ++ [call]) = (ofCalls config calls).next call :=
  List.foldl_concat ..

theorem pairsSinceClear_get (calls : List Call) (pair : SchemaPair) :
    pairsSinceClear (calls ++ [.get pair]) = pairsSinceClear calls ++ [pair] :=
  List.foldl_concat ..

theorem pairsSinceClear_clear (calls : List Call) :
    pairsSinceClear (calls ++ [.clear]) = [] :=
  List.foldl_concat ..

theorem get_mem_of_mem_pairsSinceClear {calls : List Call} {pair : SchemaPair}
    (h : pair ∈ pairsSinceClear calls) : .get pair ∈ calls := by
  induction calls using List.reverseRecOn with
  | nil => cases h
  | append_singleton calls call ih =>
    cases call with
    | get other =>
      rw [pairsSinceClear_get] at h
      rcases List.mem_append.1 h with h | h
      · exact List.mem_append_left _ (ih h)
      · rw [List.mem_singleton.1 h]
        exact List.mem_append_right _ (.head _)
    | clear =>
      rw [pairsSinceClear_clear] at h
      cases h

/-! ## One call -/

variable {config : Config} {cache : Cache} {pair : SchemaPair} {pairs : List SchemaPair}

/-- A pair has its entry, or it is compiled, for nothing or for a new entry. -/
theorem get_cases (cache : Cache) (pair : SchemaPair) :
    (∃ known, (key pair, known) ∈ cache.entries ∧ cache.get pair = (.ok known, cache)) ∨
      (∀ entry ∈ cache.entries, entry.1 ≠ key pair) ∧
        ((∃ fault, pair.program cache.config = .error fault ∧
            cache.get pair = (.error fault, cache)) ∨
          ∃ program, pair.program cache.config = .ok program ∧
            cache.get pair = (.ok ⟨cache.compiled, program⟩,
              ⟨cache.config, (key pair, ⟨cache.compiled, program⟩) :: cache.entries,
                cache.compiled + 1⟩)) := by
  rw [get]
  cases hlookup : cache.entries.lookup (key pair) with
  | some known =>
    obtain ⟨before, after, hentries, _⟩ := List.lookup_eq_some_iff.1 hlookup
    exact .inl ⟨known, by simp [hentries], rfl⟩
  | none =>
    have hnew : ∀ entry ∈ cache.entries, entry.1 ≠ key pair := fun entry hentry hsame => by
      have hne := List.lookup_eq_none_iff.1 hlookup entry hentry
      simp [hsame] at hne
    refine .inr ⟨hnew, ?_⟩
    cases hprogram : pair.program cache.config with
    | error fault => exact .inl ⟨fault, rfl, rfl⟩
    | ok program => exact .inr ⟨program, rfl, rfl⟩

/-- What holds of a cache when `pairs` were asked for since it was last cleared. -/
structure Holds (config : Config) (pairs : List SchemaPair) (cache : Cache) : Prop where
  sameConfig : cache.config = config
  keys : (cache.entries.map (·.1)).Nodup
  numbers : (cache.entries.map (·.2.number)).Nodup
  below : ∀ entry ∈ cache.entries, entry.2.number < cache.compiled
  source : ∀ entry ∈ cache.entries, ∃ pair ∈ pairs, key pair = entry.1 ∧
    pair.program config = .ok entry.2.program
  kept : ∀ pair ∈ pairs, pair.compiles config = true → key pair ∈ cache.entries.map (·.1)

namespace Holds

theorem get (h : Holds config pairs cache) (pair : SchemaPair) :
    Holds config (pairs ++ [pair]) (cache.get pair).2 := by
  have hsource : ∀ entry ∈ cache.entries, ∃ other ∈ pairs ++ [pair], key other = entry.1 ∧
      other.program config = .ok entry.2.program := fun entry hentry => by
    obtain ⟨other, hother, hsame⟩ := h.source entry hentry
    exact ⟨other, List.mem_append_left _ hother, hsame⟩
  rcases cache.get_cases pair with
    ⟨known, hknown, hget⟩ | ⟨hnew, ⟨fault, hprogram, hget⟩ | ⟨program, hprogram, hget⟩⟩
  · rw [hget]
    refine ⟨h.sameConfig, h.keys, h.numbers, h.below, hsource, fun other hother hcompiles => ?_⟩
    rcases List.mem_append.1 hother with hother | hother
    · exact h.kept other hother hcompiles
    · rw [List.mem_singleton.1 hother]
      exact List.mem_map_of_mem hknown
  · rw [hget]
    refine ⟨h.sameConfig, h.keys, h.numbers, h.below, hsource, fun other hother hcompiles => ?_⟩
    rcases List.mem_append.1 hother with hother | hother
    · exact h.kept other hother hcompiles
    · rw [List.mem_singleton.1 hother, SchemaPair.compiles, ← h.sameConfig, hprogram] at hcompiles
      cases hcompiles
  · rw [hget]
    rw [h.sameConfig] at hprogram
    refine ⟨h.sameConfig, ?_, ?_, ?_, ?_, fun other hother hcompiles => ?_⟩
    · refine List.nodup_cons.2 ⟨fun hmem => ?_, h.keys⟩
      obtain ⟨entry, hentry, hsame⟩ := List.mem_map.1 hmem
      exact hnew entry hentry hsame
    · refine List.nodup_cons.2 ⟨fun hmem => ?_, h.numbers⟩
      obtain ⟨entry, hentry, hsame⟩ := List.mem_map.1 hmem
      exact absurd hsame (h.below entry hentry).ne
    · rintro entry hentry
      rcases List.mem_cons.1 hentry with rfl | hentry
      · exact Nat.lt_succ_self _
      · exact (h.below entry hentry).trans (Nat.lt_succ_self _)
    · rintro entry hentry
      rcases List.mem_cons.1 hentry with rfl | hentry
      · exact ⟨pair, List.mem_append_right _ (.head _), rfl, hprogram⟩
      · exact hsource entry hentry
    · rcases List.mem_append.1 hother with hother | hother
      · exact .tail _ (h.kept other hother hcompiles)
      · rw [List.mem_singleton.1 hother]
        exact .head _

theorem clear (h : Holds config pairs cache) : Holds config [] cache.clear :=
  ⟨h.sameConfig, .nil, .nil, fun _ hentry => (List.not_mem_nil hentry).elim,
    fun _ hentry => (List.not_mem_nil hentry).elim,
    fun _ hother => (List.not_mem_nil hother).elim⟩

/-- The cache has one entry for each key that was compiled. -/
theorem length_eq (h : Holds config pairs cache) :
    cache.length = ((pairs.filter (·.compiles config)).map key).dedup.length := by
  have hperm : (cache.entries.map (·.1)).Perm
      ((pairs.filter (·.compiles config)).map key).dedup := by
    refine (List.perm_ext_iff_of_nodup h.keys (List.nodup_dedup _)).2 fun name => ?_
    rw [List.mem_dedup]
    constructor
    · intro hname
      obtain ⟨entry, hentry, rfl⟩ := List.mem_map.1 hname
      obtain ⟨pair, hpair, hkey, hprogram⟩ := h.source entry hentry
      refine List.mem_map.2 ⟨pair, List.mem_filter.2 ⟨hpair, ?_⟩, hkey⟩
      rw [SchemaPair.compiles, hprogram]
      rfl
    · intro hname
      obtain ⟨pair, hpair, rfl⟩ := List.mem_map.1 hname
      obtain ⟨hpair, hcompiles⟩ := List.mem_filter.1 hpair
      exact h.kept pair hpair hcompiles
  rw [length, ← hperm.length_eq, List.length_map]

/-- A cache answers as the compiler does. -/
theorem answers (h : Holds config pairs cache) (hpairs : ∀ other ∈ pairs, other.Separate)
    (hpair : pair.Separate) : Answers (cache.get pair).1 (pair.program config) := by
  rcases cache.get_cases pair with
    ⟨known, hknown, hget⟩ | ⟨_, ⟨fault, hprogram, hget⟩ | ⟨program, hprogram, hget⟩⟩
  · obtain ⟨other, hother, hkey, hprogram⟩ := h.source _ hknown
    have hsame := SchemaPair.program_of_key_eq (hpairs other hother) hpair hkey config
    rw [hprogram] at hsame
    rw [hget]
    cases hpairProgram : pair.program config with
    | error fault =>
      rw [hpairProgram] at hsame
      cases hsame
    | ok program =>
      rw [hpairProgram] at hsame
      exact ⟨known, rfl, Program.alike_of_merged (Except.ok.inj hsame)⟩
  · rw [h.sameConfig] at hprogram
    rw [hget, hprogram]
    rfl
  · rw [h.sameConfig] at hprogram
    rw [hget, hprogram]
    exact ⟨_, rfl, .refl _⟩

end Holds

/-- A run keeps what holds of a cache. -/
theorem holds_ofCalls (config : Config) (calls : List Call) :
    Holds config (pairsSinceClear calls) (ofCalls config calls) := by
  induction calls using List.reverseRecOn with
  | nil =>
    exact ⟨rfl, .nil, .nil, fun _ hentry => (List.not_mem_nil hentry).elim,
      fun _ hentry => (List.not_mem_nil hentry).elim,
      fun _ hother => (List.not_mem_nil hother).elim⟩
  | append_singleton calls call ih =>
    rw [ofCalls_concat]
    cases call with
    | get pair =>
      rw [pairsSinceClear_get]
      exact ih.get pair
    | clear =>
      rw [pairsSinceClear_clear]
      exact ih.clear

/-! ## The numbers of programs -/

theorem mem_entries_get {known : CachedProgram} (h : (cache.get pair).1 = .ok known) :
    (key pair, known) ∈ (cache.get pair).2.entries := by
  rcases cache.get_cases pair with
    ⟨other, hother, hget⟩ | ⟨_, ⟨fault, _, hget⟩ | ⟨program, _, hget⟩⟩
  · rw [hget] at h ⊢
    obtain rfl := Except.ok.inj h
    exact hother
  · rw [hget] at h
    cases h
  · rw [hget] at h ⊢
    obtain rfl := Except.ok.inj h
    exact .head _

theorem entries_subset_get (cache : Cache) (pair : SchemaPair) :
    cache.entries ⊆ (cache.get pair).2.entries := by
  rcases cache.get_cases pair with
    ⟨other, _, hget⟩ | ⟨_, ⟨fault, _, hget⟩ | ⟨program, _, hget⟩⟩
  · exact fun _ hentry => hget ▸ hentry
  · exact fun _ hentry => hget ▸ hentry
  · exact fun _ hentry => hget ▸ .tail _ hentry

/-- A call that fails leaves the cache as it was. -/
theorem get_error {fault : SchemaFault} (h : (cache.get pair).1 = .error fault) :
    (cache.get pair).2 = cache := by
  rcases cache.get_cases pair with
    ⟨other, _, hget⟩ | ⟨_, ⟨fault, _, hget⟩ | ⟨program, _, hget⟩⟩
  · rw [hget]
  · rw [hget]
  · rw [hget] at h
    cases h

/-- No program has the number any more, and none will. -/
structure Retired (number : Nat) (cache : Cache) : Prop where
  used : number < cache.compiled
  absent : ∀ entry ∈ cache.entries, entry.2.number ≠ number

theorem Retired.get {number : Nat} (h : Retired number cache) (pair : SchemaPair) :
    Retired number (cache.get pair).2 := by
  rcases cache.get_cases pair with
    ⟨other, _, hget⟩ | ⟨_, ⟨fault, _, hget⟩ | ⟨program, _, hget⟩⟩
  · rwa [hget]
  · rwa [hget]
  · rw [hget]
    refine ⟨h.used.trans (Nat.lt_succ_self _), fun entry hentry => ?_⟩
    rcases List.mem_cons.1 hentry with rfl | hentry
    · exact h.used.ne'
    · exact h.absent entry hentry

theorem retired_clear {number : Nat} (h : number < cache.compiled) :
    Retired number cache.clear :=
  ⟨h, fun _ hentry => (List.not_mem_nil hentry).elim⟩

/-- The program of an answer stays in the cache until the cache is cleared, and is gone
from then on. -/
theorem kept_or_retired {calls : List Call} {known : CachedProgram}
    (h : ((ofCalls config calls).get pair).1 = .ok known) (between : List Call) :
    Call.clear ∉ between ∧
        (key pair, known) ∈ (ofCalls config (calls ++ .get pair :: between)).entries ∨
      Call.clear ∈ between ∧
        Retired known.number (ofCalls config (calls ++ .get pair :: between)) := by
  induction between using List.reverseRecOn with
  | nil =>
    rw [ofCalls_concat]
    exact .inl ⟨List.not_mem_nil, mem_entries_get h⟩
  | append_singleton between call ih =>
    have happend : calls ++ .get pair :: (between ++ [call]) =
        calls ++ .get pair :: between ++ [call] := by simp
    rw [happend, ofCalls_concat]
    cases call with
    | get other =>
      rcases ih with ⟨hnone, hkept⟩ | ⟨hclear, hretired⟩
      · exact .inl ⟨by simpa using hnone, entries_subset_get _ other hkept⟩
      · exact .inr ⟨List.mem_append_left _ hclear, hretired.get other⟩
    | clear =>
      refine .inr ⟨List.mem_append_right _ (.head _), retired_clear ?_⟩
      rcases ih with ⟨_, hkept⟩ | ⟨_, hretired⟩
      · exact (holds_ofCalls config _).below _ hkept
      · exact hretired.used

/-- Answers share their program exactly when they were asked for under one key with no
clearing between them. -/
theorem number_eq_iff {calls between : List Call} {later : SchemaPair}
    {known other : CachedProgram} (hknown : ((ofCalls config calls).get pair).1 = .ok known)
    (hother : ((ofCalls config (calls ++ .get pair :: between)).get later).1 = .ok other) :
    (known.number = other.number ↔ key pair = key later ∧ Call.clear ∉ between) ∧
      (known.number = other.number → known = other) := by
  have hlater := mem_entries_get hother
  have hholds := (holds_ofCalls config (calls ++ .get pair :: between)).get later
  rcases kept_or_retired hknown between with ⟨hnone, hkept⟩ | ⟨hclear, hretired⟩
  · have hkept := entries_subset_get _ later hkept
    have hnumber : known.number = other.number → (key pair, known) = (key later, other) :=
      List.inj_on_of_nodup_map hholds.numbers hkept hlater
    have hkey : key pair = key later → (key pair, known) = (key later, other) :=
      List.inj_on_of_nodup_map hholds.keys hkept hlater
    refine ⟨⟨fun hsame => ⟨congrArg Prod.fst (hnumber hsame), hnone⟩, fun ⟨hsame, _⟩ => ?_⟩,
      fun hsame => congrArg Prod.snd (hnumber hsame)⟩
    exact congrArg (·.2.number) (hkey hsame)
  · have hne : other.number ≠ known.number := (hretired.get later).absent _ hlater
    exact ⟨⟨fun hsame => (hne hsame.symm).elim, fun hsame => (hsame.2 hclear).elim⟩,
      fun hsame => (hne hsame.symm).elim⟩

/-! ## A whole run -/

/-- After any calls, a cache answers as the compiler does, up to the types of the defaults;
a call that fails changes nothing; and there is one program for every pair of texts that was
compiled since the last clearing.  Two answers of a run are one program exactly when
the pairs have one text and the cache was not cleared between them. -/
theorem transparent (config : Config) (calls : List Call) (pair : SchemaPair)
    (hcalls : ∀ other, .get other ∈ calls → other.Separate) (hpair : pair.Separate) :
    Answers ((ofCalls config calls).get pair).1 (pair.program config) ∧
      (∀ fault, ((ofCalls config calls).get pair).1 = .error fault →
        ((ofCalls config calls).get pair).2 = ofCalls config calls) ∧
      (ofCalls config calls).length =
        (((pairsSinceClear calls).filter (·.compiles config)).map key).dedup.length ∧
      ∀ between later known other, ((ofCalls config calls).get pair).1 = .ok known →
        ((ofCalls config (calls ++ .get pair :: between)).get later).1 = .ok other →
        (known.number = other.number ↔ key pair = key later ∧ Call.clear ∉ between) ∧
          (known.number = other.number → known = other) := by
  have hholds := holds_ofCalls config calls
  refine ⟨hholds.answers ?_ hpair, fun _ => get_error, hholds.length_eq,
    fun _ _ _ _ => number_eq_iff⟩
  exact fun other hother => hcalls other (get_mem_of_mem_pairsSinceClear hother)

/-- Events to which the reader gives a time of the given base. -/
def events (base : Schema) : SchemaPair :=
  .twoTrees (.record ⟨"Event", none, []⟩ [])
    (.record ⟨"Event", none, []⟩ [⟨"at", .logical base .timeMillis, some (.integer 0), []⟩])

/-- Events whose times are plain integers, compiled twice with a clearing between. -/
def eventCalls : List Call :=
  [.get (events (.primitive .int)), .clear, .get (events (.primitive .int))]

/-- Events whose times are dates below. -/
def datedEvents : SchemaPair :=
  events (.logical (.primitive .int) .date)

/-- A date below a time does not show, so the second program for plain integers answers. -/
theorem transparent_events :
    (∀ other, .get other ∈ eventCalls → other.Separate) ∧ datedEvents.Separate ∧
      (ofCalls {} eventCalls).length = 1 ∧
        ∃ known program, ((ofCalls {} eventCalls).get datedEvents).1 = .ok known ∧
          known.number = 1 ∧ datedEvents.program {} = .ok program ∧
            known.program.Alike program := by
  have hcalls : ∀ other, .get other ∈ eventCalls → other.Separate := by
    intro other hother
    simp only [eventCalls, List.mem_cons, Call.get.injEq, reduceCtorEq, List.not_mem_nil, or_false,
      false_or, or_self] at hother
    rw [hother]
    decide +kernel
  have hdated : datedEvents.Separate := by decide +kernel
  obtain ⟨known, hknown, hnumber⟩ := Reader.exists_ok ((ofCalls {} eventCalls).get datedEvents).1
    (·.number == 1) (by decide +kernel)
  obtain ⟨program, hprogram, -⟩ := Reader.exists_ok (datedEvents.program {}) (fun _ => true)
    (by decide +kernel)
  have hanswers := (transparent {} eventCalls datedEvents hcalls hdated).1
  rw [hprogram, hknown] at hanswers
  obtain ⟨_, hsame, halike⟩ := hanswers
  obtain rfl := Except.ok.inj hsame
  exact ⟨hcalls, hdated, by decide +kernel, known, program, hknown, eq_of_beq hnumber, hprogram,
    halike⟩

end Cache

end AvroResolution
