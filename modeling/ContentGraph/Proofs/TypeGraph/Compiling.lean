import ContentGraph.Proofs.TypeGraph.Catalogue

/-!
# What a compilation gives

Compiling a set into a catalogue fails exactly where a set that is looked at cannot be merged, and
else completes the type of the set and all types that it begins (`compiles_compileSet`). The
invariant of the merge is `Merging`: after some definitions the type has the keys met so far, each
field fits all of them, and every other type that was begun is complete.
-/

namespace ContentGraph

open Compilation (definitions blank withField exec resolving addDefinition compileField resolvesTo
  compileSet)

section

variable (source : Source) (R : Table Schema → Prop) (hashLength : Int)

/-- A failure: something that was looked at cannot be merged, and what was begun is complete or
doomed. -/
structure Fails (start : Catalogue) (set : Table Schema) (types : Catalogue) : Prop where
  /-- The type of the set was begun. -/
  mem : identityOf set ∈ types.keys
  /-- What was there is unchanged. -/
  older : start.Extends types
  /-- The types have the names of sets. -/
  named : Named R hashLength types
  /-- What cannot be merged. -/
  bad : ∃ bad, Exposed source start set bad ∧ ¬ Mergeable source bad
  /-- What was begun. -/
  newer : ∀ i ∈ types.keys, i ∉ start.keys → Complete source R types i ∨ Doomed source R i

/-- A success: the type of the set is there, and what was begun is complete. -/
structure Succeeds (start : Catalogue) (set : Table Schema) (i : String) (types : Catalogue) : Prop where
  /-- The identity that is given. -/
  identity : i = identityOf set
  /-- The type is there. -/
  mem : i ∈ types.keys
  /-- What was there is unchanged. -/
  older : start.Extends types
  /-- The types have the names of sets. -/
  named : Named R hashLength types
  /-- What was begun. -/
  newer : ∀ j ∈ types.keys, j ∉ start.keys → Complete source R types j

/-- What compiling a set into a catalogue gives. -/
def Compiles (start : Catalogue) (set : Table Schema) : Except Failure String × Catalogue → Prop
  | (.ok i, types) => Succeeds source R hashLength start set i types
  | (.error _, types) => Fails source R hashLength start set types

/-- The type of a set after some definitions, with the first definition of each key. -/
structure Merging (start : Catalogue) (set : Table Schema) (done : List (String × String × Definition))
    (owners : Table (String × Definition)) (types : Catalogue) (t : NodeType) : Prop where
  /-- What was there is unchanged. -/
  older : start.Extends types
  /-- The types have the names of sets. -/
  named : Named R hashLength types
  /-- The type as far as it is merged. -/
  current : types.get? (identityOf set) = some t
  /-- The keys with a first definition are those with a field. -/
  owned : ∀ key, key ∈ owners.keys ↔ key ∈ t.fields.keys
  /-- First definitions were met. -/
  first : ∀ key owner d, owners.get? key = some (owner, d) → (owner, key, d) ∈ done
  /-- Fields are keys that were met. -/
  keys : ∀ key ∈ t.fields.keys, ∃ address d, (address, key, d) ∈ done
  /-- Fields fit all definitions that were met. -/
  fields : ∀ address key d, (address, key, d) ∈ done →
    ∃ f, t.fields.get? key = some f ∧ f.Fits source types d
  /-- The fields are those of the first definitions. -/
  merged : t.fields = mergedFields source done
  /-- All other types that were begun are complete. -/
  newer : ∀ j ∈ types.keys, j ∉ start.keys → j ≠ identityOf set → Complete source R types j

end

variable {source : Source} {R : Table Schema → Prop} {hashLength : Int}
  {start types types' : Catalogue} {set set' : Table Schema}
  {done : List (String × String × Definition)} {owners : Table (String × Definition)} {t : NodeType}

/-! ### Fits of later definitions -/

theorem Field.Fits.of_equivalent {f : Field} {d e : Definition} (h : f.Fits source types d)
    (he : d.equivalent e = true) : f.Fits source types e := by
  cases d with
  | value k m =>
    cases e with
    | value k' m' =>
      simp only [Definition.equivalent, Bool.and_eq_true, decide_eq_true_eq] at he
      obtain ⟨rfl, rfl⟩ := he
      exact h
    | node m' ss' => cases he
  | node m ss =>
    cases e with
    | value k' m' => cases he
    | node m' ss' =>
      simp only [Definition.equivalent, Bool.and_eq_true, decide_eq_true_eq, List.all_eq_true,
        List.contains_iff_mem] at he
      obtain ⟨⟨rfl, hsub⟩, hsup⟩ := he
      obtain ⟨hne, set, hs, ht, hi⟩ := h.target rfl
      obtain ⟨set', hs', hsame⟩ := Source.resolve_congr (fun a => ⟨hsub a, hsup a⟩) hs
      refine ⟨h.kind_eq, h.multiple_eq, fun multiple schemas hd => ?_⟩
      cases hd
      rw [SameAddresses.identityOf_eq hsame] at ht hi
      refine ⟨fun hn => hne ?_, set', hs', ht, hi⟩
      exact List.eq_nil_iff_forall_not_mem.2 fun a ha => by simpa [hn] using hsub a ha

/-- A definition that resolves as the field does fits the field. -/
theorem Field.Fits.of_resolvesTo {f : Field} {d e : Definition} (h : f.Fits source types d)
    (he : exec (resolvesTo (resolving source) f e) types = (.ok true, types)) :
    f.Fits source types e := by
  rw [Compilation.exec_resolvesTo] at he
  obtain ⟨shape, multiple⟩ := f
  rcases shape with k | ⟨declared, target⟩
  · cases he
  · rcases e with _ | ⟨m, ss⟩
    · cases he
    · dsimp only at he
      split at he
      · cases he
      · next hne =>
        rw [not_or, not_not] at hne
        split at he
        · cases he
        · next set hs =>
          have ht : identityOf set = target := by simpa [identityOf] using he
          cases d with
          | value k' m' => cases h.kind_eq
          | node m' ss' =>
            obtain ⟨-, set', -, ht', hi⟩ := h.target rfl
            rw [← ht] at ht' ⊢
            rw [← Option.some.inj ht'] at hi
            refine ⟨rfl, hne.1.symm, fun multiple' schemas hd => ?_⟩
            cases hd
            exact ⟨hne.2, set, hs, rfl, hi⟩

/-- Definitions that agree are of one declared shape or resolve alike. -/
theorem resolvesTo_of_agrees {f : Field} {d e : Definition} (h : f.Fits source types d)
    (ha : d.Agrees source e) (hne : ∀ multiple schemas, e = .node multiple schemas → schemas ≠ []) :
    d.equivalent e = true ∨ exec (resolvesTo (resolving source) f e) types = (.ok true, types) := by
  cases d with
  | value k m =>
    cases e with
    | value k' m' =>
      obtain ⟨rfl, rfl⟩ := ha
      exact .inl (by simp [Definition.equivalent])
    | node m' ss' => exact ha.elim
  | node m ss =>
    cases e with
    | value k' m' => exact ha.elim
    | node m' ss' =>
      obtain ⟨rfl, set, set', hs, hs', hsame⟩ := ha
      obtain ⟨-, set'', hs'', ht, -⟩ := h.target rfl
      cases hs.symm.trans hs''
      right
      rw [Compilation.exec_resolvesTo]
      obtain ⟨shape, multiple⟩ := f
      rcases shape with k | ⟨declared, target⟩
      · cases ht
      · have hm : ¬ (m ≠ multiple ∨ ss' = []) := by
          rw [not_or, not_not]
          exact ⟨h.multiple_eq.symm, hne m ss' rfl⟩
        have hi : typeIdentity set'.keys = target :=
          hsame.identityOf_eq.symm.trans (Option.some.inj ht).symm
        dsimp only
        rw [if_neg hm, hs']
        simp [hi]

/-! ### Steps of a merge -/

theorem mergedFields_concat (done : List (String × String × Definition)) (address key : String)
    (d : Definition) : mergedFields source (done ++ [(address, key, d)]) =
      if key ∈ (mergedFields source done).keys then mergedFields source done
      else (mergedFields source done).insert key (d.field source) := by
  rw [mergedFields, List.map_append, List.map_singleton, firstOfEach_concat]
  rfl

namespace Merging

variable (hR : Family source R) (hset : R set) (hnew : identityOf set ∉ start.keys)

include hset hnew in
/-- A merge begins with a type without fields. -/
theorem of_blank (hnamed : Named R hashLength start) :
    Merging source R hashLength start set [] .empty
      (start.insert (identityOf set) (blank hashLength set)) (blank hashLength set) := by
  refine ⟨.of_insert hnew, hnamed.insert_blank hset, Table.get?_insert_self _ _ _, fun key => Iff.rfl,
    fun key owner d hd => ?_, fun key hk => ?_, fun address key d hd => ?_, rfl, fun j hj hjs hji => ?_⟩
  · cases hd
  · cases hk
  · cases hd
  · exact absurd ((Table.mem_keys_insert.1 hj).resolve_left hji) hjs

include hset in
/-- A merge of all definitions succeeds where there are any. -/
theorem succeeds (h : Merging source R hashLength start set (definitions set) owners types t)
    (hne : t.fields.entries ≠ []) :
    Succeeds source R hashLength start set (identityOf set) types := by
  have hd : Describes source types set t :=
    ⟨hne, h.keys, fun address key d hd => h.fields address key d hd, set, List.Perm.refl _, h.merged⟩
  refine ⟨rfl, Table.mem_keys_iff.2 ⟨t, h.current⟩, h.older, h.named, fun j hj hjs => ?_⟩
  by_cases hji : j = identityOf set
  · exact ⟨set, t, hset, hji, hji ▸ h.current, hd⟩
  · exact h.newer j hj hjs hji

/-- A merge goes on from where a nested compilation left the catalogue. -/
theorem extend {i : String} (h : Merging source R hashLength start set done owners types t)
    (hs : Succeeds source R hashLength types set' i types') :
    Merging source R hashLength start set done owners types' t := by
  refine ⟨h.older.trans hs.older, hs.named, hs.older _ _ h.current, h.owned, h.first, h.keys,
    fun address key d hd => ?_, h.merged, fun j hj hjs hne => ?_⟩
  · obtain ⟨f, hf, hfit⟩ := h.fields address key d hd
    exact ⟨f, hf, hfit.mono fun _ => hs.older.keys⟩
  · by_cases hjt : j ∈ types.keys
    · exact (h.newer j hjt hjs hne).mono hs.older
    · exact hs.newer j hj hjt

/-- A later definition that fits its field. -/
theorem later {address key : String} {d : Definition} {f : Field}
    (h : Merging source R hashLength start set done owners types t)
    (hf : t.fields.get? key = some f) (hfit : f.Fits source types d) :
    Merging source R hashLength start set (done ++ [(address, key, d)]) owners types t := by
  refine ⟨h.older, h.named, h.current, h.owned, fun k o e he => List.mem_append_left _ (h.first k o e he),
    fun k hk => ?_, fun a k e he => ?_, ?_, h.newer⟩
  · obtain ⟨a, e, hm⟩ := h.keys k hk
    exact ⟨a, e, List.mem_append_left _ hm⟩
  · rcases List.mem_append.1 he with he | he
    · exact h.fields a k e he
    · cases List.mem_singleton.1 he
      exact ⟨f, hf, hfit⟩
  · have hk : key ∈ (mergedFields source done).keys := h.merged ▸ Table.mem_keys_iff.2 ⟨f, hf⟩
    rw [mergedFields_concat, if_pos hk, h.merged]

/-- The first definition of a key, with a field that fits it. -/
theorem opened {address key : String} {d : Definition} {f : Field}
    (h : Merging source R hashLength start set done owners types t) (hnew : identityOf set ∉ start.keys)
    (hk : key ∉ t.fields.keys) (hmade : f = d.field source) (hfit : f.Fits source types d) :
    Merging source R hashLength start set (done ++ [(address, key, d)]) (owners.insert key (address, d))
      (withField (identityOf set) key f types) { t with fields := t.fields.insert key f } := by
  have hkeys := keys_withField (identityOf set) key f types
  have hmono : ∀ j ∈ types.keys, j ∈ (withField (identityOf set) key f types).keys := by
    intro j hj
    rwa [show Table.keys (withField (identityOf set) key f types) = types.keys from hkeys]
  have hne : ∀ {k}, k ∈ t.fields.keys → k ≠ key := by
    rintro k hk' rfl
    exact hk hk'
  refine ⟨fun j u hj => ?_, h.named.withField, get?_withField_self h.current, fun k => ?_, fun k o e he => ?_,
    fun k hk' => ?_, fun a k e he => ?_, ?_, fun j hj hjs hji => ?_⟩
  · have hji : j ≠ identityOf set := by
      rintro rfl
      exact hnew (Table.mem_keys_iff.2 ⟨u, hj⟩)
    rw [get?_withField_of_ne hji]
    exact h.older j u hj
  · rw [Table.mem_keys_insert, h.owned]
    exact Table.mem_keys_insert.symm
  · by_cases hko : k = key
    · subst hko
      rw [Table.get?_insert_self] at he
      cases he
      exact List.mem_append_right _ List.mem_cons_self
    · rw [Table.get?_insert_of_ne hko] at he
      exact List.mem_append_left _ (h.first k o e he)
  · rcases Table.mem_keys_insert.1 hk' with rfl | hk'
    · exact ⟨address, d, List.mem_append_right _ List.mem_cons_self⟩
    · obtain ⟨a, e, hm⟩ := h.keys k hk'
      exact ⟨a, e, List.mem_append_left _ hm⟩
  · rcases List.mem_append.1 he with he | he
    · obtain ⟨g, hg, hgfit⟩ := h.fields a k e he
      refine ⟨g, ?_, hgfit.mono hmono⟩
      show (t.fields.insert key f).get? k = some g
      rw [Table.get?_insert_of_ne (hne (Table.mem_keys_iff.2 ⟨g, hg⟩))]
      exact hg
    · cases List.mem_singleton.1 he
      exact ⟨f, Table.get?_insert_self _ _ _, hfit.mono hmono⟩
  · show t.fields.insert key f = _
    rw [mergedFields_concat, ← h.merged, if_neg hk, hmade]
  · rw [show Table.keys (withField (identityOf set) key f types) = types.keys from hkeys] at hj
    obtain ⟨s, u, hs, hi, hu, hd⟩ := h.newer j hj hjs hji
    refine ⟨s, u, hs, hi, ?_, hd.mono hmono⟩
    rw [get?_withField_of_ne hji]
    exact hu

include hset in
/-- A merge fails where its set cannot be merged. -/
theorem fails (h : Merging source R hashLength start set done owners types t)
    (hnew : identityOf set ∉ start.keys) (hbad : ¬ Mergeable source set) :
    Fails source R hashLength start set types := by
  refine ⟨Table.mem_keys_iff.2 ⟨t, h.current⟩, h.older, h.named, ⟨set, .self hnew, hbad⟩,
    fun j hj hjs => ?_⟩
  by_cases hji : j = identityOf set
  · exact .inr ⟨set, set, hset, hji, .refl, hbad⟩
  · exact .inl (h.newer j hj hjs hji)

include hset in
/-- A merge fails where a nested compilation does. -/
theorem fails_of_leads (h : Merging source R hashLength start set done owners types t)
    (hnew : identityOf set ∉ start.keys) (hl : Leads source set set')
    (hf : Fails source R hashLength types set' types') : Fails source R hashLength start set types' := by
  obtain ⟨bad, he, hbad⟩ := hf.bad
  have hexposed : Exposed source start set bad := (he.mono fun _ => h.older.keys).of_leads hnew hl
  refine ⟨hf.older.keys (Table.mem_keys_iff.2 ⟨t, h.current⟩), h.older.trans hf.older, hf.named,
    ⟨bad, hexposed, hbad⟩, fun j hj hjs => ?_⟩
  by_cases hjt : j ∈ types.keys
  · by_cases hji : j = identityOf set
    · exact .inr ⟨set, bad, hset, hji, hexposed.leadsTo, hbad⟩
    · exact .inl ((h.newer j hjt hjs hji).mono hf.older)
  · exact hf.newer j hj hjt

end Merging

/-! ### Definitions one after the other -/

/-- Enough steps to compile the type of a set. -/
def Enough (source : Source) (steps : ℕ) (set : Table Schema) (types : Catalogue) : Prop :=
  room source (identityOf set :: types.keys) + 2 ≤ steps ∨ (identityOf set ∈ types.keys ∧ 1 ≤ steps)

/-- Where some types are there, the steps that are left are enough for a type that a set leads to. -/
theorem Leads.enough {addresses known : List String} {steps : ℕ} (hl : Leads source set set')
    (hr : source.resolve addresses = .ok set) (hsteps : room source known + 1 ≤ steps)
    (hknown : ∀ i ∈ known, i ∈ types.keys) : Enough source steps set' types := by
  have hroom : room source types.keys + 1 ≤ steps := Nat.le_trans (Nat.succ_le_succ (room_anti hknown)) hsteps
  by_cases hi : identityOf set' ∈ types.keys
  · exact .inr ⟨hi, by omega⟩
  · have hlt := room_cons_lt (hl.mem_nodeIdentities hr) hi
    exact .inl (by omega)

/-- What has to be known of nested compilations. -/
def Nested (source : Source) (R : Table Schema → Prop) (hashLength : Int) (steps : ℕ) : Prop :=
  ∀ {set types}, R set → Named R hashLength types → Enough source steps set types →
    Compiles source R hashLength types set
      (exec (compileSet (resolving source) hashLength steps set) types)

/-- What a merge gives after some more definitions. -/
def Merges (source : Source) (R : Table Schema → Prop) (hashLength : Int) (start : Catalogue)
    (set : Table Schema) (done : List (String × String × Definition)) :
    Except Failure (Table (String × Definition)) × Catalogue → Prop
  | (.ok owners, types) => ∃ t, Merging source R hashLength start set done owners types t
  | (.error _, types) => Fails source R hashLength start set types

section

variable (hR : Family source R) (hset : R set) (hnew : identityOf set ∉ start.keys) {steps : ℕ}
  (hsteps : room source (identityOf set :: start.keys) + 1 ≤ steps)
  (hnested : Nested source R hashLength steps)
include hR hset hnew hsteps hnested

omit hnew hnested in
/-- A type that a set leads to can be compiled in the steps that are left. -/
theorem enough_of_leads (h : Merging source R hashLength start set done owners types t)
    (hl : Leads source set set') : Enough source steps set' types := by
  obtain ⟨addresses, hr⟩ := hR.resolved hset
  refine hl.enough hr hsteps fun i hi => ?_
  rcases List.mem_cons.1 hi with rfl | hi
  · exact Table.mem_keys_iff.2 ⟨t, h.current⟩
  · exact h.older.keys hi

/-- The first definition of a key. -/
theorem merges_first {address key : String} {d : Definition}
    (h : Merging source R hashLength start set done owners types t)
    (he : (address, key, d) ∈ definitions set) (ho : owners.get? key = none) :
    Merges source R hashLength start set (done ++ [(address, key, d)])
      (exec (addDefinition (resolving source) (compileSet (resolving source) hashLength steps)
        (identityOf set) owners (address, key, d)) types) := by
  have hk : key ∉ t.fields.keys := fun hk => Table.get?_eq_none_iff.1 ho ((h.owned key).2 hk)
  rw [Compilation.exec_addDefinition_first ho]
  cases d with
  | value k m =>
    rw [Compilation.exec_compileField_value]
    exact ⟨_, h.opened hnew hk rfl ⟨rfl, rfl, fun _ _ hd => by cases hd⟩⟩
  | node m ss =>
    rw [Compilation.exec_compileField_node]
    by_cases hss : ss = []
    · rw [if_pos hss]
      exact h.fails hset hnew fun hm => hm.named he hss
    · rw [if_neg hss]
      cases hr : source.resolve ss with
      | error e =>
        refine h.fails hset hnew fun hm => ?_
        obtain ⟨set', hs⟩ := hm.resolved he
        rw [hr] at hs
        cases hs
      | ok set' =>
        dsimp only
        have hl : Leads source set set' := ⟨_, _, _, _, he, hr⟩
        have hc := hnested (hR.closed hset hl) h.named (enough_of_leads hR hset hsteps h hl)
        generalize exec (compileSet (resolving source) hashLength steps set') types = result at hc ⊢
        obtain ⟨r, types'⟩ := result
        cases r with
        | error e => exact h.fails_of_leads hset hnew hl hc
        | ok i =>
          have hs : Succeeds source R hashLength types set' i types' := hc
          have hmade : Field.mk (.node ss i) m = (Definition.node m ss).field source := by
            rw [Definition.field, hr, hs.identity]
            rfl
          refine ⟨_, (h.extend hs).opened hnew hk hmade ⟨rfl, rfl, fun multiple schemas hd => ?_⟩⟩
          cases hd
          refine ⟨hss, set', hr, ?_, hs.identity ▸ hs.mem⟩
          rw [hs.identity]
          rfl

omit hR hsteps hnested in
/-- A later definition of a key. -/
theorem merges_later {address key owner : String} {d existing : Definition}
    {nested : Table Schema → Compilation Id String}
    (h : Merging source R hashLength start set done owners types t)
    (hdone : ∀ e ∈ done, e ∈ definitions set) (he : (address, key, d) ∈ definitions set)
    (ho : owners.get? key = some (owner, existing)) :
    Merges source R hashLength start set (done ++ [(address, key, d)])
      (exec (addDefinition (resolving source) nested (identityOf set) owners (address, key, d)) types) := by
  have hfirst := h.first key owner existing ho
  obtain ⟨f, hf, hfit⟩ := h.fields owner key existing hfirst
  by_cases heq : existing.equivalent d = true
  · rw [Compilation.exec_addDefinition_equivalent ho heq]
    exact ⟨t, h.later hf (hfit.of_equivalent heq)⟩
  · rw [Compilation.exec_addDefinition_other ho heq h.current hf]
    -- where the set can be merged, the definitions agree, and the field is what the later one asks
    have hagree : Mergeable source set →
        exec (resolvesTo (resolving source) f d) types = (.ok true, types) := fun hm =>
      (resolvesTo_of_agrees hfit (hm.agree (hdone _ hfirst) he) fun multiple schemas hd =>
        hm.named (hd ▸ he)).resolve_left heq
    by_cases hm : Mergeable source set
    · rw [hagree hm]
      exact ⟨t, h.later hf (hfit.of_resolvesTo (hagree hm))⟩
    · have hsame : (exec (resolvesTo (resolving source) f d) types).2 = types := by
        rw [Compilation.exec_resolvesTo]
        split
        · split
          · rfl
          · split <;> rfl
        · rfl
      cases hres : exec (resolvesTo (resolving source) f d) types with
      | mk r types' =>
        rw [hres] at hsame
        cases hsame
        rcases r with e | ⟨_ | _⟩
        · exact h.fails hset hnew hm
        · exact h.fails hset hnew hm
        · exact ⟨t, h.later hf (hfit.of_resolvesTo hres)⟩

/-- **One more definition keeps the invariant of a merge, or the compilation fails.** -/
theorem merges_addDefinition {e : String × String × Definition}
    (h : Merging source R hashLength start set done owners types t)
    (hdone : ∀ e ∈ done, e ∈ definitions set) (he : e ∈ definitions set) :
    Merges source R hashLength start set (done ++ [e])
      (exec (addDefinition (resolving source) (compileSet (resolving source) hashLength steps)
        (identityOf set) owners e) types) := by
  obtain ⟨address, key, d⟩ := e
  cases ho : owners.get? key with
  | none => exact merges_first hR hset hnew hsteps hnested h he ho
  | some first => exact merges_later hset hnew h hdone he ho

/-- All definitions are merged, or the compilation fails. -/
theorem merges_foldlM : ∀ {rest done : List (String × String × Definition)}
    {owners : Table (String × Definition)} {types : Catalogue} {t : NodeType},
    Merging source R hashLength start set done owners types t →
    (∀ e ∈ done ++ rest, e ∈ definitions set) →
    Merges source R hashLength start set (done ++ rest)
      (exec (rest.foldlM (addDefinition (resolving source)
        (compileSet (resolving source) hashLength steps) (identityOf set)) owners) types)
  | [], done, owners, types, t, h, _ => by
    rw [List.append_nil]
    exact ⟨t, h⟩
  | e :: rest, done, owners, types, t, h, hd => by
    have hstep := merges_addDefinition hR hset hnew hsteps hnested h
      (fun x hx => hd x (List.mem_append_left _ hx))
      (hd e (List.mem_append_right _ List.mem_cons_self))
    rw [List.foldlM_cons, Compilation.exec_bind]
    generalize exec (addDefinition (resolving source) (compileSet (resolving source) hashLength steps)
      (identityOf set) owners e) types = result at hstep ⊢
    obtain ⟨r, types'⟩ := result
    cases r with
    | error f => exact hstep
    | ok owners' =>
      obtain ⟨t', h'⟩ := hstep
      rw [Compilation.follow_ok]
      rw [← List.singleton_append, ← List.append_assoc] at hd ⊢
      exact merges_foldlM h' hd

end

/-- **What compiling a set gives**, from any catalogue of named types. -/
theorem compiles_compileSet (hR : Family source R) : ∀ steps, Nested source R hashLength steps
  | 0, set, types, _, _, he => by
    rcases he with he | he <;> omega
  | steps + 1, set, types, hset, hnamed, he => by
    by_cases hi : identityOf set ∈ types.keys
    · rw [Compilation.exec_compileSet_known (identityOf_eq set ▸ hi), identityOf_eq]
      exact ⟨rfl, hi, .refl _, hnamed, fun j hj hjs => absurd hj hjs⟩
    · have hsteps : room source (identityOf set :: types.keys) + 1 ≤ steps := by
        rcases he with he | he
        · omega
        · exact absurd he.1 hi
      have hall : ∀ e ∈ [] ++ definitions set, e ∈ definitions set := fun e he => he
      have hmerges := merges_foldlM hR hset hi hsteps (compiles_compileSet hR steps)
        (Merging.of_blank hset hi hnamed) hall
      rw [Compilation.exec_compileSet_new (identityOf_eq set ▸ hi), identityOf_eq]
      generalize exec ((definitions set).foldlM _ _) _ = result at hmerges ⊢
      obtain ⟨r, types'⟩ := result
      cases r with
      | error f => exact hmerges
      | ok owners =>
        obtain ⟨t, h⟩ := hmerges
        rw [List.nil_append] at h
        dsimp only
        rw [h.current, Option.map_some, Option.getD_some]
        cases hempty : t.fields.entries with
        | nil =>
          refine h.fails hset hi fun hm => ?_
          obtain ⟨e, he⟩ := List.exists_mem_of_ne_nil _ hm.nonempty
          obtain ⟨f, hf, -⟩ := h.fields e.1 e.2.1 e.2.2 he
          rw [Table.get?, hempty] at hf
          cases hf
        | cons field fields =>
          refine h.succeeds hset ?_
          rw [hempty]
          exact List.cons_ne_nil _ _

/-! ### Lists of addresses -/

section

variable {addresses : List String}

theorem Catalogue.compile_eq (types : Catalogue) (source : Source) (hashLength : Int)
    (addresses : List String) : types.compile source hashLength addresses =
      match source.resolve addresses with
      | .error e => (.error e, types)
      | .ok set => exec (compileSet (resolving source) hashLength (source.nodeDefinitions + 2) set) types := by
  show exec (resolving source addresses >>= fun set =>
    compileSet (resolving source) hashLength (source.nodeDefinitions + 2) set) types = _
  rw [Compilation.exec_bind, Compilation.exec_resolving]
  cases source.resolve addresses <;> rfl

/-- What compiling a list of addresses gives, where it can be resolved. -/
theorem compiles_compile (hR : Family source R) (hn : Named R hashLength types) (hs : R set)
    (hset : source.resolve addresses = .ok set) :
    Compiles source R hashLength types set (types.compile source hashLength addresses) := by
  rw [Catalogue.compile_eq, hset]
  have hroom := room_le_nodeDefinitions source (identityOf set :: types.keys)
  exact compiles_compileSet hR _ hs hn (.inl (by omega))

end

end ContentGraph
