import ContentGraph.Proofs.TypeGraph.Correctness

/-!
# Lists of addresses that stand for the same schemas

What a list of addresses is compiled to depends on the set of schemas that it resolves to: neither
the order of the list nor repeated addresses and aliases matter (`compile_isomorphic`). The types of
two such lists correspond by their identities, and may differ in the order of their fields and in
the schemas that node fields declare.
-/

namespace ContentGraph

/-! ### Alike types -/

/-- Two fields differ at most in the schemas that they declare. -/
structure Field.Alike (f f' : Field) : Prop where
  /-- They have one kind. -/
  kind_eq : f.kind = f'.kind
  /-- Both may repeat, or none. -/
  multiple_eq : f.multiple = f'.multiple
  /-- They lead to one type. -/
  target_eq : f.target? = f'.target?

/-- Two types differ at most in the order of their fields and in the schemas that these declare. -/
structure NodeType.Alike (t t' : NodeType) : Prop where
  /-- They have one name. -/
  name_eq : t.name = t'.name
  /-- They have the same addresses. -/
  addresses_eq : t.addresses = t'.addresses
  /-- They have the same keys. -/
  keys : ∀ key, key ∈ t.fields.keys ↔ key ∈ t'.fields.keys
  /-- Fields with one key are alike. -/
  fields : ∀ ⦃key f f'⦄, t.fields.get? key = some f → t'.fields.get? key = some f' → f.Alike f'

/-- Two roots have one identity and lead to alike types. -/
structure Isomorphic (types types' : Catalogue) (root root' : String) : Prop where
  /-- The identity of the roots. -/
  root_eq : root = root'
  /-- Every type of the first has one alike with its identity. -/
  left : ∀ ⦃i t⦄, (i, t) ∈ types.reachableTypes root →
    ∃ t', (i, t') ∈ types'.reachableTypes root' ∧ t.Alike t'
  /-- Every type of the second has one alike with its identity. -/
  right : ∀ ⦃i t'⦄, (i, t') ∈ types'.reachableTypes root' →
    ∃ t, (i, t) ∈ types.reachableTypes root ∧ t.Alike t'

theorem Field.Alike.symm {f f' : Field} (h : f.Alike f') : f'.Alike f :=
  ⟨h.kind_eq.symm, h.multiple_eq.symm, h.target_eq.symm⟩

theorem NodeType.Alike.symm {t t' : NodeType} (h : t.Alike t') : t'.Alike t :=
  ⟨h.name_eq.symm, h.addresses_eq.symm, fun key => (h.keys key).symm,
    fun _ _ _ hf hf' => (h.fields hf' hf).symm⟩

variable {source : Source} {R : Table Schema → Prop} {hashLength : Int} {types types' : Catalogue}
  {set set' a b : Table Schema} {as bs : List String} {i root root' : String} {t t' : NodeType}

/-- Types merged from sets with the same addresses are alike. -/
theorem Merged.alike (hR : Family source R) (h : R set) (h' : R set') (hs : SameAddresses set set')
    (hm : Merged source hashLength types set t) (hm' : Merged source hashLength types' set' t') :
    t.Alike t' := by
  have hsorted := hR.sorted_eq h h' hs
  refine ⟨?_, ?_, fun key => ?_, fun key f f' hf hf' => ?_⟩
  · rw [hm.name_eq, hm'.name_eq, hsorted, hs.identityOf_eq]
  · rw [hm.addresses_eq, hm'.addresses_eq, hsorted]
  · rw [hm.keys, hm'.keys]
    exact exists_congr fun address => exists_congr fun s => and_congr_left' (hR.entries_iff h h' hs _)
  · obtain ⟨address, s, he, hk⟩ := (hm.keys key).1 (Table.mem_keys_iff.2 ⟨f, hf⟩)
    obtain ⟨d, hd⟩ := Table.mem_keys_iff.1 hk
    obtain ⟨g, hg, hkind, hmultiple, htarget⟩ := hm.fields he hd
    obtain ⟨g', hg', hkind', hmultiple', htarget'⟩ := hm'.fields ((hR.entries_iff h h' hs _).1 he) hd
    cases hf.symm.trans hg
    cases hf'.symm.trans hg'
    refine ⟨hkind.trans hkind'.symm, hmultiple.trans hmultiple'.symm, ?_⟩
    cases d with
    | value k m => rw [Field.target?_eq_none hkind, Field.target?_eq_none hkind']
    | node m schemas =>
      obtain ⟨next, -, hr, ht, -⟩ := htarget m schemas rfl
      obtain ⟨next', -, hr', ht', -⟩ := htarget' m schemas rfl
      cases hr.symm.trans hr'
      rw [ht, ht']

/-! ### Sets that lists lead to -/

section

variable (hR : Family source R) (hsub : ∀ s, Reached source [as] s → R s)
  (hsub' : ∀ s, Reached source [bs] s → R s) (ha : source.resolve as = .ok a)
  (hb : source.resolve bs = .ok b) (hab : SameAddresses a b)
include hR hsub hsub' ha hb hab

theorem reached_congr (h : Reached source [as] set) :
    ∃ set', Reached source [bs] set' ∧ SameAddresses set set' := by
  induction h with
  | root hm hr =>
    cases List.mem_singleton.1 hm
    cases ha.symm.trans hr
    exact ⟨b, .root List.mem_cons_self hb, hab⟩
  | step hs hl ih =>
    obtain ⟨set', hs', hsame⟩ := ih
    exact ⟨_, hs'.step (hR.leads_congr (hsub _ hs) (hsub' _ hs') hsame hl), fun _ => Iff.rfl⟩

theorem WellDefined.congr (h : WellDefined source as) : WellDefined source bs := by
  refine ⟨⟨b, hb⟩, fun set hs => ?_⟩
  obtain ⟨set', hs', hsame⟩ := reached_congr hR hsub' hsub hb ha hab.symm hs
  exact hR.mergeable_congr (hsub _ hs') (hsub' _ hs) hsame.symm (h.mergeable hs')

theorem Represents.exists_alike (h : Represents source hashLength as types root)
    (h' : Represents source hashLength bs types' root') (hi : (i, t) ∈ types.reachableTypes root) :
    ∃ t', (i, t') ∈ types'.reachableTypes root' ∧ t.Alike t' := by
  obtain ⟨set, hs, rfl, hm⟩ := h.merged hi
  obtain ⟨set', hs', hsame⟩ := reached_congr hR hsub hsub' ha hb hab hs
  obtain ⟨t', ht'⟩ := h'.reached hs'
  obtain ⟨set'', hs'', hi'', hm'⟩ := h'.merged ht'
  have hsame' := hsame.trans (hR.separated (hsub' _ hs') (hsub' _ hs'') hi'')
  rw [hsame.identityOf_eq]
  exact ⟨t', ht', hm.alike hR (hsub _ hs) (hsub' _ hs'') hsame' hm'⟩

theorem Represents.isomorphic (h : Represents source hashLength as types root)
    (h' : Represents source hashLength bs types' root') : Isomorphic types types' root root' := by
  refine ⟨?_, fun i t hi => h.exists_alike hR hsub hsub' ha hb hab h' hi, fun i t' hi => ?_⟩
  · obtain ⟨set, hr, rfl⟩ := h.root_eq
    obtain ⟨set', hr', rfl⟩ := h'.root_eq
    cases ha.symm.trans hr
    cases hb.symm.trans hr'
    exact hab.identityOf_eq
  · obtain ⟨t, ht, halike⟩ := h'.exists_alike hR hsub' hsub hb ha hab.symm h hi
    exact ⟨t, ht, halike.symm⟩

end

/-- **Lists of addresses that resolve to the same schemas are compiled alike**: both fail, or both
give the same types up to the order of fields and the schemas that node fields declare. -/
theorem compile_isomorphic (hashLength : Int) (hs : Separated (Reached source [as, bs]))
    (ha : source.resolve as = .ok a) (hb : source.resolve bs = .ok b) (hab : SameAddresses a b) :
    ((∃ g, source.compile hashLength as = .ok g) ↔ ∃ g', source.compile hashLength bs = .ok g') ∧
      ∀ g g', source.compile hashLength as = .ok g → source.compile hashLength bs = .ok g' →
        Isomorphic g.types g'.types g.root g'.root := by
  have hR := hs.family
  have hsub : ∀ s, Reached source [as] s → Reached source [as, bs] s := fun _ h => h.mono (by simp)
  have hsub' : ∀ s, Reached source [bs] s → Reached source [as, bs] s := fun _ h => h.mono (by simp)
  refine ⟨?_, fun g g' hg hg' => ?_⟩
  · rw [Source.compile_ok_iff (hs.mono hsub), Source.compile_ok_iff (hs.mono hsub')]
    exact ⟨.congr hR hsub hsub' ha hb hab, .congr hR hsub' hsub hb ha hab.symm⟩
  · have hrep := Source.represents_of_compile (hs.mono hsub) hg
    have hrep' := Source.represents_of_compile (hs.mono hsub') hg'
    exact hrep.isomorphic hR hsub hsub' ha hb hab hrep'

theorem compile_isomorphic_chain : ∃ a b g g',
    (Gateway.ofStore chainStore).source.resolve ["head", "link"] = .ok a ∧
    (Gateway.ofStore chainStore).source.resolve ["other", "head", "other"] = .ok b ∧
    SameAddresses a b ∧
    (Gateway.ofStore chainStore).source.compile 8 ["head", "link"] = .ok g ∧
    (Gateway.ofStore chainStore).source.compile 8 ["other", "head", "other"] = .ok g' ∧
    Isomorphic g.types g'.types g.root g'.root := by
  have hs : (Gateway.ofStore chainStore).source.Separates
      [["head", "link"], ["other", "head", "other"]] := by
    decide +kernel
  have hresolve : ((Gateway.ofStore chainStore).source.resolve ["head", "link"]).toOption.any (fun a =>
      ((Gateway.ofStore chainStore).source.resolve ["other", "head", "other"]).toOption.any fun b =>
        a.sorted.keys = b.sorted.keys) = true := by
    decide +kernel
  have hrun : ((Gateway.ofStore chainStore).source.compile 8 ["head", "link"]).toOption.any
      (fun _ => true) = true := by
    decide +kernel
  obtain ⟨a, ha, hresolve⟩ := exists_ok_of_any hresolve
  obtain ⟨b, hb, hkeys⟩ := exists_ok_of_any hresolve
  obtain ⟨g, hg, -⟩ := exists_ok_of_any hrun
  have hab : SameAddresses a b := .of_sorted (by simpa using hkeys)
  have h := compile_isomorphic 8 hs.separated ha hb hab
  obtain ⟨g', hg'⟩ := h.1.1 ⟨g, hg⟩
  exact ⟨a, b, g, g', ha, hb, hab, hg, hg', h.2 g g' hg hg'⟩

end ContentGraph
