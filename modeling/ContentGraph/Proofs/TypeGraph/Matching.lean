import ContentGraph.Proofs.Payload.NormalForm
import ContentGraph.Proofs.TypeGraph.Nested

/-!
# Graphs that match

Two graphs match where their types are alike and node fields with one key name the same schemas
(`TypeGraph.Matches`). What lists of addresses are compiled to matches, where the lists resolve to the same
schemas (`Source.matches_of_compile`). The order of fields is left open, and so is how schemas are named.

The types below the root are the same where each is that of one schema and the schemas that are asked for
have one definition of each key (`TypeGraph.sameBelow_of_single`).
-/

namespace ContentGraph

open Compilation (definitions)

/-- Two lists of addresses resolve to the same schemas. -/
def Source.SameSchemas (source : Source) (as bs : List String) : Prop :=
  ∃ a b, source.resolve as = .ok a ∧ source.resolve bs = .ok b ∧ SameAddresses a b

/-- The same stands under two shapes, up to how the schemas of a node are named. -/
inductive Shape.Matches (source : Source) : Shape → Shape → Prop
  /-- Content of one kind. -/
  | value {kind : ValueKind} : Matches source (.value kind) (.value kind)
  /-- References to one type. -/
  | node {schemas schemas' : List String} {target : String} : source.SameSchemas schemas schemas' →
      Matches source (.node schemas target) (.node schemas' target)

/-- The same stands under two fields, as often. -/
structure Field.Matches (source : Source) (f f' : Field) : Prop where
  /-- The same stands under them. -/
  shape : f.shape.Matches source f'.shape
  /-- Both may repeat, or none. -/
  multiple_eq : f.multiple = f'.multiple

/-- Two types have the same keys, and fields with one key match. -/
structure NodeType.Matches (source : Source) (t t' : NodeType) : Prop where
  /-- They have the same keys, in some order. -/
  keys : t.fields.keys.Perm t'.fields.keys
  /-- Fields with one key match. -/
  fields : ∀ ⦃key f f'⦄, t.fields.get? key = some f → t'.fields.get? key = some f' → f.Matches source f'

/-- Every type that a root leads to has one in another catalogue that has its identity and matches. -/
def Catalogue.Matches (source : Source) (types types' : Catalogue) (root : String) : Prop :=
  ∀ i t, types.Reaches root i → types.get? i = some t → ∃ t', types'.get? i = some t' ∧ t.Matches source t'

variable {source : Source} {types types' : Catalogue} {t t' : NodeType} {root i : String}

/-- Fields that match lead to one type. -/
theorem Field.Matches.target_eq {f f' : Field} (h : f.Matches source f') : f.target? = f'.target? := by
  obtain ⟨shape, multiple⟩ := f
  obtain ⟨shape', multiple'⟩ := f'
  cases h.shape <;> rfl

theorem NodeType.Matches.exists_left (h : t.Matches source t') {key : String} {f' : Field}
    (hf' : t'.fields.get? key = some f') : ∃ f, t.fields.get? key = some f :=
  Table.mem_keys_iff.1 (h.keys.mem_iff.2 (Table.mem_keys_iff.2 ⟨f', hf'⟩))

theorem NodeType.Matches.exists_right (h : t.Matches source t') {key : String} {f : Field}
    (hf : t.fields.get? key = some f) : ∃ f', t'.fields.get? key = some f' :=
  Table.mem_keys_iff.1 (h.keys.mem_iff.1 (Table.mem_keys_iff.2 ⟨f, hf⟩))

theorem Catalogue.Matches.of_get? (h : types.Matches source types' root) (hr : types.Reaches root i)
    (ht : types.get? i = some t) (ht' : types'.get? i = some t') : t.Matches source t' := by
  obtain ⟨u, hu, hmatch⟩ := h i t hr ht
  cases hu.symm.trans ht'
  exact hmatch

/-- A type that a field of a reached type leads to is reached. -/
theorem Catalogue.Reaches.target (hr : types.Reaches root i) (ht : types.get? i = some t) {key : String}
    {f : Field} (hf : t.fields.get? key = some f) : ∀ j, f.target? = some j → types.Reaches root j :=
  fun _ hj => hr.tail ⟨t, key, f, ht, hf, hj⟩

section

variable {as bs : List String} {hashLength : Int} {graph graph' : TypeGraph}

/-- A list and a reordered one resolve to the same schemas. -/
theorem Source.sameSchemas_of_perm (hp : as.Perm bs) {a : Table Schema} (ha : source.resolve as = .ok a) :
    source.SameSchemas as bs := by
  obtain ⟨b, hb, hab⟩ := Source.resolve_congr (fun _ => hp.mem_iff) ha
  exact ⟨a, b, ha, hb, hab⟩

theorem Source.SameSchemas.symm (h : source.SameSchemas as bs) : source.SameSchemas bs as := by
  obtain ⟨a, b, ha, hb, hab⟩ := h
  exact ⟨b, a, hb, ha, hab.symm⟩

theorem Field.Declared.imp {R R' : Table Schema → Prop} {types : Catalogue} {f : Field}
    (hR : ∀ set, R set → R' set) (h : f.Declared source R types) : f.Declared source R' types := by
  intro schemas target hs
  obtain ⟨hk, set, hset, hr⟩ := h schemas target hs
  exact ⟨hk, set, hR set hset, hr⟩

/-- Alike types match, where their node fields lead to what their schemas resolve to. -/
theorem NodeType.Alike.matches {R : Table Schema → Prop} {types types' : Catalogue} {t t' : NodeType}
    (hs : Separated R) (h : t.Alike t')
    (hd : ∀ key f, t.fields.get? key = some f → f.Declared source R types)
    (hd' : ∀ key f, t'.fields.get? key = some f → f.Declared source R types') : t.Matches source t' := by
  refine ⟨(List.perm_ext_iff_of_nodup t.fields.nodup t'.fields.nodup).2 h.keys, fun key f f' hf hf' => ?_⟩
  obtain ⟨hkind, hmultiple, htarget⟩ := h.fields hf hf'
  refine ⟨?_, hmultiple⟩
  have hdeclared := hd key f hf
  have hdeclared' := hd' key f' hf'
  obtain ⟨shape, multiple⟩ := f
  obtain ⟨shape', multiple'⟩ := f'
  cases shape with
  | value kind =>
    cases shape' with
    | value kind' =>
      cases hkind
      exact .value
    | node schemas' target' => cases hkind
  | node schemas target =>
    cases shape' with
    | value kind' => cases hkind
    | node schemas' target' =>
      cases htarget
      obtain ⟨-, set, hset, hr, hi⟩ := hdeclared schemas target rfl
      obtain ⟨-, set', hset', hr', hi'⟩ := hdeclared' schemas' target rfl
      exact .node ⟨set, set', hr, hr', hs hset hset' (hi.symm.trans hi')⟩

/-- Two graphs have roots with one identity, and the types of the first match those of the second. -/
structure TypeGraph.Matches (source : Source) (graph graph' : TypeGraph) : Prop where
  /-- The identity of the roots. -/
  root_eq : graph.root = graph'.root
  /-- The types match. -/
  types : graph.types.Matches source graph'.types graph.root

theorem TypeGraph.Matches.get?_root (h : graph.Matches source graph') :
    graph'.types.get? graph.root = some graph'.rootType := h.root_eq ▸ graph'.root_mem

theorem TypeGraph.Matches.rootType (h : graph.Matches source graph') :
    graph.rootType.Matches source graph'.rootType := h.types.of_get? .refl graph.root_mem h.get?_root

/-- **What lists are compiled to matches**, where they resolve to the same schemas. -/
theorem Source.matches_of_compile (hs : Separated (Reached source [as, bs])) (hab : source.SameSchemas as bs)
    (hg : source.compile hashLength as = .ok graph) (hg' : source.compile hashLength bs = .ok graph') :
    graph.Matches source graph' := by
  obtain ⟨a, b, ha, hb, hsame⟩ := hab
  have hiso := (compile_isomorphic hashLength hs ha hb hsame).2 graph graph' hg hg'
  refine ⟨hiso.root_eq, fun i t hr ht => ?_⟩
  obtain ⟨t', ht', halike⟩ := hiso.left (Catalogue.mem_reachableTypes.2 ⟨hr, ht⟩)
  have ht' := (Catalogue.mem_reachableTypes.1 ht').2
  have hdeclared : ∀ key f, t.fields.get? key = some f →
      f.Declared source (Reached source [as, bs]) graph.types := fun key f hf =>
    (declared_of_compile hg i t ht key f hf).imp fun _ h => h.mono (by simp)
  have hdeclared' : ∀ key f, t'.fields.get? key = some f →
      f.Declared source (Reached source [as, bs]) graph'.types := fun key f hf =>
    (declared_of_compile hg' i t' ht' key f hf).imp fun _ h => h.mono (by simp)
  exact ⟨t', ht', halike.matches hs hdeclared hdeclared'⟩

/-- Names that are distinct in one graph are distinct in another that corresponds to it. -/
theorem Isomorphic.distinctNames
    (h : Isomorphic graph.types graph'.types graph.root graph'.root) (hn : graph.DistinctNames) :
    graph'.DistinctNames := by
  refine (List.nodup_map_iff_inj_on (Catalogue.nodup_reachableTypes _ _)).2 ?_
  rintro ⟨i, t'⟩ ht' ⟨j, u'⟩ hu' (he : t'.name = u'.name)
  obtain ⟨t, ht, hat⟩ := h.right ht'
  obtain ⟨u, hu, hau⟩ := h.right hu'
  have hsame : (i, t) = (j, u) :=
    List.inj_on_of_nodup_map hn ht hu (hat.name_eq.trans (he.trans hau.name_eq.symm))
  cases hsame
  cases (Catalogue.mem_reachableTypes.1 ht').2.symm.trans (Catalogue.mem_reachableTypes.1 hu').2
  rfl

/-- A list that resolves to the schemas of one that is compiled is compiled, to a graph with distinct names
where that has them. -/
theorem Source.SameSchemas.exists_compile (hab : source.SameSchemas as bs)
    (hs : Separated (Reached source [as, bs])) (hg : source.compile hashLength as = .ok graph)
    (hn : graph.DistinctNames) :
    ∃ graph', source.compile hashLength bs = .ok graph' ∧ graph'.DistinctNames := by
  obtain ⟨a, b, ha, hb, hsame⟩ := hab
  have hiso := compile_isomorphic hashLength hs ha hb hsame
  obtain ⟨graph', hg'⟩ := hiso.1.1 ⟨graph, hg⟩
  exact ⟨graph', hg', (hiso.2 graph graph' hg hg').distinctNames hn⟩

/-! ### The same types below the root -/

/-- Two catalogues have the same types wherever a type leads to. -/
def Catalogue.AgreeFrom (types types' : Catalogue) (i : String) : Prop :=
  ∀ j, types.Reaches i j → types'.get? j = types.get? j

theorem Catalogue.AgreeFrom.edge {types types' : Catalogue} {i j : String} (h : types.AgreeFrom types' i)
    (hj : types.Edge i j) : types.AgreeFrom types' j :=
  fun _ hk => h _ (hk.head hj)

/-- Two graphs have the same types below the root: its node fields are the same, and so is every type
that they lead to. -/
def TypeGraph.SameBelow (graph graph' : TypeGraph) : Prop :=
  ∀ key f target, graph.rootType.fields.get? key = some f → f.target? = some target →
    graph'.rootType.fields.get? key = some f ∧ graph.types.AgreeFrom graph'.types target

/-- Every type below the root is that of one schema. -/
def TypeGraph.SinglyBelow (graph : TypeGraph) : Prop :=
  ∀ target ∈ graph.rootType.targets, ∀ m ∈ graph.types.reachableTypes target, m.2.addresses.length = 1

instance (graph : TypeGraph) : Decidable graph.SinglyBelow :=
  inferInstanceAs (Decidable (∀ target ∈ graph.rootType.targets, ∀ m ∈ graph.types.reachableTypes target,
    m.2.addresses.length = 1))

/-- The schemas that a list stands for have one definition of each key. -/
def Source.DefinesOnce (source : Source) (addresses : List String) : Prop :=
  ∀ set, source.resolve addresses = .ok set → ∀ e ∈ definitions set, ∀ e' ∈ definitions set,
    e.2.1 = e'.2.1 → e.2.2 = e'.2.2

/-- A table with one key has one entry. -/
theorem Table.exists_entry {α : Type} {t : Table α} {key : String} (h : t.sorted.keys = [key]) :
    ∃ a, t.entries = [(key, a)] := by
  obtain ⟨⟨_, a⟩, he, hk⟩ := List.map_eq_singleton_iff.1 h
  cases hk
  exact ⟨a, List.perm_singleton.1 (he ▸ t.entries_sorted_perm.symm)⟩

/-- Alike types that are merged of one schema are the same. -/
theorem NodeType.MergedIn.eq_of_single {t t' : NodeType} (h : t.MergedIn source) (h' : t'.MergedIn source)
    (halike : t.Alike t') (hone : t.addresses.length = 1) : t' = t := by
  obtain ⟨order, haddresses, hfetch, hfields⟩ := h
  obtain ⟨order', haddresses', hfetch', hfields'⟩ := h'
  obtain ⟨address, ha⟩ := List.length_eq_one_iff.1 hone
  obtain ⟨s, hs⟩ := Table.exists_entry (haddresses.trans ha)
  obtain ⟨s', hs'⟩ := Table.exists_entry (haddresses'.trans (halike.addresses_eq.symm.trans ha))
  have hsame : Except.ok (Resource.schema s) = .ok (.schema s') :=
    (hfetch address s (hs ▸ List.mem_cons_self)).symm.trans (hfetch' address s' (hs' ▸ List.mem_cons_self))
  cases hsame
  have hdefinitions : definitions order' = definitions order := by
    rw [definitions_of_single hs, definitions_of_single hs']
  obtain ⟨name, addresses, fields⟩ := t
  obtain ⟨name', addresses', fields'⟩ := t'
  cases halike.name_eq
  cases halike.addresses_eq
  cases hfields
  cases hfields'
  rw [hdefinitions]

/-- What is reached from a root within a catalogue without loose ends is there. -/
theorem Catalogue.Closed.exists_type {types : Catalogue} {root i : String} {t : NodeType} (hc : types.Closed)
    (hr : types.Reaches root i) (ht : types.get? root = some t) : ∃ u, types.get? i = some u := by
  induction hr with
  | refl => exact ⟨t, ht⟩
  | tail _ hi _ =>
    obtain ⟨u, key, f, hu, hf, htarget⟩ := hi
    exact Table.mem_keys_iff.1 (hc _ u hu key f hf _ htarget)

/-- Each type of a compiled graph is merged from its schemas. -/
theorem Source.mergedIn_of_reachable (hs : Separated (Reached source [as]))
    (hg : source.compile hashLength as = .ok graph) (hi : (i, t) ∈ graph.reachable) : t.MergedIn source :=
  Source.mergedIn_of_compile (.refl source) hs hg (fun _ => id)
    ((Source.compile_ok_iff hs hashLength).1 ⟨graph, hg⟩) (Source.represents_of_compile hs hg) hi

/-- The addresses of a compiled root are those that its list resolves to. -/
theorem Source.mem_keys_of_root (hs : Separated (Reached source [as]))
    (hg : source.compile hashLength as = .ok graph) {set : Table Schema} (hr : source.resolve as = .ok set)
    {address : String} (ha : address ∈ graph.rootType.addresses) : address ∈ set.keys := by
  have hrep := Source.represents_of_compile hs hg
  obtain ⟨set', hr', hroot⟩ := hrep.root_eq
  cases hr.symm.trans hr'
  obtain ⟨other, hother, hi, hm⟩ := hrep.merged (Catalogue.mem_reachableTypes.2 ⟨.refl, graph.root_mem⟩)
  rw [hm.addresses_eq, Table.mem_keys_sorted] at ha
  exact (hs hother (.root List.mem_cons_self hr) (hi.symm.trans hroot) address).1 ha

/-- Where there is one definition of each key, schemas that define a key define it in one way. -/
theorem Source.DefinesOnce.eq_of_defines (h : source.DefinesOnce as) {set : Table Schema}
    (hr : source.resolve as = .ok set) {a b key : String} {d e : Definition} (ha : a ∈ set.keys)
    (hb : b ∈ set.keys) (hd : source.Defines a key d) (he : source.Defines b key e) : d = e := by
  have hmem : ∀ {a : String} {d : Definition}, a ∈ set.keys → source.Defines a key d →
      (a, key, d) ∈ definitions set := by
    rintro a d ha ⟨s, hs, hk⟩
    obtain ⟨⟨_, s'⟩, hs', rfl⟩ := List.mem_map.1 ha
    cases hs.symm.trans (fetch_of_resolve hr hs')
    exact mem_definitions.2 ⟨s, hs', Table.get?_eq_some_iff.1 hk⟩
  exact h set hr _ (hmem ha hd) _ (hmem hb he) rfl

/-- **The types below the root do not depend on the order of schemas**, where each is that of one schema
and the schemas that are asked for have one definition of each key. -/
theorem TypeGraph.sameBelow_of_single (hs : Separated (Reached source [as, bs]))
    (hab : source.SameSchemas as bs) (hg : source.compile hashLength as = .ok graph)
    (hg' : source.compile hashLength bs = .ok graph') (hone : graph.SinglyBelow)
    (honce : source.DefinesOnce as) : graph.SameBelow graph' := by
  have hsep : Separated (Reached source [as]) := hs.mono fun _ h => h.mono (by simp)
  have hsep' : Separated (Reached source [bs]) := hs.mono fun _ h => h.mono (by simp)
  obtain ⟨a, b, ha, hb, hsame⟩ := hab
  have hiso := (compile_isomorphic hashLength hs ha hb hsame).2 graph graph' hg hg'
  have hholds : graph.Holds source graph' :=
    ⟨hiso.root_eq ▸ hiso, fun i t ht => Source.mergedIn_of_reachable hsep hg (hiso.root_eq ▸ ht),
      fun i t ht => Source.mergedIn_of_reachable hsep' hg' ht⟩
  have hroot : (graph.root, graph.rootType) ∈ graph.reachable :=
    Catalogue.mem_reachableTypes.2 ⟨.refl, graph.root_mem⟩
  have hroot' : (graph.root, graph'.rootType) ∈ graph'.reachable :=
    Catalogue.mem_reachableTypes.2 ⟨hiso.root_eq ▸ .refl, hiso.root_eq ▸ graph'.root_mem⟩
  intro key f target hf htarget
  refine ⟨?_, fun i hi => ?_⟩
  · rw [← hf]
    refine (hholds.get?_eq (hiso.root_eq ▸ hroot) hroot' fun x hx y hy d e hd he => ?_).symm
    exact honce.eq_of_defines ha (Source.mem_keys_of_root hsep hg ha hx)
      (Source.mem_keys_of_root hsep hg ha hy) hd he
  · have hr : graph.types.Reaches graph.root i :=
      hi.head ⟨_, key, f, graph.root_mem, hf, htarget⟩
    obtain ⟨t, ht⟩ := (Source.closed_of_compile hg).exists_type hr graph.root_mem
    have hmem : (i, t) ∈ graph.reachable := Catalogue.mem_reachableTypes.2 ⟨hr, ht⟩
    obtain ⟨t', ht', halike⟩ := hiso.left hmem
    have htargets : target ∈ graph.rootType.targets :=
      List.mem_filterMap.2 ⟨f, List.mem_map.2 ⟨_, Table.get?_eq_some_iff.1 hf, rfl⟩, htarget⟩
    have hlength := hone target htargets (i, t) (Catalogue.mem_reachableTypes.2 ⟨hi, ht⟩)
    have heq : t' = t := (Source.mergedIn_of_reachable hsep hg hmem).eq_of_single
      (Source.mergedIn_of_reachable hsep' hg' ht') halike hlength
    rw [ht, (Catalogue.mem_reachableTypes.1 ht').2, heq]

end

end ContentGraph
