import ContentGraph.Proofs.TypeGraph.Later

/-!
# Types within a graph and on their own

A node field leads to a type that was compiled together with the rest of its graph. The schemas that the
field declares can also be compiled on their own, and at an earlier moment. Both give the same types, up
to the order in which the schemas of a type were merged (`Source.holds_of_compile`): in a graph that is
the order in which a list of schemas led there first.

Each type is what its schemas merge to in some order (`NodeType.MergedIn`). The order decides in which
order the fields stand, and where schemas name the same types by different lists, which of the lists a
field remembers. A field of which all schemas of the type give one definition does not depend on the order
(`TypeGraph.Holds.get?_eq`).
-/

namespace ContentGraph

open Compilation (definitions)

variable {source later : Source} {hashLength : Int} {types : Catalogue} {set order : Table Schema}
  {addresses schemas : List String} {t t' : NodeType} {g own : TypeGraph} {root : String}

/-! ### Types that are merged in some order -/

/-- What a source says of a key of a schema. -/
def Source.Defines (source : Source) (address key : String) (d : Definition) : Prop :=
  ∃ s, source.fetch address = .ok (.schema s) ∧ s.elements.get? key = some d

/-- The fields of a type are those of its schemas, merged in some order. -/
def NodeType.MergedIn (source : Source) (t : NodeType) : Prop :=
  ∃ order : Table Schema, order.sorted.keys = t.addresses ∧
    (∀ address s, (address, s) ∈ order.entries → source.fetch address = .ok (.schema s)) ∧
    t.fields = mergedFields source (definitions order)

/-- The schemas that are merged define the keys of the fields. -/
theorem NodeType.MergedIn.exists_definition (h : t.MergedIn source) {key : String} {f : Field}
    (hf : t.fields.get? key = some f) :
    ∃ address ∈ t.addresses, ∃ d, source.Defines address key d ∧ f = d.field source := by
  obtain ⟨order, haddresses, hfetch, hfields⟩ := h
  rw [hfields, Table.get?_eq_some_iff] at hf
  obtain ⟨⟨address, key', d⟩, hd, he⟩ := List.mem_map.1 (mem_of_mem_firstOfEach hf)
  cases he
  obtain ⟨s, hs, hk⟩ := mem_definitions.1 hd
  refine ⟨address, ?_, d, ⟨s, hfetch address s hs, Table.get?_eq_some_iff.2 hk⟩, rfl⟩
  rw [← haddresses, Table.mem_keys_sorted]
  exact List.mem_map_of_mem hs

/-! ### Types of sets -/

theorem mergedFields_of_later (hk : source.Keeps later) (hm : Mergeable source set)
    (hp : order.entries.Perm set.entries) :
    mergedFields later (definitions order) = mergedFields source (definitions order) := by
  unfold mergedFields
  refine congrArg firstOfEach (List.map_congr_left fun ⟨address, key, d⟩ hd => Prod.ext rfl ?_)
  cases d with
  | value kind multiple => rfl
  | node multiple schemas =>
    obtain ⟨s, hs, he⟩ := mem_definitions.1 hd
    obtain ⟨next, hr⟩ := hm.resolved (mem_definitions.2 ⟨s, hp.mem_iff.1 hs, he⟩)
    show (Definition.node multiple schemas).field later = (Definition.node multiple schemas).field source
    rw [Definition.field, Definition.field, hr, hk.resolve hr]

/-- The type of a set was merged from the schemas of the set in some order. -/
theorem Source.merged_of_compile (hs : Separated (Reached source [addresses]))
    (hg : source.compile hashLength addresses = .ok g) (hset : Reached source [addresses] set)
    (ht : g.types.get? (identityOf set) = some t) : ∃ order : Table Schema,
      order.entries.Perm set.entries ∧ t.fields = mergedFields source (definitions order) := by
  obtain ⟨-, hcomplete⟩ := complete_of_compile hs hg
  obtain ⟨u, hu, hd⟩ := (hcomplete set hset).describes hs.family hset
  cases ht.symm.trans hu
  exact hd.merged

/-! ### Lists that a graph leads to -/

theorem Reached.within (hset : Reached source [addresses] set) (hr : source.resolve schemas = .ok set)
    {next : Table Schema} (h : Reached source [schemas] next) : Reached source [addresses] next := by
  induction h with
  | root ha hr' =>
    cases List.mem_singleton.1 ha
    cases hr.symm.trans hr'
    exact hset
  | step _ hl ih => exact ih.step hl

theorem Reached.keeps (hk : source.Keeps later) (h : Reached source [schemas] set) :
    Reached later [schemas] set := by
  induction h with
  | root ha hr => exact .root ha (hk.resolve hr)
  | step _ hl ih =>
    obtain ⟨address, key, multiple, names, hd, hr⟩ := hl
    exact ih.step ⟨address, key, multiple, names, hd, hk.resolve hr⟩

/-- A graph holds the types of every list that resolves to a set that it leads to. -/
theorem Source.represents_within (hs : Separated (Reached source [addresses]))
    (hg : source.compile hashLength addresses = .ok g) (hset : Reached source [addresses] set)
    (hr : source.resolve schemas = .ok set) :
    Represents source hashLength schemas g.types (identityOf set) := by
  obtain ⟨hnamed, hcomplete⟩ := complete_of_compile hs hg
  have hsub : ∀ s, Reached source [schemas] s → Reached source [addresses] s :=
    fun _ h => hset.within hr h
  exact represents_of_complete hs.family hsub hr (fun s h => hcomplete s (hsub s h)) hnamed

/-- The types that a list has later are those that it has. -/
theorem Represents.of_later (hk : source.Keeps later) (hw : WellDefined source schemas)
    (h : Represents later hashLength schemas types root) :
    Represents source hashLength schemas types root := by
  obtain ⟨set, hr⟩ := hw.resolved
  have hback : ∀ s, Reached later [schemas] s → Reached source [schemas] s :=
    fun _ hs => .of_later hk hw (.root List.mem_cons_self hr) hr hs
  refine ⟨?_, fun i t ht => ?_, fun s hs => h.reached (hs.keeps hk), h.unique⟩
  · obtain ⟨set', hr', hroot⟩ := h.root_eq
    cases (hk.resolve hr).symm.trans hr'
    exact ⟨set, hr, hroot⟩
  · obtain ⟨s, hs, hi, hm⟩ := h.merged ht
    exact ⟨s, hback s hs, hi, hm.of_later hk (hw.mergeable (hback s hs))⟩

/-! ### Lists of one schema -/

section

variable {address : String} {s : Schema}

theorem definitions_of_single (h : set.entries = [(address, s)]) :
    definitions set = s.elements.entries.map fun e => (address, e.1, e.2) := by
  unfold definitions
  rw [h]
  exact List.flatMap_singleton _ _

theorem mem_definitions_of_single (h : set.entries = [(address, s)]) {a key : String} {d : Definition}
    (hd : (a, key, d) ∈ definitions set) : s.elements.get? key = some d := by
  rw [definitions_of_single h] at hd
  obtain ⟨e, he, heq⟩ := List.mem_map.1 hd
  cases heq
  exact Table.get?_eq_some_iff.2 he

/-- What is reached from a schema is its set, or is reached from schemas that it names. -/
theorem Reached.of_single (hr : source.resolve [address] = .ok set) (hset : set.entries = [(address, s)])
    {next : Table Schema} (h : Reached source [[address]] next) :
    next = set ∨ ∃ key multiple schemas, s.elements.get? key = some (.node multiple schemas) ∧
      Reached source [schemas] next := by
  induction h with
  | root ha hr' =>
    cases List.mem_singleton.1 ha
    cases hr.symm.trans hr'
    exact .inl rfl
  | step _ hl ih =>
    right
    rcases ih with rfl | ⟨key, multiple, schemas, hd, hreached⟩
    · obtain ⟨a, key, multiple, schemas, hm, hr'⟩ := hl
      exact ⟨key, multiple, schemas, mem_definitions_of_single hset hm, .root List.mem_cons_self hr'⟩
    · exact ⟨key, multiple, schemas, hd, hreached.step hl⟩

/-- A list that is well defined names a schema. -/
theorem WellDefined.ne_nil (hw : WellDefined source schemas) : schemas ≠ [] := by
  rintro rfl
  exact (hw.mergeable (.root List.mem_cons_self rfl)).nonempty rfl

/-- A schema is well defined where it has a key and all lists that it names are well defined. -/
theorem WellDefined.of_schema (hf : source.fetch address = .ok (.schema s))
    (hne : s.elements.entries ≠ [])
    (hnodes : ∀ key multiple schemas, s.elements.get? key = some (.node multiple schemas) →
      WellDefined source schemas) : WellDefined source [address] := by
  obtain ⟨set, hr, hset⟩ := source.resolve_schema hf
  refine ⟨⟨set, hr⟩, fun next hnext => ?_⟩
  rcases hnext.of_single hr hset with rfl | ⟨key, multiple, schemas, hd, hnext⟩
  · refine ⟨?_, fun a key multiple schemas hd => ?_, fun a key multiple schemas hd => ?_,
      fun a b key d e hd he => ?_⟩
    · rw [definitions_of_single hset]
      exact fun hn => hne (List.map_eq_nil_iff.1 hn)
    · exact (hnodes key multiple schemas (mem_definitions_of_single hset hd)).ne_nil
    · exact (hnodes key multiple schemas (mem_definitions_of_single hset hd)).resolved
    · have hd' := mem_definitions_of_single hset hd
      cases hd'.symm.trans (mem_definitions_of_single hset he)
      cases d with
      | value kind multiple => exact ⟨rfl, rfl⟩
      | node multiple schemas =>
        obtain ⟨set', hr'⟩ := (hnodes key multiple schemas hd').resolved
        exact ⟨rfl, set', set', hr', hr', fun _ => Iff.rfl⟩
  · exact (hnodes key multiple schemas hd).mergeable hnext

/-- The type of a schema has the fields of its definitions, in their order. -/
theorem Source.fields_of_schema (hs : Separated (Reached source [addresses]))
    (hg : source.compile hashLength addresses = .ok g) (hr : source.resolve addresses = .ok set)
    (hset : set.entries = [(address, s)]) :
    g.rootType.fields.entries = s.elements.entries.map fun e => (e.1, e.2.field source) := by
  obtain ⟨set', hr', hroot⟩ := (represents_of_compile hs hg).root_eq
  cases hr.symm.trans hr'
  obtain ⟨order, hp, hfields⟩ :=
    merged_of_compile hs hg (.root List.mem_cons_self hr) (hroot ▸ g.root_mem)
  have horder : order.entries = [(address, s)] := List.perm_singleton.1 (hset ▸ hp)
  rw [hfields, mergedFields, definitions_of_single horder, List.map_map]
  refine entries_firstOfEach ?_
  rw [List.map_map]
  exact s.elements.nodup

end

/-! ### The same types within a graph and on their own -/

/-- A graph holds another: the types that the root of the other leads to are alike in both, and each is
what its schemas merge to in some order. -/
structure TypeGraph.Holds (source : Source) (g own : TypeGraph) : Prop where
  /-- Types with one identity are alike. -/
  alike : Isomorphic g.types own.types own.root own.root
  /-- The types within the graph are merged from their schemas. -/
  within : ∀ ⦃i t⦄, (i, t) ∈ g.types.reachableTypes own.root → t.MergedIn source
  /-- The types of the other graph are merged from their schemas. -/
  alone : ∀ ⦃i t⦄, (i, t) ∈ own.reachable → t.MergedIn source

/-- The types that a well-defined list leads to are merged from their schemas. -/
theorem Source.mergedIn_of_compile (hk : source.Keeps later) (hs : Separated (Reached later [addresses]))
    (hg : later.compile hashLength addresses = .ok g)
    (hsub : ∀ s, Reached source [schemas] s → Reached later [addresses] s)
    (hw : WellDefined source schemas) (hrep : Represents source hashLength schemas g.types root)
    {i : String} (ht : (i, t) ∈ g.types.reachableTypes root) : t.MergedIn source := by
  obtain ⟨set, hset, rfl, hm⟩ := hrep.merged ht
  obtain ⟨order, hp, hfields⟩ :=
    merged_of_compile hs hg (hsub set hset) (Catalogue.mem_reachableTypes.1 ht).2
  obtain ⟨names, hr⟩ := hset.resolved
  refine ⟨order, ?_, fun address s ha => fetch_of_resolve hr (hp.mem_iff.1 ha), ?_⟩
  · rw [hm.addresses_eq, Table.sorted_congr fun _ => hp.mem_iff]
  · rw [hfields, mergedFields_of_later hk (hw.mergeable hset) hp]

/-- **A graph holds what the schemas that it leads to are compiled to on their own**, at an earlier
moment or the same. -/
theorem Source.holds_of_compile (hk : source.Keeps later) (hs : Separated (Reached later [addresses]))
    (hg : later.compile hashLength addresses = .ok g) (hset : Reached later [addresses] set)
    (hr : source.resolve schemas = .ok set) (hown : source.compile hashLength schemas = .ok own) :
    own.root = identityOf set ∧ g.Holds source own := by
  have hsub : ∀ s, Reached source [schemas] s → Reached later [addresses] s :=
    fun _ h => hset.within (hk.resolve hr) (h.keeps hk)
  have hs' : Separated (Reached source [schemas]) := hs.mono hsub
  have hw := (compile_ok_iff hs' hashLength).1 ⟨own, hown⟩
  have halone := represents_of_compile hs' hown
  have hwithin := (represents_within hs hg hset (hk.resolve hr)).of_later hk hw
  have hroot : own.root = identityOf set := by
    obtain ⟨set', hr', hroot⟩ := halone.root_eq
    cases hr.symm.trans hr'
    exact hroot
  rw [← hroot] at hwithin
  refine ⟨hroot, ?_, fun i t ht => mergedIn_of_compile hk hs hg hsub hw hwithin ht,
    fun i t ht => mergedIn_of_compile (.refl source) hs' hown (fun _ => id) hw halone ht⟩
  exact hwithin.isomorphic hs'.family (fun _ => id) (fun _ => id) hr hr (fun _ => Iff.rfl) halone

/-- Where all schemas of a type that define a key define it in one way, its field is the same within a
graph and on its own. -/
theorem TypeGraph.Holds.get?_eq (h : g.Holds source own) {i key : String}
    (ht : (i, t) ∈ g.types.reachableTypes own.root) (ht' : (i, t') ∈ own.reachable)
    (hone : ∀ a ∈ t.addresses, ∀ b ∈ t.addresses, ∀ d e,
      source.Defines a key d → source.Defines b key e → d = e) :
    t.fields.get? key = t'.fields.get? key := by
  obtain ⟨u, hu, halike⟩ := h.alike.left ht
  cases (Catalogue.mem_reachableTypes.1 hu).2.symm.trans (Catalogue.mem_reachableTypes.1 ht').2
  cases hf : t.fields.get? key with
  | none =>
    have hk : key ∉ t'.fields.keys := fun hk => Table.get?_eq_none_iff.1 hf ((halike.keys key).2 hk)
    exact (Table.get?_eq_none_iff.2 hk).symm
  | some f =>
    obtain ⟨f', hf'⟩ := Table.mem_keys_iff.1 ((halike.keys key).1 (Table.mem_keys_iff.2 ⟨f, hf⟩))
    obtain ⟨a, ha, d, hd, rfl⟩ := (h.within ht).exists_definition hf
    obtain ⟨b, hb, e, he, rfl⟩ := (h.alone ht').exists_definition hf'
    rw [hf', hone a ha b (halike.addresses_eq ▸ hb) d e hd he]

end ContentGraph
