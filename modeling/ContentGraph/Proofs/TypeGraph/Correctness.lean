import ContentGraph.Proofs.Checked
import ContentGraph.Proofs.Store.Contents
import ContentGraph.Proofs.TypeGraph.Reachable
import ContentGraph.Proofs.TypeGraph.Settled

/-!
# Compilation is the well-defined merge

A list of addresses is compiled on its own exactly where it is well defined, and then the types that
can be reached are those of the sets that the list leads to, each merged from all schemas of its set
(`compile_correct`).
-/

namespace ContentGraph

open Compilation (definitions blank exec resolving compileSet)

/-! ### Merged types -/

section

variable (source : Source) (hashLength : Int)

/-- A type of a catalogue is merged from a set of schemas. -/
structure Merged (types : Catalogue) (set : Table Schema) (t : NodeType) : Prop where
  /-- It has the name of the set. -/
  name_eq : t.name = typeName (set.sorted.values.map Schema.name) (identityOf set) hashLength
  /-- It has the sorted addresses of the set. -/
  addresses_eq : t.addresses = set.sorted.keys
  /-- Its keys are those of all schemas. -/
  keys : ∀ key, key ∈ t.fields.keys ↔
    ∃ address s, (address, s) ∈ set.entries ∧ key ∈ s.elements.keys
  /-- Its fields are as every schema declares them, and node fields lead to the type whose addresses
  are what the declared schemas resolve to. -/
  fields : ∀ ⦃address s key d⦄, (address, s) ∈ set.entries → s.elements.get? key = some d →
    ∃ f, t.fields.get? key = some f ∧ f.kind = d.kind ∧ f.multiple = d.multiple ∧
      ∀ multiple schemas, d = .node multiple schemas → ∃ next u, source.resolve schemas = .ok next ∧
        f.target? = some (identityOf next) ∧ types.get? (identityOf next) = some u ∧
        u.addresses = next.sorted.keys

/-- The types that a root leads to are those of the sets that a list of addresses leads to. -/
structure Represents (addresses : List String) (types : Catalogue) (root : String) : Prop where
  /-- The root is the type of what the list resolves to. -/
  root_eq : ∃ set, source.resolve addresses = .ok set ∧ root = identityOf set
  /-- Every type is merged from a set. -/
  merged : ∀ ⦃i t⦄, (i, t) ∈ types.reachableTypes root →
    ∃ set, Reached source [addresses] set ∧ i = identityOf set ∧ Merged source hashLength types set t
  /-- Every set has a type. -/
  reached : ∀ ⦃set⦄, Reached source [addresses] set →
    ∃ t, (identityOf set, t) ∈ types.reachableTypes root
  /-- There is one type with the same addresses. -/
  unique : ∀ ⦃i j t u⦄, (i, t) ∈ types.reachableTypes root → (j, u) ∈ types.reachableTypes root →
    t.addresses = u.addresses → i = j

end

variable {source : Source} {R : Table Schema → Prop} {hashLength : Int} {types types' : Catalogue}
  {set root : Table Schema} {addresses : List String} {i : String}

section

variable (hR : Family source R)
include hR

theorem merged_of_describes (hn : Named R hashLength types) (hs : R set) {t : NodeType}
    (ht : types.get? (identityOf set) = some t) (hd : Describes source types set t) :
    Merged source hashLength types set t := by
  obtain ⟨hname, haddr⟩ := hn.blank_eq hR hs ht
  refine ⟨?_, haddr, fun key => ⟨fun hk => ?_, ?_⟩, fun address s key d hm hk => ?_⟩
  · rw [hname, ← identityOf_eq]
    rfl
  · obtain ⟨address, d, hm⟩ := hd.keys key hk
    obtain ⟨s, hs, he⟩ := mem_definitions.1 hm
    exact ⟨address, s, hs, List.mem_map.2 ⟨_, he, rfl⟩⟩
  · rintro ⟨address, s, hm, hk⟩
    obtain ⟨d, he⟩ := Table.mem_keys_iff.1 hk
    obtain ⟨f, hf, -⟩ := hd.fields (mem_definitions.2 ⟨s, hm, Table.get?_eq_some_iff.1 he⟩)
    exact Table.mem_keys_iff.2 ⟨f, hf⟩
  · have he := mem_definitions.2 ⟨s, hm, Table.get?_eq_some_iff.1 hk⟩
    obtain ⟨f, hf, hfit⟩ := hd.fields he
    refine ⟨f, hf, hfit.kind_eq, hfit.multiple_eq, fun multiple schemas hdef => ?_⟩
    subst hdef
    obtain ⟨-, next, hr, ht', hi⟩ := hfit.target rfl
    obtain ⟨u, hu⟩ := Table.mem_keys_iff.1 hi
    have hnext : R next := hR.closed hs ⟨_, _, _, _, he, hr⟩
    exact ⟨next, u, hr, ht', hu, (hn.blank_eq hR hnext hu).2⟩

end

/-! ### Types of reached sets -/

section

variable (hR : Family source R) (hsub : ∀ s, Reached source [addresses] s → R s)
  (hroot : source.resolve addresses = .ok root)
include hR hsub hroot

/-- Where the types of reached sets are complete if they are there, they are there if the root is. -/
theorem complete_of_reached
    (hc : ∀ s, Reached source [addresses] s → identityOf s ∈ types.keys →
      Complete source R types (identityOf s))
    (hi : identityOf root ∈ types.keys) (h : Reached source [addresses] set) :
    Complete source R types (identityOf set) := by
  induction h with
  | root ha hr =>
    cases List.mem_singleton.1 ha
    cases hroot.symm.trans hr
    exact hc _ (.root ha hr) hi
  | step hs hl ih => exact hc _ (hs.step hl) (ih.mem_of_leads hR (hsub _ hs) hl)

variable (hc : ∀ s, Reached source [addresses] s → Complete source R types (identityOf s))
include hc

theorem reaches_iff : types.Reaches (identityOf root) i ↔
    ∃ set, Reached source [addresses] set ∧ i = identityOf set := by
  constructor
  · intro h
    induction h with
    | refl => exact ⟨root, .root List.mem_cons_self hroot, rfl⟩
    | tail _ hj ih =>
      obtain ⟨set, hs, rfl⟩ := ih
      obtain ⟨t, key, f, ht, hf, hj⟩ := hj
      obtain ⟨t', ht', hd⟩ := (hc set hs).describes hR (hsub _ hs)
      cases ht.symm.trans ht'
      obtain ⟨address, d, hm⟩ := hd.keys key (Table.mem_keys_iff.2 ⟨f, hf⟩)
      obtain ⟨f', hf', hfit⟩ := hd.fields hm
      cases hf.symm.trans hf'
      cases d with
      | value k m =>
        rw [Field.target?_eq_none hfit.kind_eq] at hj
        cases hj
      | node m schemas =>
        obtain ⟨-, next, hr, ht, -⟩ := hfit.target rfl
        exact ⟨next, hs.step ⟨_, _, _, _, hm, hr⟩, Option.some.inj (hj.symm.trans ht)⟩
  · rintro ⟨set, hs, rfl⟩
    induction hs with
    | root ha hr =>
      cases List.mem_singleton.1 ha
      cases hroot.symm.trans hr
      exact .refl
    | step hs hl ih =>
      obtain ⟨t, ht, hd⟩ := (hc _ hs).describes hR (hsub _ hs)
      obtain ⟨address, key, multiple, schemas, hm, hr⟩ := hl
      obtain ⟨f, hf, hfit⟩ := hd.fields hm
      obtain ⟨-, next, hr', ht', -⟩ := hfit.target rfl
      cases hr.symm.trans hr'
      exact ih.tail ⟨t, key, f, ht, hf, ht'⟩

theorem represents_of_complete (hn : Named R hashLength types) :
    Represents source hashLength addresses types (identityOf root) := by
  have hmerged : ∀ ⦃i t⦄, (i, t) ∈ types.reachableTypes (identityOf root) → ∃ set,
      Reached source [addresses] set ∧ i = identityOf set ∧ Merged source hashLength types set t := by
    intro i t h
    obtain ⟨hr, ht⟩ := Catalogue.mem_reachableTypes.1 h
    obtain ⟨set, hs, rfl⟩ := (reaches_iff hR hsub hroot hc).1 hr
    obtain ⟨t', ht', hd⟩ := (hc set hs).describes hR (hsub _ hs)
    cases ht.symm.trans ht'
    exact ⟨set, hs, rfl, merged_of_describes hR hn (hsub _ hs) ht hd⟩
  refine ⟨⟨root, hroot, rfl⟩, hmerged, fun set hs => ?_, fun i j t u hi hj ha => ?_⟩
  · obtain ⟨t, ht, -⟩ := (hc set hs).describes hR (hsub _ hs)
    exact ⟨t, Catalogue.mem_reachableTypes.2 ⟨(reaches_iff hR hsub hroot hc).2 ⟨set, hs, rfl⟩, ht⟩⟩
  · obtain ⟨set, -, rfl, hm⟩ := hmerged hi
    obtain ⟨set', -, rfl, hm'⟩ := hmerged hj
    rw [hm.addresses_eq, hm'.addresses_eq] at ha
    rw [← identityOf_eq, ← identityOf_eq, ha]

end

/-! ### Compilation -/

/-- A well-defined list is compiled by any compiler, and the types of all sets that it leads to are
complete then. -/
theorem Settled.exists_complete (hR : Family source R) (h : Settled source R hashLength types)
    (hsub : ∀ s, Reached source [addresses] s → R s) (hw : WellDefined source addresses) :
    ∃ root types', source.resolve addresses = .ok root ∧
      types.compile source hashLength addresses = (.ok (identityOf root), types') ∧
      Named R hashLength types' ∧
      ∀ s, Reached source [addresses] s → Complete source R types' (identityOf s) := by
  obtain ⟨root, hr⟩ := hw.resolved
  have hreached : Reached source [addresses] root := .root List.mem_cons_self hr
  have hroot : ∀ root, source.resolve addresses = .ok root → R root := fun _ hr =>
    hsub _ (.root List.mem_cons_self hr)
  have hsettled := h.compile hR hroot
  have hc := compiles_compile hR h.named (hroot root hr) hr
  generalize types.compile source hashLength addresses = result at hc hsettled
  obtain ⟨r, types'⟩ := result
  cases r with
  | error e =>
    have hfails : Fails source R hashLength types root types' := hc
    obtain ⟨bad, he, hbad⟩ := hfails.bad
    exact absurd (hw.mergeable (he.leadsTo.reached hreached)) hbad
  | ok i =>
    have hdone : Succeeds source R hashLength types root i types' := hc
    obtain rfl := hdone.identity
    refine ⟨root, types', hr, rfl, hsettled.named, fun s => ?_⟩
    refine complete_of_reached hR hsub hr (fun s hs hk => ?_) hdone.mem
    exact (hsettled.each _ hk).resolve_right ((hw.sound hs).not_doomed hR (hsub s hs))

/-- A well-defined list is compiled by any compiler, to the types that it represents. -/
theorem Settled.represents (hR : Family source R) (h : Settled source R hashLength types)
    (hsub : ∀ s, Reached source [addresses] s → R s) (hw : WellDefined source addresses) :
    ∃ i types', types.compile source hashLength addresses = (.ok i, types') ∧
      Represents source hashLength addresses types' i := by
  obtain ⟨root, types', hr, hcall, hnamed, hcomplete⟩ := h.exists_complete hR hsub hw
  exact ⟨_, types', hcall, represents_of_complete hR hsub hr hcomplete hnamed⟩

/-- From no types, all sets that are reached are looked at. -/
theorem Reached.exposed_empty (h : Reached source [addresses] set)
    (hroot : source.resolve addresses = .ok root) : Exposed source .empty root set := by
  induction h with
  | root ha hr =>
    cases List.mem_singleton.1 ha
    cases hroot.symm.trans hr
    exact .self List.not_mem_nil
  | step _ hl ih => exact .step ih hl List.not_mem_nil

theorem Represents.root_mem {root : String} (h : Represents source hashLength addresses types root) :
    ∃ t, types.get? root = some t := by
  obtain ⟨set, hr, rfl⟩ := h.root_eq
  obtain ⟨t, ht⟩ := h.reached (.root List.mem_cons_self hr)
  exact ⟨t, (Catalogue.mem_reachableTypes.1 ht).2⟩

theorem Source.compile_eq_ok_iff {g : TypeGraph} : source.compile hashLength addresses = .ok g ↔
    Catalogue.compile .empty source hashLength addresses = (.ok g.root, g.types) := by
  unfold Source.compile
  obtain ⟨r, types⟩ := Catalogue.compile .empty source hashLength addresses
  cases r with
  | error e =>
    constructor
    · intro h
      cases h
    · intro h
      cases h
  | ok root =>
    dsimp only
    constructor
    · intro h
      split at h
      · cases h
        rfl
      · cases h
    · intro h
      obtain ⟨types', root', t, ht⟩ := g
      cases h
      split
      · next u hu =>
        cases ht.symm.trans hu
        rfl
      · next hu =>
        cases ht.symm.trans hu

/-- A list that is compiled can be resolved. -/
theorem Source.resolve_of_compile {g : TypeGraph} (hg : source.compile hashLength addresses = .ok g) :
    ∃ set, source.resolve addresses = .ok set := by
  rw [Source.compile_eq_ok_iff, Catalogue.compile_eq] at hg
  cases hr : source.resolve addresses with
  | error e =>
    rw [hr] at hg
    cases hg
  | ok set => exact ⟨set, rfl⟩

/-- The empty list is not compiled, since no type is without fields. -/
theorem Source.ne_nil_of_compile {g : TypeGraph} (hg : source.compile hashLength addresses = .ok g) :
    addresses ≠ [] := by
  rintro rfl
  have hresolve : source.resolve [] = .ok .empty := rfl
  have hnone : Compilation.definitions .empty = [] := rfl
  have hnew : typeIdentity (Table.empty : Table Schema).sorted.keys ∉ (Table.empty : Catalogue).keys :=
    List.not_mem_nil
  rw [Source.compile_eq_ok_iff, Catalogue.compile_eq, hresolve] at hg
  dsimp only at hg
  rw [Compilation.exec_compileSet_new hnew, hnone, List.foldlM_nil, Compilation.exec_pure] at hg
  dsimp only at hg
  rw [Table.get?_insert_self] at hg
  cases hg

section

variable (hs : Separated (Reached source [addresses]))
include hs

theorem Source.compile_ok_iff (hashLength : Int) :
    (∃ g, source.compile hashLength addresses = .ok g) ↔ WellDefined source addresses := by
  have hR := hs.family
  have hempty : Settled source (Reached source [addresses]) hashLength .empty := .empty
  constructor
  · rintro ⟨g, hg⟩
    rw [Source.compile_eq_ok_iff] at hg
    have hok := ContentGraph.compile_ok_iff hR hempty.named fun root hr => .root List.mem_cons_self hr
    obtain ⟨root, hroot, hmergeable⟩ := hok.1 ⟨g.root, by rw [hg]⟩
    exact ⟨⟨root, hroot⟩, fun s h => hmergeable (h.exposed_empty hroot)⟩
  · intro hw
    obtain ⟨i, types, hcall, hrep⟩ := hempty.represents hR (fun _ => id) hw
    obtain ⟨t, ht⟩ := hrep.root_mem
    exact ⟨⟨types, i, t, ht⟩, Source.compile_eq_ok_iff.2 hcall⟩

/-- The types of all sets that a compiled list leads to are complete. -/
theorem Source.complete_of_compile {g : TypeGraph} (hg : source.compile hashLength addresses = .ok g) :
    Named (Reached source [addresses]) hashLength g.types ∧
      ∀ s, Reached source [addresses] s →
        Complete source (Reached source [addresses]) g.types (identityOf s) := by
  have hempty : Settled source (Reached source [addresses]) hashLength .empty := .empty
  have hw := (Source.compile_ok_iff hs hashLength).1 ⟨g, hg⟩
  obtain ⟨root, types, -, hcall, hcomplete⟩ := hempty.exists_complete hs.family (fun _ => id) hw
  have htypes : types = g.types :=
    congrArg Prod.snd (hcall.symm.trans (Source.compile_eq_ok_iff.1 hg))
  exact htypes ▸ hcomplete

theorem Source.represents_of_compile {g : TypeGraph} (hg : source.compile hashLength addresses = .ok g) :
    Represents source hashLength addresses g.types g.root := by
  have hempty : Settled source (Reached source [addresses]) hashLength .empty := .empty
  have hw := (Source.compile_ok_iff hs hashLength).1 ⟨g, hg⟩
  obtain ⟨i, types, hcall, hrep⟩ := hempty.represents hs.family (fun _ => id) hw
  cases hcall.symm.trans (Source.compile_eq_ok_iff.1 hg)
  exact hrep

/-- **A list of addresses is compiled on its own exactly where it is well defined, and the types that
can be reached are the merged types of all sets that it leads to.** -/
theorem compile_correct (hashLength : Int) :
    ((∃ g, source.compile hashLength addresses = .ok g) ↔ WellDefined source addresses) ∧
      ∀ g, source.compile hashLength addresses = .ok g →
        Represents source hashLength addresses g.types g.root :=
  ⟨Source.compile_ok_iff hs hashLength, fun _ hg => Source.represents_of_compile hs hg⟩

end

/-- A store of two schemas with one key, where one names an alias of the other. -/
def chainStore : Store :=
  (((Store.empty "omg://").putRaw "head" (.object [("kind", .text "schema"), ("name", .text "Head"),
      ("elements", .object [("title", .object [("kind", .text "string")]),
        ("next", .object [("kind", .text "node"), ("schemas", .texts ["link"])])])])).putRaw
    "link" (.object [("kind", .text "schema"), ("name", .text "Link"),
      ("elements", .object [("next", .object [("kind", .text "node"), ("schemas", .texts ["other"])])])])).putRaw
    "other" (.object [("kind", .text "alias"), ("name", .text "Other"), ("schemas", .texts ["link"])])

/-- What stands in the store. -/
def chainResources : Table Resource :=
  .ofList [("head", .schema ⟨defaultVersion, "Head",
      .ofList [("title", .value .string false), ("next", .node false ["link"])]⟩),
    ("link", .schema ⟨defaultVersion, "Link", .ofList [("next", .node false ["other"])]⟩),
    ("other", .alias ⟨defaultVersion, "Other", ["link"]⟩)]

theorem spells_chain : chainStore.Spells chainResources := by
  refine (((Store.Spells.empty "omg://").putRaw "head" ?_ rfl).putRaw "link" ?_ rfl).putRaw "other" ?_ rfl <;>
    simp [Json.Distinct, Json.DistinctMembers, Json.DistinctItems, Json.texts]

theorem compile_correct_chain : ∃ g,
    (Gateway.ofStore chainStore).source.compile 8 ["head", "link"] = .ok g ∧
    WellDefined (Gateway.ofStore chainStore).source ["head", "link"] ∧
    Represents (Gateway.ofStore chainStore).source 8 ["head", "link"] g.types g.root := by
  have hs : (Gateway.ofStore chainStore).source.Separates [["head", "link"]] := by
    decide +kernel
  have hrun : ((Gateway.ofStore chainStore).source.compile 8 ["head", "link"]).toOption.any
      (fun g => g.types.keys.length = 2) = true := by
    decide +kernel
  obtain ⟨g, hg, -⟩ := exists_ok_of_any hrun
  have h := compile_correct hs.separated 8
  exact ⟨g, hg, h.1.1 ⟨g, hg⟩, h.2 g hg⟩

end ContentGraph
