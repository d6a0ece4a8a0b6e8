import ContentGraph.Proofs.Creation.Commuting
import ContentGraph.Proofs.Resource.Content
import ContentGraph.Proofs.TypeGraph.Nested

/-!
# Schemas that are created

A schema that is created from a description means what the description says
(`createSchema_means`): it is compiled, the fields of its type are the keys of the description in
increasing order, and the key of references leads to the types that its schemas have on their own.

These types are the same up to the order in which the schemas of a type were merged
(`TypeGraph.Holds`), and not more than that: where two lists of schemas stand for the same types, the one
that the new schema leads to first decides what a field remembers (`not_sameFields_twoLists`).
-/

namespace ContentGraph

open Compilation (definitions)

/-! ### Descriptions -/

namespace SchemaInput

variable {i : SchemaInput} {list key version : String} {d : Definition}

/-- All keys, list by list. -/
def keys (i : SchemaInput) : List String := i.entries.map fun e => e.2.1

/-- The list of the keys of one kind of content. -/
def keysOf (i : SchemaInput) : ValueKind → List KeyInput
  | .string => i.strings
  | .number => i.numbers
  | .file => i.files

/-- The schema of the definitions that are asked for. -/
def schema (i : SchemaInput) (version : String) : Schema :=
  ⟨version, i.name, (Table.ofList (i.entries.map Prod.snd)).sorted⟩

/-- The resource of that schema. -/
def resource (i : SchemaInput) (version : String) : Resource := .schema (i.schema version)

/-- The address that a store issues for the schema. -/
def address (i : SchemaInput) (s : Settings) (store : Store) : String :=
  (i.resource s.version).address store.lead

/-- The store with the schema in it. -/
def storedIn (i : SchemaInput) (s : Settings) (store : Store) : Store :=
  (store.save (i.resource s.version)).1

/-- An object that gives a description. -/
def toJson (i : SchemaInput) : Json :=
  .object [("name", .text i.name), ("strings", .list (i.strings.map keyJson)),
    ("numbers", .list (i.numbers.map keyJson)), ("files", .list (i.files.map keyJson)),
    ("nodes", .list (i.nodes.map nodeKeyJson))]
where
  /-- An object that gives a key. -/
  keyJson (k : KeyInput) : Json := .object [("key", .text k.key.text), ("multiple", .bool k.multiple)]
  /-- An object that gives a key of references. -/
  nodeKeyJson (k : NodeKeyInput) : Json :=
    .object [("key", .text k.key.text), ("multiple", .bool k.multiple), ("schemas", .texts k.schemas)]

theorem mem_entries_value {kind : ValueKind} {k : KeyInput} (h : k ∈ i.keysOf kind) :
    ∃ list, (list, k.key.text, .value kind k.multiple) ∈ i.entries := by
  cases kind with
  | string =>
    exact ⟨_, List.mem_append_left _ (List.mem_append_left _ (List.mem_append_left _
      (List.mem_map.2 ⟨k, h, rfl⟩)))⟩
  | number =>
    exact ⟨_, List.mem_append_left _ (List.mem_append_left _ (List.mem_append_right _
      (List.mem_map.2 ⟨k, h, rfl⟩)))⟩
  | file => exact ⟨_, List.mem_append_left _ (List.mem_append_right _ (List.mem_map.2 ⟨k, h, rfl⟩))⟩

theorem mem_entries_node {k : NodeKeyInput} (h : k ∈ i.nodes) :
    ("nodes", k.key.text, .node k.multiple k.schemas) ∈ i.entries :=
  List.mem_append_right _ (List.mem_map.2 ⟨k, h, rfl⟩)

theorem exists_node_of_mem_entries {multiple : Bool} {schemas : List String}
    (h : (list, key, .node multiple schemas) ∈ i.entries) : ∃ k ∈ i.nodes, k.schemas = schemas := by
  have hvalue : ∀ {name kind keys},
      (list, key, Definition.node multiple schemas) ∉ valueEntries name kind keys := by
    intro name kind keys hm
    obtain ⟨k, -, ⟨⟩⟩ := List.mem_map.1 hm
  simp only [entries, List.mem_append, hvalue, false_or] at h
  obtain ⟨k, hk, he⟩ := List.mem_map.1 h
  cases he
  exact ⟨k, hk, rfl⟩

/-- Entries without a repeated key are all taken. -/
theorem foldlM_add {es : List (String × String × Definition)} {taken : Table (String × Definition)}
    (h : (taken.keys ++ es.map fun e => e.2.1).Nodup) : ∃ all, es.foldlM add taken = .ok all ∧
      all.entries = taken.entries ++ es.map fun e => (e.2.1, e.1, e.2.2) := by
  induction es generalizing taken with
  | nil => exact ⟨taken, rfl, (List.append_nil _).symm⟩
  | cons e es ih =>
    have hk : e.2.1 ∉ taken.keys := fun hk =>
      (List.nodup_append.1 h).2.2 _ hk _ List.mem_cons_self rfl
    have hentries := Table.entries_insert_of_not_mem hk (e.1, e.2.2)
    have hkeys : (taken.insert e.2.1 (e.1, e.2.2)).keys = taken.keys ++ [e.2.1] := by
      rw [Table.keys_insert, if_neg hk]
    have hadd : add taken e = .ok (taken.insert e.2.1 (e.1, e.2.2)) := by
      rw [add, Table.get?_eq_none_iff.2 hk]
    have hrest : ((taken.insert e.2.1 (e.1, e.2.2)).keys ++ es.map fun e => e.2.1).Nodup := by
      rw [hkeys, List.append_assoc]
      exact h
    obtain ⟨all, hall, he⟩ := ih hrest
    refine ⟨all, ?_, ?_⟩
    · rw [List.foldlM_cons, hadd]
      exact hall
    · rw [he, hentries, List.append_assoc]
      rfl

theorem entries_ofList (h : i.keys.Nodup) :
    (Table.ofList (i.entries.map Prod.snd)).entries = i.entries.map Prod.snd := by
  refine Table.entries_ofList ?_
  rw [List.map_map]
  exact h

/-- Keys that stand once give a schema. -/
theorem build_eq (h : i.keys.Nodup) : i.build version = .ok (i.schema version) := by
  have hall : ((Table.empty : Table (String × Definition)).keys ++ i.keys).Nodup := h
  obtain ⟨all, hall, hentries⟩ := foldlM_add hall
  have hlist : i.entries.map Prod.snd = all.entries.map fun e => (e.1, e.2.2) := by
    rw [hentries, List.map_append, List.map_map]
    rfl
  have hsorted : (Table.ofList (i.entries.map Prod.snd)).sorted.entries
      = all.sorted.entries.map fun e => (e.1, e.2.2) := by
    show sortBy (fun a b => decide (a.1 ≤ b.1)) (Table.ofList (i.entries.map Prod.snd)).entries = _
    rw [entries_ofList h, hlist]
    exact (map_sortBy (fun _ _ => rfl) all.entries).symm
  rw [build, hall]
  show Except.ok (Schema.mk version i.name (Table.ofList (all.sorted.entries.map fun e => (e.1, e.2.2)))) = _
  rw [← hsorted, Table.ofList_entries]
  rfl

/-- The schema has the definitions that are asked for. -/
theorem mem_elements_iff (h : i.keys.Nodup) :
    (key, d) ∈ (i.schema version).elements.entries ↔ ∃ list, (list, key, d) ∈ i.entries := by
  have hp := Table.entries_sorted_perm (Table.ofList (i.entries.map Prod.snd))
  show (key, d) ∈ (Table.ofList (i.entries.map Prod.snd)).sorted.entries ↔ _
  rw [hp.mem_iff, entries_ofList h, List.mem_map]
  constructor
  · rintro ⟨⟨list, e⟩, he, rfl⟩
    exact ⟨list, he⟩
  · rintro ⟨list, he⟩
    exact ⟨_, he, rfl⟩

theorem keys_schema_perm (h : i.keys.Nodup) : (i.schema version).elements.keys.Perm i.keys := by
  have hp := (Table.entries_sorted_perm (Table.ofList (i.entries.map Prod.snd))).map Prod.fst
  rw [entries_ofList h, List.map_map] at hp
  exact hp

theorem sorted_elements : (i.schema version).elements.sorted = (i.schema version).elements :=
  Table.sorted_congr fun _ => (Table.entries_sorted_perm _).mem_iff

/-- What is stored of the schema is fetched as it was described. -/
theorem sorted_resource : (i.resource version).sorted = i.resource version := by
  show Resource.schema { i.schema version with elements := (i.schema version).elements.sorted } = _
  rw [sorted_elements]
  rfl

theorem read_keyJson (k : KeyInput) : model KeyInput.read (toJson.keyJson k) = .ok k := by
  show KeyInput.mk <$> (Json.text k.key.text).asKey.under (.member "key") <*> .ok k.multiple = _
  rw [asKey_text]
  rfl

theorem read_nodeKeyJson {k : NodeKeyInput} (h : k.schemas ≠ []) :
    model NodeKeyInput.read (toJson.nodeKeyJson k) = .ok k := by
  have hschemas : (Json.texts k.schemas).asSomeTexts = .ok k.schemas := by
    rw [Json.asSomeTexts, asTexts_texts, Checked.ensure, if_pos (decide_eq_true h)]
  show NodeKeyInput.mk <$> (KeyInput.mk <$> (Json.text k.key.text).asKey.under (.member "key")
    <*> .ok k.multiple) <*> (Json.texts k.schemas).asSomeTexts.under (.member "schemas") = _
  rw [asKey_text, hschemas]
  rfl

/-- Every description that names schemas under each key of references is given by an object. -/
theorem read_toJson (h : ∀ k ∈ i.nodes, k.schemas ≠ []) : model read i.toJson = .ok i := by
  have hkeys : ∀ keys : List KeyInput, (Json.list (keys.map toJson.keyJson)).asList (model KeyInput.read)
      = .ok keys := fun keys => Checked.itemsFrom_map (fun k _ => read_keyJson k) 0
  have hnodes : (Json.list (i.nodes.map toJson.nodeKeyJson)).asList (model NodeKeyInput.read) = .ok i.nodes :=
    Checked.itemsFrom_map (fun k hk => read_nodeKeyJson (h k hk)) 0
  show SchemaInput.mk <$> .ok i.name
    <*> ((Json.list (i.strings.map toJson.keyJson)).asList (model KeyInput.read)).under (.member "strings")
    <*> ((Json.list (i.numbers.map toJson.keyJson)).asList (model KeyInput.read)).under (.member "numbers")
    <*> ((Json.list (i.files.map toJson.keyJson)).asList (model KeyInput.read)).under (.member "files")
    <*> ((Json.list (i.nodes.map toJson.nodeKeyJson)).asList (model NodeKeyInput.read)).under
      (.member "nodes") = _
  rw [hkeys, hkeys, hkeys, hnodes]
  rfl

end SchemaInput

/-! ### What is asked for and what is given -/

/-- A schema can be created from a description: it has keys, none of them twice, and the schemas that it
names are compiled in the store. -/
structure SchemaInput.Creatable (i : SchemaInput) (s : Settings) (store : Store) : Prop where
  /-- There is a key. -/
  nonempty : i.keys ≠ []
  /-- No key stands twice. -/
  distinct : i.keys.Nodup
  /-- The schemas of each key of references are compiled in the store. -/
  compiled : ∀ k ∈ i.nodes, ∃ own,
    (Gateway.ofStore store).source.compile s.hashLength.digits k.schemas = .ok own
  /-- What stands at the new address stands at its own: it was not put there by hand. -/
  issued : ∀ text, store.contents.get? (i.address s store) = some text →
    contentAddress store.lead text = i.address s store
  /-- No two texts that are in the store or to be stored have one digest. -/
  noCollision : NoCollision (store.contents.values ++ [(i.resource s.version).canonicalText])
  /-- Sets that the new schema leads to have different identities where they have different addresses. -/
  separated : Separated (Reached (Gateway.ofStore (i.storedIn s store)).source [[i.address s store]])

/-- A compiled graph means what a description says, where the schemas that it names are compiled from a
source. -/
structure SchemaInput.Means (i : SchemaInput) (source : Source) (hashLength : Int) (g : TypeGraph) :
    Prop where
  /-- The fields are the keys of the description. -/
  keys : g.rootType.fields.keys.Perm i.keys
  /-- They stand in increasing order. -/
  increasing : g.rootType.fields.keys.Pairwise (· < ·)
  /-- A key of a kind of content has that kind. -/
  values : ∀ kind, ∀ k ∈ i.keysOf kind,
    g.rootType.fields.get? k.key.text = some ⟨.value kind, k.multiple⟩
  /-- A key of references declares the schemas as they are given, and leads to what they are compiled to
  on their own. -/
  nodes : ∀ k ∈ i.nodes, ∃ own, source.compile hashLength k.schemas = .ok own ∧
    g.rootType.fields.get? k.key.text = some ⟨.node k.schemas own.root, k.multiple⟩ ∧ g.Holds source own

variable {s : Settings} {input : Json} {i : SchemaInput} {store : Store} {source later : Source}
  {hashLength : Int} {address version : String} {set : Table Schema} {g : TypeGraph}

/-! ### The graph of a new schema -/

namespace SchemaInput

/-- A new schema leads to what the schemas that it names resolve to. -/
theorem reached_of_named (hd : i.keys.Nodup) (hk : source.Keeps later)
    (hf : later.fetch address = .ok (.schema (i.schema version))) {k : NodeKeyInput} (hn : k ∈ i.nodes)
    (hr : source.resolve k.schemas = .ok set) : Reached later [[address]] set := by
  obtain ⟨root, hroot, hset⟩ := later.resolve_schema hf
  refine .step (.root List.mem_cons_self hroot)
    ⟨address, k.key.text, k.multiple, k.schemas, ?_, hk.resolve hr⟩
  rw [definitions_of_single hset]
  exact List.mem_map.2 ⟨_, (mem_elements_iff hd).2 ⟨_, mem_entries_node hn⟩, rfl⟩

section

variable (hd : i.keys.Nodup) (hk : source.Keeps later)
  (hf : later.fetch address = .ok (.schema (i.schema version)))
  (hs : Separated (Reached later [[address]]))
include hd hk hf hs

theorem separated_of_named {k : NodeKeyInput} (hn : k ∈ i.nodes)
    (hr : source.resolve k.schemas = .ok set) : Separated (Reached source [k.schemas]) :=
  hs.mono fun _ h => (reached_of_named hd hk hf hn hr).within (hk.resolve hr) (h.keeps hk)

theorem wellDefined_of_named {k : NodeKeyInput} (hn : k ∈ i.nodes) {own : TypeGraph}
    (hown : source.compile hashLength k.schemas = .ok own) : WellDefined later k.schemas := by
  obtain ⟨set, hr⟩ := Source.resolve_of_compile hown
  have hw := (Source.compile_ok_iff (separated_of_named hd hk hf hs hn hr) hashLength).1 ⟨own, hown⟩
  exact hk.wellDefined hw (.root List.mem_cons_self hr) hr

/-- The graph of a new schema means what its description says. -/
theorem means_of_compile (hg : later.compile hashLength [address] = .ok g)
    (hown : ∀ k ∈ i.nodes, ∃ own, source.compile hashLength k.schemas = .ok own) :
    i.Means source hashLength g := by
  obtain ⟨root, hroot, hset⟩ := later.resolve_schema hf
  have hfields := Source.fields_of_schema hs hg hroot hset
  have hkeys : g.rootType.fields.keys = (i.schema version).elements.keys := by
    rw [Table.keys, hfields, List.map_map]
    rfl
  have hfield : ∀ {list key d}, (list, key, d) ∈ i.entries →
      g.rootType.fields.get? key = some (d.field later) := by
    intro list key d he
    rw [Table.get?_eq_some_iff, hfields]
    exact List.mem_map.2 ⟨_, (mem_elements_iff hd).2 ⟨list, he⟩, rfl⟩
  refine ⟨hkeys ▸ keys_schema_perm hd, hkeys ▸ Table.pairwise_keys_sorted _, fun kind k hk' => ?_,
    fun k hn => ?_⟩
  · obtain ⟨list, he⟩ := mem_entries_value hk'
    exact hfield he
  · obtain ⟨own, hown⟩ := hown k hn
    obtain ⟨next, hr⟩ := Source.resolve_of_compile hown
    obtain ⟨hidentity, hholds⟩ :=
      Source.holds_of_compile hk hs hg (reached_of_named hd hk hf hn hr) hr hown
    refine ⟨own, hown, ?_, hholds⟩
    rw [hfield (mem_entries_node hn), Definition.field, hk.resolve hr, hidentity]
    rfl

end

/-! ### The contract of creating a schema -/

theorem describedSchema_eq (s : Settings) (hi : model read input = .ok i) (hd : i.keys.Nodup) :
    describedSchema s input = .ok (i.resource s.version) := by
  rw [describedSchema, hi]
  dsimp only
  rw [i.build_eq hd]
  rfl

theorem createSchema_eq (s : Settings) (hi : model read input = .ok i) (hd : i.keys.Nodup)
    (store : Store) : createSchema s input (.ofStore store) =
      (.ok (i.address s store), .ofStore (i.storedIn s store)) := by
  rw [CreationCall.createSchema_eq, describedSchema_eq s hi hd]
  rfl

/-- The schema is fetched from its address as it was described. -/
theorem fetch_address (i : SchemaInput) (s : Settings) (store : Store) :
    (Gateway.ofStore (i.storedIn s store)).source.fetch (i.address s store)
      = .ok (.schema (i.schema s.version)) := by
  have hfetch : (Gateway.ofStore (i.storedIn s store)).source.fetch (i.address s store)
      = .ok (i.resource s.version).sorted :=
    Gateway.fetch_of_holds (g := .ofStore (i.storedIn s store)) rfl (store.holds_save _)
  rw [hfetch, i.sorted_resource]
  rfl

namespace Creatable

variable (h : i.Creatable s store)
include h

/-- What could be fetched before the schema was stored can be fetched then. -/
theorem keeps (hi : model read input = .ok i) :
    (Gateway.ofStore store).source.Keeps (Gateway.ofStore (i.storedIn s store)).source := by
  have hresources : resourcesOf [.schema s input] store = [i.resource s.version] := by
    rw [resourcesOf, List.flatMap_singleton, CreationCall.resources, describedSchema_eq s hi h.distinct]
    rfl
  have hindependent : Independent [.schema s input] store := by
    refine ⟨fun c hc => ?_, fun r hr => ?_, ?_⟩
    · cases List.mem_singleton.1 hc
      refine ⟨i.address s store, ?_⟩
      show (createSchema s input (.ofStore store)).1 = _
      rw [createSchema_eq s hi h.distinct]
    · rw [hresources] at hr
      cases List.mem_singleton.1 hr
      exact h.issued
    · rw [hresources]
      exact h.noCollision
  have hkeeps : (Gateway.ofStore store).source.Keeps
      (Gateway.ofStore (store.saveEach [i.resource s.version])).source :=
    hindependent.keeps (hresources ▸ List.Subset.refl _)
  exact hkeeps

/-- The schemas that are named are well defined when the schema is stored. -/
theorem wellDefined_of_node (hi : model read input = .ok i) {k : NodeKeyInput} (hn : k ∈ i.nodes) :
    WellDefined (Gateway.ofStore (i.storedIn s store)).source k.schemas := by
  obtain ⟨own, hown⟩ := h.compiled k hn
  exact i.wellDefined_of_named h.distinct (h.keeps hi) (i.fetch_address s store) h.separated hn hown

/-- The schema is well defined when it is stored. -/
theorem wellDefined (hi : model read input = .ok i) :
    WellDefined (Gateway.ofStore (i.storedIn s store)).source [i.address s store] := by
  refine .of_schema (i.fetch_address s store) (fun hnil => ?_) fun key multiple schemas hd => ?_
  · have hp : (i.schema s.version).elements.keys.Perm i.keys := keys_schema_perm h.distinct
    rw [Table.keys, hnil] at hp
    exact h.nonempty (List.nil_perm.1 hp)
  · obtain ⟨list, he⟩ := (mem_elements_iff h.distinct).1 (Table.get?_eq_some_iff.1 hd)
    obtain ⟨k, hn, rfl⟩ := exists_node_of_mem_entries he
    exact h.wellDefined_of_node hi hn

end Creatable

end SchemaInput

/-- **A schema that is created means what its description says**, where the schemas that it names are
compiled before it is stored or after. -/
theorem createSchema_means (s : Settings) (hi : model SchemaInput.read input = .ok i)
    (h : i.Creatable s store) :
    createSchema s input (.ofStore store) = (.ok (i.address s store), .ofStore (i.storedIn s store)) ∧
    ∃ g, (Gateway.ofStore (i.storedIn s store)).source.compile s.hashLength.digits [i.address s store]
        = .ok g ∧
      i.Means (Gateway.ofStore store).source s.hashLength.digits g ∧
      i.Means (Gateway.ofStore (i.storedIn s store)).source s.hashLength.digits g := by
  refine ⟨i.createSchema_eq s hi h.distinct store, ?_⟩
  have hf := i.fetch_address s store
  obtain ⟨g, hg⟩ := (Source.compile_ok_iff h.separated s.hashLength.digits).2 (h.wellDefined hi)
  refine ⟨g, hg, i.means_of_compile h.distinct (h.keeps hi) hf h.separated hg h.compiled,
    i.means_of_compile h.distinct (.refl _) hf h.separated hg fun k hn => ?_⟩
  have hw := h.wellDefined_of_node hi hn
  obtain ⟨set, hr⟩ := hw.resolved
  have hseparated := i.separated_of_named h.distinct (.refl _) hf h.separated hn hr
  exact (Source.compile_ok_iff hseparated s.hashLength.digits).2 hw

/-! ### Two lists for one set of schemas -/

/-- A store in which two schemas name one schema by different lists, once by an alias. -/
def twoListsStore : Store :=
  (((Store.empty "omg://").putRaw "p" (.object [("kind", .text "schema"), ("name", .text "Person"),
      ("elements", .object [("peer", .object [("kind", .text "node"), ("schemas", .texts ["p"])])])])).putRaw
    "q" (.object [("kind", .text "alias"), ("name", .text "People"), ("schemas", .texts ["p"])])).putRaw
    "m" (.object [("kind", .text "schema"), ("name", .text "Member"),
      ("elements", .object [("peer", .object [("kind", .text "node"), ("schemas", .texts ["q"])]),
        ("both", .object [("kind", .text "node"), ("schemas", .texts ["p", "m"])])])])

/-- What stands in the store. -/
def twoListsResources : Table Resource :=
  .ofList [("p", .schema ⟨defaultVersion, "Person", .ofList [("peer", .node false ["p"])]⟩),
    ("q", .alias ⟨defaultVersion, "People", ["p"]⟩),
    ("m", .schema ⟨defaultVersion, "Member",
      .ofList [("peer", .node false ["q"]), ("both", .node false ["p", "m"])]⟩)]

/-- A description that leads to both schemas together, first by way of one of them. -/
def twoLists : SchemaInput where
  name := "Post"
  strings := [⟨⟨"title", by decide⟩, false⟩]
  numbers := []
  files := []
  nodes := [⟨⟨⟨"second", by decide⟩, false⟩, ["m", "p"]⟩,
    ⟨⟨⟨"first", by decide⟩, false⟩, ["m"]⟩]

/-- The address at which the schema is stored. -/
def twoListsAddress : String := "omg://c3e160db1d7bb0dcfc321c42460127c00acc74afba445da31709b8c38bd5a53f"

theorem address_twoLists : twoLists.address .default twoListsStore = twoListsAddress := by
  decide +kernel

theorem spells_twoLists : twoListsStore.Spells twoListsResources := .of_entries (by decide +kernel)

theorem spells_storedIn_twoLists : (twoLists.storedIn .default twoListsStore).Spells
    (twoListsResources.insert twoListsAddress (twoLists.resource defaultVersion)) := by
  have h := spells_twoLists.save (twoLists.resource defaultVersion)
  rw [twoLists.sorted_resource] at h
  rw [← address_twoLists]
  exact h

theorem creatable_twoLists : twoLists.Creatable .default twoListsStore := by
  have hcompiled : ∀ k ∈ twoLists.nodes,
      ((Source.ofTable twoListsResources).compile Settings.default.hashLength.digits
        k.schemas).toOption.any (fun _ => true) = true := by
    decide +kernel
  have hnone : twoListsStore.contents.get? twoListsAddress = none := by
    decide +kernel
  have hdigests : ((twoListsStore.contents.values ++
      [(twoLists.resource Settings.default.version).canonicalText]).map Sha256.hex).Nodup := by
    decide +kernel
  have hseparates : (Source.ofTable (twoListsResources.insert twoListsAddress
      (twoLists.resource defaultVersion))).Separates [[twoListsAddress]] := by
    decide +kernel
  refine ⟨by decide +kernel, by decide +kernel, fun k hk => ?_, fun text ht => ?_,
    noCollision_of_nodup hdigests, ?_⟩
  · obtain ⟨own, hown, -⟩ := exists_ok_of_any (hcompiled k hk)
    exact ⟨own, spells_twoLists.source_eq ▸ hown⟩
  · rw [address_twoLists, hnone] at ht
    cases ht
  · rw [address_twoLists, spells_storedIn_twoLists.source_eq]
    exact hseparates.separated

theorem createSchema_means_twoLists :
    model SchemaInput.read twoLists.toJson = .ok twoLists ∧ twoLists.Creatable .default twoListsStore ∧
    createSchema .default twoLists.toJson (.ofStore twoListsStore) =
      (.ok (twoLists.address .default twoListsStore), .ofStore (twoLists.storedIn .default twoListsStore)) ∧
    ∃ g, (Gateway.ofStore (twoLists.storedIn .default twoListsStore)).source.compile
        Settings.default.hashLength.digits [twoLists.address .default twoListsStore] = .ok g ∧
      twoLists.Means (Gateway.ofStore twoListsStore).source Settings.default.hashLength.digits g ∧
      twoLists.Means (Gateway.ofStore (twoLists.storedIn .default twoListsStore)).source
        Settings.default.hashLength.digits g := by
  have hread := twoLists.read_toJson (by decide)
  exact ⟨hread, creatable_twoLists, createSchema_means .default hread creatable_twoLists⟩

/-- A graph has the fields that the root of another has, with all that they remember. -/
def TypeGraph.SameFields (g own : TypeGraph) : Prop :=
  ∀ t, g.types.get? own.root = some t → ∀ key, t.fields.get? key = own.rootType.fields.get? key

/-- The type that a new schema leads to need not remember the lists that it remembers on its own. -/
theorem not_sameFields_twoLists :
    model SchemaInput.read twoLists.toJson = .ok twoLists ∧ twoLists.Creatable .default twoListsStore ∧
    createSchema .default twoLists.toJson (.ofStore twoListsStore) =
      (.ok (twoLists.address .default twoListsStore), .ofStore (twoLists.storedIn .default twoListsStore)) ∧
    ∃ g own, (Gateway.ofStore (twoLists.storedIn .default twoListsStore)).source.compile
        Settings.default.hashLength.digits [twoLists.address .default twoListsStore] = .ok g ∧
      (Gateway.ofStore twoListsStore).source.compile Settings.default.hashLength.digits ["m", "p"] = .ok own ∧
      g.rootType.fields.get? "second" = some ⟨.node ["m", "p"] own.root, false⟩ ∧
      ¬ g.SameFields own := by
  have hread := twoLists.read_toJson (by decide)
  have hrun : ((Source.ofTable (twoListsResources.insert twoListsAddress
      (twoLists.resource defaultVersion))).compile Settings.default.hashLength.digits
      [twoListsAddress]).toOption.any (fun g =>
        ((Source.ofTable twoListsResources).compile Settings.default.hashLength.digits
          ["m", "p"]).toOption.any fun own =>
            g.rootType.fields.get? "second" = some ⟨.node ["m", "p"] own.root, false⟩ &&
            ((g.types.get? own.root).bind fun t => t.fields.get? "peer").map Field.schemas = some ["p"] &&
            (own.rootType.fields.get? "peer").map Field.schemas = some ["q"]) = true := by
    decide +kernel
  rw [← spells_storedIn_twoLists.source_eq, ← spells_twoLists.source_eq, ← address_twoLists] at hrun
  obtain ⟨g, hg, hrun⟩ := exists_ok_of_any hrun
  obtain ⟨own, hown, hrun⟩ := exists_ok_of_any hrun
  simp only [Bool.and_eq_true, decide_eq_true_eq] at hrun
  obtain ⟨⟨hsecond, hwithin⟩, halone⟩ := hrun
  refine ⟨hread, creatable_twoLists, twoLists.createSchema_eq _ hread creatable_twoLists.distinct _,
    g, own, hg, hown, hsecond, fun hsame => ?_⟩
  cases ht : g.types.get? own.root with
  | none =>
    rw [ht] at hwithin
    cases hwithin
  | some t =>
    rw [ht, Option.bind_some, hsame t ht "peer", halone] at hwithin
    exact absurd hwithin (by decide)

end ContentGraph
