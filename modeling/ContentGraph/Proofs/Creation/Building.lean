import ContentGraph.Proofs.Creation.Schemas

/-!
# Building a schema

A description lists its keys by kind, and the lists are taken one after another. Building stops at the first
key that was taken before, and tells the list in which it stood and the list in which it stands again.
Without such a key the schema has one definition for each item, in the order of the keys, and the order of
the items inside the lists leaves no trace in what is stored (`SchemaInput.buildsExactly`).

What is taken so far is a table whose entries are the items so far (`foldlM_add`), so that the first item that
is refused is told by the items before it: their keys are distinct, and its own key is one of them.
-/

namespace ContentGraph

/-- A list with a repeated image has a first element whose image stands before. -/
theorem exists_first_repeated {α β : Type} {f : α → β} {as : List α} (h : ¬(as.map f).Nodup) :
    ∃ before a after, as = before ++ a :: after ∧ (before.map f).Nodup ∧ f a ∈ before.map f := by
  induction as using List.reverseRecOn with
  | nil => exact absurd List.nodup_nil h
  | append_singleton as a ih =>
    by_cases hn : (as.map f).Nodup
    · refine ⟨as, a, [], rfl, hn, ?_⟩
      by_contra hf
      apply h
      rw [List.map_append]
      exact hn.append (List.nodup_singleton _) (List.disjoint_singleton.2 hf)
    · obtain ⟨before, b, after, rfl, hb⟩ := ih hn
      exact ⟨before, b, after ++ [a], by simp, hb⟩

namespace SchemaInput

variable {i j : SchemaInput} {version : String} {f : Failure}

/-! ### What a description says -/

/-- The keys with the names of their lists, in the order in which they are taken. -/
def listed (i : SchemaInput) : List (String × String) :=
  (i.strings.map fun k => ("strings", k.key.text)) ++ (i.numbers.map fun k => ("numbers", k.key.text))
    ++ (i.files.map fun k => ("files", k.key.text)) ++ i.nodes.map fun k => ("nodes", k.key.text)

/-- A key stands at least twice. -/
def Repeats (i : SchemaInput) : Prop := ∃ key, 2 ≤ (i.listed.map Prod.snd).count key

/-- The conflict of a description: it tells the first key that stood before. -/
inductive ConflictsWith (i : SchemaInput) : Failure → Prop where
  /-- No key is repeated before this one, which stood in the earlier list. -/
  | first {before after : List (String × String)} {earlier list key : String}
      (split : i.listed = before ++ (list, key) :: after) (distinct : (before.map Prod.snd).Nodup)
      (stood : (earlier, key) ∈ before) :
      i.ConflictsWith (.conflict key (earlier ++ " input") (list ++ " input"))

/-- The definitions that the items ask for. -/
inductive Asks (i : SchemaInput) : String → Definition → Prop where
  /-- A key of texts. -/
  | string {k : KeyInput} (h : k ∈ i.strings) : i.Asks k.key.text (.value .string k.multiple)
  /-- A key of numbers. -/
  | number {k : KeyInput} (h : k ∈ i.numbers) : i.Asks k.key.text (.value .number k.multiple)
  /-- A key of files. -/
  | file {k : KeyInput} (h : k ∈ i.files) : i.Asks k.key.text (.value .file k.multiple)
  /-- A key of references, with its schemas. -/
  | node {k : NodeKeyInput} (h : k ∈ i.nodes) : i.Asks k.key.text (.node k.multiple k.schemas)

/-- A schema is what a description says. -/
structure Describes (i : SchemaInput) (version : String) (s : Schema) : Prop where
  /-- It is of the version at hand. -/
  version : s.version = version
  /-- It has the name of the description. -/
  name : s.name = i.name
  /-- It has as many definitions as there are items. -/
  count : s.elements.size = i.listed.length
  /-- Its definitions are the ones that are asked for. -/
  definitions : ∀ key d, s.elements.get? key = some d ↔ i.Asks key d
  /-- Its keys increase. -/
  increasing : s.elements.keys.Pairwise (· < ·)

/-- The items are the same, list by list, in any order. -/
structure Rearranges (i j : SchemaInput) : Prop where
  /-- The name is the same. -/
  name : i.name = j.name
  /-- The keys of texts. -/
  strings : i.strings.Perm j.strings
  /-- The keys of numbers. -/
  numbers : i.numbers.Perm j.numbers
  /-- The keys of files. -/
  files : i.files.Perm j.files
  /-- The keys of references. -/
  nodes : i.nodes.Perm j.nodes

/-- Building follows a description exactly. -/
structure BuildsExactly (i : SchemaInput) (version : String) : Prop where
  /-- It fails where a key stands twice. -/
  conflict : (∃ f, i.build version = .error f) ↔ i.Repeats
  /-- It fails with the first such key and its two lists. -/
  first : ∀ f, i.build version = .error f ↔ i.ConflictsWith f
  /-- Otherwise the schema is the one that is described. -/
  built : ¬i.Repeats → ∃ s, i.build version = .ok s ∧ i.Describes version s
  /-- The order inside the lists does not tell in what is stored. -/
  rearranged : ¬i.Repeats → ∀ j, i.Rearranges j →
    ∃ s t, i.build version = .ok s ∧ j.build version = .ok t ∧
      (Resource.schema s).canonicalText.toUTF8 = (Resource.schema t).canonicalText.toUTF8 ∧
      ∀ store store' : Store, store.lead = store'.lead →
        (store.save (.schema s)).2 = (store'.save (.schema t)).2

/-! ### The items and the entries -/

theorem map_entries : (i.entries.map fun e => (e.1, e.2.1)) = i.listed := by
  simp only [entries, valueEntries, List.map_append, List.map_map]
  rfl

theorem map_listed : i.listed.map Prod.snd = i.keys := by
  rw [← map_entries, List.map_map]
  rfl

theorem not_repeats_iff : ¬i.Repeats ↔ i.keys.Nodup := by
  rw [List.nodup_iff_count_le_one]
  simp only [Repeats, map_listed, not_exists, Nat.not_le, Nat.lt_succ_iff]

theorem asks_iff {key : String} {d : Definition} :
    i.Asks key d ↔ ∃ list, (list, key, d) ∈ i.entries := by
  constructor
  · intro h
    cases h with
    | string h => exact mem_entries_value (show _ ∈ i.keysOf .string from h)
    | number h => exact mem_entries_value (show _ ∈ i.keysOf .number from h)
    | file h => exact mem_entries_value (show _ ∈ i.keysOf .file from h)
    | node h => exact ⟨_, mem_entries_node h⟩
  · rintro ⟨list, h⟩
    simp only [entries, valueEntries, List.mem_append, List.mem_map] at h
    obtain ((⟨k, hk, ⟨⟩⟩ | ⟨k, hk, ⟨⟩⟩) | ⟨k, hk, ⟨⟩⟩) | ⟨k, hk, ⟨⟩⟩ := h
    exacts [.string hk, .number hk, .file hk, .node hk]

/-! ### The first key that is refused -/

theorem add_repeated {taken : Table (String × Definition)} {key earlier list : String} {d d' : Definition}
    (h : (key, earlier, d) ∈ taken.entries) : add taken (list, key, d')
      = .error (.conflict key (earlier ++ " input") (list ++ " input")) := by
  rw [add, Table.get?_eq_some_iff.2 h]

/-- Building stops where the conflict of the description says. -/
theorem build_of_conflictsWith (h : i.ConflictsWith f) : i.build version = .error f := by
  cases h with | first hsplit hdistinct hstood =>
  rw [← map_entries] at hsplit
  obtain ⟨es, rest, hes, rfl, hrest⟩ := List.map_eq_append_iff.1 hsplit
  obtain ⟨e, es', rfl, he, -⟩ := List.map_eq_cons_iff.1 hrest
  rw [List.map_map] at hdistinct
  have hnone : ((Table.empty : Table (String × Definition)).keys ++ es.map fun e => e.2.1).Nodup := hdistinct
  obtain ⟨taken, htaken, hentries⟩ := foldlM_add hnone
  obtain ⟨e', he', heq⟩ := List.mem_map.1 hstood
  have hmem : (e'.2.1, e'.1, e'.2.2) ∈ taken.entries := by
    rw [hentries]
    exact List.mem_map.2 ⟨e', he', rfl⟩
  obtain ⟨list, key, d⟩ := e
  cases he
  cases heq
  rw [build, hes, List.foldlM_append, htaken]
  show ((add taken _) >>= _).map _ = _
  rw [add_repeated hmem]
  rfl

/-- A repeated key has a conflict. -/
theorem exists_conflictsWith (h : i.Repeats) : ∃ f, i.ConflictsWith f := by
  have hkeys : ¬(i.listed.map Prod.snd).Nodup := by
    rw [map_listed, ← not_repeats_iff]
    exact not_not.2 h
  obtain ⟨before, ⟨list, key⟩, after, hsplit, hdistinct, hmem⟩ := exists_first_repeated hkeys
  obtain ⟨⟨earlier, _⟩, hstood, rfl⟩ := List.mem_map.1 hmem
  exact ⟨_, .first hsplit hdistinct hstood⟩

theorem repeats_of_build_eq_error (h : i.build version = .error f) : i.Repeats := by
  by_contra hn
  rw [build_eq (not_repeats_iff.1 hn)] at h
  cases h

theorem build_eq_error_iff : i.build version = .error f ↔ i.ConflictsWith f := by
  refine ⟨fun h => ?_, build_of_conflictsWith⟩
  obtain ⟨f', hf'⟩ := exists_conflictsWith (repeats_of_build_eq_error h)
  have hsame : Except.error f = Except.error f' := h.symm.trans (build_of_conflictsWith hf')
  cases hsame
  exact hf'

/-! ### The schema that is built -/

/-- Keys that stand once give the schema that is described. -/
theorem describes_schema (h : i.keys.Nodup) : i.Describes version (i.schema version) where
  version := rfl
  name := rfl
  count := by
    have hlength : (i.schema version).elements.keys.length = i.keys.length := (keys_schema_perm h).length_eq
    rwa [← map_listed, List.length_map, Table.keys, List.length_map] at hlength
  definitions key d := by rw [Table.get?_eq_some_iff, mem_elements_iff h, asks_iff]
  increasing := Table.pairwise_keys_sorted _

theorem Rearranges.asks (h : i.Rearranges j) {key : String} {d : Definition} :
    i.Asks key d ↔ j.Asks key d := by
  constructor
  · rintro (hk | hk | hk | hk)
    exacts [.string (h.strings.mem_iff.1 hk), .number (h.numbers.mem_iff.1 hk),
      .file (h.files.mem_iff.1 hk), .node (h.nodes.mem_iff.1 hk)]
  · rintro (hk | hk | hk | hk)
    exacts [.string (h.strings.mem_iff.2 hk), .number (h.numbers.mem_iff.2 hk),
      .file (h.files.mem_iff.2 hk), .node (h.nodes.mem_iff.2 hk)]

theorem Rearranges.keys (h : i.Rearranges j) : i.keys.Perm j.keys := by
  rw [← map_listed, ← map_listed]
  exact ((((h.strings.map _).append (h.numbers.map _)).append (h.files.map _)).append (h.nodes.map _)).map _

/-- The schema does not depend on the order inside the lists. -/
theorem Rearranges.schema_eq (h : i.Rearranges j) (hi : i.keys.Nodup) :
    i.schema version = j.schema version := by
  have hj : j.keys.Nodup := h.keys.nodup_iff.1 hi
  -- A sorted table is told by its pairs, and these are what the items ask for.
  have helements : (i.schema version).elements.sorted = (j.schema version).elements.sorted := by
    refine Table.sorted_congr fun ⟨key, d⟩ => ?_
    rw [mem_elements_iff hi, mem_elements_iff hj, ← asks_iff, ← asks_iff, h.asks]
  rw [sorted_elements, sorted_elements] at helements
  calc i.schema version
      = ⟨version, i.name, (i.schema version).elements⟩ := rfl
    _ = ⟨version, j.name, (j.schema version).elements⟩ := by rw [h.name, helements]
    _ = j.schema version := rfl

/-- Building a schema follows its description: it fails just where a key stands twice, with the first key
that stood before, and otherwise gives the definitions that are asked for in the order of their keys,
whatever the order inside the lists is. -/
theorem buildsExactly (i : SchemaInput) (version : String) : i.BuildsExactly version where
  conflict := by
    refine ⟨fun ⟨f, h⟩ => repeats_of_build_eq_error h, fun h => ?_⟩
    obtain ⟨f, hf⟩ := exists_conflictsWith h
    exact ⟨f, build_of_conflictsWith hf⟩
  first f := build_eq_error_iff
  built h := by
    have hkeys := not_repeats_iff.1 h
    exact ⟨_, build_eq hkeys, describes_schema hkeys⟩
  rearranged h j hj := by
    have hkeys := not_repeats_iff.1 h
    have hbuilt : j.build version = .ok (i.schema version) := by
      rw [build_eq (hj.keys.nodup_iff.1 hkeys), hj.schema_eq hkeys]
    refine ⟨_, _, build_eq hkeys, hbuilt, rfl, fun store store' hlead => ?_⟩
    rw [Store.address_save, Store.address_save, hlead]

/-- The key of a text stands again among the keys of files. -/
example : (SchemaInput.mk "Post" [⟨⟨"x", by decide⟩, false⟩] [⟨⟨"y", by decide⟩, true⟩]
    [⟨⟨"x", by decide⟩, false⟩] []).build "0.1.0"
      = .error (.conflict "x" "strings input" "files input") := rfl

end SchemaInput

end ContentGraph
