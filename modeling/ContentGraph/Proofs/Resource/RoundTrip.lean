import ContentGraph.Canonical
import ContentGraph.Proofs.Checked
import ContentGraph.Proofs.Json.Sorted

/-!
# Resources read back

A resource is read from its canonical text as itself, but for the order of a schema's keys,
which the text sorts (`ofText?_canonicalText`). A document keeps everything, what is no number
included.
-/

namespace ContentGraph

variable {α : Type}

/-- The member `kind` chooses the reading of an object. -/
theorem byKind_eq_ok_iff {choices : List (String × (Members → Checked α))} {v : Json} {a : α} :
    byKind choices v = .ok a ↔ ∃ ms kind read, v = .object ms ∧ Table.find "kind" ms = some (.text kind) ∧
      Table.find kind choices = some read ∧ read ms = .ok a := by
  constructor
  · intro h
    unfold byKind at h
    split at h
    · next ms =>
      split at h
      · cases h
      · next kind hk =>
        split at h
        · next read hc => exact ⟨ms, kind, read, rfl, hk, hc, Checked.under_eq_ok_iff.1 h⟩
        · cases h
      · cases h
    · cases h
  · rintro ⟨ms, kind, read, rfl, hk, hc, hr⟩
    rw [byKind, hk]
    dsimp only
    rw [hc]
    exact Checked.under_eq_ok_iff.2 hr

/-- A key is read from the text that it is. -/
theorem Json.asKey_eq_ok_iff {v : Json} {k : Key} : v.asKey = .ok k ↔ v = .text k.text := by
  constructor
  · intro h
    cases v with
    | text s =>
      by_cases hs : s ≠ ""
      · rw [asKey, Key.ofString?, dif_pos hs] at h
        cases h
        rfl
      · rw [asKey, Key.ofString?, dif_neg hs] at h
        cases h
    | _ => cases h
  · rintro rfl
    rw [asKey, Key.ofString?, dif_pos k.nonempty]

theorem asKey_text (k : Key) : (Json.text k.text).asKey = .ok k := Json.asKey_eq_ok_iff.2 rfl

theorem asTexts_texts (ss : List String) : (Json.texts ss).asTexts = .ok ss :=
  Checked.itemsFrom_map (fun s _ => show (Json.text s).asText = .ok s from rfl) 0

/-! ### Members of sorted objects -/

section

variable {ms : Members} (hn : (ms.map Prod.fst).Nodup)
include hn

theorem required_inOrder {name : String} {read : Json → Checked α} {v : Json} {a : α}
    (hf : Table.find name ms = some v) (hr : read v.sorted = .ok a) :
    required (Json.inOrder ms) name read = .ok a := by
  rw [required, Json.find_inOrder hn, hf, Option.map_some]
  dsimp only
  rw [hr, Checked.under_ok]

theorem optional_inOrder {name : String} {default : α} {read : Json → Checked α} {v : Json} {a : α}
    (hf : Table.find name ms = some v) (hr : read v.sorted = .ok a) :
    optional (Json.inOrder ms) name default read = .ok a := by
  rw [optional, Json.find_inOrder hn, hf, Option.map_some]
  dsimp only
  rw [hr, Checked.under_ok]

theorem kindMember_inOrder {kind : String} (hf : Table.find "kind" ms = some (.text kind)) :
    kindMember (Json.inOrder ms) kind = .ok () :=
  optional_inOrder hn hf (if_pos rfl)

theorem byKind_inOrder {choices : List (String × (Members → Checked α))} {kind : String}
    {read : Members → Checked α} {a : α} (hf : Table.find "kind" ms = some (.text kind))
    (hc : Table.find kind choices = some read) (hr : read (Json.inOrder ms) = .ok a) :
    byKind choices (.object (Json.inOrder ms)) = .ok a := by
  refine byKind_eq_ok_iff.2 ⟨_, kind, read, rfl, ?_, hc, hr⟩
  rw [Json.find_inOrder hn, hf, Option.map_some, Json.sorted_text]

omit hn in
/-- A sorted object has no member beside those that the object had. -/
theorem noOthers_inOrder {names : List String} (h : ∀ k ∈ ms.map Prod.fst, k ∈ names) :
    noOthers (Json.inOrder ms) names = .ok () :=
  noOthers_eq_ok_iff.2 fun k hk => h k ((Json.keys_inOrder_perm ms).mem_iff.1 hk)

end

@[simp] theorem sorted_texts (ss : List String) : (Json.texts ss).sorted = .texts ss := by
  rw [Json.texts, Json.sorted, Json.sortedItems_eq, List.map_map]
  rfl

theorem asTexts_sorted (ss : List String) : (Json.texts ss).sorted.asTexts = .ok ss := by
  rw [sorted_texts, asTexts_texts]

theorem distinct_texts (ss : List String) : (Json.texts ss).Distinct := by
  refine Json.distinctItems_iff.2 fun v hv => ?_
  obtain ⟨s, -, rfl⟩ := List.mem_map.1 hv
  trivial

/-! ### Elements -/

namespace Element

/-- The members of an element's object. -/
def members (e : Element) : Members :=
  ("kind", .text e.kind.name) :: ("key", .text e.key.text) :: e.content.fields

theorem nodup_members (e : Element) : (e.members.map Prod.fst).Nodup := by
  obtain ⟨key, content⟩ := e
  cases content <;> simp [members, Content.fields]

theorem distinct_toJson (e : Element) : e.toJson.Distinct := by
  refine ⟨e.nodup_members, Json.distinctMembers_iff.2 ?_⟩
  obtain ⟨key, content⟩ := e
  cases content <;> simp [Content.fields, Json.Distinct]

theorem required_key (e : Element) : required (Json.inOrder e.members) "key" Json.asKey = .ok e.key := by
  refine required_inOrder e.nodup_members (v := .text e.key.text) (by simp [members, Table.find]) ?_
  rw [Json.sorted_text, asKey_text]

/-- An element is read from its sorted object. -/
theorem ofJson_sorted (e : Element) : ofJson e.toJson.sorted = .ok e := by
  have hn := e.nodup_members
  have hkey := e.required_key
  rw [show e.toJson.sorted = .object (Json.inOrder e.members) from Json.sorted_object _]
  obtain ⟨key, content⟩ := e
  cases content with
  | string s =>
    have hkind : kindMember (Json.inOrder _) "string" = .ok () := kindMember_inOrder hn rfl
    have hvalue : required (Json.inOrder _) "value" Json.asText = .ok s := required_inOrder hn rfl rfl
    refine byKind_inOrder hn rfl rfl ?_
    rw [readString, hkind, hkey, hvalue, noOthers_inOrder (by simp [members, Content.fields])]
    rfl
  | number x =>
    have hkind : kindMember (Json.inOrder _) "number" = .ok () := kindMember_inOrder hn rfl
    have hvalue : required (Json.inOrder _) "value" Json.asNumber = .ok x :=
      required_inOrder hn rfl rfl
    refine byKind_inOrder hn rfl rfl ?_
    rw [readNumber, hkind, hkey, hvalue, noOthers_inOrder (by simp [members, Content.fields])]
    rfl
  | file contentType uri =>
    have hkind : kindMember (Json.inOrder _) "file" = .ok () := kindMember_inOrder hn rfl
    have hname : contentTypeName (Json.inOrder (members ⟨key, .file contentType uri⟩)) = "contentType" := by
      rw [contentTypeName, Json.find_inOrder hn]
      simp [members, Content.fields, Table.find]
    have htype : required (Json.inOrder _) "contentType" Json.asText = .ok contentType :=
      required_inOrder hn rfl rfl
    have huri : required (Json.inOrder _) "uri" Json.asText = .ok uri := required_inOrder hn rfl rfl
    refine byKind_inOrder hn rfl rfl ?_
    rw [readFile, hname, hkind, hkey, htype, huri, noOthers_inOrder (by simp [members, Content.fields])]
    rfl
  | node uri =>
    have hkind : kindMember (Json.inOrder _) "node" = .ok () := kindMember_inOrder hn rfl
    have huri : required (Json.inOrder _) "uri" Json.asText = .ok uri := required_inOrder hn rfl rfl
    refine byKind_inOrder hn rfl rfl ?_
    rw [readNode, hkind, hkey, huri, noOthers_inOrder (by simp [members, Content.fields])]
    rfl

end Element

/-! ### Definitions -/

namespace Definition

theorem distinct_toJson (d : Definition) : d.toJson.Distinct := by
  cases d with
  | value k m => simp [toJson, Json.Distinct, Json.DistinctMembers]
  | node m ss => exact ⟨by simp, trivial, trivial, distinct_texts ss, trivial⟩

/-- The members of a definition's object. -/
def members : Definition → Members
  | .value k m => [("kind", .text (Kind.value k).name), ("multiple", .bool m)]
  | .node m ss => [("kind", .text Kind.node.name), ("multiple", .bool m), ("schemas", .texts ss)]

theorem toJson_eq (d : Definition) : d.toJson = .object d.members := by
  cases d <;> rfl

theorem nodup_members (d : Definition) : (d.members.map Prod.fst).Nodup := by
  cases d <;> simp [members]

/-- A definition is read from its sorted object. -/
theorem ofJson_sorted (d : Definition) : ofJson d.toJson.sorted = .ok d := by
  have hn := d.nodup_members
  rw [toJson_eq, Json.sorted_object]
  cases d with
  | value k m =>
    have hkind : kindMember (Json.inOrder (members (.value k m))) (Kind.value k).name = .ok () :=
      kindMember_inOrder hn rfl
    have hmultiple : optional (Json.inOrder (members (.value k m))) "multiple" false Json.asBool = .ok m :=
      optional_inOrder hn rfl rfl
    have hread : readValue k (Json.inOrder (members (.value k m))) = .ok (.value k m) := by
      rw [readValue, hkind, hmultiple, noOthers_inOrder (by simp [members])]
      rfl
    cases k <;> exact byKind_inOrder hn rfl rfl hread
  | node m ss =>
    have hkind : kindMember (Json.inOrder (members (.node m ss))) "node" = .ok () :=
      kindMember_inOrder hn rfl
    have hmultiple : optional (Json.inOrder (members (.node m ss))) "multiple" false Json.asBool = .ok m :=
      optional_inOrder hn rfl rfl
    have hschemas : optional (Json.inOrder (members (.node m ss))) "schemas" [] Json.asTexts = .ok ss :=
      optional_inOrder hn rfl (asTexts_sorted ss)
    refine byKind_inOrder hn rfl rfl ?_
    rw [readNode, hkind, hmultiple, hschemas, noOthers_inOrder (by simp [members])]
    rfl

end Definition

/-! ### Resources -/

theorem Document.distinct_toJson (d : Document) : d.toJson.Distinct := by
  refine ⟨by simp, trivial, trivial, distinct_texts d.schemas, Json.distinctItems_iff.2 ?_, trivial⟩
  intro v hv
  obtain ⟨e, -, rfl⟩ := List.mem_map.1 hv
  exact e.distinct_toJson

theorem Schema.distinct_toJson (s : Schema) : s.toJson.Distinct := by
  refine ⟨by simp, trivial, trivial, trivial, ⟨?_, Json.distinctMembers_iff.2 ?_⟩, trivial⟩
  · rw [List.map_map]
    exact s.elements.nodup
  · intro m hm
    obtain ⟨e, -, rfl⟩ := List.mem_map.1 hm
    exact e.2.distinct_toJson

theorem Alias.distinct_toJson (a : Alias) : a.toJson.Distinct :=
  ⟨by simp, trivial, trivial, trivial, distinct_texts a.schemas, trivial⟩

/-- The members of a document's object. -/
def Document.members (d : Document) : Members :=
  [("kind", .text "document"), ("version", .text d.version), ("schemas", .texts d.schemas),
    ("elements", .list (d.elements.map Element.toJson))]

/-- A document is read from its sorted object. -/
theorem Document.read_sorted (d : Document) : read (Json.inOrder d.members) = .ok d := by
  have hn : (d.members.map Prod.fst).Nodup := by simp [members]
  have hkind : kindMember (Json.inOrder d.members) "document" = .ok () := kindMember_inOrder hn rfl
  have hversion : optional (Json.inOrder d.members) "version" defaultVersion Json.asText
      = .ok d.version :=
    optional_inOrder hn rfl rfl
  have hschemas : optional (Json.inOrder d.members) "schemas" [] Json.asTexts = .ok d.schemas :=
    optional_inOrder hn rfl (asTexts_sorted d.schemas)
  have helements : optional (Json.inOrder d.members) "elements" [] (Json.asList Element.ofJson)
      = .ok d.elements := by
    refine optional_inOrder hn (v := .list (d.elements.map Element.toJson)) rfl ?_
    rw [Json.sorted, Json.sortedItems_eq, List.map_map]
    exact Checked.itemsFrom_map (fun e _ => e.ofJson_sorted) 0
  rw [read, hkind, hversion, hschemas, helements, noOthers_inOrder (by simp [members])]
  rfl

/-- The members of an alias's object. -/
def Alias.members (a : Alias) : Members :=
  [("kind", .text "alias"), ("version", .text a.version), ("name", .text a.name),
    ("schemas", .texts a.schemas)]

/-- An alias is read from its sorted object. -/
theorem Alias.read_sorted (a : Alias) : read (Json.inOrder a.members) = .ok a := by
  have hn : (a.members.map Prod.fst).Nodup := by simp [members]
  have hkind : kindMember (Json.inOrder a.members) "alias" = .ok () := kindMember_inOrder hn rfl
  have hversion : optional (Json.inOrder a.members) "version" defaultVersion Json.asText
      = .ok a.version :=
    optional_inOrder hn rfl rfl
  have hname : required (Json.inOrder a.members) "name" Json.asText = .ok a.name :=
    required_inOrder hn rfl rfl
  have hschemas : optional (Json.inOrder a.members) "schemas" [] Json.asTexts = .ok a.schemas :=
    optional_inOrder hn rfl (asTexts_sorted a.schemas)
  rw [read, hkind, hversion, hname, hschemas, noOthers_inOrder (by simp [members])]
  rfl

/-- The members of a schema's object. -/
def Schema.members (s : Schema) : Members :=
  [("kind", .text "schema"), ("version", .text s.version), ("name", .text s.name),
    ("elements", .object (s.elements.entries.map fun e => (e.1, e.2.toJson)))]

/-- The schema with its keys in increasing order. -/
def Schema.sorted (s : Schema) : Schema := { s with elements := s.elements.sorted }

/-- A schema is read from its sorted object with its keys in order. -/
theorem Schema.read_sorted (s : Schema) : read (Json.inOrder s.members) = .ok s.sorted := by
  have hn : (s.members.map Prod.fst).Nodup := by simp [members]
  have hkind : kindMember (Json.inOrder s.members) "schema" = .ok () := kindMember_inOrder hn rfl
  have hversion : optional (Json.inOrder s.members) "version" defaultVersion Json.asText
      = .ok s.version :=
    optional_inOrder hn rfl rfl
  have hname : required (Json.inOrder s.members) "name" Json.asText = .ok s.name :=
    required_inOrder hn rfl rfl
  have helements : optional (Json.inOrder s.members) "elements" [] (Json.asMap Definition.ofJson)
      = .ok s.elements.sorted.entries := by
    refine optional_inOrder hn (v := .object (s.elements.entries.map fun e => (e.1, e.2.toJson))) rfl ?_
    rw [Json.sorted_object, Json.inOrder_map]
    have h : ∀ e ∈ s.elements.sorted.entries, Definition.ofJson e.2.toJson.sorted = .ok e.2 :=
      fun e _ => e.2.ofJson_sorted
    exact Checked.members_map (fun d : Definition => d.toJson.sorted) h
  rw [read, hkind, hversion, hname, helements, noOthers_inOrder (by simp [members])]
  show Checked.ok (⟨s.version, s.name, Table.ofList s.elements.sorted.entries⟩ : Schema) = _
  rw [Table.ofList_entries]
  rfl

namespace Resource

/-- The members of a resource's object. -/
def members : Resource → Members
  | .document d => d.members
  | .schema s => s.members
  | .alias a => a.members

/-- The resource with a schema's keys in increasing order. -/
def sorted : Resource → Resource
  | .schema s => .schema s.sorted
  | r => r

theorem toJson_eq (r : Resource) : r.toJson = .object r.members := by
  cases r <;> rfl

theorem nodup_members (r : Resource) : (r.members.map Prod.fst).Nodup := by
  cases r <;> simp [members, Document.members, Schema.members, Alias.members]

theorem distinct_toJson : ∀ r : Resource, r.toJson.Distinct
  | .document d => d.distinct_toJson
  | .schema s => s.distinct_toJson
  | .alias a => a.distinct_toJson

/-- A resource is read from its sorted object with a schema's keys in order. -/
theorem ofJson_sorted (r : Resource) : ofJson r.toJson.sorted = .ok r.sorted := by
  have hn := r.nodup_members
  rw [toJson_eq, Json.sorted_object]
  rcases r with d | s | a
  · refine byKind_inOrder hn rfl rfl ?_
    show (Document.read (Json.inOrder d.members)).map Resource.document = _
    rw [d.read_sorted]
    rfl
  · refine byKind_inOrder hn rfl rfl ?_
    show (Schema.read (Json.inOrder s.members)).map Resource.schema = _
    rw [s.read_sorted]
    rfl
  · refine byKind_inOrder hn rfl rfl ?_
    show (Alias.read (Json.inOrder a.members)).map Resource.alias = _
    rw [a.read_sorted]
    rfl

theorem parse?_canonicalText (r : Resource) :
    Json.parse? r.canonicalText = some (.object (Json.inOrder r.members)) := by
  rw [canonicalText, Json.parse?_canonicalText r.distinct_toJson, toJson_eq, Json.sorted_object]

/-- **A resource is read from its canonical text as itself**, but for the order of keys. -/
theorem ofText?_canonicalText (r : Resource) : ofText? r.canonicalText = some r.sorted := by
  rw [ofText?, r.parse?_canonicalText, Option.bind_some, ← Json.sorted_object, ← toJson_eq,
    r.ofJson_sorted]
  rfl

end Resource

end ContentGraph
