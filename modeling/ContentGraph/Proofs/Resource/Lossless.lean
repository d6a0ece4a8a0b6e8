import ContentGraph.Proofs.Lenient
import ContentGraph.Proofs.Lists
import ContentGraph.Proofs.Resource.Content

/-!
# Reading loses nothing

What a value is read as has a wire object of its own, and that object keeps all that was given: each member
of the value, at every level, stands in it under the name of a declared member, and a declared member that
was not given stands in it with its default. A text stands there as itself, a number as the number that was
denoted (`Json.Denotes`), a truth value as what was said (`Json.Says`), and a list or a map item by item and in
order. The members that an object of each kind has are declared here once more (`WireField`), apart from the
reader and the writer, and both meet at that declaration (`ObjectKept`).

So the wire object is read as what it is the object of (`Resource.ofJson_toJson`), and reading once more
changes nothing.
-/

namespace ContentGraph

/-! ### What is kept -/

/-- A text is kept as it is. -/
inductive TextKept : Json → Json → Prop
  /-- It is the same text. -/
  | intro (s : String) : TextKept (.text s) (.text s)

/-- A number is kept as the number that was denoted. -/
inductive NumberKept : Json → Json → Prop
  /-- It is the number that was denoted. -/
  | intro {v : Json} {x : Binary} : v.Denotes x → NumberKept v (.number x)

/-- A truth value is kept as what was said. -/
inductive TruthKept : Json → Json → Prop
  /-- It is the truth value that was said. -/
  | intro {v : Json} {b : Bool} : v.Says b → TruthKept v (.bool b)

/-- A list is kept item by item: none is added, left out or moved. -/
inductive ListKept (kept : Json → Json → Prop) : Json → Json → Prop
  /-- Each item is kept at its place. -/
  | intro {vs ws : List Json} : List.Forall₂ kept vs ws → ListKept kept (.list vs) (.list ws)

/-- A map is kept member by member, each under its name and at its place. -/
inductive MapKept (kept : Json → Json → Prop) : Json → Json → Prop
  /-- Each member is kept. -/
  | intro {ms ws : Members} : List.Forall₂ (fun m w => m.1 = w.1 ∧ kept m.2 w.2) ms ws →
      MapKept kept (.object ms) (.object ws)

/-- A member that the objects of some kind have. -/
structure WireField where
  /-- Its name. -/
  name : String
  /-- Other names under which it may be given. -/
  others : List String
  /-- Where it may be absent, what it stands for then. -/
  default? : Option Json
  /-- What is kept of its value. -/
  kept : Json → Json → Prop

/-- The names under which a member may be given. -/
def WireField.names (f : WireField) : List String := f.name :: f.others

/-- What is written of a member holds what was given of it. -/
structure WireField.Holds (f : WireField) (ms : Members) (written : Json) : Prop where
  /-- What was given is kept. -/
  given : ∀ key ∈ f.names, ∀ v, (key, v) ∈ ms → f.kept v written
  /-- Where nothing was given, there is a default, and it is written. -/
  absent : (∀ key ∈ f.names, key ∉ ms.map Prod.fst) → f.default? = some written

/-- An object is kept: it has no members but declared ones, and what is written are the declared members,
each of which holds what was given of it. -/
inductive ObjectKept (fields : List WireField) : Json → Json → Prop
  /-- All members are kept. -/
  | intro {ms ws : Members} (declared : ∀ key ∈ ms.map Prod.fst, ∃ f ∈ fields, key ∈ f.names)
      (held : List.Forall₂ (fun f w => w.1 = f.name ∧ f.Holds ms w.2) fields ws) :
      ObjectKept fields (.object ms) (.object ws)

/-- What was given stands in an object that is kept, under the name of its member. -/
theorem ObjectKept.exists_written {fields : List WireField} {ms ws : Members}
    (h : ObjectKept fields (.object ms) (.object ws)) {key : String} {v : Json} (hm : (key, v) ∈ ms) :
    ∃ f ∈ fields, key ∈ f.names ∧ ∃ w, (f.name, w) ∈ ws ∧ f.kept v w := by
  cases h with
  | intro declared held =>
    obtain ⟨f, hf, hkey⟩ := declared key (List.mem_map_of_mem hm)
    obtain ⟨⟨name, w⟩, hw, rfl, hholds⟩ := exists_of_mem_left held f hf
    exact ⟨f, hf, hkey, w, hw, hholds.given key hkey v hm⟩

/-- An object of one of several kinds is kept as an object of its kind. -/
inductive KindKept (kinds : List (String × List WireField)) : Json → Json → Prop
  /-- The member `kind` says which. -/
  | intro {kind : String} {fields : List WireField} {ms : Members} {w : Json} :
      ("kind", .text kind) ∈ ms → (kind, fields) ∈ kinds → ObjectKept fields (.object ms) w →
      KindKept kinds (.object ms) w

/-! ### Declared members -/

namespace WireField

/-- A text that is not left out. -/
def text (name : String) : WireField := ⟨name, [], none, TextKept⟩

/-- The format version. -/
def version : WireField := ⟨"version", [], some (.text "0.1.0"), TextKept⟩

/-- Whether a key may repeat. -/
def multiple : WireField := ⟨"multiple", [], some (.bool false), TruthKept⟩

/-- Addresses of schemas and aliases. -/
def schemas : WireField := ⟨"schemas", [], some (.list []), ListKept TextKept⟩

end WireField

open WireField (text)

/-- The members of elements. -/
def elementKinds : List (String × List WireField) :=
  [("string", [text "kind", text "key", text "value"]),
    ("number", [text "kind", text "key", ⟨"value", [], none, NumberKept⟩]),
    ("file", [text "kind", text "key", ⟨"contentType", ["content_type"], none, TextKept⟩, text "uri"]),
    ("node", [text "kind", text "key", text "uri"])]

/-- The members of definitions. -/
def definitionKinds : List (String × List WireField) :=
  [("string", [text "kind", .multiple]), ("number", [text "kind", .multiple]),
    ("file", [text "kind", .multiple]), ("node", [text "kind", .multiple, .schemas])]

/-- The members of resources. -/
def resourceKinds : List (String × List WireField) :=
  [("document", [text "kind", .version, .schemas,
      ⟨"elements", [], some (.list []), ListKept (KindKept elementKinds)⟩]),
    ("schema", [text "kind", .version, text "name",
      ⟨"elements", [], some (.object []), MapKept (KindKept definitionKinds)⟩]),
    ("alias", [text "kind", .version, text "name", .schemas])]

/-! ### Members that were read -/

variable {α : Type}

/-- A list is kept where its items are. -/
theorem listKept_of_asList {kept : Json → Json → Prop} {read : Json → Checked α} {write : α → Json}
    {v : Json} {as : List α} (h : v.asList read = .ok as) (hd : v.Distinct)
    (hk : ∀ u a, u.Distinct → read u = .ok a → kept u (write a)) :
    ListKept kept v (.list (as.map write)) := by
  cases v with
  | list vs =>
    have hitems := Checked.itemsFrom_eq_ok_iff.1 h
    refine .intro (List.forall₂_map_right_iff.2 ?_)
    have hboth := (List.forall₂_and_left vs as).2 ⟨Json.distinctItems_iff.1 hd, hitems⟩
    exact hboth.imp fun u a hu => hk u a hu.1 hu.2
  | _ => cases h

/-- A map is kept where its values are. -/
theorem mapKept_of_asMap {kept : Json → Json → Prop} {read : Json → Checked α} {write : α → Json}
    {v : Json} {es : List (String × α)} (h : v.asMap read = .ok es) (hd : v.Distinct)
    (hk : ∀ u a, u.Distinct → read u = .ok a → kept u (write a)) :
    (es.map Prod.fst).Nodup ∧ MapKept kept v (.object (es.map fun e => (e.1, write e.2))) := by
  cases v with
  | object ms =>
    have hmembers := Checked.members_eq_ok_iff.1 h
    have hnames : ms.map Prod.fst = es.map Prod.fst := by
      rw [← List.forall₂_eq_eq_eq, List.forall₂_map_left_iff, List.forall₂_map_right_iff]
      exact hmembers.imp fun _ _ hm => hm.1
    have hboth := (List.forall₂_and_left ms es).2 ⟨Json.distinctMembers_iff.1 hd.2, hmembers⟩
    refine ⟨hnames ▸ hd.1, .intro (List.forall₂_map_right_iff.2 ?_)⟩
    exact hboth.imp fun m e hm => ⟨hm.2.1, hk m.2 e.2 hm.1 hm.2.2⟩
  | _ => cases h

section

variable {ms : Members} (hd : (Json.object ms).Distinct) {name : String} {kept : Json → Json → Prop}
include hd

theorem holds_required (write : α → Json) {read : Json → Checked α} {a : α}
    (h : required ms name read = .ok a) (hk : ∀ v, v.Distinct → read v = .ok a → kept v (write a)) :
    WireField.Holds ⟨name, [], none, kept⟩ ms (write a) := by
  obtain ⟨v, hf, hr⟩ := required_eq_ok_iff.1 h
  refine ⟨fun key hkey u hu => ?_, fun hn => ?_⟩
  · cases List.mem_singleton.1 hkey
    cases hf.symm.trans (Table.find_of_mem hd.1 hu)
    exact hk _ (Json.distinctMembers_iff.1 hd.2 _ hu) hr
  · exact absurd (List.mem_map_of_mem (Table.mem_of_find hf)) (hn name List.mem_cons_self)

theorem holds_optional (write : α → Json) {read : Json → Checked α} {default a : α}
    (h : optional ms name default read = .ok a)
    (hk : ∀ v, v.Distinct → read v = .ok a → kept v (write a)) :
    WireField.Holds ⟨name, [], some (write default), kept⟩ ms (write a) := by
  rcases optional_eq_ok_iff.1 h with ⟨v, hf, hr⟩ | ⟨hf, rfl⟩
  · have hgiven := (holds_required hd write (required_eq_ok_iff.2 ⟨v, hf, hr⟩) hk).given
    refine ⟨hgiven, fun hn => ?_⟩
    exact absurd (List.mem_map_of_mem (Table.mem_of_find hf)) (hn name List.mem_cons_self)
  · refine ⟨fun key hkey u hu => ?_, fun _ => rfl⟩
    cases List.mem_singleton.1 hkey
    exact absurd (List.mem_map_of_mem hu) (Table.find_eq_none_iff.1 hf)

theorem holds_text {s : String} (h : required ms name Json.asText = .ok s) :
    (text name).Holds ms (.text s) :=
  holds_required hd .text h fun _ _ hr => Json.asText_eq_ok_iff.1 hr ▸ .intro s

theorem holds_kind {kind : String} (h : ("kind", .text kind) ∈ ms) :
    (text "kind").Holds ms (.text kind) :=
  holds_text hd (required_eq_ok_iff.2 ⟨_, Table.find_of_mem hd.1 h, rfl⟩)

theorem holds_key {k : Key} (h : required ms "key" Json.asKey = .ok k) :
    (text "key").Holds ms (.text k.text) :=
  holds_required hd (fun k : Key => .text k.text) h
    fun _ _ hr => Json.asKey_eq_ok_iff.1 hr ▸ .intro k.text

/-- The media type of a file has two names, of which one stands in the object. -/
theorem holds_contentType {s : String} (h : required ms (contentTypeName ms) Json.asText = .ok s)
    (ho : noOthers ms ["kind", "key", contentTypeName ms, "uri"] = .ok ()) :
    WireField.Holds ⟨"contentType", ["content_type"], none, TextKept⟩ ms (.text s) := by
  have hgiven := (holds_text hd h).given
  obtain ⟨v, hf, -⟩ := required_eq_ok_iff.1 h
  refine ⟨fun key hkey u hu => hgiven key ?_ u hu, fun hn => ?_⟩
  · have hnames := noOthers_eq_ok_iff.1 ho key (List.mem_map_of_mem hu)
    simp only [WireField.names, List.mem_cons, List.not_mem_nil, or_false] at hkey hnames
    rcases hkey with rfl | rfl <;> simpa [WireField.names, text] using hnames
  · refine absurd (List.mem_map_of_mem (Table.mem_of_find hf)) (hn _ ?_)
    unfold contentTypeName
    split <;> simp [WireField.names]

theorem holds_version {s : String} (h : optional ms "version" defaultVersion Json.asText = .ok s) :
    WireField.version.Holds ms (.text s) :=
  holds_optional hd .text h fun _ _ hr => Json.asText_eq_ok_iff.1 hr ▸ .intro s

theorem holds_multiple {b : Bool} (h : optional ms "multiple" false Json.asBool = .ok b) :
    WireField.multiple.Holds ms (.bool b) :=
  holds_optional hd .bool h fun _ _ hr => .intro (Json.asBool_eq_ok_iff.1 hr)

theorem holds_schemas {ss : List String} (h : optional ms "schemas" [] Json.asTexts = .ok ss) :
    WireField.schemas.Holds ms (.texts ss) :=
  holds_optional hd .texts h fun _ hv hr =>
    listKept_of_asList hr hv fun _ s _ hs => Json.asText_eq_ok_iff.1 hs ▸ .intro s

end

/-- Where there are no members beside some names, all are declared that have one of them. -/
theorem declared_of_noOthers {fields : List WireField} {ms : Members}
    (h : noOthers ms (fields.map WireField.name) = .ok ()) :
    ∀ key ∈ ms.map Prod.fst, ∃ f ∈ fields, key ∈ f.names := by
  intro key hkey
  obtain ⟨f, hf, rfl⟩ := List.mem_map.1 (noOthers_eq_ok_iff.1 h key hkey)
  exact ⟨f, hf, List.mem_cons_self⟩

/-- Objects of a kind are kept where they are read and written again. -/
def KeepsObjects (fields : List WireField) (kind : String) (read : Members → Checked α) (write : α → Json) :
    Prop :=
  ∀ ms a, (Json.object ms).Distinct → ("kind", .text kind) ∈ ms → read ms = .ok a →
    ObjectKept fields (.object ms) (write a)

theorem KeepsObjects.map {β : Type} {fields : List WireField} {kind : String} {read : Members → Checked α}
    {write : α → Json} {write' : β → Json} (h : KeepsObjects fields kind read write) (f : α → β)
    (hw : ∀ a, write' (f a) = write a) : KeepsObjects fields kind (fun ms => (read ms).map f) write' := by
  intro ms b hd hkind hb
  obtain ⟨a, ha, rfl⟩ := Checked.map_eq_ok_iff.1 hb
  rw [hw]
  exact h ms a hd hkind ha

/-- What the member `kind` chooses is kept where the objects of each kind are. -/
theorem kindKept_of_byKind {choices : List (String × (Members → Checked α))}
    {kinds : List (String × List WireField)} {write : α → Json}
    (hk : List.Forall₂ (fun c k => c.1 = k.1 ∧ KeepsObjects k.2 c.1 c.2 write) choices kinds) {v : Json} {a : α}
    (h : byKind choices v = .ok a) (hd : v.Distinct) : KindKept kinds v (write a) := by
  obtain ⟨ms, kind, read, rfl, hkind, hchoice, hr⟩ := byKind_eq_ok_iff.1 h
  obtain ⟨⟨_, fields⟩, hfields, rfl, hkeeps⟩ := exists_of_mem_left hk _ (Table.mem_of_find hchoice)
  exact .intro (Table.mem_of_find hkind) hfields (hkeeps ms a hd (Table.mem_of_find hkind) hr)

/-! ### Elements -/

namespace Element

theorem keeps_readString : KeepsObjects [text "kind", text "key", text "value"] "string" readString toJson := by
  intro ms e hd hkind h
  simp only [readString, Checked.seq_eq_ok_iff, Checked.fmap_eq_ok_iff] at h
  obtain ⟨_, _, ⟨_, value, ⟨_, key, ⟨_, -, rfl⟩, hkey, rfl⟩, hvalue, rfl⟩, hothers, rfl⟩ := h
  exact .intro (declared_of_noOthers hothers) (.cons ⟨rfl, holds_kind hd hkind⟩
    (.cons ⟨rfl, holds_key hd hkey⟩ (.cons ⟨rfl, holds_text hd hvalue⟩ .nil)))

theorem keeps_readNumber : KeepsObjects [text "kind", text "key", ⟨"value", [], none, NumberKept⟩] "number"
    readNumber toJson := by
  intro ms e hd hkind h
  simp only [readNumber, Checked.seq_eq_ok_iff, Checked.fmap_eq_ok_iff] at h
  obtain ⟨_, _, ⟨_, value, ⟨_, key, ⟨_, -, rfl⟩, hkey, rfl⟩, hvalue, rfl⟩, hothers, rfl⟩ := h
  have hnumber : WireField.Holds ⟨"value", [], none, NumberKept⟩ ms (.number value) :=
    holds_required hd .number hvalue fun _ _ hr => .intro (Json.asNumber_eq_ok_iff.1 hr)
  exact .intro (declared_of_noOthers hothers) (.cons ⟨rfl, holds_kind hd hkind⟩
    (.cons ⟨rfl, holds_key hd hkey⟩ (.cons ⟨rfl, hnumber⟩ .nil)))

theorem keeps_readFile : KeepsObjects
    [text "kind", text "key", ⟨"contentType", ["content_type"], none, TextKept⟩, text "uri"] "file"
    readFile toJson := by
  intro ms e hd hkind h
  simp only [readFile, Checked.seq_eq_ok_iff, Checked.fmap_eq_ok_iff] at h
  obtain ⟨_, _, ⟨_, uri, ⟨_, contentType, ⟨_, key, ⟨_, -, rfl⟩, hkey, rfl⟩, htype, rfl⟩, huri, rfl⟩, hothers,
    rfl⟩ := h
  refine .intro (fun name hname => ?_) (.cons ⟨rfl, holds_kind hd hkind⟩ (.cons ⟨rfl, holds_key hd hkey⟩
    (.cons ⟨rfl, holds_contentType hd htype hothers⟩ (.cons ⟨rfl, holds_text hd huri⟩ .nil))))
  have hnames := noOthers_eq_ok_iff.1 hothers name hname
  have hsub : ∀ other ∈ ["kind", "key", contentTypeName ms, "uri"],
      other ∈ ["kind", "key", "contentType", "content_type", "uri"] := by
    unfold contentTypeName
    split <;> decide
  have hall : ∀ other ∈ ["kind", "key", "contentType", "content_type", "uri"],
      ∃ f ∈ [text "kind", text "key", ⟨"contentType", ["content_type"], none, TextKept⟩, text "uri"],
        other ∈ f.names := by
    decide
  exact hall name (hsub name hnames)

theorem keeps_readNode : KeepsObjects [text "kind", text "key", text "uri"] "node" readNode toJson := by
  intro ms e hd hkind h
  simp only [readNode, Checked.seq_eq_ok_iff, Checked.fmap_eq_ok_iff] at h
  obtain ⟨_, _, ⟨_, uri, ⟨_, key, ⟨_, -, rfl⟩, hkey, rfl⟩, huri, rfl⟩, hothers, rfl⟩ := h
  exact .intro (declared_of_noOthers hothers) (.cons ⟨rfl, holds_kind hd hkind⟩
    (.cons ⟨rfl, holds_key hd hkey⟩ (.cons ⟨rfl, holds_text hd huri⟩ .nil)))

/-- All that is given of an element is kept. -/
theorem kept_of_ofJson {v : Json} {e : Element} (hd : v.Distinct) (h : ofJson v = .ok e) :
    KindKept elementKinds v e.toJson :=
  kindKept_of_byKind (.cons ⟨rfl, keeps_readString⟩ (.cons ⟨rfl, keeps_readNumber⟩
    (.cons ⟨rfl, keeps_readFile⟩ (.cons ⟨rfl, keeps_readNode⟩ .nil)))) h hd

/-- An element is read from its object. -/
theorem ofJson_toJson (e : Element) : ofJson e.toJson = .ok e := by
  have hkey : required e.members "key" Json.asKey = .ok e.key :=
    required_eq_ok_iff.2 ⟨_, rfl, asKey_text e.key⟩
  obtain ⟨key, content⟩ := e
  rcases content with s | x | ⟨contentType, uri⟩ | uri
  · refine byKind_eq_ok_iff.2 ⟨members ⟨key, .string s⟩, "string", readString, rfl, rfl, rfl, ?_⟩
    rw [readString, hkey]
    rfl
  · refine byKind_eq_ok_iff.2 ⟨members ⟨key, .number x⟩, "number", readNumber, rfl, rfl, rfl, ?_⟩
    rw [readNumber, hkey]
    rfl
  · refine byKind_eq_ok_iff.2 ⟨members ⟨key, .file contentType uri⟩, "file", readFile, rfl, rfl, rfl, ?_⟩
    rw [readFile, hkey]
    rfl
  · refine byKind_eq_ok_iff.2 ⟨members ⟨key, .node uri⟩, "node", readNode, rfl, rfl, rfl, ?_⟩
    rw [readNode, hkey]
    rfl

end Element

/-! ### Definitions -/

namespace Definition

theorem keeps_readValue (kind : ValueKind) : KeepsObjects [text "kind", .multiple] (Kind.value kind).name
    (readValue kind) toJson := by
  intro ms d hd hkind h
  simp only [readValue, Checked.seq_eq_ok_iff, Checked.fmap_eq_ok_iff] at h
  obtain ⟨_, _, ⟨_, multiple, ⟨_, -, rfl⟩, hmultiple, rfl⟩, hothers, rfl⟩ := h
  exact .intro (declared_of_noOthers hothers) (.cons ⟨rfl, holds_kind hd hkind⟩
    (.cons ⟨rfl, holds_multiple hd hmultiple⟩ .nil))

theorem keeps_readNode : KeepsObjects [text "kind", .multiple, .schemas] "node" readNode toJson := by
  intro ms d hd hkind h
  simp only [readNode, Checked.seq_eq_ok_iff, Checked.fmap_eq_ok_iff] at h
  obtain ⟨_, _, ⟨_, schemas, ⟨_, multiple, ⟨_, -, rfl⟩, hmultiple, rfl⟩, hschemas, rfl⟩, hothers, rfl⟩ := h
  exact .intro (declared_of_noOthers hothers) (.cons ⟨rfl, holds_kind hd hkind⟩
    (.cons ⟨rfl, holds_multiple hd hmultiple⟩ (.cons ⟨rfl, holds_schemas hd hschemas⟩ .nil)))

/-- All that is given of a definition is kept. -/
theorem kept_of_ofJson {v : Json} {d : Definition} (hd : v.Distinct) (h : ofJson v = .ok d) :
    KindKept definitionKinds v d.toJson :=
  kindKept_of_byKind (.cons ⟨rfl, keeps_readValue .string⟩ (.cons ⟨rfl, keeps_readValue .number⟩
    (.cons ⟨rfl, keeps_readValue .file⟩ (.cons ⟨rfl, keeps_readNode⟩ .nil)))) h hd

/-- A definition is read from its object. -/
theorem ofJson_toJson (d : Definition) : ofJson d.toJson = .ok d := by
  cases d with
  | value kind multiple => cases kind <;> rfl
  | node multiple schemas =>
    have hschemas : optional (members (.node multiple schemas)) "schemas" [] Json.asTexts = .ok schemas :=
      optional_eq_ok_iff.2 (.inl ⟨_, rfl, asTexts_texts schemas⟩)
    refine byKind_eq_ok_iff.2 ⟨members (.node multiple schemas), "node", readNode, rfl, rfl, rfl, ?_⟩
    rw [readNode, hschemas]
    rfl

end Definition

/-! ### Resources -/

theorem Document.keeps_read : KeepsObjects [text "kind", .version, .schemas,
    ⟨"elements", [], some (.list []), ListKept (KindKept elementKinds)⟩] "document" read toJson := by
  intro ms d hd hkind h
  simp only [read, Checked.seq_eq_ok_iff, Checked.fmap_eq_ok_iff] at h
  obtain ⟨_, _, ⟨_, elements, ⟨_, schemas, ⟨_, version, ⟨_, -, rfl⟩, hversion, rfl⟩, hschemas, rfl⟩,
    helements, rfl⟩, hothers, rfl⟩ := h
  have hlist : WireField.Holds ⟨"elements", [], some (.list []), ListKept (KindKept elementKinds)⟩ ms
      (.list (elements.map Element.toJson)) :=
    holds_optional hd (fun es => .list (es.map Element.toJson)) helements fun _ hv hr =>
      listKept_of_asList hr hv fun _ _ => Element.kept_of_ofJson
  exact .intro (declared_of_noOthers hothers) (.cons ⟨rfl, holds_kind hd hkind⟩
    (.cons ⟨rfl, holds_version hd hversion⟩ (.cons ⟨rfl, holds_schemas hd hschemas⟩
      (.cons ⟨rfl, hlist⟩ .nil))))

theorem Schema.keeps_read : KeepsObjects [text "kind", .version, text "name",
    ⟨"elements", [], some (.object []), MapKept (KindKept definitionKinds)⟩] "schema" read toJson := by
  intro ms s hd hkind h
  simp only [read, Checked.seq_eq_ok_iff, Checked.fmap_eq_ok_iff] at h
  obtain ⟨_, _, ⟨_, elements, ⟨_, name, ⟨_, version, ⟨_, -, rfl⟩, hversion, rfl⟩, hname, rfl⟩,
    helements, rfl⟩, hothers, rfl⟩ := h
  have hmap : WireField.Holds ⟨"elements", [], some (.object []), MapKept (KindKept definitionKinds)⟩ ms
      (.object ((Table.ofList elements).entries.map fun e => (e.1, e.2.toJson))) := by
    refine holds_optional hd (fun es => .object ((Table.ofList es).entries.map fun e => (e.1, e.2.toJson)))
      helements fun v hv hr => ?_
    obtain ⟨hn, hkept⟩ := mapKept_of_asMap hr hv fun _ _ => Definition.kept_of_ofJson
    rw [Table.entries_ofList hn]
    exact hkept
  exact .intro (declared_of_noOthers hothers) (.cons ⟨rfl, holds_kind hd hkind⟩
    (.cons ⟨rfl, holds_version hd hversion⟩ (.cons ⟨rfl, holds_text hd hname⟩
      (.cons ⟨rfl, hmap⟩ .nil))))

theorem Alias.keeps_read : KeepsObjects [text "kind", .version, text "name", .schemas] "alias" read toJson := by
  intro ms s hd hkind h
  simp only [read, Checked.seq_eq_ok_iff, Checked.fmap_eq_ok_iff] at h
  obtain ⟨_, _, ⟨_, schemas, ⟨_, name, ⟨_, version, ⟨_, -, rfl⟩, hversion, rfl⟩, hname, rfl⟩,
    hschemas, rfl⟩, hothers, rfl⟩ := h
  exact .intro (declared_of_noOthers hothers) (.cons ⟨rfl, holds_kind hd hkind⟩
    (.cons ⟨rfl, holds_version hd hversion⟩ (.cons ⟨rfl, holds_text hd hname⟩
      (.cons ⟨rfl, holds_schemas hd hschemas⟩ .nil))))

theorem Document.read_members (d : Document) : read d.members = .ok d := by
  have hschemas : optional d.members "schemas" [] Json.asTexts = .ok d.schemas :=
    optional_eq_ok_iff.2 (.inl ⟨_, rfl, asTexts_texts d.schemas⟩)
  have helements : optional d.members "elements" [] (Json.asList Element.ofJson) = .ok d.elements :=
    optional_eq_ok_iff.2 (.inl ⟨_, rfl, Checked.itemsFrom_map (fun e _ => e.ofJson_toJson) 0⟩)
  rw [read, hschemas, helements]
  rfl

theorem Schema.read_members (s : Schema) : read s.members = .ok s := by
  have helements : optional s.members "elements" [] (Json.asMap Definition.ofJson) = .ok s.elements.entries :=
    optional_eq_ok_iff.2 (.inl ⟨_, rfl, Checked.members_map Definition.toJson fun e _ => e.2.ofJson_toJson⟩)
  rw [read, helements]
  show Checked.ok (⟨s.version, s.name, Table.ofList s.elements.entries⟩ : Schema) = _
  rw [Table.ofList_entries]

theorem Alias.read_members (a : Alias) : read a.members = .ok a := by
  have hschemas : optional a.members "schemas" [] Json.asTexts = .ok a.schemas :=
    optional_eq_ok_iff.2 (.inl ⟨_, rfl, asTexts_texts a.schemas⟩)
  rw [read, hschemas]
  rfl

namespace Resource

/-- All that is given of a resource is kept. -/
theorem kept_of_ofJson {v : Json} {r : Resource} (hd : v.Distinct) (h : ofJson v = .ok r) :
    KindKept resourceKinds v r.toJson :=
  kindKept_of_byKind (.cons ⟨rfl, Document.keeps_read.map document fun _ => rfl⟩
    (.cons ⟨rfl, Schema.keeps_read.map schema fun _ => rfl⟩
      (.cons ⟨rfl, Alias.keeps_read.map «alias» fun _ => rfl⟩ .nil))) h hd

/-- A resource is read from its object. -/
theorem ofJson_toJson (r : Resource) : ofJson r.toJson = .ok r := by
  rcases r with d | s | a
  · exact byKind_eq_ok_iff.2
      ⟨d.members, "document", _, rfl, rfl, rfl, Checked.map_eq_ok_iff.2 ⟨d, d.read_members, rfl⟩⟩
  · exact byKind_eq_ok_iff.2
      ⟨s.members, "schema", _, rfl, rfl, rfl, Checked.map_eq_ok_iff.2 ⟨s, s.read_members, rfl⟩⟩
  · exact byKind_eq_ok_iff.2
      ⟨a.members, "alias", _, rfl, rfl, rfl, Checked.map_eq_ok_iff.2 ⟨a, a.read_members, rfl⟩⟩

/-- A resource is equal to itself where it holds nothing that is not a number. -/
theorem same_self_iff (r : Resource) : r.same r = true ↔ ¬ r.HoldsNaN := by
  rcases r with d | s | a
  · simp [same, HoldsNaN, sameItems_self_iff]
  · have hall : ∀ key d, (key, d) ∈ s.elements.entries → s.elements.get? key = some d :=
      fun _ _ => Table.get?_eq_some_iff.2
    simpa [same, HoldsNaN] using hall
  · simp [same, HoldsNaN]

/-- What is asked of a value and the resource that it is read as. -/
structure ReadLossless (v : Json) (r : Resource) : Prop where
  /-- The object of the resource keeps all that was given, and holds defaults of what was not. -/
  kept : KindKept resourceKinds v r.toJson
  /-- It is read as the resource. -/
  reread : ofJson r.toJson = .ok r
  /-- What it is read as is equal to the resource, unless that holds what is not a number. -/
  equal : ∀ again, ofJson r.toJson = .ok again → (r.same again = true ↔ ¬ r.HoldsNaN)
  /-- What it is read as has the same object and the same canonical text. -/
  stable : ∀ again, ofJson r.toJson = .ok again →
    again.toJson = r.toJson ∧ again.canonicalText = r.canonicalText

/-- **Reading a resource loses nothing.** -/
theorem readLossless {v : Json} {r : Resource} (hd : v.Distinct) (h : ofJson v = .ok r) :
    ReadLossless v r where
  kept := kept_of_ofJson hd h
  reread := r.ofJson_toJson
  equal again ha := by
    cases r.ofJson_toJson.symm.trans ha
    exact r.same_self_iff
  stable again ha := by
    cases r.ofJson_toJson.symm.trans ha
    exact ⟨rfl, rfl⟩

/-- A document without version and schemas, with a file under the other name of its media type and with
numbers that are written as a numeral and as a truth value. -/
def givenDocument : Json :=
  .object [("elements", .list [
      .object [("kind", .text "file"), ("content_type", .text "image/png"), ("uri", .text "ipfs://cover"),
        ("key", .text "cover")],
      .object [("key", .text "year"), ("value", .text " 1999.5 "), ("kind", .text "number")],
      .object [("key", .text "live"), ("value", .bool true), ("kind", .text "number")]]),
    ("kind", .text "document")]

theorem readLossless_givenDocument :
    givenDocument.Distinct ∧ ∃ r, ofJson givenDocument = .ok r ∧ ReadLossless givenDocument r := by
  have hd : givenDocument.Distinct := by
    simp [givenDocument, Json.Distinct, Json.DistinctItems, Json.DistinctMembers]
  have hr : (ofJson givenDocument).toOption.isSome = true := by
    decide +kernel
  cases h : ofJson givenDocument with
  | ok r => exact ⟨hd, r, rfl, readLossless hd h⟩
  | refused first more =>
    rw [h] at hr
    cases hr

end Resource

end ContentGraph
