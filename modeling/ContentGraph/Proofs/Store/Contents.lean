import ContentGraph.Store
import ContentGraph.Proofs.Resource.RoundTrip

/-!
# What a store holds

A store holds a resource where its canonical text stands at its content address. What a store
holds can be fetched (`Gateway.fetch_of_holds`), and later writes keep it, as long as no two of
the texts written have one digest (`Store.keeps_save`). What can be read of a store is what its texts
spell (`Store.Spells.source_eq`).
-/

namespace ContentGraph

/-- Texts of which no two have one digest. -/
def NoCollision (texts : List String) : Prop :=
  ∀ a ∈ texts, ∀ b ∈ texts, Sha256.hex a = Sha256.hex b → a = b

theorem NoCollision.mono {texts texts' : List String} (h : NoCollision texts) (hs : texts' ⊆ texts) :
    NoCollision texts' :=
  fun a ha b hb => h a (hs ha) b (hs hb)

theorem noCollision_of_nodup {texts : List String} (h : (texts.map Sha256.hex).Nodup) :
    NoCollision texts :=
  fun _ ha _ hb he => List.inj_on_of_nodup_map h ha hb he

theorem hex_eq_of_contentAddress_eq {lead a b : String}
    (h : contentAddress lead a = contentAddress lead b) : Sha256.hex a = Sha256.hex b := by
  have hl := congrArg String.toList h
  rw [contentAddress, contentAddress, String.toList_append, String.toList_append] at hl
  exact String.toList_inj.1 (List.append_cancel_left hl)

namespace Store

/-- The canonical text of a resource stands at its content address. -/
def Holds (s : Store) (r : Resource) : Prop :=
  s.contents.get? (r.address s.lead) = some r.canonicalText

/-- Several documents stand at their content addresses. -/
def HoldsAll (s : Store) (ds : List Document) : Prop := ∀ d ∈ ds, s.Holds (.document d)

/-- What the first store holds of resources with certain texts, the second holds too. -/
def Keeps (texts : List String) (s s' : Store) : Prop :=
  s'.lead = s.lead ∧ ∀ r : Resource, r.canonicalText ∈ texts → s.Holds r → s'.Holds r

theorem Keeps.refl (texts : List String) (s : Store) : Keeps texts s s := ⟨rfl, fun _ _ h => h⟩

theorem Keeps.trans {texts : List String} {s s' s'' : Store} (h : Keeps texts s s')
    (h' : Keeps texts s' s'') : Keeps texts s s'' :=
  ⟨h'.1.trans h.1, fun r hr hs => h'.2 r hr (h.2 r hr hs)⟩

theorem holds_save (s : Store) (r : Resource) : (s.save r).1.Holds r :=
  Table.get?_insert_self _ _ _

/-- A write keeps what a store holds. -/
theorem keeps_save {texts : List String} (hc : NoCollision texts) (s : Store) {r : Resource}
    (hr : r.canonicalText ∈ texts) : Keeps texts s (s.save r).1 := by
  refine ⟨rfl, fun other ho hs => ?_⟩
  show (s.contents.insert (r.address s.lead) r.canonicalText).get? (other.address s.lead) = _
  by_cases he : other.address s.lead = r.address s.lead
  · have ht : other.canonicalText = r.canonicalText := hc _ ho _ hr (hex_eq_of_contentAddress_eq he)
    rw [he, ht]
    exact Table.get?_insert_self _ _ _
  · rw [Table.get?_insert_of_ne he]
    exact hs

end Store

namespace Gateway

/-- No address fails to be fetched but for what the store holds. -/
def Fetches (g : Gateway) : Prop := ∀ address, g.fetchFaults.get? address = none

/-- What a store holds is fetched as it was stored. -/
theorem fetch_of_holds {g : Gateway} {r : Resource}
    (hf : g.fetchFaults.get? (r.address g.store.lead) = none) (h : g.store.Holds r) :
    g.fetch (r.address g.store.lead) = .ok r.sorted := by
  have ht : g.store.contents.get? (r.address g.store.lead) = some r.canonicalText := h
  have hv : Resource.ofJson (.object (Json.inOrder r.members)) = .ok r.sorted := by
    rw [← Json.sorted_object, ← Resource.toJson_eq, Resource.ofJson_sorted]
  unfold fetch
  rw [hf, ht]
  dsimp only
  rw [Resource.parse?_canonicalText]
  dsimp only
  rw [hv]

theorem fetchDocument_of_holds {g : Gateway} {d : Document}
    (hf : g.fetchFaults.get? ((Resource.document d).address g.store.lead) = none)
    (h : g.store.Holds (.document d)) :
    g.source.fetchDocument ((Resource.document d).address g.store.lead) = .ok d := by
  have hr := fetch_of_holds hf h
  unfold Source.fetchDocument
  rw [show g.source.fetch = g.fetch from rfl, hr]
  rfl

end Gateway

/-! ### Stores of resources -/

/-- What can be read where resources stand at some addresses. -/
def Source.ofTable (resources : Table Resource) : Source where
  addresses := resources.keys
  fetch address :=
    match resources.get? address with
    | some r => .ok r
    | none => .error (.fetchFailed address (Store.missing address))
  error_of_not_mem := by
    intro address h
    rw [Table.get?_eq_none_iff.2 h]
    exact ⟨_, rfl⟩

/-- The texts of a store are those of resources. -/
structure Store.Spells (s : Store) (resources : Table Resource) : Prop where
  /-- There is a text for each resource. -/
  keys_eq : s.contents.keys = resources.keys
  /-- Each text reads as the resource. -/
  reads : ∀ ⦃address text⦄, s.contents.get? address = some text →
    Resource.ofText? text = resources.get? address

namespace Store.Spells

variable {s : Store} {resources : Table Resource}

theorem of_entries (h : s.contents.entries.map (fun e => (e.1, Resource.ofText? e.2))
    = resources.entries.map fun e => (e.1, some e.2)) : s.Spells resources := by
  constructor
  · have hkeys := congrArg (List.map Prod.fst) h
    rwa [List.map_map, List.map_map] at hkeys
  · intro address text ht
    have hfind : Table.find address (s.contents.entries.map fun e => (e.1, Resource.ofText? e.2))
        = Table.find address (resources.entries.map fun e => (e.1, some e.2)) := congrArg _ h
    rw [Table.find_map, Table.find_map, show Table.find address s.contents.entries = some text from ht]
      at hfind
    cases hr : Table.find address resources.entries with
    | none =>
      rw [hr] at hfind
      cases hfind
    | some r =>
      rw [hr] at hfind
      exact (Option.some.inj hfind).trans hr.symm

theorem empty (lead : String) : (Store.empty lead).Spells .empty := .of_entries rfl

/-- One more text is that of one more resource. -/
theorem insert {s' : Store} {address text : String} {r : Resource} (h : s.Spells resources)
    (hs : s'.contents = s.contents.insert address text) (hr : Resource.ofText? text = some r) :
    s'.Spells (resources.insert address r) := by
  constructor
  · rw [hs, Table.keys_insert, Table.keys_insert, h.keys_eq]
  · intro other text' ht
    rw [hs] at ht
    by_cases he : other = address
    · subst he
      rw [Table.get?_insert_self] at ht ⊢
      cases ht
      exact hr
    · rw [Table.get?_insert_of_ne he] at ht ⊢
      exact h.reads ht

/-- What is stored is spelled with its keys in order. -/
theorem save (h : s.Spells resources) (r : Resource) :
    (s.save r).1.Spells (resources.insert (r.address s.lead) r.sorted) :=
  h.insert (contents_save s r) r.ofText?_canonicalText

/-- A value that is put into the store is read from its text as itself. -/
theorem putRaw {v : Json} {r : Resource} (h : s.Spells resources) (address : String) (hd : v.Distinct)
    (hv : (Resource.ofJson v).toOption = some r) : (s.putRaw address v).Spells (resources.insert address r) := by
  have hr : Resource.ofText? v.toText = some r := by
    rw [Resource.ofText?, Json.parse?_toText hd, Option.bind_some, hv]
  exact h.insert rfl hr

theorem fetch_eq (h : s.Spells resources) (address : String) :
    (Gateway.ofStore s).fetch address = (Source.ofTable resources).fetch address := by
  have hkeys : address ∈ s.contents.keys ↔ address ∈ resources.keys := by rw [h.keys_eq]
  unfold Gateway.fetch Source.ofTable
  cases ht : s.contents.get? address with
  | none =>
    have hr : resources.get? address = none :=
      Table.get?_eq_none_iff.2 fun hk => Table.get?_eq_none_iff.1 ht (hkeys.2 hk)
    simp only [Gateway.ofStore, Table.get?_empty, ht, hr]
  | some text =>
    obtain ⟨r, hr⟩ := Table.mem_keys_iff.1 (hkeys.1 (Table.mem_keys_iff.2 ⟨text, ht⟩))
    have hread : Resource.ofText? text = some r := (h.reads ht).trans hr
    obtain ⟨v, hv, hof⟩ := Option.bind_eq_some_iff.1 hread
    have hok : Resource.ofJson v = .ok r := by
      cases ho : Resource.ofJson v with
      | ok r' =>
        rw [ho] at hof
        exact congrArg Checked.ok (Option.some.inj hof)
      | refused first more =>
        rw [ho] at hof
        cases hof
    simp only [Gateway.ofStore, Table.get?_empty, ht, hr, hv]
    cases v with
    | null => cases hok
    | bool _ | integer _ | number _ | text _ | list _ | object _ => simp only [hok]

/-- What can be read of a store is what its texts spell. -/
theorem source_eq (h : s.Spells resources) : (Gateway.ofStore s).source = .ofTable resources := by
  have hfetch : (Gateway.ofStore s).source.fetch = (Source.ofTable resources).fetch :=
    funext h.fetch_eq
  have haddresses : (Gateway.ofStore s).source.addresses = (Source.ofTable resources).addresses :=
    h.keys_eq
  generalize (Gateway.ofStore s).source = source at hfetch haddresses
  cases source
  cases hfetch
  cases haddresses
  rfl

end Store.Spells

end ContentGraph
