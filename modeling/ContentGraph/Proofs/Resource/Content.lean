import ContentGraph.Proofs.Sorting
import ContentGraph.Proofs.Store.Contents

/-!
# Contents of resources

Two resources have the same content where they are of one kind and agree in every field: lists with
their order, a schema's definitions without one, numbers as values of which only one is no number.
What a canonical text reads back as has the content that was written (`reads_back`), and two
resources have one canonical text, and so one content address, exactly where they have the same
content (`canonicalText_eq_iff`).
-/

namespace ContentGraph

namespace Table

variable {α : Type}

@[simp] theorem get?_sorted (t : Table α) (key : String) : t.sorted.get? key = t.get? key :=
  find_perm t.nodup t.entries_sorted_perm.symm key

theorem size_sorted (t : Table α) : t.sorted.size = t.size := t.entries_sorted_perm.length_eq

/-- Two tables lead every key to the same exactly where they are equal once sorted. -/
theorem sorted_eq_iff {t t' : Table α} : t.sorted = t'.sorted ↔ ∀ key, t.get? key = t'.get? key := by
  constructor
  · intro h key
    rw [← get?_sorted t, h, get?_sorted]
  · intro h
    refine sorted_congr fun ⟨key, a⟩ => ?_
    rw [← get?_eq_some_iff, h key, get?_eq_some_iff]

end Table

namespace Resource

/-- Two resources are of one kind and have equal fields; what a schema says of a key does not depend
on where the key stands. -/
def SameContent : Resource → Resource → Prop
  | .document d, .document e => d = e
  | .schema s, .schema t =>
    s.version = t.version ∧ s.name = t.name ∧ ∀ key, s.elements.get? key = t.elements.get? key
  | .alias a, .alias b => a = b
  | _, _ => False

/-- Some element of a document holds what is not a number. -/
def HoldsNaN : Resource → Prop
  | .document d => ∃ e ∈ d.elements, e.content = .number .nan
  | _ => False

/-- Sorting the keys of a schema is all that is forgotten of a resource's content. -/
theorem sorted_eq_iff {a b : Resource} : a.sorted = b.sorted ↔ a.SameContent b := by
  cases a <;> cases b <;> simp only [sorted, SameContent, reduceCtorEq, document.injEq, alias.injEq]
  case schema.schema s t =>
    rw [← Table.sorted_eq_iff]
    simp [Schema.sorted]

theorem sameContent_sorted (r : Resource) : r.SameContent r.sorted := by
  rcases r with d | s | a
  · rfl
  · exact ⟨rfl, rfl, fun key => (s.elements.get?_sorted key).symm⟩
  · rfl

/-! ### Reading back -/

theorem same_nan_iff (e : Element) : e.same e = true ↔ e.content ≠ .number .nan := by
  obtain ⟨key, content⟩ := e
  rcases content with s | x | ⟨contentType, uri⟩ | uri
  case number => cases x <;> simp [Element.same, Binary.isNaN]
  all_goals simp [Element.same]

theorem sameItems_self_iff {es : List Element} :
    sameItems Element.same es es = true ↔ ∀ e ∈ es, e.content ≠ .number .nan := by
  induction es with
  | nil => simp [sameItems]
  | cons e rest ih => simp [sameItems, same_nan_iff, ih]

/-- A resource is equal to itself with sorted keys where it holds nothing that is not a number. -/
theorem same_sorted_iff (r : Resource) : r.same r.sorted = true ↔ ¬ r.HoldsNaN := by
  rcases r with d | s | a
  · simp [sorted, same, HoldsNaN, sameItems_self_iff]
  · have hall : ∀ key d, (key, d) ∈ s.elements.entries → s.elements.get? key = some d :=
      fun _ _ => Table.get?_eq_some_iff.2
    simpa [sorted, same, HoldsNaN, Schema.sorted, Table.size_sorted] using hall
  · simp [sorted, same, HoldsNaN]

/-- **The canonical text of a resource reads back as its content**, and as an equal resource exactly
where nothing in it is not a number, which equals nothing. -/
theorem reads_back (r : Resource) :
    (∃ v read, Json.parse? r.canonicalText = some v ∧ ofJson v = .ok read ∧ r.SameContent read) ∧
      (r.roundTrips = true ↔ ¬ r.HoldsNaN) := by
  constructor
  · refine ⟨_, r.sorted, r.parse?_canonicalText, ?_, r.sameContent_sorted⟩
    rw [← Json.sorted_object, ← toJson_eq, r.ofJson_sorted]
  · rw [roundTrips, r.ofText?_canonicalText]
    exact r.same_sorted_iff

/-! ### Canonical texts and addresses -/

/-- The sorted members of a schema's object hold its definitions in the order of their keys. -/
theorem sortedMembers_schema (s : Schema) : Json.sortedMembers s.members =
    [("kind", .text "schema"), ("version", .text s.version), ("name", .text s.name),
      ("elements", .object (s.elements.sorted.entries.map fun e => (e.1, e.2.toJson.sorted)))] := by
  have helements : (Json.object (s.elements.entries.map fun e => (e.1, e.2.toJson))).sorted
      = .object (s.elements.sorted.entries.map fun e => (e.1, e.2.toJson.sorted)) := by
    rw [Json.sorted_object, Json.inOrder_map]
    rfl
  rw [Json.sortedMembers_eq, Schema.members]
  simp only [List.map_cons, List.map_nil, Json.sorted_text, helements]

theorem canonicalText_congr {a b : Resource} (h : a.SameContent b) :
    a.canonicalText = b.canonicalText := by
  rcases a with d | s | a <;> rcases b with e | t | b
  case schema.schema =>
    obtain ⟨hversion, hname, helements⟩ := h
    have hmembers : Json.sortedMembers s.members = Json.sortedMembers t.members := by
      rw [sortedMembers_schema, sortedMembers_schema, hversion, hname, Table.sorted_eq_iff.2 helements]
    rw [canonicalText, canonicalText, Json.canonicalText, Json.canonicalText, toJson_eq, toJson_eq,
      Json.sorted, Json.sorted]
    exact congrArg (fun ms => (Json.object (sortBy _ ms)).toText) hmembers
  case document.document => rw [show d = e from h]
  case alias.alias => rw [show a = b from h]
  all_goals cases h

theorem canonicalText_inj {a b : Resource} : a.canonicalText = b.canonicalText ↔ a.SameContent b := by
  constructor
  · intro h
    have hread := a.ofText?_canonicalText
    rw [h, b.ofText?_canonicalText] at hread
    exact sorted_eq_iff.1 (Option.some.inj hread).symm
  · exact canonicalText_congr

/-- **Two resources have the same canonical bytes exactly where they have the same content**, and
where their texts do not collide a store gives them one address exactly then. -/
theorem canonicalText_eq_iff (a b : Resource) :
    (a.canonicalText.toUTF8 = b.canonicalText.toUTF8 ↔ a.SameContent b) ∧
      (NoCollision [a.canonicalText, b.canonicalText] → ∀ s s' : Store, s'.lead = s.lead →
        ((s.save a).2 = (s'.save b).2 ↔ a.SameContent b)) := by
  refine ⟨String.toByteArray_inj.trans canonicalText_inj, fun hc s s' hl => ?_⟩
  rw [Store.address_save, Store.address_save, hl, address, address, ← canonicalText_inj]
  constructor
  · intro h
    exact hc _ (by simp) _ (by simp) (hex_eq_of_contentAddress_eq h)
  · intro h
    rw [h]

/-- A document of one number. -/
def measured (x : Binary) : Resource :=
  .document ⟨defaultVersion, [], [⟨⟨"size", by decide⟩, .number x⟩]⟩

/-- The two zeros are different contents. -/
theorem canonicalText_eq_iff_zeros :
    NoCollision [(measured .zero).canonicalText, (measured (.finite true Magnitude.zero)).canonicalText] ∧
      ((measured .zero).canonicalText.toUTF8 = (measured (.finite true Magnitude.zero)).canonicalText.toUTF8
        ↔ (measured .zero).SameContent (measured (.finite true Magnitude.zero))) ∧
      ∀ s s' : Store, s'.lead = s.lead →
        ((s.save (measured .zero)).2 = (s'.save (measured (.finite true Magnitude.zero))).2
          ↔ (measured .zero).SameContent (measured (.finite true Magnitude.zero))) := by
  have hn : ([(measured .zero).canonicalText,
      (measured (.finite true Magnitude.zero)).canonicalText].map Sha256.hex).Nodup := by
    decide +kernel
  have hc := noCollision_of_nodup hn
  have h := canonicalText_eq_iff (measured .zero) (measured (.finite true Magnitude.zero))
  exact ⟨hc, h.1, h.2 hc⟩

end Resource

end ContentGraph
