import ContentGraph.Proofs.Json.RoundTrip

/-!
# Sorted values

Sorting the members of all objects keeps a value free of repeated members and changes no
lookup, so that a value is read from its canonical text as its sorted form
(`parse?_canonicalText`).
-/

namespace ContentGraph.Json

@[simp] theorem sorted_text (s : String) : (text s).sorted = text s := rfl

@[simp] theorem sorted_number (x : Binary) : (number x).sorted = number x := rfl

@[simp] theorem sorted_bool (b : Bool) : (bool b).sorted = bool b := rfl

theorem sortedItems_eq (items : List Json) : sortedItems items = items.map sorted := by
  induction items with
  | nil => rfl
  | cons v rest ih => rw [sortedItems, ih, List.map_cons]

theorem sortedMembers_eq (ms : List (String × Json)) :
    sortedMembers ms = ms.map fun m => (m.1, m.2.sorted) := by
  induction ms with
  | nil => rfl
  | cons m rest ih => rw [sortedMembers, ih, List.map_cons]

theorem distinctItems_iff {items : List Json} :
    DistinctItems items ↔ ∀ v ∈ items, v.Distinct := by
  induction items with
  | nil => simp [DistinctItems]
  | cons v rest ih => simp [DistinctItems, ih]

theorem distinctMembers_iff {ms : List (String × Json)} :
    DistinctMembers ms ↔ ∀ m ∈ ms, m.2.Distinct := by
  induction ms with
  | nil => simp [DistinctMembers]
  | cons m rest ih => simp [DistinctMembers, ih]

/-! ### Members of a sorted object -/

/-- The members of a sorted object. -/
def inOrder (ms : List (String × Json)) : List (String × Json) :=
  sortBy (fun a b => a.1 ≤ b.1) (ms.map fun m => (m.1, m.2.sorted))

theorem sorted_object (ms : List (String × Json)) : (Json.object ms).sorted = .object (inOrder ms) := by
  rw [sorted, sortedMembers_eq, inOrder]

theorem inOrder_perm (ms : List (String × Json)) :
    (inOrder ms).Perm (ms.map fun m => (m.1, m.2.sorted)) := sortBy_perm _ _

theorem keys_inOrder_perm (ms : List (String × Json)) :
    ((inOrder ms).map Prod.fst).Perm (ms.map Prod.fst) := by
  have h := (inOrder_perm ms).map Prod.fst
  rwa [List.map_map] at h

/-- A sorted object has the same members as before, each sorted. -/
theorem find_inOrder {ms : List (String × Json)} (hn : (ms.map Prod.fst).Nodup) (key : String) :
    Table.find key (inOrder ms) = (Table.find key ms).map sorted := by
  have hn' : ((ms.map fun m => (m.1, m.2.sorted)).map Prod.fst).Nodup := by
    rwa [List.map_map]
  rw [Table.find_perm hn' (inOrder_perm ms).symm key, Table.find_map]

/-- Writing a table's pairs in order writes the sorted table. -/
theorem inOrder_map {α : Type} (write : α → Json) (es : List (String × α)) :
    inOrder (es.map fun e => (e.1, write e.2))
      = (sortBy (fun a b => a.1 ≤ b.1) es).map fun e => (e.1, (write e.2).sorted) := by
  rw [inOrder, List.map_map]
  exact (map_sortBy (fun _ _ => rfl) es).symm

mutual

theorem Distinct.sorted : ∀ {v : Json}, v.Distinct → v.sorted.Distinct
  | .null, h => h
  | .bool _, h => h
  | .integer _, h => h
  | .number _, h => h
  | .text _, h => h
  | .list items, h => by
    rw [Json.sorted, sortedItems_eq, Distinct, distinctItems_iff]
    exact distinctItems_sorted h
  | .object ms, h => by
    rw [sorted_object]
    refine ⟨(keys_inOrder_perm ms).nodup_iff.2 h.1, distinctMembers_iff.2 fun m hm => ?_⟩
    obtain ⟨m', hm', rfl⟩ := List.mem_map.1 ((inOrder_perm ms).mem_iff.1 hm)
    exact distinctMembers_sorted h.2 m' hm'

theorem distinctItems_sorted : ∀ {items : List Json}, DistinctItems items →
    ∀ v ∈ items.map Json.sorted, v.Distinct
  | [], _ => by simp
  | v :: rest, h => by
    rw [List.map_cons, List.forall_mem_cons]
    exact ⟨Distinct.sorted h.1, distinctItems_sorted h.2⟩

theorem distinctMembers_sorted : ∀ {ms : List (String × Json)}, DistinctMembers ms →
    ∀ m ∈ ms, m.2.sorted.Distinct
  | [], _ => by simp
  | (_, v) :: rest, h => by
    rw [List.forall_mem_cons]
    exact ⟨Distinct.sorted h.1, distinctMembers_sorted h.2⟩

end

/-- **A value is read from its canonical text as its sorted form.** -/
theorem parse?_canonicalText {v : Json} (h : v.Distinct) : parse? v.canonicalText = some v.sorted :=
  parse?_toText h.sorted

end ContentGraph.Json
