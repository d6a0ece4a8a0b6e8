import ContentGraph.TypeGraph.Basic
import ContentGraph.Proofs.Table
import Mathlib.Logic.Relation

/-!
# Types that are reached

What a search finds is what was left of that which is pending, and of that which it leads to
(`mem_search_of_next`, `search_induction`). One type leads to another by a node field
(`Catalogue.Edge`), which is what the search goes along (`Catalogue.mem_next_iff`). So the types of a
graph are those that the root leads to (`Catalogue.mem_reachableTypes`), each once.
-/

namespace ContentGraph

section

variable {next : String → List String} {remaining pending : List String} {found i j : String}

theorem search_eq_nil (h : pending.find? remaining.contains = none) :
    search next remaining pending = [] := by
  rw [search, h]

theorem search_eq_cons (h : pending.find? remaining.contains = some found) :
    search next remaining pending
      = found :: search next (remaining.erase found) (next found ++ pending) := by
  conv_lhs => unfold search
  split
  · next hn =>
    rw [h] at hn
    cases hn
  · next found' hf =>
    cases h.symm.trans hf
    rfl

theorem mem_search_of_pending (hp : i ∈ pending) (hr : i ∈ remaining) :
    i ∈ search next remaining pending := by
  induction remaining, pending using search.induct next with
  | case1 remaining pending hf =>
    exact absurd (List.contains_iff_mem.2 hr) (List.find?_eq_none.1 hf i hp)
  | case2 remaining pending found hf ih =>
    rw [search_eq_cons hf]
    by_cases hi : i = found
    · rw [hi]
      exact List.mem_cons_self
    · exact List.mem_cons_of_mem _ (ih (List.mem_append_right _ hp) ((List.mem_erase_of_ne hi).2 hr))

/-- What is left of that which a found node leads to is found. -/
theorem mem_search_of_next (hi : i ∈ search next remaining pending) (hj : j ∈ next i)
    (hr : j ∈ remaining) : j ∈ search next remaining pending := by
  induction remaining, pending using search.induct next with
  | case1 remaining pending hf =>
    rw [search_eq_nil hf] at hi
    cases hi
  | case2 remaining pending found hf ih =>
    rw [search_eq_cons hf] at hi ⊢
    by_cases hjf : j = found
    · rw [hjf]
      exact List.mem_cons_self
    · have hr' := (List.mem_erase_of_ne hjf).2 hr
      refine List.mem_cons_of_mem _ ?_
      rcases List.mem_cons.1 hi with rfl | hi
      · exact mem_search_of_pending (List.mem_append_left _ hj) hr'
      · exact ih hi hr'

/-- What holds of all that is pending and is kept from node to node holds of all that is found. -/
theorem search_induction {P : String → Prop} (hp : ∀ p ∈ pending, P p)
    (hnext : ∀ i, P i → ∀ j ∈ next i, P j) (hi : i ∈ search next remaining pending) : P i := by
  induction remaining, pending using search.induct next with
  | case1 remaining pending hf =>
    rw [search_eq_nil hf] at hi
    cases hi
  | case2 remaining pending found hf ih =>
    have hfound : P found := hp found (List.mem_of_find?_eq_some hf)
    rw [search_eq_cons hf] at hi
    rcases List.mem_cons.1 hi with rfl | hi
    · exact hfound
    · refine ih (fun p hm => ?_) hi
      rcases List.mem_append.1 hm with hm | hm
      · exact hnext found hfound p hm
      · exact hp p hm

theorem mem_of_mem_search (hi : i ∈ search next remaining pending) : i ∈ remaining := by
  induction remaining, pending using search.induct next with
  | case1 remaining pending hf =>
    rw [search_eq_nil hf] at hi
    cases hi
  | case2 remaining pending found hf ih =>
    rw [search_eq_cons hf] at hi
    rcases List.mem_cons.1 hi with rfl | hi
    · exact List.contains_iff_mem.1 (List.find?_some hf)
    · exact List.mem_of_mem_erase (ih hi)

/-- Nothing is found twice. -/
theorem nodup_search (h : remaining.Nodup) : (search next remaining pending).Nodup := by
  induction remaining, pending using search.induct next with
  | case1 remaining pending hf =>
    rw [search_eq_nil hf]
    exact List.nodup_nil
  | case2 remaining pending found hf ih =>
    rw [search_eq_cons hf]
    refine List.nodup_cons.2 ⟨fun hm => ?_, ih (h.erase found)⟩
    exact h.not_mem_erase (mem_of_mem_search hm)

end

/-- A field of values leads to no type. -/
theorem Field.target?_eq_none {f : Field} {k : ValueKind} (h : f.kind = .value k) : f.target? = none := by
  obtain ⟨shape, multiple⟩ := f
  cases shape with
  | value k' => rfl
  | node schemas target => cases h

namespace Catalogue

variable {types : Catalogue} {root i j : String} {t : NodeType}

/-- One type leads to another: it has a node field for it. -/
def Edge (types : Catalogue) (i j : String) : Prop :=
  ∃ t key f, types.get? i = some t ∧ t.fields.get? key = some f ∧ f.target? = some j

/-- A type leads to another in some number of steps. -/
def Reaches (types : Catalogue) : String → String → Prop := Relation.ReflTransGen types.Edge

theorem mem_next_iff : j ∈ types.next i ↔ types.Edge i j := by
  unfold next
  constructor
  · intro h
    split at h
    · next t ht =>
      obtain ⟨f, hf, hj⟩ := List.mem_filterMap.1 (List.mem_reverse.1 h)
      obtain ⟨⟨key, f⟩, he, rfl⟩ := List.mem_map.1 hf
      exact ⟨t, key, f, ht, Table.get?_eq_some_iff.2 he, hj⟩
    · cases h
  · rintro ⟨t, key, f, ht, hf, hj⟩
    rw [ht]
    refine List.mem_reverse.2 (List.mem_filterMap.2 ⟨f, List.mem_map.2 ⟨(key, f), ?_, rfl⟩, hj⟩)
    exact Table.get?_eq_some_iff.1 hf

/-- What is reached from a type is there if the last type is. -/
theorem mem_reachable (hr : types.Reaches root i) (hi : i ∈ types.keys) : i ∈ types.reachable root := by
  induction hr with
  | refl => exact mem_search_of_pending List.mem_cons_self hi
  | tail _ hj ih =>
    have hnext := mem_next_iff.2 hj
    obtain ⟨t, -, -, ht, -⟩ := hj
    exact mem_search_of_next (ih (Table.mem_keys_iff.2 ⟨t, ht⟩)) hnext hi

/-- **The reachable types are those that the root leads to.** -/
theorem mem_reachableTypes : (i, t) ∈ types.reachableTypes root ↔
    types.Reaches root i ∧ types.get? i = some t := by
  unfold reachableTypes
  constructor
  · intro h
    obtain ⟨j, hj, hm⟩ := List.mem_filterMap.1 h
    obtain ⟨u, hu, he⟩ := Option.map_eq_some_iff.1 hm
    cases he
    refine ⟨search_induction (P := types.Reaches root) (fun p hp => ?_) (fun a ha b hb => ?_) hj, hu⟩
    · rw [List.mem_singleton.1 hp]
      exact .refl
    · exact ha.tail (mem_next_iff.1 hb)
  · rintro ⟨hr, ht⟩
    refine List.mem_filterMap.2 ⟨i, mem_reachable hr (Table.mem_keys_iff.2 ⟨t, ht⟩), ?_⟩
    rw [ht]
    rfl

/-- Each reachable type stands once. -/
theorem nodup_reachableTypes (types : Catalogue) (root : String) : (types.reachableTypes root).Nodup := by
  refine (nodup_search types.nodup).filterMap fun i j m hi hj => ?_
  obtain ⟨t, -, rfl⟩ := Option.map_eq_some_iff.1 hi
  obtain ⟨u, -, he⟩ := Option.map_eq_some_iff.1 hj
  exact (Prod.mk.inj he).1.symm

end Catalogue

end ContentGraph
