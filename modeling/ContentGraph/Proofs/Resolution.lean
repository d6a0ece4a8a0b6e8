import ContentGraph.Resolution
import ContentGraph.Proofs.Table
import Mathlib.Data.List.Induction

/-!
# Resolved sets

A list of addresses is resolved exactly where no expansion of one of them fails, to the schemas
at the leaves of the expansions (`Source.resolve_eq_ok_iff`). So what it resolves to depends on
the set of addresses only (`Source.resolve_congr`), and each schema is the one that the source
holds (`Source.fetch_of_resolve`).
-/

namespace ContentGraph

/-! ### Expansions -/

namespace Expansion

theorem schemasOf_eq (es : List Expansion) : schemasOf es = es.flatMap schemas := by
  induction es with
  | nil => rfl
  | cons e rest ih => rw [schemasOf, ih, List.flatMap_cons]

theorem failuresOf_eq_nil_iff {depth : ℕ} {es : List Expansion} :
    failuresOf depth es = [] ↔ ∀ e ∈ es, e.failures depth = [] := by
  induction es with
  | nil => simp [failuresOf]
  | cons e rest ih => simp [failuresOf, ih]

theorem mem_failuresOf {depth : ℕ} {es : List Expansion} {df : ℕ × Failure} :
    df ∈ failuresOf depth es ↔ ∃ e ∈ es, df ∈ e.failures depth := by
  induction es with
  | nil => simp [failuresOf]
  | cons e rest ih => simp [failuresOf, ih]

end Expansion

theorem shallowest_eq_none_iff {fs : List (ℕ × Failure)} : shallowest fs = none ↔ fs = [] := by
  cases fs with
  | nil => simp [shallowest]
  | cons f rest =>
    obtain ⟨d, f⟩ := f
    simp only [shallowest, reduceCtorEq, iff_false]
    split
    · simp
    · split <;> simp

theorem mem_of_shallowest {fs : List (ℕ × Failure)} {e : ℕ × Failure} (h : shallowest fs = some e) :
    e ∈ fs := by
  induction fs with
  | nil => cases h
  | cons x rest ih =>
    obtain ⟨d, f⟩ := x
    rw [shallowest] at h
    split at h
    · cases h
      exact List.mem_cons_self
    · next hr =>
      split at h
      · cases h
        exact List.mem_cons_self
      · cases h
        exact List.mem_cons_of_mem _ (ih hr)

/-- The schemas of an expansion are those that the source holds. -/
theorem fetch_of_mem_schemas {fetch : String → Except Failure Resource} {a : String} {s : Schema} :
    ∀ {steps : ℕ} {chain : List String} {address : String},
    (a, s) ∈ (expand fetch steps chain address).schemas → fetch a = .ok (.schema s)
  | 0, _, _, h => by
    rw [expand, Expansion.schemas] at h
    cases h
  | steps + 1, chain, address, h => by
    unfold expand at h
    split at h
    · rw [Expansion.schemas] at h
      cases h
    · split at h
      · rw [Expansion.schemas] at h
        cases h
      · next hf =>
        rw [Expansion.schemas, List.mem_singleton] at h
        cases h
        exact hf
      · next alias_ hf =>
        rw [Expansion.schemas, Expansion.schemasOf_eq, List.mem_flatMap] at h
        obtain ⟨e, he, hm⟩ := h
        obtain ⟨part, -, rfl⟩ := List.mem_map.1 he
        exact fetch_of_mem_schemas hm
      · rw [Expansion.schemas] at h
        cases h

/-! ### The first pair of each key -/

section

variable {α : Type}

theorem foldl_firstOfEach (es : List (String × α)) (t : Table α) :
    let t' := es.foldl (fun t e => if t.contains e.1 then t else t.insert e.1 e.2) t
    (∀ key, key ∈ t'.keys ↔ key ∈ t.keys ∨ key ∈ es.map Prod.fst) ∧
      ∀ e ∈ t'.entries, e ∈ t.entries ∨ e ∈ es := by
  induction es generalizing t with
  | nil => simp
  | cons e rest ih =>
    rw [List.foldl_cons]
    by_cases hc : t.contains e.1
    · have hk := Table.contains_iff.1 hc
      rw [if_pos hc]
      refine ⟨fun key => ?_, fun x hx => ?_⟩
      · rw [(ih t).1 key, List.map_cons, List.mem_cons]
        constructor
        · exact Or.imp_right .inr
        · rintro (h | rfl | h)
          · exact .inl h
          · exact .inl hk
          · exact .inr h
      · exact ((ih t).2 x hx).imp_right (List.mem_cons_of_mem _)
    · have hk : e.1 ∉ t.keys := fun h => hc (Table.contains_iff.2 h)
      rw [if_neg hc]
      refine ⟨fun key => ?_, fun x hx => ?_⟩
      · rw [(ih (t.insert e.1 e.2)).1 key, Table.keys_insert, if_neg hk, List.map_cons, List.mem_cons,
          List.mem_append, List.mem_singleton, or_assoc]
      · rcases (ih (t.insert e.1 e.2)).2 x hx with h | h
        · rw [Table.entries_insert_of_not_mem hk, List.mem_append, List.mem_singleton] at h
          rcases h with h | rfl
          · exact .inl h
          · exact .inr List.mem_cons_self
        · exact .inr (List.mem_cons_of_mem _ h)

theorem firstOfEach_concat (es : List (String × α)) (e : String × α) : firstOfEach (es ++ [e]) =
    if e.1 ∈ (firstOfEach es).keys then firstOfEach es else (firstOfEach es).insert e.1 e.2 := by
  rw [firstOfEach, List.foldl_append, ← firstOfEach]
  simp only [List.foldl_cons, List.foldl_nil, Table.contains_iff]

/-- Pairs without a repeated key are all first. -/
theorem entries_firstOfEach {es : List (String × α)} (h : (es.map Prod.fst).Nodup) :
    (firstOfEach es).entries = es := by
  induction es using List.reverseRecOn with
  | nil => rfl
  | append_singleton es e ih =>
    rw [List.map_append, List.nodup_append] at h
    obtain ⟨hes, -, hne⟩ := h
    have hk : e.1 ∉ (firstOfEach es).keys := by
      rw [Table.keys, ih hes]
      exact fun hk => hne _ hk _ List.mem_cons_self rfl
    rw [firstOfEach_concat, if_neg hk, Table.entries_insert_of_not_mem hk, ih hes]

theorem mem_keys_firstOfEach {es : List (String × α)} {key : String} :
    key ∈ (firstOfEach es).keys ↔ key ∈ es.map Prod.fst := by
  have h := (foldl_firstOfEach es .empty).1 key
  rw [firstOfEach, h]
  simp [Table.keys, Table.empty]

theorem mem_of_mem_firstOfEach {es : List (String × α)} {e : String × α}
    (h : e ∈ (firstOfEach es).entries) : e ∈ es := by
  have he := (foldl_firstOfEach es .empty).2 e h
  exact he.resolve_left (by simp [Table.empty])

end

namespace Source

variable {source : Source} {addresses as bs : List String} {set : Table Schema}

/-- The expansion of an address. -/
def expansion (source : Source) (address : String) : Expansion :=
  expand source.fetch (source.addresses.length + 1) [] address

/-- A list is resolved where no expansion fails, to the schemas of the expansions. -/
theorem resolve_eq_ok_iff : source.resolve addresses = .ok set ↔
    (∀ a ∈ addresses, (source.expansion a).failures 0 = []) ∧
      set = firstOfEach (addresses.flatMap fun a => (source.expansion a).schemas) := by
  have hs : Expansion.schemasOf (source.expansions addresses)
      = addresses.flatMap fun a => (source.expansion a).schemas := by
    rw [Expansion.schemasOf_eq, expansions, List.flatMap_map]
    rfl
  have hf : Expansion.failuresOf 0 (source.expansions addresses) = [] ↔
      ∀ a ∈ addresses, (source.expansion a).failures 0 = [] := by
    rw [Expansion.failuresOf_eq_nil_iff, expansions, List.forall_mem_map]
    rfl
  rw [← hf]
  unfold resolve
  dsimp only
  rw [hs]
  cases hc : shallowest (Expansion.failuresOf 0 (source.expansions addresses)) with
  | none => simp [shallowest_eq_none_iff.1 hc, eq_comm]
  | some e =>
    have hne : Expansion.failuresOf 0 (source.expansions addresses) ≠ [] := fun h => by
      rw [shallowest_eq_none_iff.2 h] at hc
      cases hc
    simp [hne]

theorem failuresOf_of_resolve (h : source.resolve addresses = .ok set) :
    Expansion.failuresOf 0 (source.expansions addresses) = [] := by
  rw [Expansion.failuresOf_eq_nil_iff, expansions, List.forall_mem_map]
  exact (resolve_eq_ok_iff.1 h).1

/-- What resolution gives up with is a failure of the expansions. -/
theorem mem_failuresOf_of_resolve {f : Failure} (h : source.resolve addresses = .error f) :
    ∃ depth, (depth, f) ∈ Expansion.failuresOf 0 (source.expansions addresses) := by
  unfold resolve at h
  dsimp only at h
  split at h
  · next hs =>
    cases h
    exact ⟨_, mem_of_shallowest hs⟩
  · cases h

theorem fetch_of_resolve (h : source.resolve addresses = .ok set) {a : String} {s : Schema}
    (hm : (a, s) ∈ set.entries) : source.fetch a = .ok (.schema s) := by
  obtain ⟨-, rfl⟩ := resolve_eq_ok_iff.1 h
  obtain ⟨address, -, hs⟩ := List.mem_flatMap.1 (mem_of_mem_firstOfEach hm)
  exact fetch_of_mem_schemas hs

/-- **What a list of addresses resolves to depends on the set of addresses only.** -/
theorem resolve_congr (h : ∀ a, a ∈ as ↔ a ∈ bs) (hr : source.resolve as = .ok set) :
    ∃ set', source.resolve bs = .ok set' ∧ ∀ a, a ∈ set.keys ↔ a ∈ set'.keys := by
  obtain ⟨hf, rfl⟩ := resolve_eq_ok_iff.1 hr
  refine ⟨_, resolve_eq_ok_iff.2 ⟨fun a ha => hf a ((h a).2 ha), rfl⟩, fun a => ?_⟩
  rw [mem_keys_firstOfEach, mem_keys_firstOfEach]
  simp only [List.mem_map, List.mem_flatMap, h]

end Source

end ContentGraph
