import ContentGraph.Table
import Mathlib.Data.List.Perm.Basic
import Mathlib.Data.List.Nodup

/-!
# Lookup in tables

Where no key stands twice, looking a key up and standing among the pairs are the same, so that
the order of the pairs does not matter to a lookup (`find_perm`).
-/

namespace ContentGraph.Table

variable {α β : Type}

/-! ### Pairs -/

theorem find_eq_none_iff {key : String} {es : List (String × α)} :
    find key es = none ↔ key ∉ es.map Prod.fst := by
  induction es with
  | nil => simp [find]
  | cons e rest ih =>
    obtain ⟨k, a⟩ := e
    by_cases h : k = key
    · simp [find, h]
    · have h' : ¬ key = k := fun e => h e.symm
      simp [find, h, h', ih]

theorem exists_find {key : String} {es : List (String × α)} (h : key ∈ es.map Prod.fst) :
    ∃ a, find key es = some a := by
  cases hf : find key es with
  | none => exact absurd h (find_eq_none_iff.1 hf)
  | some a => exact ⟨a, rfl⟩

theorem find_of_mem {key : String} {a : α} {es : List (String × α)}
    (hn : (es.map Prod.fst).Nodup) (h : (key, a) ∈ es) : find key es = some a := by
  induction es with
  | nil => cases h
  | cons e rest ih =>
    obtain ⟨k, b⟩ := e
    obtain ⟨hk, hr⟩ := List.nodup_cons.1 hn
    rcases List.mem_cons.1 h with he | hm
    · cases he
      simp [find]
    · have hne : k ≠ key := by
        rintro rfl
        exact hk (List.mem_map.2 ⟨_, hm, rfl⟩)
      simp only [find, hne, if_false]
      exact ih hr hm

theorem find_eq_some_iff {key : String} {a : α} {es : List (String × α)}
    (hn : (es.map Prod.fst).Nodup) : find key es = some a ↔ (key, a) ∈ es :=
  ⟨mem_of_find, find_of_mem hn⟩

/-- The order of pairs does not matter to a lookup. -/
theorem find_perm {es es' : List (String × α)} (hn : (es.map Prod.fst).Nodup) (hp : es.Perm es')
    (key : String) : find key es' = find key es := by
  have hn' : (es'.map Prod.fst).Nodup := (hp.map Prod.fst).nodup_iff.1 hn
  cases h : find key es with
  | none => exact find_eq_none_iff.2 fun hk =>
      find_eq_none_iff.1 h ((hp.map Prod.fst).mem_iff.2 hk)
  | some a => exact find_of_mem hn' (hp.mem_iff.1 (mem_of_find h))

theorem find_map (f : α → β) (key : String) (es : List (String × α)) :
    find key (es.map fun e => (e.1, f e.2)) = (find key es).map f := by
  induction es with
  | nil => rfl
  | cons e rest ih =>
    obtain ⟨k, a⟩ := e
    by_cases h : k = key <;> simp [find, h, ih]

/-- Where pairs are chosen by their keys, a key that is chosen keeps its value. -/
theorem find_filter (p : String → Bool) (key : String) (es : List (String × α)) :
    find key (es.filter fun e => p e.1) = if p key then find key es else none := by
  induction es with
  | nil => simp [find]
  | cons e rest ih =>
    obtain ⟨k, a⟩ := e
    by_cases hk : k = key
    · subst hk
      cases hp : p k <;> simp [find, hp, ih]
    · cases hp : p k <;> simp [find, hk, hp, ih]

theorem find_append (key : String) (as bs : List (String × α)) :
    find key (as ++ bs) = (find key as).or (find key bs) := by
  induction as with
  | nil => rfl
  | cons e rest ih =>
    obtain ⟨k, a⟩ := e
    by_cases h : k = key <;> simp [find, h, ih]

theorem find_reverse {es : List (String × α)} (hn : (es.map Prod.fst).Nodup) (key : String) :
    find key es.reverse = find key es := find_perm hn (List.reverse_perm es).symm key

theorem put_of_not_mem {key : String} {a : α} {es : List (String × α)}
    (h : key ∉ es.map Prod.fst) : put key a es = es ++ [(key, a)] := by
  induction es with
  | nil => rfl
  | cons e rest ih =>
    obtain ⟨k, b⟩ := e
    rw [List.map_cons, List.mem_cons, not_or] at h
    have hk : ¬ k = key := fun e => h.1 e.symm
    simp [put, hk, ih h.2]

/-- Putting what stands under a key already changes nothing. -/
theorem put_of_find {key : String} {a : α} {es : List (String × α)} (h : find key es = some a) :
    put key a es = es := by
  induction es with
  | nil => cases h
  | cons e rest ih =>
    obtain ⟨k, b⟩ := e
    unfold find at h
    split at h
    · next hk =>
      cases h
      simp [put, hk]
    · next hk => simp [put, hk, ih h]

/-- Pairs that belong to each other one by one, those with one key, are found under one key. -/
theorem forall₂_iff_find {P : String → α → β → Prop} {as : List (String × α)} {bs : List (String × β)}
    (hn : (as.map Prod.fst).Nodup) :
    List.Forall₂ (fun a b => b.1 = a.1 ∧ P a.1 a.2 b.2) as bs ↔
      bs.map Prod.fst = as.map Prod.fst ∧
        ∀ key a b, find key as = some a → find key bs = some b → P key a b := by
  induction as generalizing bs with
  | nil =>
    rw [List.forall₂_nil_left_iff]
    constructor
    · rintro rfl
      exact ⟨rfl, fun _ _ _ h => by cases h⟩
    · exact fun h => List.map_eq_nil_iff.1 h.1
  | cons e as ih =>
    obtain ⟨k, a⟩ := e
    obtain ⟨hk, hrest⟩ := List.nodup_cons.1 hn
    rw [List.forall₂_cons_left_iff]
    constructor
    · rintro ⟨⟨_, b⟩, bs, ⟨rfl, hp⟩, hr, rfl⟩
      obtain ⟨hkeys, hat⟩ := (ih hrest).1 hr
      refine ⟨by simp [hkeys], fun key a' b' ha hb => ?_⟩
      unfold find at ha hb
      split at ha
      · next he =>
        cases ha
        subst he
        cases hb.symm.trans (if_pos rfl)
        exact hp
      · next he => exact hat key a' b' ha ((if_neg he).symm.trans hb)
    · rintro ⟨hkeys, hat⟩
      obtain - | ⟨⟨k', b⟩, bs⟩ := bs
      · cases hkeys
      · obtain ⟨rfl, hkeys'⟩ := List.cons.inj hkeys
        refine ⟨_, bs, ⟨rfl, hat _ a b (if_pos rfl) (if_pos rfl)⟩, (ih hrest).2 ⟨hkeys', ?_⟩, rfl⟩
        intro key a' b' ha hb
        have hne : k' ≠ key := by
          rintro rfl
          exact hk (List.mem_map.2 ⟨_, mem_of_find ha, rfl⟩)
        exact hat key a' b' ((if_neg hne).trans ha) ((if_neg hne).trans hb)

/-- Pairs with the same keys in the same order are the same where the same is found under each. -/
theorem eq_of_find {as bs : List (String × α)} (hn : (as.map Prod.fst).Nodup)
    (hk : bs.map Prod.fst = as.map Prod.fst)
    (h : ∀ key a b, find key as = some a → find key bs = some b → b = a) : bs = as := by
  have hall := (forall₂_iff_find (P := fun _ a b => b = a) hn).2 ⟨hk, h⟩
  have heq : List.Forall₂ (· = ·) as bs := hall.imp fun _ _ hab => Prod.ext hab.1.symm hab.2.symm
  rw [List.forall₂_eq_eq_eq] at heq
  exact heq.symm

/-! ### Tables -/

theorem get?_eq_some_iff {t : Table α} {key : String} {a : α} :
    t.get? key = some a ↔ (key, a) ∈ t.entries := find_eq_some_iff t.nodup

theorem get?_eq_none_iff {t : Table α} {key : String} : t.get? key = none ↔ key ∉ t.keys :=
  find_eq_none_iff

theorem contains_iff {t : Table α} {key : String} : t.contains key = true ↔ key ∈ t.keys := by
  rw [contains, Option.isSome_iff_exists, mem_keys_iff]

theorem mem_keys_insert {t : Table α} {key key' : String} {a : α} :
    key' ∈ (t.insert key a).keys ↔ key' = key ∨ key' ∈ t.keys := by
  rw [keys_insert]
  split
  · next hk =>
    constructor
    · exact .inr
    · rintro (rfl | h)
      · exact hk
      · exact h
  · rw [List.mem_append, List.mem_singleton, or_comm]

theorem insert_of_get? {t : Table α} {key : String} {a : α} (h : t.get? key = some a) :
    t.insert key a = t := by
  have he : (t.insert key a).entries = t.entries := put_of_find h
  cases hi : t.insert key a
  cases t
  simp_all

theorem entries_insert_of_not_mem {t : Table α} {key : String} (h : key ∉ t.keys) (a : α) :
    (t.insert key a).entries = t.entries ++ [(key, a)] := put_of_not_mem h

theorem entries_foldl_insert {es : List (String × α)} {t : Table α}
    (h : ((t.entries ++ es).map Prod.fst).Nodup) :
    (es.foldl (fun t e => t.insert e.1 e.2) t).entries = t.entries ++ es := by
  induction es generalizing t with
  | nil => simp
  | cons e rest ih =>
    have hk : e.1 ∉ t.keys := by
      rw [List.map_append, List.map_cons, List.nodup_middle, List.nodup_cons] at h
      exact fun hm => h.1 (List.mem_append_left _ hm)
    have he := entries_insert_of_not_mem hk e.2
    have hr : ((t.insert e.1 e.2).entries ++ rest).map Prod.fst = (t.entries ++ e :: rest).map Prod.fst := by
      rw [he]
      simp
    rw [List.foldl_cons, ih (hr ▸ h), he]
    simp

/-- Pairs without a repeated key make a table of just those pairs. -/
theorem entries_ofList {es : List (String × α)} (h : (es.map Prod.fst).Nodup) :
    (ofList es).entries = es := entries_foldl_insert (t := empty) h

theorem get?_foldl_insert (es : List (String × α)) (t : Table α) (key : String) :
    (es.foldl (fun t e => t.insert e.1 e.2) t).get? key = (find key es.reverse).or (t.get? key) := by
  induction es generalizing t with
  | nil => rfl
  | cons e rest ih =>
    obtain ⟨k, a⟩ := e
    rw [List.foldl_cons, ih, List.reverse_cons, find_append, Option.or_assoc]
    congr 1
    by_cases h : key = k
    · simp [find, h]
    · have h' : ¬ k = key := fun e => h e.symm
      simp [find, h', get?_insert_of_ne h]

/-- The last of several pairs with one key counts. -/
theorem get?_ofList (es : List (String × α)) (key : String) :
    (ofList es).get? key = find key es.reverse := by
  rw [ofList, get?_foldl_insert, get?_empty, Option.or_none]

theorem ofList_entries (t : Table α) : ofList t.entries = t := by
  have h := entries_ofList t.nodup
  cases ht : ofList t.entries
  cases t
  simp_all

end ContentGraph.Table
