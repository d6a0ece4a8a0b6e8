import ContentGraph.Sorting

/-!
# Tables

A table maps texts to values and remembers the order in which its keys were first
inserted. Inserting under a present key replaces the value and keeps the place. Schema
elements, the fields of a type, the types of a compilation and the contents of a store
are tables.
-/

namespace ContentGraph

/-- A map from texts to values, in the order of first insertion. -/
structure Table (α : Type) where
  /-- The pairs in order. -/
  entries : List (String × α)
  /-- No key stands twice. -/
  nodup : (entries.map Prod.fst).Nodup
  deriving DecidableEq

namespace Table

variable {α β : Type}

/-- The value that the first pair under `key` holds. -/
def find (key : String) : List (String × α) → Option α
  | [] => none
  | (k, a) :: rest => if k = key then some a else find key rest

/-- The pairs with `key` leading to `a`: in place when present, at the end otherwise. -/
def put (key : String) (a : α) : List (String × α) → List (String × α)
  | [] => [(key, a)]
  | (k, b) :: rest => if k = key then (k, a) :: rest else (k, b) :: put key a rest

theorem keys_put (key : String) (a : α) (es : List (String × α)) :
    (put key a es).map Prod.fst =
      if key ∈ es.map Prod.fst then es.map Prod.fst else es.map Prod.fst ++ [key] := by
  induction es with
  | nil => simp [put]
  | cons e rest ih =>
    obtain ⟨k, b⟩ := e
    by_cases h : k = key
    · simp [put, h]
    · have h' : ¬ key = k := fun e => h e.symm
      simp only [put, h, if_false, List.map_cons, ih, List.mem_cons, h', false_or]
      split <;> rfl

theorem nodup_put {key : String} {a : α} {es : List (String × α)}
    (h : (es.map Prod.fst).Nodup) : ((put key a es).map Prod.fst).Nodup := by
  rw [keys_put]
  split
  · exact h
  · next hk =>
    rw [List.nodup_append]
    exact ⟨h, by simp, fun x hx y hy e => hk (by simp_all)⟩

theorem find_put_self (key : String) (a : α) (es : List (String × α)) :
    find key (put key a es) = some a := by
  induction es with
  | nil => simp [put, find]
  | cons e rest ih =>
    obtain ⟨k, b⟩ := e
    by_cases h : k = key <;> simp [put, find, h, ih]

theorem find_put_of_ne {key other : String} (h : other ≠ key) (a : α) (es : List (String × α)) :
    find other (put key a es) = find other es := by
  have h' : ¬ key = other := fun e => h e.symm
  induction es with
  | nil => simp [put, find, h']
  | cons e rest ih =>
    obtain ⟨k, b⟩ := e
    by_cases hk : k = key
    · subst hk; simp [put, find, h']
    · by_cases ho : k = other
      · subst ho; simp [put, find, hk]
      · simp [put, find, hk, ho, ih]

theorem mem_of_find {key : String} {a : α} {es : List (String × α)} (h : find key es = some a) :
    (key, a) ∈ es := by
  induction es with
  | nil => cases h
  | cons e rest ih =>
    obtain ⟨k, b⟩ := e
    unfold find at h
    split at h
    · next hk =>
      cases h
      rw [hk]
      exact List.mem_cons_self
    · exact List.mem_cons_of_mem _ (ih h)

/-- The table without entries. -/
def empty : Table α := ⟨[], by simp⟩

instance : EmptyCollection (Table α) := ⟨empty⟩

instance : Inhabited (Table α) := ⟨empty⟩

/-- The keys in order. -/
def keys (t : Table α) : List String := t.entries.map Prod.fst

/-- The values in the order of their keys. -/
def values (t : Table α) : List α := t.entries.map Prod.snd

/-- The number of keys. -/
def size (t : Table α) : Nat := t.entries.length

/-- The value at `key`. -/
def get? (t : Table α) (key : String) : Option α := find key t.entries

/-- Whether `key` has a value. -/
def contains (t : Table α) (key : String) : Bool := (t.get? key).isSome

/-- The table with `key` leading to `a`. -/
def insert (t : Table α) (key : String) (a : α) : Table α :=
  ⟨put key a t.entries, nodup_put t.nodup⟩

/-- The table of a list of pairs; of two pairs with one key the later value counts. -/
def ofList (es : List (String × α)) : Table α := es.foldl (fun t e => t.insert e.1 e.2) empty

/-- The table with its keys in increasing order. -/
def sorted (t : Table α) : Table α where
  entries := sortBy (fun a b => a.1 ≤ b.1) t.entries
  nodup := ((sortBy_perm _ t.entries).map Prod.fst).nodup_iff.2 t.nodup

@[simp] theorem get?_empty (key : String) : (empty : Table α).get? key = none := rfl

@[simp] theorem get?_insert_self (t : Table α) (key : String) (a : α) :
    (t.insert key a).get? key = some a := find_put_self key a t.entries

theorem get?_insert_of_ne {key other : String} (h : other ≠ key) (t : Table α) (a : α) :
    (t.insert key a).get? other = t.get? other := find_put_of_ne h a t.entries

theorem keys_insert (t : Table α) (key : String) (a : α) :
    (t.insert key a).keys = if key ∈ t.keys then t.keys else t.keys ++ [key] :=
  keys_put key a t.entries

theorem mem_keys_iff {t : Table α} {key : String} : key ∈ t.keys ↔ ∃ a, t.get? key = some a := by
  unfold keys get?
  generalize t.entries = es
  induction es with
  | nil => simp [find]
  | cons e rest ih =>
    obtain ⟨k, b⟩ := e
    by_cases h : k = key
    · simp [find, h]
    · have h' : ¬ key = k := fun e => h e.symm
      simp [find, h, h', ← ih]

end Table

end ContentGraph
