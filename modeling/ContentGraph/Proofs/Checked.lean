import ContentGraph.Issue
import Mathlib.Data.List.Forall2

/-!
# Readings without issues

A reading of several parts has a value exactly where each part has one. An outcome of which a test is
evaluated to hold is a success, or a failure, for which it holds.
-/

namespace ContentGraph.Checked

variable {α β : Type}

@[simp] theorem map_ok (f : α → β) (a : α) : f <$> Checked.ok a = .ok (f a) := rfl

@[simp] theorem seq_ok (f : α → β) (a : α) : Checked.ok f <*> Checked.ok a = .ok (f a) := rfl

@[simp] theorem under_ok (s : Step) (a : α) : (Checked.ok a).under s = .ok a := rfl

theorem seq_eq_ok_iff {f : Checked (α → β)} {x : Checked α} {b : β} :
    f <*> x = .ok b ↔ ∃ g a, f = .ok g ∧ x = .ok a ∧ g a = b := by
  show Checked.seq f x = .ok b ↔ _
  cases f <;> cases x <;> simp [seq]

theorem map_eq_ok_iff {f : α → β} {x : Checked α} {b : β} :
    Checked.map f x = .ok b ↔ ∃ a, x = .ok a ∧ f a = b := by
  cases x <;> simp [map]

theorem fmap_eq_ok_iff {f : α → β} {x : Checked α} {b : β} :
    f <$> x = .ok b ↔ ∃ a, x = .ok a ∧ f a = b := by
  show Checked.seq (.ok f) x = .ok b ↔ _
  cases x <;> simp [seq]

theorem under_eq_ok_iff {s : Step} {x : Checked α} {a : α} : x.under s = .ok a ↔ x = .ok a := by
  cases x <;> simp [under]

theorem ofOption_eq_ok_iff {kind : IssueKind} {input : Json} {x : Option α} {a : α} :
    ofOption kind input x = .ok a ↔ x = some a := by
  cases x <;> simp [ofOption, refuse]

/-! ### Lists and objects that are read item by item -/

/-- Items are read one by one, in order. -/
theorem itemsFrom_eq_ok_iff {read : Json → Checked α} {vs : List Json} {as : List α} {n : ℕ} :
    itemsFrom read n vs = .ok as ↔ List.Forall₂ (fun v a => read v = .ok a) vs as := by
  induction vs generalizing as n with
  | nil =>
    rw [itemsFrom, List.forall₂_nil_left_iff, ok.injEq]
    exact eq_comm
  | cons v rest ih =>
    rw [itemsFrom, List.forall₂_cons_left_iff]
    show map List.cons ((read v).under (.item n)) <*> itemsFrom read (n + 1) rest = .ok as ↔ _
    simp only [seq_eq_ok_iff, map_eq_ok_iff, under_eq_ok_iff, ih]
    constructor
    · rintro ⟨-, bs, ⟨a, ha, rfl⟩, hbs, rfl⟩
      exact ⟨a, bs, ha, hbs, rfl⟩
    · rintro ⟨a, bs, ha, hbs, rfl⟩
      exact ⟨_, bs, ⟨a, ha, rfl⟩, hbs, rfl⟩

/-- Members are read one by one, in order and with their names. -/
theorem members_eq_ok_iff {read : Json → Checked α} {ms : List (String × Json)} {es : List (String × α)} :
    members read ms = .ok es ↔ List.Forall₂ (fun m e => m.1 = e.1 ∧ read m.2 = .ok e.2) ms es := by
  induction ms generalizing es with
  | nil =>
    rw [members, List.forall₂_nil_left_iff, ok.injEq]
    exact eq_comm
  | cons m rest ih =>
    obtain ⟨k, v⟩ := m
    rw [members, List.forall₂_cons_left_iff]
    show map (fun a es => (k, a) :: es) ((read v).under (.member k)) <*> members read rest = .ok es ↔ _
    simp only [seq_eq_ok_iff, map_eq_ok_iff, under_eq_ok_iff, ih]
    constructor
    · rintro ⟨-, bs, ⟨a, ha, rfl⟩, hbs, rfl⟩
      exact ⟨(k, a), bs, ⟨rfl, ha⟩, hbs, rfl⟩
    · rintro ⟨⟨_, a⟩, bs, ⟨rfl, ha⟩, hbs, rfl⟩
      exact ⟨_, bs, ⟨a, ha, rfl⟩, hbs, rfl⟩

theorem itemsFrom_map {read : Json → Checked α} {write : α → Json} {as : List α}
    (h : ∀ a ∈ as, read (write a) = .ok a) (n : ℕ) : itemsFrom read n (as.map write) = .ok as :=
  itemsFrom_eq_ok_iff.2 (List.forall₂_map_left_iff.2 (List.forall₂_same.2 h))

theorem members_map {read : Json → Checked α} (write : α → Json) {es : List (String × α)}
    (h : ∀ e ∈ es, read (write e.2) = .ok e.2) :
    members read (es.map fun e => (e.1, write e.2)) = .ok es :=
  members_eq_ok_iff.2 (List.forall₂_map_left_iff.2 (List.forall₂_same.2 fun e he => ⟨rfl, h e he⟩))

end ContentGraph.Checked

namespace ContentGraph

variable {α ε : Type}

/-- There are no members beside some names. -/
theorem noOthers_eq_ok_iff {ms : List (String × Json)} {names : List String} :
    noOthers ms names = .ok () ↔ ∀ key ∈ ms.map Prod.fst, key ∈ names := by
  have hf : ms.filter (fun m => !names.contains m.1) = [] ↔ ∀ key ∈ ms.map Prod.fst, key ∈ names := by
    rw [List.filter_eq_nil_iff, List.forall_mem_map]
    simp
  rw [noOthers]
  split
  · next h => exact iff_of_true rfl (hf.1 h)
  · next h => exact iff_of_false nofun fun hn => nomatch h.symm.trans (hf.2 hn)

theorem required_eq_ok_iff {ms : List (String × Json)} {name : String} {read : Json → Checked α} {a : α} :
    required ms name read = .ok a ↔ ∃ v, Table.find name ms = some v ∧ read v = .ok a := by
  rw [required]
  cases Table.find name ms with
  | none => simp
  | some v => simp [Checked.under_eq_ok_iff]

/-- An optional member is read, or is absent and stands at its default. -/
theorem optional_eq_ok_iff {ms : List (String × Json)} {name : String} {default a : α}
    {read : Json → Checked α} : optional ms name default read = .ok a ↔
      (∃ v, Table.find name ms = some v ∧ read v = .ok a) ∨ Table.find name ms = none ∧ default = a := by
  rw [optional]
  cases Table.find name ms with
  | none => simp
  | some v => simp [Checked.under_eq_ok_iff]

/-- An outcome of which something is evaluated to be true is a success. -/
theorem exists_ok_of_any {x : Except ε α} {p : α → Bool} (h : x.toOption.any p = true) :
    ∃ a, x = .ok a ∧ p a = true := by
  cases x with
  | error e => cases h
  | ok a => exact ⟨a, rfl, h⟩

/-- The error of an outcome. -/
def errorOf? : Except ε α → Option ε
  | .ok _ => none
  | .error e => some e

/-- An outcome whose error is evaluated to have a property is a failure. -/
theorem exists_error_of_any {x : Except ε α} {p : ε → Bool} (h : (errorOf? x).any p = true) :
    ∃ e, x = .error e ∧ p e = true := by
  cases x with
  | ok a => cases h
  | error e => exact ⟨e, rfl, h⟩

end ContentGraph
