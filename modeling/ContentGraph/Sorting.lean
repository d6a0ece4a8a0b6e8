/-!
# Sorting

Lists are sorted by insertion. The lists that are sorted here are short, and sorting that follows
the list can be evaluated wherever the sorted value is reasoned about.
-/

namespace ContentGraph

variable {α : Type}

/-- A list with an item before the first that it does not come after. -/
def insertBy (before : α → α → Bool) (a : α) : List α → List α
  | [] => [a]
  | b :: rest => if before a b then a :: b :: rest else b :: insertBy before a rest

/-- The items of a list in order; those that may stand either way keep their order. -/
def sortBy (before : α → α → Bool) : List α → List α
  | [] => []
  | a :: rest => insertBy before a (sortBy before rest)

theorem insertBy_perm (before : α → α → Bool) (a : α) (as : List α) :
    (insertBy before a as).Perm (a :: as) := by
  induction as with
  | nil => exact .refl _
  | cons b rest ih =>
    unfold insertBy
    split
    · exact .refl _
    · exact (ih.cons b).trans (.swap a b rest)

theorem sortBy_perm (before : α → α → Bool) (as : List α) : (sortBy before as).Perm as := by
  induction as with
  | nil => exact .refl _
  | cons a rest ih => exact (insertBy_perm before a _).trans (ih.cons a)

theorem map_insertBy {β : Type} {before : α → α → Bool} {before' : β → β → Bool} {f : α → β}
    (h : ∀ a b, before' (f a) (f b) = before a b) (a : α) (as : List α) :
    (insertBy before a as).map f = insertBy before' (f a) (as.map f) := by
  induction as with
  | nil => rfl
  | cons b rest ih =>
    rw [List.map_cons, insertBy, insertBy, h]
    split
    · rfl
    · rw [List.map_cons, ih]

theorem map_sortBy {β : Type} {before : α → α → Bool} {before' : β → β → Bool} {f : α → β}
    (h : ∀ a b, before' (f a) (f b) = before a b) (as : List α) :
    (sortBy before as).map f = sortBy before' (as.map f) := by
  induction as with
  | nil => rfl
  | cons a rest ih => rw [List.map_cons, sortBy, sortBy, map_insertBy h, ih]

end ContentGraph
