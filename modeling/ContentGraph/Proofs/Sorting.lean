import ContentGraph.TypeGraph.Naming
import ContentGraph.Proofs.Table
import Mathlib.Data.List.Dedup

/-!
# Sorted lists and tables

A sorted list depends on the items only, not on the order they had (`sortedSet_congr`), and so
does a sorted table (`Table.sorted_congr`). The identity of a type depends on the set of addresses
(`typeIdentity_congr`).
-/

namespace ContentGraph

variable {α : Type}

section

variable {before : α → α → Bool} (htotal : ∀ a b, before a b ∨ before b a)
  (htrans : ∀ a b c, before a b → before b c → before a c)
include htotal htrans

theorem pairwise_insertBy (a : α) {as : List α} (h : as.Pairwise fun x y => before x y) :
    (insertBy before a as).Pairwise fun x y => before x y := by
  induction as with
  | nil => exact List.pairwise_singleton _ a
  | cons b rest ih =>
    obtain ⟨hb, hr⟩ := List.pairwise_cons.1 h
    unfold insertBy
    split
    · next hab =>
      refine List.pairwise_cons.2 ⟨fun x hx => ?_, h⟩
      rcases List.mem_cons.1 hx with rfl | hx
      · exact hab
      · exact htrans _ _ _ hab (hb x hx)
    · next hab =>
      refine List.pairwise_cons.2 ⟨fun x hx => ?_, ih hr⟩
      rcases List.mem_cons.1 ((insertBy_perm before a rest).mem_iff.1 hx) with rfl | hx
      · exact (htotal x b).resolve_left hab
      · exact hb x hx

theorem pairwise_sortBy (as : List α) : (sortBy before as).Pairwise fun x y => before x y := by
  induction as with
  | nil => exact List.Pairwise.nil
  | cons a rest ih => exact pairwise_insertBy htotal htrans a ih

/-- The order that items had does not matter where no two of them may stand either way. -/
theorem sortBy_eq_of_perm {as bs : List α} (h : as.Perm bs)
    (hanti : ∀ a ∈ as, ∀ b ∈ as, before a b → before b a → a = b) :
    sortBy before as = sortBy before bs := by
  have hp : (sortBy before as).Perm (sortBy before bs) :=
    (sortBy_perm before as).trans (h.trans (sortBy_perm before bs).symm)
  refine List.Perm.eq_of_pairwise (fun a b ha hb => ?_) (pairwise_sortBy htotal htrans as)
    (pairwise_sortBy htotal htrans bs) hp
  have hb' := h.mem_iff.2 ((sortBy_perm before bs).mem_iff.1 hb)
  exact hanti a ((sortBy_perm before as).mem_iff.1 ha) b hb'

end

/-! ### Sets of texts -/

theorem before_total (a b : String) : decide (a ≤ b) ∨ decide (b ≤ a) := by
  simpa using String.le_total a b

theorem before_trans (a b c : String) (hab : decide (a ≤ b)) (hbc : decide (b ≤ c)) :
    decide (a ≤ c) := by
  simp only [decide_eq_true_eq] at *
  exact String.le_trans hab hbc

theorem nodup_eraseDups : ∀ as : List String, as.eraseDups.Nodup
  | [] => List.nodup_nil
  | a :: as => by
    rw [List.eraseDups_cons, List.nodup_cons, List.mem_eraseDups]
    exact ⟨by simp, nodup_eraseDups _⟩
termination_by as => as.length
decreasing_by exact Nat.lt_succ_of_le (List.length_filter_le _ _)

/-- A sorted set depends on its members only. -/
theorem sortedSet_congr {as bs : List String} (h : ∀ a, a ∈ as ↔ a ∈ bs) :
    sortedSet as = sortedSet bs := by
  have hp : as.eraseDups.Perm bs.eraseDups := by
    refine (List.perm_ext_iff_of_nodup (nodup_eraseDups as) (nodup_eraseDups bs)).2 fun a => ?_
    rw [List.mem_eraseDups, List.mem_eraseDups]
    exact h a
  refine sortBy_eq_of_perm before_total before_trans hp fun a _ b _ hab hba => ?_
  exact String.le_antisymm (of_decide_eq_true hab) (of_decide_eq_true hba)

/-- The identity of a type depends on the set of its addresses only. -/
theorem typeIdentity_congr {as bs : List String} (h : ∀ a, a ∈ as ↔ a ∈ bs) :
    typeIdentity as = typeIdentity bs := by
  rw [typeIdentity, typeIdentity, sortedSet_congr h]

/-! ### Sorted tables -/

namespace Table

theorem entries_sorted_perm (t : Table α) : t.sorted.entries.Perm t.entries := sortBy_perm _ _

theorem mem_keys_sorted {t : Table α} {key : String} : key ∈ t.sorted.keys ↔ key ∈ t.keys :=
  (t.entries_sorted_perm.map Prod.fst).mem_iff

theorem perm_of_mem_iff {t t' : Table α} (h : ∀ e, e ∈ t.entries ↔ e ∈ t'.entries) :
    t.entries.Perm t'.entries :=
  (List.perm_ext_iff_of_nodup (List.Nodup.of_map _ t.nodup) (List.Nodup.of_map _ t'.nodup)).2 h

/-- The keys of a sorted table increase. -/
theorem pairwise_keys_sorted (t : Table α) : t.sorted.keys.Pairwise (· < ·) := by
  have hle : t.sorted.entries.Pairwise fun a b => decide (a.1 ≤ b.1) :=
    pairwise_sortBy (fun a b => before_total a.1 b.1) (fun a b c => before_trans a.1 b.1 c.1) t.entries
  have hkeys : t.sorted.keys.Pairwise (· ≤ ·) :=
    List.pairwise_map.2 (hle.imp fun h => of_decide_eq_true h)
  exact (hkeys.and t.sorted.nodup).imp fun h => Std.lt_of_le_of_ne h.1 h.2

/-- Tables with the same pairs are equal once sorted. -/
theorem sorted_congr {t t' : Table α} (h : ∀ e, e ∈ t.entries ↔ e ∈ t'.entries) : t.sorted = t'.sorted := by
  have hp : t.entries.Perm t'.entries := perm_of_mem_iff h
  have he : t.sorted.entries = t'.sorted.entries := by
    refine sortBy_eq_of_perm (fun a b => before_total a.1 b.1)
      (fun a b c => before_trans a.1 b.1 c.1) hp fun a ha b hb hab hba => ?_
    have hk : a.1 = b.1 := String.le_antisymm (of_decide_eq_true hab) (of_decide_eq_true hba)
    have hfa := find_of_mem t.nodup (show (a.1, a.2) ∈ t.entries from ha)
    have hfb := find_of_mem t.nodup (show (b.1, b.2) ∈ t.entries from hb)
    rw [hk, hfb] at hfa
    exact Prod.ext hk (Option.some.inj hfa).symm
  cases hs : t.sorted
  cases hs' : t'.sorted
  rw [hs, hs'] at he
  cases he
  rfl

end Table

end ContentGraph
