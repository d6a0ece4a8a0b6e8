import ContentGraph.GraphQL.Asked
import ContentGraph.Proofs.Table

/-!
# Selections of keys

A selection of keys asks for fields of documents, and for fields of those they refer to, at any
depth (`SelectKeys`); it may ask for one field several times and under several names. What it asks of
an object is told by its selections: each response name once, in the order in which the names are
met, with what is selected below all fields of that name (`askWithin_succ`). There is less below a
name than there is around it, so that no depth is too great for what a request asks
(`countSelections_belowAll_lt`).
-/

namespace ContentGraph.GraphQL

namespace Selection

/-- The field that a selection asks for, where it is one. -/
def call? : Selection → Option FieldCall
  | .leaf f => some f
  | .branch f _ => some f
  | _ => none

/-- What is selected of the objects under the field. -/
def inner : Selection → List Selection
  | .branch _ selections => selections
  | _ => []

end Selection

mutual

/-- A selection asks for a field of a document, with such selections below it. -/
def Selection.SelectsKey : Selection → Prop
  | .leaf f => f.directives = [] ∧ f.name ≠ typenameField
  | .branch f selections => (f.directives = [] ∧ f.name ≠ typenameField) ∧ SelectKeys selections
  | .spread _ _ => False
  | .inline _ _ _ => False

/-- Selections ask for fields of documents. -/
def SelectKeys : List Selection → Prop
  | [] => True
  | s :: rest => s.SelectsKey ∧ SelectKeys rest

end

/-- The fields that selections ask for, in order. -/
def calls (selections : List Selection) : List FieldCall := selections.filterMap Selection.call?

/-- The names under which fields are answered, in the order in which they are met. -/
def responses (selections : List Selection) : List String :=
  ((calls selections).map FieldCall.response).eraseDups

/-- What is selected below all fields that are answered under a name. -/
def belowAll (response : String) (selections : List Selection) : List Selection :=
  selections.flatMap fun s => if s.call?.any fun f => f.response = response then s.inner else []

variable {selections : List Selection} {s : Selection} {f : FieldCall}

/-! ### Selections of keys -/

theorem selectKeys_iff : SelectKeys selections ↔ ∀ s ∈ selections, s.SelectsKey := by
  induction selections with
  | nil => simp [SelectKeys]
  | cons s rest ih => simp [SelectKeys, ih]

theorem Selection.SelectsKey.inner (h : s.SelectsKey) : SelectKeys s.inner := by
  cases s with
  | leaf f => exact True.intro
  | branch f selections => exact h.2
  | spread fragment directives => exact h.elim
  | inline condition directives selections => exact h.elim

theorem Selection.SelectsKey.exists_call (h : s.SelectsKey) :
    ∃ f, s.call? = some f ∧ f.directives = [] ∧ f.name ≠ typenameField := by
  cases s with
  | leaf f => exact ⟨f, rfl, h⟩
  | branch f selections => exact ⟨f, rfl, h.1⟩
  | spread fragment directives => exact h.elim
  | inline condition directives selections => exact h.elim

theorem SelectKeys.call (h : SelectKeys selections) (hf : f ∈ calls selections) :
    f.directives = [] ∧ f.name ≠ typenameField := by
  obtain ⟨s, hs, hc⟩ := List.mem_filterMap.1 hf
  obtain ⟨g, hg, hplain⟩ := (selectKeys_iff.1 h s hs).exists_call
  cases hc.symm.trans hg
  exact hplain

theorem belowAll_cons (k : String) (s : Selection) (rest : List Selection) :
    belowAll k (s :: rest)
      = (if s.call?.any fun f => f.response = k then s.inner else []) ++ belowAll k rest := by
  rw [belowAll, List.flatMap_cons]
  rfl

theorem mem_belowAll {k : String} {t : Selection} :
    t ∈ belowAll k selections ↔
      ∃ s ∈ selections, ∃ f, s.call? = some f ∧ f.response = k ∧ t ∈ s.inner := by
  rw [belowAll, List.mem_flatMap]
  refine exists_congr fun s => and_congr_right fun _ => ?_
  cases s.call? with
  | none => simp
  | some f => by_cases h : f.response = k <;> simp [h]

theorem SelectKeys.belowAll (h : SelectKeys selections) (k : String) :
    SelectKeys (belowAll k selections) := by
  refine selectKeys_iff.2 fun t ht => ?_
  obtain ⟨s, hs, -, -, -, ht⟩ := mem_belowAll.1 ht
  exact selectKeys_iff.1 (selectKeys_iff.1 h s hs).inner t ht

theorem countSelections_append (as bs : List Selection) :
    countSelections (as ++ bs) = countSelections as + countSelections bs := by
  induction as with
  | nil => simp [countSelections]
  | cons a as ih => simp only [List.cons_append, countSelections, ih]; omega

theorem Selection.countSelections_inner_lt (s : Selection) : countSelections s.inner < s.size := by
  cases s <;> simp [Selection.inner, Selection.size, countSelections]

theorem countSelections_belowAll_le (k : String) (selections : List Selection) :
    countSelections (belowAll k selections) ≤ countSelections selections := by
  induction selections with
  | nil => exact Nat.le_refl _
  | cons s rest ih =>
    have hs := s.countSelections_inner_lt
    rw [belowAll_cons, countSelections_append]
    simp only [countSelections]
    refine Nat.add_le_add ?_ ih
    split
    · exact Nat.le_of_lt hs
    · exact Nat.zero_le _

/-- There is less below a name than there is around it. -/
theorem countSelections_belowAll_lt (hf : f ∈ calls selections) :
    countSelections (belowAll f.response selections) < countSelections selections := by
  induction selections with
  | nil => cases hf
  | cons s rest ih =>
    have hs := s.countSelections_inner_lt
    have hrest := countSelections_belowAll_le f.response rest
    rw [belowAll_cons, countSelections_append]
    simp only [countSelections]
    cases hc : s.call? with
    | none =>
      rw [calls, List.filterMap_cons_none hc] at hf
      have hlt := ih hf
      simp only [Option.any_none, Bool.false_eq_true, if_false, countSelections]
      omega
    | some g =>
      by_cases hg : g.response = f.response
      · simp only [Option.any_some, hg, decide_true, if_true]
        omega
      · rw [calls, List.filterMap_cons_some hc, List.mem_cons] at hf
        have hlt := ih (hf.resolve_left fun he => hg (by rw [he]))
        simp only [Option.any_some, hg, decide_false, Bool.false_eq_true, if_false, countSelections]
        omega

/-! ### What is asked for -/

/-- What is asked for with one more selection of a key. -/
def Collected.addSelection (c : Collected) (s : Selection) : Collected :=
  match s.call? with
  | some f => c.add f s.inner
  | none => c

theorem collectAll_eq (values : Values) (fragment : FragmentReading) (h : SelectKeys selections)
    (c : Collected) :
    collectAll values fragment selections c = some (selections.foldl Collected.addSelection c) := by
  induction selections generalizing c with
  | nil => rfl
  | cons s rest ih =>
    have hs : s.collect values fragment c = some (c.addSelection s) := by
      obtain ⟨f, hf, hd, -⟩ := h.1.exists_call
      cases s <;> cases hf <;> simp [Selection.collect, Collected.addSelection, Selection.call?,
        Selection.inner, isIncluded?, condition?, hd]
    rw [collectAll, hs]
    exact ih h.2 _

section

variable {surface : Surface} {r : Request} {type : String}

theorem selectionsFit_iff :
    selectionsFit surface r selections type = true ↔ ∀ s ∈ selections, s.fits surface r type = true := by
  induction selections with
  | nil => simp [selectionsFit]
  | cons s rest ih => simp [selectionsFit, ih]

theorem exists_field_of_called {P : OutputField → Bool} (h : (f.called? surface type).any P = true) :
    ∃ field, surface.field? type f.name = some field ∧ P field = true := by
  cases hf : f.called? surface type with
  | none =>
    rw [hf] at h
    cases h
  | some field =>
    rw [hf] at h
    exact ⟨field, (Option.filter_eq_some_iff.1 hf).1, h⟩

/-- A field that is selected is one of the type, and what is selected below it fits the field. -/
theorem Selection.exists_field_of_fits (s : Selection) (h : s.fits surface r type = true) (hc : s.call? = some f) :
    ∃ field, surface.field? type f.name = some field ∧
      selectionsFit surface r s.inner field.type.name = true := by
  cases s with
  | leaf g =>
    cases hc
    obtain ⟨field, hf, -⟩ := exists_field_of_called h
    exact ⟨field, hf, rfl⟩
  | branch g selections =>
    cases hc
    obtain ⟨field, hf, hb⟩ := exists_field_of_called h
    exact ⟨field, hf, (Bool.and_eq_true_iff.1 hb).2⟩
  | spread fragment directives => cases hc
  | inline condition directives selections => cases hc

end

end ContentGraph.GraphQL
