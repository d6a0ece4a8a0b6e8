import ContentGraph.GraphQL.Validity
import ContentGraph.Proofs.GraphQL.Selections
import ContentGraph.Proofs.Lists
import Mathlib.Data.List.Pairwise

/-!
# Fields that agree

In a valid request, fields that are answered under one name are one field, also where what is selected
below several fields is merged (`Agree`). The comparisons that find this out are followed here: one
that ends without a disagreement has made every comparison that follows from it (`yields_run`), so
that any two areas whose selections are merged somewhere have been compared (`Compared`). Only the
outcome matters for this, and not how many comparisons were left at each point (`Yields`).
-/

namespace ContentGraph.GraphQL

/-- Fields that are answered under one name are one field, at any depth. -/
inductive Agree : List Selection → Prop
  /-- They have one name, and what is selected below them agrees. -/
  | intro {selections : List Selection} :
      (∀ f ∈ calls selections, ∀ g ∈ calls selections, f.response = g.response → f.name = g.name) →
      (∀ f ∈ calls selections, Agree (belowAll f.response selections)) → Agree selections

theorem Agree.name_eq {selections : List Selection} {f g : FieldCall} (h : Agree selections)
    (hf : f ∈ calls selections) (hg : g ∈ calls selections) (he : f.response = g.response) :
    f.name = g.name := by
  cases h with
  | intro hnames _ => exact hnames f hf g hg he

theorem Agree.belowAll {selections : List Selection} {f : FieldCall} (h : Agree selections)
    (hf : f ∈ calls selections) : Agree (GraphQL.belowAll f.response selections) := by
  cases h with
  | intro _ hbelow => exact hbelow f hf

/-! ### Outcomes of comparing -/

/-- A computation gives an outcome from some point on. -/
def Yields {α : Type} (x : Comparing α) (a : α) : Prop := ∃ p q, x p = some (a, q)

namespace Yields

variable {α β : Type}

theorem bind {x : Comparing α} {f : α → Comparing β} {b : β} (h : Yields (x >>= f) b) :
    ∃ a, Yields x a ∧ Yields (f a) b := by
  obtain ⟨p, q, h⟩ := h
  change (x p).bind (fun r => f r.1 r.2) = some (b, q) at h
  obtain ⟨⟨a, p'⟩, hx, hf⟩ := Option.bind_eq_some_iff.1 h
  exact ⟨a, ⟨p, p', hx⟩, ⟨p', q, hf⟩⟩

theorem pure {a b : α} (h : Yields (Pure.pure a) b) : b = a := by
  obtain ⟨p, q, h⟩ := h
  cases h
  rfl

theorem map {x : Comparing α} {f : α → β} {b : β} (h : Yields (f <$> x) b) :
    ∃ a, Yields x a ∧ f a = b := by
  rw [map_eq_pure_bind] at h
  obtain ⟨a, ha, hb⟩ := h.bind
  exact ⟨a, ha, hb.pure.symm⟩

theorem mapM {f : α → Comparing β} {as : List α} {bs : List β} (h : Yields (as.mapM f) bs) :
    List.Forall₂ (fun a b => Yields (f a) b) as bs := by
  induction as generalizing bs with
  | nil =>
    rw [List.mapM_nil] at h
    rw [h.pure]
    exact .nil
  | cons a as ih =>
    rw [List.mapM_cons] at h
    obtain ⟨b, hb, h⟩ := h.bind
    obtain ⟨others, ho, h⟩ := h.bind
    rw [h.pure]
    exact .cons hb (ih ho)

theorem forM {f : α → Comparing Unit} {as : List α} (h : Yields (as.forM f) ()) :
    ∀ a ∈ as, Yields (f a) () := by
  induction as with
  | nil => exact fun _ ha => absurd ha List.not_mem_nil
  | cons a as ih =>
    obtain ⟨_, ha, h⟩ := h.bind
    exact List.forall_mem_cons.2 ⟨ha, ih h⟩

end Yields

/-! ### Comparisons -/

/-- Fields by their response names, the last first. -/
theorem getElem?_foldl_alter (fields : List PlacedField) (m : Std.HashMap String (List PlacedField))
    (k : String) :
    (fields.foldl (fun groups f => groups.alter f.1.response fun fields? => some (f :: fields?.getD [])) m)[k]?
      = if (fields.filter fun f => f.1.response = k) = [] then m[k]?
        else some ((fields.filter fun f => f.1.response = k).reverse ++ m[k]?.getD []) := by
  induction fields generalizing m with
  | nil => rfl
  | cons f rest ih =>
    rw [List.foldl_cons, ih, Std.HashMap.getElem?_alter]
    by_cases hk : f.1.response = k
    · subst hk
      by_cases hrest : (rest.filter fun g => g.1.response = f.1.response) = [] <;> simp [hrest]
    · have hrest : ((f :: rest).filter fun f => f.1.response = k) = rest.filter fun f => f.1.response = k :=
        List.filter_cons_of_neg (by simpa using hk)
      have hne : ¬ (f.1.response == k) = true := by simpa using hk
      rw [hrest, if_neg hne]

theorem Area.getElem?_groups (a : Area) (k : String) :
    a.groups[k]? =
      if ((placedFieldsOf a.place 0 a.selections).filter fun f => f.1.response = k) = [] then none
      else some ((placedFieldsOf a.place 0 a.selections).filter fun f => f.1.response = k).reverse := by
  rw [Area.groups, getElem?_foldl_alter]
  simp

theorem values_eq_map {α : Type} (m : Std.HashMap String α) : m.values = m.toList.map Prod.snd := by
  show Std.DHashMap.Raw.values _ = (Std.DHashMap.Raw.Const.toList _).map Prod.snd
  rw [Std.DHashMap.Internal.Raw.values_eq_values_toListModel,
    Std.DHashMap.Internal.Raw.Const.toList_eq_toListModel_map, Std.Internal.List.values_eq_map, List.map_map]
  rfl

theorem pairwise_iff_pairs {α : Type} {R : α → α → Prop} {as : List α} :
    as.Pairwise R ↔ ∀ e ∈ pairs as, R e.1 e.2 := by
  induction as with
  | nil => simp [pairs]
  | cons a as ih =>
    rw [List.pairwise_cons, ih, pairs, List.forall_mem_append, List.forall_mem_map]

theorem Yields.compareEach {fields : List (PlacedField × PlacedField)} {cs : List Comparison}
    (h : Yields (compareEach fields) cs) :
    ∀ e ∈ fields, e.1.1.name = e.2.1.name ∧ .between e.1.2 e.2.2 ∈ cs := by
  unfold GraphQL.compareEach at h
  split at h
  · next hall =>
    rw [h.pure]
    intro e he
    have hagrees := List.all_eq_true.1 hall e he
    simp only [FieldCall.agrees, Bool.and_eq_true, decide_eq_true_eq] at hagrees
    exact ⟨hagrees.1, List.mem_map.2 ⟨e, he, rfl⟩⟩
  · obtain ⟨_, _, h⟩ := h
    cases h

/-- Comparing an area with itself compares any two of its fields with one response name. -/
theorem Yields.compareWithin {a : Area} {cs : List Comparison} (h : Yields a.compareWithin cs) :
    (placedFieldsOf a.place 0 a.selections).Pairwise fun x y => x.1.response = y.1.response →
      x.1.name = y.1.name ∧ .between y.2 x.2 ∈ cs := by
  obtain ⟨rows, hrows, rfl⟩ := h.map
  have hall := hrows.mapM
  -- the fields of one response name, the last first, are one of the groups that are compared
  have hname : ∀ k, ((placedFieldsOf a.place 0 a.selections).filter fun f => f.1.response = k).Pairwise
      fun x y => x.1.name = y.1.name ∧ .between y.2 x.2 ∈ rows.flatten := by
    intro k
    by_cases hnil : ((placedFieldsOf a.place 0 a.selections).filter fun f => f.1.response = k) = []
    · rw [hnil]
      exact .nil
    · have hget := a.getElem?_groups k
      rw [if_neg hnil] at hget
      have hmem := List.mem_map_of_mem (f := Prod.snd) (Std.HashMap.mem_toList_iff_getElem?_eq_some.2 hget)
      rw [← values_eq_map] at hmem
      obtain ⟨row, hrow, hyields⟩ := exists_of_mem_left hall _ hmem
      obtain ⟨_, _, hyields⟩ := hyields.bind
      rw [← List.pairwise_reverse, pairwise_iff_pairs]
      intro e he
      obtain ⟨hn, hm⟩ := hyields.compareEach e he
      exact ⟨hn.symm, List.mem_flatten.2 ⟨row, hrow, hm⟩⟩
  rw [List.pairwise_iff_forall_sublist]
  intro x y hxy he
  have hsub := hxy.filter fun f => decide (f.1.response = y.1.response)
  simp only [he, decide_true, List.filter_cons_of_pos, List.filter_nil] at hsub
  exact (List.pairwise_iff_forall_sublist.1 (hname y.1.response)) hsub

/-- Comparing two areas compares any two of their fields with one response name. -/
theorem Yields.compareBetween {a b : Area} {cs : List Comparison} (h : Yields (a.compareBetween b) cs)
    {x y : PlacedField} (hx : x ∈ placedFieldsOf a.place 0 a.selections)
    (hy : y ∈ placedFieldsOf b.place 0 b.selections) (he : x.1.response = y.1.response) :
    x.1.name = y.1.name ∧ .between x.2 y.2 ∈ cs := by
  obtain ⟨rows, hrows, rfl⟩ := h.map
  have hx' : x ∈ (placedFieldsOf a.place 0 a.selections).filter fun f => f.1.response = y.1.response :=
    List.mem_filter.2 ⟨hx, by simpa using he⟩
  have hy' : y ∈ (placedFieldsOf b.place 0 b.selections).filter fun f => f.1.response = y.1.response :=
    List.mem_filter.2 ⟨hy, by simp⟩
  have hget := a.getElem?_groups y.1.response
  rw [if_neg (List.ne_nil_of_mem hx')] at hget
  have hothers := b.getElem?_groups y.1.response
  rw [if_neg (List.ne_nil_of_mem hy')] at hothers
  obtain ⟨row, hrow, hyields⟩ := exists_of_mem_left hrows.mapM _
    (Std.HashMap.mem_toList_iff_getElem?_eq_some.2 hget)
  obtain ⟨_, _, hyields⟩ := hyields.bind
  rw [Std.HashMap.getD_eq_getD_getElem?, hothers, Option.getD_some] at hyields
  have hpair : (x, y) ∈ pairsBetween _ _ := List.mem_flatMap.2
    ⟨x, List.mem_reverse.2 hx', List.mem_map.2 ⟨y, List.mem_reverse.2 hy', rfl⟩⟩
  obtain ⟨hn, hm⟩ := hyields.compareEach _ hpair
  exact ⟨hn, List.mem_flatten.2 ⟨row, hrow, hm⟩⟩

/-- A comparison that ends has made those that follow from it. -/
theorem yields_run {areas : FragmentAreas} {depth : ℕ} {c : Comparison}
    (h : Yields (Comparison.run areas (depth + 1) c) ()) :
    ∃ cs, Yields (c.step areas) cs ∧ ∀ c' ∈ cs, Yields (Comparison.run areas depth c') () := by
  obtain ⟨cs, hcs, h⟩ := h.bind
  exact ⟨cs, hcs, h.forM⟩

/-! ### Areas -/

/-- The areas of a selection of keys are below its fields. -/
theorem area_of_placedField {selections : List Selection} (h : SelectKeys selections) {place : List ℕ}
    {n : ℕ} {x : PlacedField} (hx : x ∈ placedFieldsOf place n selections) :
    x.2.selections = [] ∨ x.2 ∈ areasOf place n selections := by
  induction selections generalizing n with
  | nil => cases hx
  | cons s rest ih =>
    rw [placedFieldsOf, List.mem_append] at hx
    rw [areasOf, List.mem_append]
    rcases hx with hx | hx
    · cases s with
      | leaf f =>
        cases List.mem_singleton.1 hx
        exact .inl rfl
      | branch f selections =>
        cases List.mem_singleton.1 hx
        exact .inr (.inl List.mem_cons_self)
      | spread fragment directives => exact h.1.elim
      | inline condition directives selections => exact h.1.elim
    · exact (ih h.2 hx).imp_right .inr

mutual

/-- The areas in an area of a selection are areas of the selection. -/
theorem mem_areas_trans {a b : Area} (hb : b ∈ areasOf a.place 0 a.selections) :
    ∀ {place : List ℕ} (s : Selection), a ∈ s.areas place → b ∈ s.areas place
  | place, .branch f selections, ha => by
    rcases List.mem_cons.1 ha with rfl | ha
    · exact List.mem_cons_of_mem _ hb
    · exact List.mem_cons_of_mem _ (mem_areasOf_trans hb selections ha)
  | place, .inline condition directives selections, ha => by
    rcases List.mem_cons.1 ha with rfl | ha
    · exact List.mem_cons_of_mem _ hb
    · exact List.mem_cons_of_mem _ (mem_areasOf_trans hb selections ha)

/-- The areas in an area of selections are areas of the selections. -/
theorem mem_areasOf_trans {a b : Area} (hb : b ∈ areasOf a.place 0 a.selections) :
    ∀ {place : List ℕ} {n : ℕ} (selections : List Selection),
      a ∈ areasOf place n selections → b ∈ areasOf place n selections
  | place, n, s :: rest, ha => by
    rw [areasOf, List.mem_append] at ha ⊢
    exact ha.imp (mem_areas_trans hb s) (mem_areasOf_trans hb rest)

end

namespace Request

variable {r : Request}

theorem mem_areas_trans {a b : Area} (ha : a ∈ r.areas) (hb : b ∈ areasOf a.place 0 a.selections) :
    b ∈ r.areas := by
  obtain ⟨⟨selections, n⟩, hp, ha⟩ := List.mem_flatMap.1 ha
  refine List.mem_flatMap.2 ⟨(selections, n), hp, ?_⟩
  rcases List.mem_cons.1 ha with rfl | ha
  · exact List.mem_cons_of_mem _ hb
  · exact List.mem_cons_of_mem _ (mem_areasOf_trans hb selections ha)

theorem countSelections_le_size {selections : List Selection} (h : selections ∈ r.selections) :
    countSelections selections ≤ r.size := by
  rw [size]
  obtain ⟨before, after, hp⟩ := List.append_of_mem h
  rw [hp, List.flatten_append, List.flatten_cons, countSelections_append, countSelections_append]
  omega

/-! ### Merged areas -/

/-- Two areas have been compared, down to a depth. -/
def Meets (r : Request) (depth : ℕ) (a b : Area) : Prop :=
  ∃ n, depth ≤ n ∧ Yields (Comparison.run r.fragmentAreas n (.between a b)) ()

/-- Areas whose selections are merged have been compared with themselves and with each other. -/
structure Compared (r : Request) (depth : ℕ) (as : List Area) : Prop where
  /-- Areas of the request are compared with themselves. -/
  mem : ∀ a ∈ as, a.selections = [] ∨ a ∈ r.areas
  /-- Any two are compared with each other, in some order. -/
  meets : as.Pairwise fun a b => r.Meets depth a b ∨ r.Meets depth b a

/-- The fields that are asked for in several areas. -/
def fieldsIn (as : List Area) : List PlacedField :=
  as.flatMap fun a => placedFieldsOf a.place 0 a.selections

end Request

/-- The fields of selections, each with what is selected below it. -/
def callsBelow (selections : List Selection) : List (FieldCall × List Selection) :=
  selections.filterMap fun s => s.call?.map fun f => (f, s.inner)

theorem calls_eq (selections : List Selection) :
    calls selections = (callsBelow selections).map Prod.fst := by
  rw [calls, callsBelow, List.map_filterMap]
  congr 1
  funext s
  cases s.call? <;> rfl

theorem belowAll_eq (k : String) (selections : List Selection) :
    belowAll k selections = ((callsBelow selections).filter fun e => e.1.response = k).flatMap Prod.snd := by
  induction selections with
  | nil => rfl
  | cons s rest ih =>
    rw [belowAll_cons, ih]
    cases hs : s.call? with
    | none => simp [callsBelow, hs]
    | some f => by_cases hf : f.response = k <;> simp [callsBelow, hs, hf]

theorem SelectKeys.callsBelow_eq {selections : List Selection} (h : SelectKeys selections)
    (place : List ℕ) (n : ℕ) :
    callsBelow selections = (placedFieldsOf place n selections).map fun x => (x.1, x.2.selections) := by
  induction selections generalizing n with
  | nil => rfl
  | cons s rest ih =>
    rw [placedFieldsOf, List.map_append, ← ih h.2]
    cases s with
    | leaf f => rfl
    | branch f selections => rfl
    | spread fragment directives => exact h.1.elim
    | inline condition directives selections => exact h.1.elim

namespace Request

variable {r : Request} {depth : ℕ} {as : List Area}

theorem callsBelow_flatMap (h : ∀ a ∈ as, SelectKeys a.selections) :
    callsBelow (as.flatMap Area.selections) = (fieldsIn as).map fun x => (x.1, x.2.selections) := by
  induction as with
  | nil => rfl
  | cons a as ih =>
    obtain ⟨ha, has⟩ := List.forall_mem_cons.1 h
    rw [fieldsIn, List.flatMap_cons, List.flatMap_cons, List.map_append, ← ha.callsBelow_eq a.place 0,
      callsBelow, List.filterMap_append]
    exact congrArg _ (ih has)

/-- Fields of compared areas that share a response name are one field, and what is selected below
them has been compared. -/
theorem Compared.fields (h : r.Compared (depth + 1) as)
    (hr : ∀ a ∈ r.areas, Yields (Comparison.run r.fragmentAreas (2 * r.size + 2) (.within a)) ())
    (hsize : depth ≤ r.size) :
    (fieldsIn as).Pairwise fun x y => x.1.response = y.1.response →
      x.1.name = y.1.name ∧ (r.Meets depth x.2 y.2 ∨ r.Meets depth y.2 x.2) := by
  refine List.pairwise_flatMap.2 ⟨fun a ha => ?_, h.meets.imp fun {a b} hab x hx y hy he => ?_⟩
  · rcases h.mem a ha with hnil | ha
    · rw [hnil]
      exact .nil
    · obtain ⟨cs, hstep, hruns⟩ := yields_run (hr a ha)
      obtain ⟨below, hbelow, hstep⟩ := hstep.bind
      refine hbelow.compareWithin.imp fun {x y} hxy he => ⟨(hxy he).1, .inr ⟨2 * r.size + 1, by omega, ?_⟩⟩
      refine hruns _ ?_
      rw [hstep.pure]
      exact List.mem_append_left _ (List.mem_append_left _ (hxy he).2)
  · -- two areas are compared in one order or in the other
    have hbetween : ∀ {a b : Area} {x y : PlacedField}, r.Meets (depth + 1) a b →
        x ∈ placedFieldsOf a.place 0 a.selections → y ∈ placedFieldsOf b.place 0 b.selections →
        x.1.response = y.1.response → x.1.name = y.1.name ∧ r.Meets depth x.2 y.2 := by
      rintro a b x y ⟨n, hn, hrun⟩ hx hy he
      obtain - | n := n
      · cases hn
      · obtain ⟨cs, hstep, hruns⟩ := yields_run hrun
        obtain ⟨below, hbelow, hstep⟩ := hstep.bind
        obtain ⟨hname, hm⟩ := hbelow.compareBetween hx hy he
        refine ⟨hname, n, Nat.le_of_succ_le_succ hn, hruns _ ?_⟩
        rw [hstep.pure]
        exact List.mem_append_left _ (List.mem_append_left _ (List.mem_append_left _ hm))
    rcases hab with hab | hba
    · exact (hbetween hab hx hy he).imp_right .inl
    · obtain ⟨hname, hmeets⟩ := hbetween hba hy hx he.symm
      exact ⟨hname.symm, .inr hmeets⟩

/-- **Selections of keys that have been compared agree.** What is merged below a name consists of
areas that have been compared in turn. -/
theorem Compared.agree (h : r.Compared depth as)
    (hr : ∀ a ∈ r.areas, Yields (Comparison.run r.fragmentAreas (2 * r.size + 2) (.within a)) ())
    (hsize : depth ≤ r.size + 1) (hkeys : SelectKeys (as.flatMap Area.selections))
    (hdepth : countSelections (as.flatMap Area.selections) < depth) :
    Agree (as.flatMap Area.selections) := by
  induction depth generalizing as with
  | zero => cases hdepth
  | succ depth ih =>
    have hareas : ∀ a ∈ as, SelectKeys a.selections := fun a ha =>
      selectKeys_iff.2 fun s hs => selectKeys_iff.1 hkeys s (List.mem_flatMap.2 ⟨a, ha, hs⟩)
    have hfields := h.fields hr (Nat.le_of_succ_le_succ hsize)
    have hcalls : calls (as.flatMap Area.selections) = (fieldsIn as).map Prod.fst := by
      rw [calls_eq, callsBelow_flatMap hareas, List.map_map]
      rfl
    refine .intro (fun f hf g hg he => ?_) fun f hf => ?_
    · rw [hcalls] at hf hg
      obtain ⟨x, hx, rfl⟩ := List.mem_map.1 hf
      obtain ⟨y, hy, rfl⟩ := List.mem_map.1 hg
      have hsymm : Std.Symm fun x y : PlacedField => x.1.response = y.1.response → x.1.name = y.1.name :=
        ⟨fun _ _ hxy he => (hxy he.symm).symm⟩
      exact List.Pairwise.forall_of_forall (fun _ _ _ => rfl)
        (hfields.imp fun hxy he => (hxy he).1) hx hy he
    · set bs := ((fieldsIn as).filter fun x => x.1.response = f.response).map Prod.snd with hbs
      have hbelow : belowAll f.response (as.flatMap Area.selections) = bs.flatMap Area.selections := by
        rw [belowAll_eq, callsBelow_flatMap hareas, List.filter_map, List.flatMap_map, hbs, List.flatMap_map]
        rfl
      have hlt := countSelections_belowAll_lt hf
      have hbelowKeys := hkeys.belowAll f.response
      rw [hbelow] at hlt hbelowKeys ⊢
      refine ih ⟨fun b hb => ?_, ?_⟩ (Nat.le_of_succ_le hsize) hbelowKeys (by omega)
      · obtain ⟨x, hx, rfl⟩ := List.mem_map.1 hb
        obtain ⟨a, ha, hx⟩ := List.mem_flatMap.1 (List.mem_filter.1 hx).1
        rcases h.mem a ha with hnil | harea
        · rw [hnil] at hx
          cases hx
        · exact (area_of_placedField (hareas a ha) hx).imp_right (mem_areas_trans harea)
      · rw [hbs, List.pairwise_map, List.pairwise_filter]
        refine hfields.imp fun {x y} hxy hx hy => (hxy ?_).2
        simp only [decide_eq_true_eq] at hx hy
        rw [hx, hy]

/-- No area of a request asks for two fields under one name, and none spreads a fragment. -/
def HasDistinctResponses (r : Request) : Prop :=
  ∀ a ∈ r.areas, ((placedFieldsOf a.place 0 a.selections).map fun x => x.1.response).Nodup ∧
    ownSpreadsOf a.selections = []

instance (r : Request) : Decidable r.HasDistinctResponses :=
  inferInstanceAs (Decidable (∀ a ∈ r.areas, _ ∧ _))

end Request

theorem mapM_of_forall {α β : Type} {f : α → Comparing β} {as : List α} {b : β} {p : Progress}
    (h : ∀ a ∈ as, f a p = some (b, p)) : as.mapM f p = some (as.map fun _ => b, p) := by
  induction as with
  | nil => rfl
  | cons a as ih =>
    obtain ⟨ha, has⟩ := List.forall_mem_cons.1 h
    rw [List.mapM_cons]
    change (f a p).bind _ = _
    rw [ha]
    change (as.mapM f p).bind _ = _
    rw [ih has]
    rfl

theorem forM_of_forall {α : Type} {f : α → Comparing Unit} {as : List α} {p : Progress}
    (h : ∀ a ∈ as, f a p = some ((), p)) : as.forM f p = some ((), p) := by
  induction as with
  | nil => rfl
  | cons a as ih =>
    obtain ⟨ha, has⟩ := List.forall_mem_cons.1 h
    change (f a p).bind _ = _
    rw [ha]
    exact ih has

theorem spend_zero (p : Progress) : spend 0 p = some ((), p) := by simp [spend]

/-- A group of an area without shared response names is one field. -/
theorem Area.length_le_one_of_mem_values {a : Area}
    (h : ((placedFieldsOf a.place 0 a.selections).map fun x => x.1.response).Nodup)
    {fields : List PlacedField} (hf : fields ∈ a.groups.values) : fields.length ≤ 1 := by
  rw [values_eq_map] at hf
  obtain ⟨⟨k, fields⟩, hk, rfl⟩ := List.mem_map.1 hf
  have hget := Std.HashMap.mem_toList_iff_getElem?_eq_some.1 hk
  rw [a.getElem?_groups] at hget
  split at hget
  · cases hget
  · cases hget
    rw [List.length_reverse]
    -- all fields of a group have one response name
    have hsub := (List.filter_sublist
      (p := fun f : PlacedField => decide (f.1.response = k))
      (l := placedFieldsOf a.place 0 a.selections)).map fun x : PlacedField => x.1.response
    have hnodup := h.sublist hsub
    have hsame : ((placedFieldsOf a.place 0 a.selections).filter fun f => f.1.response = k).map
        (fun x => x.1.response) = List.replicate _ k :=
      List.map_eq_replicate_iff.2 fun x hx => by simpa using (List.mem_filter.1 hx).2
    rw [hsame] at hnodup
    exact List.nodup_replicate.1 hnodup

theorem Area.compareWithin_of_distinct {a : Area}
    (h : ((placedFieldsOf a.place 0 a.selections).map fun x => x.1.response).Nodup) (p : Progress) :
    a.compareWithin p = some ([], p) := by
  have hrows : ∀ fields ∈ a.groups.values, (do
      spend (fields.length * (fields.length - 1) / 2)
      compareEach (pairs fields) : Comparing (List Comparison)) p = some ([], p) := by
    intro fields hf
    have hnone : fields.length * (fields.length - 1) / 2 = 0 ∧ pairs fields = [] := by
      match fields, length_le_one_of_mem_values h hf with
      | [], _ | [x], _ => simp [pairs]
    change Option.bind (spend _ p) _ = _
    rw [hnone.1, hnone.2, spend_zero]
    rfl
  have hmap := mapM_of_forall hrows
  unfold Area.compareWithin
  rw [map_eq_pure_bind]
  change Option.bind _ _ = _
  rw [hmap]
  simp only [Option.bind_some, List.map_const', List.flatten_replicate_nil]
  rfl

/-- **Where no two fields share a response name, all fields agree.** -/
theorem Request.fieldsAgree_of_distinct {r : Request} (h : r.HasDistinctResponses) :
    r.fieldsAgree = true := by
  have hall : ∀ a ∈ r.areas, Comparison.run r.fragmentAreas (2 * r.size + 2) (.within a)
      ⟨mostComparisons, {}, {}⟩ = some ((), ⟨mostComparisons, {}, {}⟩) := by
    intro a ha
    obtain ⟨hn, hs⟩ := h a ha
    have hfragments : a.fragments = [] := by
      rw [Area.fragments, hs]
      rfl
    have hstep : Comparison.step r.fragmentAreas (.within a) ⟨mostComparisons, {}, {}⟩
        = some ([], ⟨mostComparisons, {}, {}⟩) := by
      unfold Comparison.step
      change (a.compareWithin _).bind _ = _
      rw [Area.compareWithin_of_distinct hn, hfragments]
      rfl
    change (Comparison.step _ _ _).bind _ = _
    rw [hstep]
    rfl
  rw [Request.fieldsAgree]
  exact Option.isSome_iff_exists.2 ⟨_, forM_of_forall hall⟩

end ContentGraph.GraphQL
