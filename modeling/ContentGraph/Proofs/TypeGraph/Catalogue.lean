import ContentGraph.Proofs.TypeGraph.Merge

/-!
# Catalogues of a compilation

A catalogue only grows: a compilation never changes the types that it found (`Extends`). Each type
has the name and the addresses of a set (`Named`). A type is complete (`Complete`) when it is the
type of a set and all types it leads to are there; a type that was begun and given up is doomed
(`Doomed`), since its set leads to one that cannot be merged. Only sets whose types are not in the
catalogue are looked at (`Exposed`).
-/

namespace ContentGraph

open Compilation (definitions blank withField)

section

variable (source : Source) (R : Table Schema → Prop)

/-- The second catalogue has all types of the first, unchanged. -/
def Catalogue.Extends (types types' : Catalogue) : Prop :=
  ∀ i t, types.get? i = some t → types'.get? i = some t

/-- The types have the names and addresses of sets. -/
def Named (hashLength : Int) (types : Catalogue) : Prop :=
  ∀ i t, types.get? i = some t → ∃ set, R set ∧ i = identityOf set ∧
    t.name = (blank hashLength set).name ∧ t.addresses = (blank hashLength set).addresses

/-- The type with an identity is compiled. -/
def Complete (types : Catalogue) (i : String) : Prop :=
  ∃ set t, R set ∧ i = identityOf set ∧ types.get? i = some t ∧ Describes source types set t

/-- A set leads to another in some number of steps. -/
def LeadsTo : Table Schema → Table Schema → Prop := Relation.ReflTransGen (Leads source)

/-- An identity is that of a set that leads to one that cannot be merged. -/
def Doomed (i : String) : Prop :=
  ∃ set bad, R set ∧ i = identityOf set ∧ LeadsTo source set bad ∧ ¬ Mergeable source bad

/-- The sets that a set leads to through sets whose types are not in the catalogue. -/
inductive Exposed (types : Catalogue) (set : Table Schema) : Table Schema → Prop
  /-- The set itself. -/
  | self : identityOf set ∉ types.keys → Exposed types set set
  /-- What an exposed set leads to. -/
  | step {set' set'' : Table Schema} : Exposed types set set' → Leads source set' set'' →
      identityOf set'' ∉ types.keys → Exposed types set set''

end

variable {source : Source} {R : Table Schema → Prop} {types types' types'' : Catalogue}
  {set set' bad : Table Schema} {hashLength : Int}

namespace Catalogue.Extends

theorem refl (types : Catalogue) : types.Extends types := fun _ _ h => h

theorem trans (h : Catalogue.Extends types types') (h' : Catalogue.Extends types' types'') :
    Catalogue.Extends types types'' := fun i t ht => h' i t (h i t ht)

theorem keys (h : Catalogue.Extends types types') {i : String} (hi : i ∈ types.keys) : i ∈ types'.keys := by
  obtain ⟨t, ht⟩ := Table.mem_keys_iff.1 hi
  exact Table.mem_keys_iff.2 ⟨t, h i t ht⟩

theorem of_insert {i : String} {t : NodeType} (hi : i ∉ types.keys) :
    Catalogue.Extends types (types.insert i t) := by
  intro j u hj
  have hne : j ≠ i := by
    rintro rfl
    exact hi (Table.mem_keys_iff.2 ⟨u, hj⟩)
  rw [Table.get?_insert_of_ne hne]
  exact hj

end Catalogue.Extends

/-! ### Fits and descriptions in larger catalogues -/

theorem Field.Fits.mono {f : Field} {d : Definition} (hk : ∀ i ∈ types.keys, i ∈ types'.keys)
    (h : f.Fits source types d) : f.Fits source types' d := by
  refine ⟨h.kind_eq, h.multiple_eq, fun multiple schemas hd => ?_⟩
  obtain ⟨hne, set, hs, ht, hi⟩ := h.target hd
  exact ⟨hne, set, hs, ht, hk _ hi⟩

theorem Describes.mono {t : NodeType} (hk : ∀ i ∈ types.keys, i ∈ types'.keys)
    (h : Describes source types set t) : Describes source types' set t := by
  refine ⟨h.nonempty, h.keys, fun address key d hd => ?_, h.merged⟩
  obtain ⟨f, hf, hfit⟩ := h.fields hd
  exact ⟨f, hf, hfit.mono hk⟩

theorem Complete.mono (he : types.Extends types') {i : String} (h : Complete source R types i) :
    Complete source R types' i := by
  obtain ⟨set, t, hs, hi, ht, hd⟩ := h
  exact ⟨set, t, hs, hi, he i t ht, hd.mono fun _ => he.keys⟩

/-- The type of a set, where it is complete. -/
theorem Complete.describes (hR : Family source R) (hs : R set) (hc : Complete source R types (identityOf set)) :
    ∃ t, types.get? (identityOf set) = some t ∧ Describes source types set t := by
  obtain ⟨set', t, hs', hi, ht, hd⟩ := hc
  exact ⟨t, ht, hR.describes_congr hs' hs (hR.separated hs' hs hi.symm) hd⟩

theorem Complete.mergeable (hR : Family source R) (hs : R set)
    (hc : Complete source R types (identityOf set)) : Mergeable source set := by
  obtain ⟨t, -, hd⟩ := hc.describes hR hs
  exact hR.mergeable_of_describes hs hd

/-- What the set of a complete type leads to has its type in the catalogue. -/
theorem Complete.mem_of_leads (hR : Family source R) (hs : R set)
    (hc : Complete source R types (identityOf set)) (hl : Leads source set set') :
    identityOf set' ∈ types.keys := by
  obtain ⟨t, -, hd⟩ := hc.describes hR hs
  obtain ⟨address, key, multiple, schemas, hm, hr⟩ := hl
  obtain ⟨f, -, hfit⟩ := hd.fields hm
  obtain ⟨-, next, hr', -, hi⟩ := hfit.target rfl
  cases hr.symm.trans hr'
  exact hi

/-! ### A field added -/

section

variable {i key : String} {t : NodeType} {f : Field}

theorem get?_withField_self (h : types.get? i = some t) :
    Table.get? (withField i key f types) i = some { t with fields := t.fields.insert key f } := by
  rw [withField, h]
  exact Table.get?_insert_self _ _ _

theorem get?_withField_of_ne {j : String} (hj : j ≠ i) :
    Table.get? (withField i key f types) j = types.get? j := by
  unfold withField
  split
  · exact Table.get?_insert_of_ne hj _ _
  · rfl

theorem keys_withField (i key : String) (f : Field) (types : Catalogue) :
    Table.keys (withField i key f types) = types.keys := by
  unfold withField
  split
  · next t ht =>
    rw [Table.keys_insert, if_pos (Table.mem_keys_iff.2 ⟨t, ht⟩)]
  · rfl

end

/-! ### Named types -/

namespace Named

theorem empty : Named R hashLength .empty := by
  intro i t h
  cases h

theorem insert_blank (h : Named R hashLength types) (hs : R set) :
    Named R hashLength (types.insert (identityOf set) (blank hashLength set)) := by
  intro i t hi
  by_cases he : i = identityOf set
  · subst he
    rw [Table.get?_insert_self] at hi
    cases hi
    exact ⟨set, hs, rfl, rfl, rfl⟩
  · rw [Table.get?_insert_of_ne he] at hi
    exact h i t hi

theorem withField (h : Named R hashLength types) {i key : String} {f : Field} :
    Named R hashLength (withField i key f types) := by
  intro j t hj
  by_cases he : j = i
  · subst he
    cases ht : types.get? j with
    | none =>
      rw [Compilation.withField, ht] at hj
      exact h j t hj
    | some u =>
      rw [get?_withField_self ht] at hj
      cases hj
      exact h j u ht
  · rw [get?_withField_of_ne he] at hj
    exact h j t hj

/-- The type of a set has its name and addresses. -/
theorem blank_eq (hR : Family source R) (h : Named R hashLength types) (hs : R set) {t : NodeType}
    (ht : types.get? (identityOf set) = some t) :
    t.name = (blank hashLength set).name ∧ t.addresses = (blank hashLength set).addresses := by
  obtain ⟨set', hs', hi, hn, ha⟩ := h _ t ht
  rw [hR.blank_eq hs hs' (hR.separated hs hs' hi) hashLength]
  exact ⟨hn, ha⟩

end Named

/-! ### Sets that are looked at -/

namespace Exposed

theorem leadsTo (h : Exposed source types set set') : LeadsTo source set set' := by
  induction h with
  | self _ => exact .refl
  | step _ hl _ ih => exact ih.tail hl

theorem mono (hk : ∀ i ∈ types.keys, i ∈ types'.keys) (h : Exposed source types' set set') :
    Exposed source types set set' := by
  induction h with
  | self hi => exact .self fun h => hi (hk _ h)
  | step _ hl hi ih => exact .step ih hl fun h => hi (hk _ h)

/-- What is exposed below a set is exposed below one that leads to it. -/
theorem of_leads {next : Table Schema} (hi : identityOf set ∉ types.keys) (hl : Leads source set next)
    (h : Exposed source types next set') : Exposed source types set set' := by
  induction h with
  | self hn => exact .step (.self hi) hl hn
  | step _ hl' hi' ih => exact .step ih hl' hi'

end Exposed

/-! ### Room for nested types -/

/-- The identities of the types that node definitions of a source lead to. -/
def Source.nodeIdentities (source : Source) : List String :=
  source.declarations.filterMap fun schemas => (source.resolve schemas).toOption.map identityOf

/-- How many node definitions lead to types that are not among some. -/
def room (source : Source) (known : List String) : ℕ :=
  (source.nodeIdentities.filter fun i => i ∉ known).length

theorem room_le_nodeDefinitions (source : Source) (known : List String) :
    room source known ≤ source.nodeDefinitions :=
  Nat.le_trans (List.length_filter_le _ _)
    (Nat.le_trans (List.length_filterMap_le _ _) (List.length_filterMap_le _ _))

theorem room_anti {known known' : List String} (h : ∀ i ∈ known, i ∈ known') :
    room source known' ≤ room source known := by
  refine (List.monotone_filter_right _ fun i hi => ?_).length_le
  simp only [decide_eq_true_eq] at hi ⊢
  exact fun hk => hi (h i hk)

theorem room_cons_lt {known : List String} {i : String} (hm : i ∈ source.nodeIdentities)
    (hi : i ∉ known) : room source (i :: known) < room source known := by
  unfold room
  generalize source.nodeIdentities = identities at hm ⊢
  induction identities with
  | nil => cases hm
  | cons j rest ih =>
    have hle : (rest.filter fun x => x ∉ i :: known).length ≤ (rest.filter fun x => x ∉ known).length := by
      refine (List.monotone_filter_right _ fun x hx => ?_).length_le
      simp only [decide_eq_true_eq] at hx ⊢
      exact fun hk => hx (List.mem_cons_of_mem _ hk)
    by_cases hj : j = i
    · subst hj
      rw [List.filter_cons_of_neg (by simp), List.filter_cons_of_pos (by simpa using hi), List.length_cons]
      exact Nat.lt_succ_of_le hle
    · have hrest : i ∈ rest := (List.mem_cons.1 hm).resolve_left fun h => hj h.symm
      have hlt := ih hrest
      by_cases hk : j ∈ known
      · rw [List.filter_cons_of_neg (by simp [hk]), List.filter_cons_of_neg (by simp [hk])]
        exact hlt
      · rw [List.filter_cons_of_pos (by simp [hk, hj]), List.filter_cons_of_pos (by simp [hk]),
          List.length_cons, List.length_cons]
        exact Nat.succ_lt_succ hlt

/-- What a resolved set leads to is counted. -/
theorem Leads.mem_nodeIdentities {addresses : List String} (hl : Leads source set set')
    (hr : source.resolve addresses = .ok set) : identityOf set' ∈ source.nodeIdentities := by
  obtain ⟨schemas, hm, hs⟩ := hl.declared hr
  refine List.mem_filterMap.2 ⟨schemas, hm, ?_⟩
  rw [hs]
  rfl

end ContentGraph
