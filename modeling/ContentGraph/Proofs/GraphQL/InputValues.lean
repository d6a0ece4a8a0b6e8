import ContentGraph.GraphQL.Input
import ContentGraph.Proofs.Lists
import ContentGraph.Proofs.Table

/-!
# Values that are given for inputs

What a given value stands for at a type that a name stands for: at a scalar type the value itself, or
the number that an integer is; at an input type an object with the members that are given, each taken
at the type of its field, in the order of the fields (`coerce?_input_iff`). Null stands for itself at
each of them. Where no field of an input needs a value or has a default, no member is added and none
is left out (`find_inputMembers`).
-/

namespace ContentGraph.GraphQL

/-- A field of an input may be null or absent, and nothing stands for an absent one. -/
def InputField.IsOptional (f : InputField) : Prop := f.default = none ∧ f.type.isNonNull = false

section

variable {s : Surface} {n : String} {v w : Json} {t : TypeRef} {ms ws : List (String × Json)}
  {defined : List (String × InputField)}

/-! ### Lists -/

theorem coerceItems?_eq_some_iff {vs ws : List Json} :
    coerceItems? s vs t = some ws ↔ List.Forall₂ (fun v w => coerce? s v t = some w) vs ws := by
  induction vs generalizing ws with
  | nil => simp [coerceItems?, eq_comm]
  | cons v vs ih =>
    rw [List.forall₂_cons_left_iff, coerceItems?]
    constructor
    · intro h
      obtain ⟨w, hw, h⟩ := Option.bind_eq_some_iff.1 h
      obtain ⟨ws, hws, h⟩ := Option.bind_eq_some_iff.1 h
      cases h
      exact ⟨w, ws, hw, ih.1 hws, rfl⟩
    · rintro ⟨w, ws, hw, hws, rfl⟩
      rw [hw, ih.2 hws]
      rfl

/-- A list at a type of lists stands for the list of what its items stand for. -/
theorem coerce?_list_iff {vs : List Json} : coerce? s (.list vs) (.list t) = some w ↔
    ∃ ws, w = .list ws ∧ List.Forall₂ (fun v w => coerce? s v t = some w) vs ws := by
  simp only [coerce?, TypeRef.item?, TypeRef.nullable, Option.bind_some, Option.map_eq_some_iff,
    coerceItems?_eq_some_iff]
  exact ⟨fun ⟨ws, h, he⟩ => ⟨ws, he.symm, h⟩, fun ⟨ws, he, h⟩ => ⟨ws, h, he.symm⟩⟩

/-! ### Scalars -/

/-- A value at a scalar type is null, or one that the type takes. -/
theorem coerce?_scalar_iff {k : Scalar} (h : s.type? n = some (.scalar k)) (hk : k ≠ .json) :
    coerce? s v (.named n) = some w ↔ v = .null ∧ w = .null ∨ k.ofJson? v = some w := by
  have hscalar : s.scalar? n = some k := by rw [Surface.scalar?, h]
  have hinput : s.input? n = none := by rw [Surface.input?, h]
  have hwrap : (TypeRef.named n).wrap = id := rfl
  have hnone : k.ofJson? .null = none := by cases k <;> first | rfl | exact absurd rfl hk
  cases v with
  | null => simp [coerce?, TypeRef.null?, TypeRef.isNonNull, hnone, eq_comm (a := w)]
  | list items =>
    have hno : k.ofJson? (.list items) = none := by cases k <;> first | rfl | exact absurd rfl hk
    simp [coerce?, TypeRef.item?, TypeRef.nullable, hno]
  | object ms =>
    have hno : k.ofJson? (.object ms) = none := by cases k <;> first | rfl | exact absurd rfl hk
    simp [coerce?, TypeRef.name, hinput, hno]
  | _ => simp [coerce?, TypeRef.name, hscalar, hwrap]

/-- A value at the type of texts is null or a text. -/
theorem coerce?_text_iff (h : s.type? n = some (.scalar .text)) :
    coerce? s v (.named n) = some w ↔ v = .null ∧ w = .null ∨ ∃ text, v = .text text ∧ w = .text text := by
  rw [coerce?_scalar_iff h (by decide)]
  refine or_congr_right ?_
  cases v with
  | text text => simp [Scalar.ofJson?, eq_comm (a := w)]
  | _ => simp [Scalar.ofJson?]

/-- A value at the type of numbers is null, a finite number, or an integer that is a number. -/
theorem coerce?_number_iff (h : s.type? n = some (.scalar .number)) :
    coerce? s v (.named n) = some w ↔ v = .null ∧ w = .null ∨ ∃ x, w = .number x ∧
      (v = .number x ∧ x.isFinite = true ∨
        ∃ i, v = .integer i ∧ Binary.ofInt? i = some x ∧ x.toInt? = some i) := by
  rw [coerce?_scalar_iff h (by decide)]
  refine or_congr_right ?_
  cases v with
  | number x =>
    cases hx : x.isFinite <;> simp [Scalar.ofJson?, hx, eq_comm (a := w)]
  | integer i => simp [Scalar.ofJson?, Option.filter_eq_some_iff, and_comm, eq_comm (a := w)]
  | _ => simp [Scalar.ofJson?]

/-! ### Objects -/

theorem find_coercions (s : Surface) (key : String) (ms : List (String × Json)) :
    Table.find key (coercions s ms) = (Table.find key ms).map fun v => some (coerce? s v) := by
  induction ms with
  | nil => rfl
  | cons m rest ih =>
    obtain ⟨k, v⟩ := m
    by_cases h : k = key <;> simp [coercions, Table.find, h, ih]

/-- What stands under a key of an input where some members are given: what the given member stands
for, and nothing where none is given. -/
def CoercesAt (s : Surface) (ms ws : List (String × Json)) (key : String) (t : TypeRef) : Prop :=
  (∃ v w, Table.find key ms = some v ∧ coerce? s v t = some w ∧ Table.find key ws = some w) ∨
    Table.find key ms = none ∧ Table.find key ws = none

theorem inputMembers_of_given {name : String} {f : InputField} (hv : Table.find name ms = some v) :
    inputMembers (coercions s ms) ((name, f) :: defined) = some ws ↔
      ∃ w rest, coerce? s v f.type = some w ∧ inputMembers (coercions s ms) defined = some rest ∧
        ws = (name, w) :: rest := by
  simp only [inputMembers, find_coercions, hv, Option.map_some, Option.join_some]
  constructor
  · intro h
    obtain ⟨w, hw, h⟩ := Option.bind_eq_some_iff.1 h
    obtain ⟨rest, hrest, h⟩ := Option.bind_eq_some_iff.1 h
    cases h
    exact ⟨w, rest, hw, hrest, rfl⟩
  · rintro ⟨w, rest, hw, hrest, rfl⟩
    rw [hw, hrest]
    rfl

theorem inputMembers_of_absent {name : String} {f : InputField} (hv : Table.find name ms = none)
    (hf : f.IsOptional) : inputMembers (coercions s ms) ((name, f) :: defined)
      = inputMembers (coercions s ms) defined := by
  simp [inputMembers, find_coercions, hv, hf.1, hf.2]

/-- Every member is one of a field, in the order of the fields. -/
theorem keys_inputMembers (hopt : ∀ d ∈ defined, d.2.IsOptional)
    (h : inputMembers (coercions s ms) defined = some ws) :
    (ws.map Prod.fst).Sublist (defined.map Prod.fst) := by
  induction defined generalizing ws with
  | nil =>
    cases h
    exact .slnil
  | cons d rest ih =>
    obtain ⟨name, f⟩ := d
    obtain ⟨hf, hopt⟩ := List.forall_mem_cons.1 hopt
    cases hv : Table.find name ms with
    | some v =>
      obtain ⟨w, ws', -, hrest, rfl⟩ := (inputMembers_of_given hv).1 h
      exact (ih hopt hrest).cons_cons name
    | none =>
      rw [inputMembers_of_absent hv hf] at h
      exact (ih hopt h).cons name

/-- Under the key of a field stands what the given member stands for. -/
theorem find_inputMembers (hopt : ∀ d ∈ defined, d.2.IsOptional) (hn : (defined.map Prod.fst).Nodup)
    (h : inputMembers (coercions s ms) defined = some ws) {key : String} {f : InputField}
    (hf : Table.find key defined = some f) : CoercesAt s ms ws key f.type := by
  induction defined generalizing ws with
  | nil => cases hf
  | cons d rest ih =>
    obtain ⟨name, f'⟩ := d
    obtain ⟨hf', hopt⟩ := List.forall_mem_cons.1 hopt
    obtain ⟨hname, hn⟩ := List.nodup_cons.1 hn
    unfold Table.find at hf
    cases hv : Table.find name ms with
    | some v =>
      obtain ⟨w, ws', hw, hrest, rfl⟩ := (inputMembers_of_given hv).1 h
      by_cases he : name = key
      · rw [if_pos he] at hf
        cases hf
        subst he
        exact .inl ⟨v, w, hv, hw, by rw [Table.find, if_pos rfl]⟩
      · rw [if_neg he] at hf
        have hat := ih hopt hn hrest hf
        rwa [CoercesAt, ← show Table.find key ((name, w) :: ws') = Table.find key ws' by
          rw [Table.find, if_neg he]] at hat
    | none =>
      rw [inputMembers_of_absent hv hf'] at h
      by_cases he : name = key
      · rw [if_pos he] at hf
        subst he
        refine .inr ⟨hv, Table.find_eq_none_iff.2 fun hm => hname ?_⟩
        exact (keys_inputMembers hopt h).mem hm
      · rw [if_neg he] at hf
        exact ih hopt hn h hf

/-- There is an input where every given member stands for something. -/
theorem exists_inputMembers (hopt : ∀ d ∈ defined, d.2.IsOptional) (hn : (defined.map Prod.fst).Nodup)
    (hgiven : ∀ key f v, Table.find key defined = some f → Table.find key ms = some v →
      ∃ w, coerce? s v f.type = some w) :
    ∃ ws, inputMembers (coercions s ms) defined = some ws := by
  have hmem : ∀ d ∈ defined, ∀ v, Table.find d.1 ms = some v → ∃ w, coerce? s v d.2.type = some w :=
    fun d hd v hv => hgiven d.1 d.2 v (Table.find_of_mem hn hd) hv
  clear hgiven hn
  induction defined with
  | nil => exact ⟨[], rfl⟩
  | cons d rest ih =>
    obtain ⟨name, f⟩ := d
    obtain ⟨hf, hopt⟩ := List.forall_mem_cons.1 hopt
    obtain ⟨hhere, hmem⟩ := List.forall_mem_cons.1 hmem
    obtain ⟨ws, hws⟩ := ih hopt hmem
    cases hv : Table.find name ms with
    | some v =>
      obtain ⟨w, hw⟩ := hhere v hv
      exact ⟨(name, w) :: ws, (inputMembers_of_given hv).2 ⟨w, ws, hw, hws, rfl⟩⟩
    | none => exact ⟨ws, (inputMembers_of_absent hv hf).trans hws⟩

/-- An object stands at an input type for an object of its members, where it has no others. -/
theorem coerce?_object_iff (h : s.type? n = some (.input defined)) :
    coerce? s (.object ms) (.named n) = some w ↔ (∀ key ∈ ms.map Prod.fst, key ∈ defined.map Prod.fst) ∧
      ∃ ws, w = .object ws ∧ inputMembers (coercions s ms) defined = some ws := by
  have hinput : s.input? n = some defined := by rw [Surface.input?, h]
  have hall : (∀ key ∈ ms.map Prod.fst, key ∈ defined.map Prod.fst) ↔
      (ms.all fun m => defined.any fun d => d.1 = m.1) = true := by
    simp
  rw [hall, coerce?, TypeRef.name, hinput, Option.bind_some]
  split
  · next hknown => simp [hknown, TypeRef.wrap, eq_comm (a := w), and_comm]
  · next hunknown => simp [hunknown]

/-- A value at an input type is null or an object. -/
theorem coerce?_input_iff (h : s.type? n = some (.input defined)) :
    coerce? s v (.named n) = some w ↔ v = .null ∧ w = .null ∨
      ∃ ms, v = .object ms ∧ coerce? s (.object ms) (.named n) = some w := by
  have hscalar : s.scalar? n = none := by rw [Surface.scalar?, h]
  cases v with
  | null => simp [coerce?, TypeRef.null?, TypeRef.isNonNull, eq_comm (a := w)]
  | object ms => simp
  | list items => simp [coerce?, TypeRef.item?, TypeRef.nullable]
  | _ => simp [coerce?, TypeRef.name, hscalar]

/-! ### Types without null -/

theorem wrap_ne_null (hv : v ≠ .null) : t.wrap v ≠ .null := by
  induction t generalizing v with
  | named name => exact hv
  | list item ih => exact Json.noConfusion
  | nonNull type ih => exact ih hv

theorem ofJson?_ne_null {k : Scalar} (h : k.ofJson? v = some w) (hv : v ≠ .null) : w ≠ .null := by
  rintro rfl
  cases k <;> cases v <;> simp_all [Scalar.ofJson?]

/-- At a type without null, nothing stands for null. -/
theorem coerce?_nonNull_ne_null (h : coerce? s v (.nonNull t) = some w) : w ≠ .null := by
  cases v with
  | null => cases h
  | list vs =>
    rw [coerce?] at h
    obtain ⟨item, -, h⟩ := Option.bind_eq_some_iff.1 h
    obtain ⟨ws, -, rfl⟩ := Option.map_eq_some_iff.1 h
    exact Json.noConfusion
  | object ms =>
    rw [coerce?] at h
    obtain ⟨defined, -, h⟩ := Option.bind_eq_some_iff.1 h
    split at h
    · obtain ⟨ws, -, rfl⟩ := Option.map_eq_some_iff.1 h
      exact wrap_ne_null Json.noConfusion
    · cases h
  | _ =>
    obtain ⟨k, -, h⟩ := Option.bind_eq_some_iff.1 h
    obtain ⟨u, hu, rfl⟩ := Option.map_eq_some_iff.1 h
    exact wrap_ne_null (ofJson?_ne_null hu Json.noConfusion)

end

end ContentGraph.GraphQL
