import ContentGraph.Proofs.GraphQL.InputValues
import ContentGraph.Proofs.GraphQL.Serving
import ContentGraph.Proofs.Payload.Conformance
import ContentGraph.Proofs.TypeGraph.Closed

/-!
# Payloads that are given

A payload comes to a validator as it is, or as what it stands for at the input type of a document
type. There every key may be null or absent, members are put in order, and an integer becomes a
number. What it stands for is accepted exactly where the payload is, with the same normal form
(`validatePayload_coerced`), unless a value that is no list stands for a list of one. So lists have to
be given under the keys that may repeat (`Payload.givesLists`).

A payload that is accepted stands for something (`exists_coerced_payload`), unless it has a number
that is not finite, or an integer that the nearest number is not (`Json.hasExactIntegers`).
-/

namespace ContentGraph

/-! ### Values in values -/

namespace Json

mutual

/-- Whether all values in a value, itself with them, pass a check. -/
def all (check : Json → Bool) : Json → Bool
  | .list items => check (.list items) && allItems check items
  | .object ms => check (.object ms) && allMembers check ms
  | v => check v

/-- Whether all values in the items of a list pass a check. -/
def allItems (check : Json → Bool) : List Json → Bool
  | [] => true
  | v :: rest => v.all check && allItems check rest

/-- Whether all values in the members of an object pass a check. -/
def allMembers (check : Json → Bool) : List (String × Json) → Bool
  | [] => true
  | (_, v) :: rest => v.all check && allMembers check rest

end

section

variable {check : Json → Bool} {v : Json} {items : List Json} {ms : List (String × Json)}

theorem all_self (h : v.all check = true) : check v = true := by
  cases v with
  | list items => exact (Bool.and_eq_true_iff.1 h).1
  | object ms => exact (Bool.and_eq_true_iff.1 h).1
  | _ => exact h

theorem all_items (h : (list items).all check = true) : ∀ v ∈ items, v.all check = true := by
  replace h := (Bool.and_eq_true_iff.1 h).2
  induction items with
  | nil => exact fun _ hv => absurd hv List.not_mem_nil
  | cons v rest ih =>
    obtain ⟨hv, hrest⟩ := Bool.and_eq_true_iff.1 h
    exact List.forall_mem_cons.2 ⟨hv, ih hrest⟩

theorem all_members (h : (object ms).all check = true) : ∀ m ∈ ms, m.2.all check = true := by
  replace h := (Bool.and_eq_true_iff.1 h).2
  induction ms with
  | nil => exact fun _ hv => absurd hv List.not_mem_nil
  | cons m rest ih =>
    obtain ⟨hv, hrest⟩ := Bool.and_eq_true_iff.1 h
    exact List.forall_mem_cons.2 ⟨hv, ih hrest⟩

end

/-- Whether all 64-bit numbers in a value are finite. -/
def hasFiniteNumbers (v : Json) : Bool :=
  v.all fun u => match u with | .number x => x.isFinite | _ => true

/-- Whether all integers in a value are numbers, where a number is nearest to them. -/
def hasExactIntegers (v : Json) : Bool :=
  v.all fun u => match u with | .integer n => (Binary.ofInt? n).all (·.toInt? = some n) | _ => true

/-- An integer is exact where no number fits it, or some number is that integer. -/
theorem hasExactIntegers_integer_iff {n : ℤ} :
    (integer n).hasExactIntegers = true ↔ (Binary.Fits n → ∃ x : Binary, x.toInt? = some n) := by
  have hread : (integer n).hasExactIntegers = (Binary.ofInt? n).all (·.toInt? = some n) := rfl
  rw [hread]
  constructor
  · intro h hn
    obtain ⟨x, hx⟩ := Binary.exists_ofInt?_iff.2 hn
    rw [hx] at h
    exact ⟨x, of_decide_eq_true h⟩
  · intro h
    cases hx : Binary.ofInt? n with
    | none => rfl
    | some x =>
      obtain ⟨y, hy⟩ := h (Binary.exists_ofInt?_iff.1 ⟨x, hx⟩)
      exact decide_eq_true (Binary.toInt?_of_ofInt? hx hy)

theorem toInt?_of_hasExactIntegers {n : ℤ} {x : Binary} (h : (integer n).hasExactIntegers = true)
    (hx : Binary.ofInt? n = some x) : x.toInt? = some n := by
  have hall : (Binary.ofInt? n).all (·.toInt? = some n) = true := all_self h
  rw [hx] at hall
  exact of_decide_eq_true hall

end Json

namespace Payload

mutual

/-- Whether what stands under a field is a list or null where the field may repeat, and so in the
payloads in it. -/
def givesLists (types : Catalogue) (f : Field) : Json → Bool
  | .null => true
  | .list items => !f.multiple || itemsGiveLists types f.shape items
  | .object ms =>
    !f.multiple && (((f.target?.bind (Table.get? types)).map fun t => membersGiveLists types t ms).getD true)
  | _ => !f.multiple

/-- Whether the payloads among the items of a list give lists. -/
def itemsGiveLists (types : Catalogue) (shape : Shape) : List Json → Bool
  | [] => true
  | v :: rest => givesLists types ⟨shape, false⟩ v && itemsGiveLists types shape rest

/-- Whether lists or null stand under the keys of a type that may repeat, and so in the payloads in
it. -/
def membersGiveLists (types : Catalogue) (t : NodeType) : List (String × Json) → Bool
  | [] => true
  | (key, v) :: rest =>
    ((t.fields.get? key).map fun f => givesLists types f v).getD true && membersGiveLists types t rest

end

section

variable {types : Catalogue} {t : NodeType} {shape : Shape} {items : List Json}
  {ms : List (String × Json)}

theorem itemsGiveLists_mem (h : itemsGiveLists types shape items = true) :
    ∀ v ∈ items, givesLists types ⟨shape, false⟩ v = true := by
  induction items with
  | nil => exact fun _ hv => absurd hv List.not_mem_nil
  | cons v rest ih =>
    obtain ⟨hv, hrest⟩ := Bool.and_eq_true_iff.1 h
    exact List.forall_mem_cons.2 ⟨hv, ih hrest⟩

theorem membersGiveLists_find (h : membersGiveLists types t ms = true) {key : String} {f : Field} {v : Json}
    (hf : t.fields.get? key = some f) (hv : Table.find key ms = some v) : givesLists types f v = true := by
  induction ms with
  | nil => cases hv
  | cons m rest ih =>
    obtain ⟨k, u⟩ := m
    obtain ⟨hu, hrest⟩ := Bool.and_eq_true_iff.1 h
    unfold Table.find at hv
    by_cases he : k = key
    · rw [if_pos he] at hv
      cases hv
      rw [he, hf] at hu
      exact hu
    · rw [if_neg he] at hv
      exact ih hrest hv

end

end Payload

/-- Whether a payload of the root has lists or null under all keys that may repeat. -/
def TypeGraph.givesLists (g : TypeGraph) : Json → Bool
  | .object ms => Payload.membersGiveLists g.types g.rootType ms
  | _ => true

namespace GraphQL

open Payload (read readRoot readScalar givesLists membersGiveLists itemsGiveLists)

/-! ### Types of what is given -/

/-- The name of the type of one value under a field. -/
def givenName (types : Catalogue) (shape : Shape) : String :=
  (fieldType types "FileInput" inputName ⟨shape, false⟩).name

section

variable {types : Catalogue} {shape : Shape}

/-- The field of the input type for a field of a document type. -/
def inputField (types : Catalogue) (f : Field) : InputField := ⟨fieldType types "FileInput" inputName f, none⟩

/-- The fields of the input type of a document type. -/
def inputFields (types : Catalogue) (t : NodeType) : List (String × InputField) :=
  t.fields.entries.map fun e => (e.1, inputField types e.2)

theorem isOptional_inputFields {t : NodeType} : ∀ d ∈ inputFields types t, d.2.IsOptional := by
  intro d hd
  obtain ⟨⟨key, shape, multiple⟩, -, rfl⟩ := List.mem_map.1 hd
  cases multiple <;> exact ⟨rfl, rfl⟩

theorem keys_inputFields (types : Catalogue) (t : NodeType) :
    (inputFields types t).map Prod.fst = t.fields.keys := by
  rw [inputFields, List.map_map]
  rfl

theorem nodup_inputFields (types : Catalogue) (t : NodeType) :
    ((inputFields types t).map Prod.fst).Nodup := by
  rw [keys_inputFields]
  exact t.fields.nodup

theorem find_inputFields {t : NodeType} {key : String} {f : Field} (hf : t.fields.get? key = some f) :
    Table.find key (inputFields types t) = some (inputField types f) := by
  rw [inputFields, Table.find_map (inputField types), ← Table.get?, hf, Option.map_some]

end

/-- A shape is that of a field of a document type that can be given. -/
def IsGiven (g : TypeGraph) (shape : Shape) : Prop :=
  ∃ n t key f, (named g inputName rootInputName).get? n = some t ∧ t.fields.get? key = some f ∧ f.shape = shape

section

variable {g : TypeGraph} {n : String} {t : NodeType} {shape : Shape} (ht : g.types.Titled)

theorem IsGiven.hasKind {kind : ValueKind} (h : IsGiven g (.value kind)) :
    hasKind kind (named g inputName rootInputName) = true := by
  obtain ⟨n, t, key, ⟨_, multiple⟩, hn, hf, rfl⟩ := h
  exact hasKind_of_field hn hf rfl

include ht

theorem type?_number (h : IsGiven g (.value .number)) :
    (Surface.ofGraph g).type? "Float" = some (.scalar .number) := by
  rw [type?_fixed ht (by decide) (by decide)]
  simp only [fixedTypes, List.reverse_append, Table.find_append, h.hasKind, Bool.or_true,
    find_optionalType_self, find_optionalType_of_ne (show "FileInput" ≠ "Float" by decide),
    find_optionalType_of_ne (show "File" ≠ "Float" by decide), Option.none_or, Option.some_or]

theorem type?_fileInput (h : IsGiven g (.value .file)) :
    (Surface.ofGraph g).type? "FileInput" = some fileInput := by
  rw [type?_fixed ht (by decide) (by decide)]
  simp only [fixedTypes, List.reverse_append, Table.find_append, h.hasKind, find_optionalType_self,
    Option.some_or]

/-- What is given under a node field is given at the input type of the type that it leads to, and is
read by the model of that type. -/
theorem IsGiven.exists_input {schemas : List String} {target : String} (hd : g.DistinctNames)
    (hc : g.types.Closed) (h : IsGiven g (.node schemas target)) : ∃ u,
      (named g inputName rootInputName).get? (givenName g.types (.node schemas target)) = some u ∧
      g.types.get? target = some u ∧ Models.target? g.reachable target = some u := by
  obtain ⟨n, t, key, f, hn, hf, hshape⟩ := h
  obtain ⟨⟨i, hr, hi⟩, -⟩ := named_cases hn
  have htarget : f.target? = some target := by rw [Field.target?, hshape]
  obtain ⟨u, hu⟩ := Table.mem_keys_iff.1 (hc i t hi key f hf target htarget)
  have hlast := hr.tail ⟨t, key, f, hi, hf, htarget⟩
  refine ⟨u, ?_, hu, TypeGraph.complete_reachable hd target u hlast hu⟩
  have hname : givenName g.types (.node schemas target) = inputName u := by
    simp [givenName, fieldType, TypeRef.name, hu]
  rw [hname]
  exact (tellsApart_inputs ht hd).get?_named hn ⟨key, f, hf, target, htarget, hu⟩

end

/-! ### What is read of what is given -/

section

variable {g : TypeGraph} {v u w : Json} {ms us : List (String × Json)}

theorem text_iff_coerced (ht : g.types.Titled) {text : String} :
    v = .text text ↔ coerce? (Surface.ofGraph g) v textType = some (.text text) := by
  rw [textType, coerce?_text_iff (type?_text ht)]
  simp

theorem readText_coerced (ht : g.types.Titled)
    (hu : coerce? (Surface.ofGraph g) v (.named "String") = some u) :
    readScalar .string v = .ok w ↔ readScalar .string u = .ok w := by
  rcases (coerce?_text_iff (type?_text ht)).1 hu with ⟨rfl, rfl⟩ | ⟨text, rfl, rfl⟩ <;> rfl

theorem readNumber_coerced (ht : g.types.Titled) (hnumber : IsGiven g (.value .number))
    (hu : coerce? (Surface.ofGraph g) v (.named "Float") = some u) :
    readScalar .number v = .ok w ↔ readScalar .number u = .ok w := by
  rcases (coerce?_number_iff (type?_number ht hnumber)).1 hu with
    ⟨rfl, rfl⟩ | ⟨x, rfl, ⟨rfl, -⟩ | ⟨n, rfl, hx, -⟩⟩
  · rfl
  · rfl
  · rw [Payload.readScalar_eq_ok_iff, Payload.readScalar_eq_ok_iff]
    constructor
    · rintro (⟨_, h, -⟩ | ⟨_, y, h, hy, rfl⟩)
      · cases h
      · cases h
        cases hx.symm.trans hy
        exact .inl ⟨x, rfl, rfl⟩
    · rintro (⟨_, h, rfl⟩ | ⟨_, _, h, -⟩)
      · cases h
        exact .inr ⟨n, x, rfl, hx, rfl⟩
      · cases h

/-- The fields of the input type of files. -/
def fileInputFields : List (String × InputField) := fileFields.map fun name => (name, ⟨textType, none⟩)

theorem isOptional_fileInputFields : ∀ d ∈ fileInputFields, d.2.IsOptional := by
  intro d hd
  obtain ⟨name, -, rfl⟩ := List.mem_map.1 hd
  exact ⟨rfl, rfl⟩

theorem mem_keys_fileInputFields {key : String} :
    key ∈ fileInputFields.map Prod.fst ↔ key = "contentType" ∨ key = "uri" := by
  simp [fileInputFields, fileFields]

theorem type?_fileInput_eq (ht : g.types.Titled) (hfile : IsGiven g (.value .file)) :
    (Surface.ofGraph g).type? "FileInput" = some (.input fileInputFields) := type?_fileInput ht hfile

/-- A text stands in a file where it stands in what the file stands for. -/
theorem find_text_coerced (ht : g.types.Titled)
    (hus : inputMembers (coercions (Surface.ofGraph g) ms) fileInputFields = some us) {key : String}
    (hkey : Table.find key fileInputFields = some ⟨textType, none⟩) {text : String} :
    Table.find key ms = some (.text text) ↔ Table.find key us = some (.text text) := by
  rcases find_inputMembers isOptional_fileInputFields (by decide) hus hkey with ⟨v, u, hv, hc, hu⟩ | ⟨hv, hu⟩
  · rw [hv, hu, Option.some.injEq, Option.some.injEq, text_iff_coerced ht]
    dsimp only at hc
    rw [hc, Option.some.injEq]
  · simp [hv, hu]

theorem readFile_iff : readScalar .file (.object ms) = .ok w ↔ ∃ contentType uri,
    Table.find "contentType" ms = some (.text contentType) ∧ Table.find "uri" ms = some (.text uri) ∧
    (∀ key ∈ ms.map Prod.fst, key = "contentType" ∨ key = "uri") ∧
    w = .object [("contentType", .text contentType), ("uri", .text uri)] := by
  rw [Payload.readScalar_eq_ok_iff]
  simp only [Json.object.injEq]
  exact ⟨fun ⟨_, contentType, uri, he, h⟩ => ⟨contentType, uri, he ▸ h⟩,
    fun ⟨contentType, uri, h⟩ => ⟨ms, contentType, uri, rfl, h⟩⟩

theorem readFile_coerced (ht : g.types.Titled) (hfile : IsGiven g (.value .file))
    (hu : coerce? (Surface.ofGraph g) v (.named "FileInput") = some u) :
    readScalar .file v = .ok w ↔ readScalar .file u = .ok w := by
  have htype := type?_fileInput_eq ht hfile
  rcases (coerce?_input_iff htype).1 hu with ⟨rfl, rfl⟩ | ⟨ms, rfl, hu⟩
  · rfl
  obtain ⟨hknown, us, rfl, hus⟩ := (coerce?_object_iff htype).1 hu
  have hknown' : ∀ key ∈ us.map Prod.fst, key ∈ fileInputFields.map Prod.fst := fun key hk =>
    (keys_inputMembers isOptional_fileInputFields hus).mem hk
  simp only [mem_keys_fileInputFields] at hknown hknown'
  rw [readFile_iff, readFile_iff]
  refine exists_congr fun contentType => exists_congr fun uri => ?_
  rw [find_text_coerced ht hus rfl, find_text_coerced ht hus rfl]
  exact and_congr_right fun _ => and_congr_right fun _ =>
    and_congr_left fun _ => ⟨fun _ => hknown', fun _ => hknown⟩

/-- What is read of an object is what is read of the object it stands for, if this holds of what
stands in its members. -/
theorem readRoot_coerced {n : String} {t : NodeType} (hn : (named g inputName rootInputName).get? n = some t)
    (hsame : ∀ key f v u, t.fields.get? key = some f → Table.find key ms = some v →
      coerce? (Surface.ofGraph g) v (inputField g.types f).type = some u →
      ∀ w, read g.reachable f.multiple f.shape v = .ok w ↔ read g.reachable f.multiple f.shape u = .ok w)
    (hu : coerce? (Surface.ofGraph g) (.object ms) (.named n) = some (.object us)) :
    readRoot g.reachable t ms = .ok w ↔ readRoot g.reachable t us = .ok w := by
  have htype : (Surface.ofGraph g).type? n = some (.input (inputFields g.types t)) := type?_input hn
  obtain ⟨hknown, _, he, hus⟩ := (coerce?_object_iff htype).1 hu
  cases he
  have hknown' : ∀ key ∈ us.map Prod.fst, key ∈ (inputFields g.types t).map Prod.fst := fun key hk =>
    (keys_inputMembers isOptional_inputFields hus).mem hk
  rw [keys_inputFields] at hknown hknown'
  have hat : ∀ key f x, t.fields.get? key = some f →
      (Payload.ReadsAt g.reachable ms key f x ↔ Payload.ReadsAt g.reachable us key f x) := by
    intro key f x hf
    rcases find_inputMembers isOptional_inputFields (nodup_inputFields g.types t) hus (find_inputFields hf) with
      ⟨v, u, hv, hc, hu⟩ | ⟨hv, hu⟩
    · simp [Payload.ReadsAt, hv, hu, hsame key f v u hf hv hc x]
    · simp [Payload.ReadsAt, hv, hu]
  rw [Payload.readRoot_eq_ok_iff, Payload.readRoot_eq_ok_iff]
  refine and_congr ⟨fun _ => hknown', fun _ => hknown⟩ (exists_congr fun vs => ?_)
  refine and_congr_right fun _ => and_congr_right fun _ => ?_
  exact forall_congr' fun key => forall_congr' fun f => forall_congr' fun x => forall_congr' fun hf =>
    forall_congr' fun _ => hat key f x hf

theorem readList_iff {models : Models} {shape : Shape} {vs : List Json} :
    read models true shape (.list vs) = .ok w ↔
      ∃ ws, w = .list ws ∧ List.Forall₂ (fun v w => read models false shape v = .ok w) vs ws := by
  rw [Payload.read_many_eq_ok_iff]
  simp only [Json.list.injEq]
  exact ⟨fun ⟨_, ws, he, h⟩ => ⟨ws, he ▸ h⟩, fun ⟨ws, h⟩ => ⟨vs, ws, rfl, h⟩⟩

theorem readItems_coerced {shape : Shape} {items us ws : List Json}
    (hus : List.Forall₂ (fun v u => coerce? (Surface.ofGraph g) v (.named (givenName g.types shape)) = some u)
      items us)
    (hsame : ∀ v ∈ items, ∀ u, coerce? (Surface.ofGraph g) v (.named (givenName g.types shape)) = some u →
      ∀ w, read g.reachable false shape v = .ok w ↔ read g.reachable false shape u = .ok w) :
    List.Forall₂ (fun v w => read g.reachable false shape v = .ok w) items ws ↔
      List.Forall₂ (fun u w => read g.reachable false shape u = .ok w) us ws := by
  induction hus generalizing ws with
  | nil => rfl
  | @cons v u _ _ hu _ ih =>
    obtain ⟨hv, hrest⟩ := List.forall_mem_cons.1 hsame
    rw [List.forall₂_cons_left_iff, List.forall₂_cons_left_iff]
    simp only [hv u hu, ih hrest]

variable (ht : g.types.Titled) (hd : g.DistinctNames) (hc : g.types.Closed)
include ht hd hc

/-- **What is read under a field is what is read of the value that stands for it**, where lists are
given under the keys that may repeat. -/
theorem read_coerced (v : Json) : ∀ f, IsGiven g f.shape → givesLists g.types f v = true →
    ∀ u, coerce? (Surface.ofGraph g) v (inputField g.types f).type = some u →
      ∀ w, read g.reachable f.multiple f.shape v = .ok w ↔ read g.reachable f.multiple f.shape u = .ok w := by
  induction v using Json.induction with
  | step v ihItems ihMembers =>
    rintro ⟨shape, multiple⟩ hgiven hlists u hu w
    cases multiple with
    | true =>
      cases v with
      | list items =>
        obtain ⟨us, rfl, hus⟩ := coerce?_list_iff.1 hu
        rw [readList_iff, readList_iff]
        refine exists_congr fun ws => and_congr_right fun _ => ?_
        exact readItems_coerced hus fun v hv =>
          ihItems items rfl v hv ⟨shape, false⟩ hgiven (Payload.itemsGiveLists_mem hlists v hv)
      | null =>
        cases hu
        rfl
      | _ => cases hlists
    | false =>
      cases shape with
      | value kind =>
        simp only [Payload.read_value]
        cases kind with
        | string => exact readText_coerced ht hu
        | number => exact readNumber_coerced ht hgiven hu
        | file => exact readFile_coerced ht hgiven hu
      | node schemas target =>
        obtain ⟨t, hn, ht', hmodel⟩ := hgiven.exists_input ht hd hc
        have htype : (Surface.ofGraph g).type? (givenName g.types (.node schemas target))
            = some (.input (inputFields g.types t)) := type?_input hn
        rcases (coerce?_input_iff htype).1 hu with ⟨rfl, rfl⟩ | ⟨ms, rfl, hu⟩
        · rfl
        obtain ⟨-, us, rfl, -⟩ := (coerce?_object_iff htype).1 hu
        have hread : ∀ ns, read g.reachable false (.node schemas target) (.object ns) = .ok w ↔
            readRoot g.reachable t ns = .ok w := fun ns => by
          simp [Payload.read_node_eq_ok_iff, hmodel]
        have hmembers : membersGiveLists g.types t ms = true := by
          simpa [givesLists, Field.target?, ht'] using hlists
        simp only [hread]
        refine readRoot_coerced hn (fun key f v u hf hv => ?_) hu
        exact ihMembers ms rfl key v hv f ⟨_, t, key, f, hn, hf, rfl⟩
          (Payload.membersGiveLists_find hmembers hf hv) u

end

/-! ### What can be given -/

section

variable {g : TypeGraph} {v w : Json} {ms : List (String × Json)}

theorem exists_coerced_text (ht : g.types.Titled) (h : readScalar .string v = .ok w) :
    ∃ u, coerce? (Surface.ofGraph g) v (.named "String") = some u := by
  obtain ⟨text, rfl, -⟩ := Payload.readScalar_eq_ok_iff.1 h
  exact ⟨_, (text_iff_coerced ht).1 rfl⟩

theorem exists_coerced_number (ht : g.types.Titled) (hnumber : IsGiven g (.value .number))
    (hfinite : v.hasFiniteNumbers = true) (hexact : v.hasExactIntegers = true)
    (h : readScalar .number v = .ok w) :
    ∃ u, coerce? (Surface.ofGraph g) v (.named "Float") = some u := by
  simp only [coerce?_number_iff (type?_number ht hnumber)]
  rcases Payload.readScalar_eq_ok_iff.1 h with ⟨x, rfl, -⟩ | ⟨n, x, rfl, hx, -⟩
  · exact ⟨_, .inr ⟨x, rfl, .inl ⟨rfl, Json.all_self hfinite⟩⟩⟩
  · exact ⟨_, .inr ⟨x, rfl, .inr ⟨n, rfl, hx, Json.toInt?_of_hasExactIntegers hexact hx⟩⟩⟩

theorem exists_coerced_file (ht : g.types.Titled) (hfile : IsGiven g (.value .file))
    (h : readScalar .file v = .ok w) :
    ∃ u, coerce? (Surface.ofGraph g) v (.named "FileInput") = some u := by
  obtain ⟨ms, contentType, uri, rfl, hcontent, huri, hknown, -⟩ := Payload.readScalar_eq_ok_iff.1 h
  obtain ⟨us, hus⟩ : ∃ us, inputMembers (coercions (Surface.ofGraph g) ms) fileInputFields = some us := by
    refine exists_inputMembers isOptional_fileInputFields (by decide) fun key d v hd hv => ?_
    rcases mem_keys_fileInputFields.1 (List.mem_map.2 ⟨_, Table.mem_of_find hd, rfl⟩) with rfl | rfl
    · cases hd
      cases hv.symm.trans hcontent
      exact ⟨_, (text_iff_coerced ht).1 rfl⟩
    · cases hd
      cases hv.symm.trans huri
      exact ⟨_, (text_iff_coerced ht).1 rfl⟩
  exact ⟨_, (coerce?_object_iff (type?_fileInput_eq ht hfile)).2
    ⟨fun key hk => mem_keys_fileInputFields.2 (hknown key hk), us, rfl, hus⟩⟩

/-- An object that is read stands for an object, where what is read of its members stands for something. -/
theorem exists_coerced_root {n : String} {t : NodeType} (hn : (named g inputName rootInputName).get? n = some t)
    (hgiven : ∀ key f v x, t.fields.get? key = some f → Table.find key ms = some v →
      read g.reachable f.multiple f.shape v = .ok x →
      ∃ u, coerce? (Surface.ofGraph g) v (inputField g.types f).type = some u)
    (h : readRoot g.reachable t ms = .ok w) :
    ∃ us, coerce? (Surface.ofGraph g) (.object ms) (.named n) = some (.object us) := by
  have htype : (Surface.ofGraph g).type? n = some (.input (inputFields g.types t)) := type?_input hn
  obtain ⟨hknown, vs, rfl, hvs, hat⟩ := Payload.readRoot_eq_ok_iff.1 h
  obtain ⟨us, hus⟩ : ∃ us, inputMembers (coercions (Surface.ofGraph g) ms) (inputFields g.types t) = some us := by
    refine exists_inputMembers isOptional_inputFields (nodup_inputFields g.types t) fun key d v hd hv => ?_
    obtain ⟨f, hf⟩ := Table.mem_keys_iff.1 (keys_inputFields g.types t ▸
      List.mem_map.2 ⟨_, Table.mem_of_find hd, rfl⟩)
    cases hd.symm.trans (find_inputFields hf)
    obtain ⟨x, hx⟩ := Table.exists_find (hvs ▸ Table.mem_keys_iff.2 ⟨f, hf⟩)
    rcases hat key f x hf hx with ⟨v', hv', hr⟩ | ⟨hnone, -⟩
    · cases hv.symm.trans hv'
      exact hgiven key f v x hf hv hr
    · cases hv.symm.trans hnone
  exact ⟨us, (coerce?_object_iff htype).2 ⟨by rwa [keys_inputFields], us, rfl, hus⟩⟩

variable (ht : g.types.Titled) (hd : g.DistinctNames) (hc : g.types.Closed)
include ht hd hc

/-- **What is read under a field stands for something**, where its numbers are finite and its integers
are numbers. -/
theorem exists_coerced (v : Json) : ∀ f, IsGiven g f.shape → v.hasFiniteNumbers = true →
    v.hasExactIntegers = true → ∀ w, read g.reachable f.multiple f.shape v = .ok w →
      ∃ u, coerce? (Surface.ofGraph g) v (inputField g.types f).type = some u := by
  induction v using Json.induction with
  | step v ihItems ihMembers =>
    rintro ⟨shape, multiple⟩ hgiven hfinite hexact w hw
    cases multiple with
    | true =>
      obtain ⟨items, ws, rfl, rfl, hws⟩ := Payload.read_many_eq_ok_iff.1 hw
      obtain ⟨us, hus⟩ := exists_forall₂ fun v hv => by
        obtain ⟨w, -, hr⟩ := exists_of_mem_left hws v hv
        exact ihItems items rfl v hv ⟨shape, false⟩ hgiven (Json.all_items hfinite v hv)
          (Json.all_items hexact v hv) w hr
      exact ⟨.list us, coerce?_list_iff.2 ⟨us, rfl, hus⟩⟩
    | false =>
      cases shape with
      | value kind =>
        replace hw : readScalar kind v = .ok w := (Payload.read_value kind v).symm.trans hw
        cases kind with
        | string => exact exists_coerced_text ht hw
        | number => exact exists_coerced_number ht hgiven hfinite hexact hw
        | file => exact exists_coerced_file ht hgiven hw
      | node schemas target =>
        obtain ⟨t, hn, -, hmodel⟩ := hgiven.exists_input ht hd hc
        obtain ⟨ms, t', rfl, ht', hr⟩ := Payload.read_node_eq_ok_iff.1 hw
        cases hmodel.symm.trans ht'
        obtain ⟨us, hus⟩ := exists_coerced_root hn (fun key f v x hf hv hx =>
          ihMembers ms rfl key v hv f ⟨_, t, key, f, hn, hf, rfl⟩
            (Json.all_members hfinite _ (Table.mem_of_find hv))
            (Json.all_members hexact _ (Table.mem_of_find hv)) x hx) hr
        exact ⟨.object us, hus⟩

/-! ### Payloads of the root -/

/-- **What is given for a payload is accepted exactly where the payload is**, with the same normal
form, if it has lists under the keys that may repeat. -/
theorem validatePayload_coerced {payload u : Json} (hlists : g.givesLists payload = true)
    (hu : coerce? (Surface.ofGraph g) payload (.nonNull (.named rootInputName)) = some u) :
    g.validatePayload payload = .ok w ↔ g.validatePayload u = .ok w := by
  have htype : (Surface.ofGraph g).type? rootInputName = some (.input (inputFields g.types g.rootType)) :=
    type?_input get?_named_root
  have hscalar : (Surface.ofGraph g).scalar? rootInputName = none := by rw [Surface.scalar?, htype]
  cases payload with
  | object ms =>
    obtain ⟨-, us, rfl, -⟩ := (coerce?_object_iff htype).1 hu
    have hsame := readRoot_coerced (w := w) get?_named_root (fun key f v u hf hv =>
      read_coerced ht hd hc v f ⟨_, _, key, f, get?_named_root, hf, rfl⟩
        (Payload.membersGiveLists_find hlists hf hv) u) hu
    simpa [TypeGraph.validatePayload_eq_ok_iff] using hsame
  | null => cases hu
  | list items => cases hu
  | _ => simp [coerce?, TypeRef.name, hscalar] at hu

/-- **A payload that is accepted can be given**, if its numbers are finite and its integers are
numbers. -/
theorem exists_coerced_payload {payload : Json} (hfinite : payload.hasFiniteNumbers = true)
    (hexact : payload.hasExactIntegers = true) (h : g.validatePayload payload = .ok w) :
    ∃ u, coerce? (Surface.ofGraph g) payload (.nonNull (.named rootInputName)) = some u := by
  obtain ⟨ms, rfl, hr⟩ := TypeGraph.validatePayload_eq_ok_iff.1 h
  obtain ⟨us, hus⟩ := exists_coerced_root get?_named_root (fun key f v x hf hv hx =>
    exists_coerced ht hd hc v f ⟨_, _, key, f, get?_named_root, hf, rfl⟩
      (Json.all_members hfinite _ (Table.mem_of_find hv))
      (Json.all_members hexact _ (Table.mem_of_find hv)) x hx) hr
  exact ⟨.object us, hus⟩

end

end GraphQL

end ContentGraph
