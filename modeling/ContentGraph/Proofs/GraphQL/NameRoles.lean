import ContentGraph.Proofs.GraphQL.FieldNames
import ContentGraph.Proofs.Sorting

/-!
# Roles of names

The names of the types of a surface are of three kinds: objects have a name made from their schemas,
inputs have the name of an object with a text at its end, and the others are fixed. A text tells which of
these it can be (`NameRole.Allows`): the names that are fixed have no underscore, and of those that have one
the names of objects alone end in a hexadecimal digit. So no two names of different roles are one text
(`Bears.role_unique`), and a surface gives no name twice (`GraphQL.entries_ofGraph`).

The letters of a name come from texts of any kind, of which only letters and digits are left. That keeps
names legal, and lets the underscore before the digits of the identity be found again, so that a name tells
both of its parts (`setName_eq_iff`).
-/

namespace ContentGraph

open GraphQL
open Compilation (blank)

/-! ### Characters -/

/-- A letter from A to Z, capital or small, or a digit. -/
def IsLetterOrDigit (c : Char) : Prop :=
  'A' ≤ c ∧ c ≤ 'Z' ∨ 'a' ≤ c ∧ c ≤ 'z' ∨ '0' ≤ c ∧ c ≤ '9'

/-- A digit of an identity. -/
def IsHexDigit (c : Char) : Prop := '0' ≤ c ∧ c ≤ '9' ∨ 'a' ≤ c ∧ c ≤ 'f'

instance (c : Char) : Decidable (IsHexDigit c) :=
  inferInstanceAs (Decidable ('0' ≤ c ∧ c ≤ '9' ∨ 'a' ≤ c ∧ c ≤ 'f'))

theorem isLetterOrDigit_iff {c : Char} : c.isAlphanum = true ↔ IsLetterOrDigit c := by
  have hsplit : c.isAlphanum = ((decide ('A' ≤ c ∧ c ≤ 'Z') || (decide ('a' ≤ c) && decide (c ≤ 'z')))
    || (decide ('0' ≤ c) && decide (c ≤ '9'))) := rfl
  rw [hsplit, IsLetterOrDigit]
  simp only [Bool.or_eq_true, Bool.and_eq_true, decide_eq_true_eq, or_assoc]

theorem IsLetterOrDigit.continuesName {c : Char} (h : IsLetterOrDigit c) : ContinuesName c := by
  rcases h with h | h | h
  · exact .inl (.inr (.inl h))
  · exact .inl (.inr (.inr h))
  · exact .inr h

theorem continuesName_of_all {cs : List Char} (h : cs.all isNameContinue = true) :
    ∀ c ∈ cs, ContinuesName c := fun c hc => isNameContinue_iff.1 (List.all_eq_true.1 h c hc)

theorem IsHexDigit.isLetterOrDigit {c : Char} (h : IsHexDigit c) : IsLetterOrDigit c := by
  rcases h with h | ⟨ha, hf⟩
  · exact .inr (.inr h)
  · exact .inr (.inl ⟨ha, Char.le_trans hf (by decide)⟩)

theorem IsLetterOrDigit.ne_underscore {c : Char} (h : IsLetterOrDigit c) : c ≠ '_' := by
  rintro rfl
  revert h
  unfold IsLetterOrDigit
  decide

theorem IsLetterOrDigit.toUpper {c : Char} (h : IsLetterOrDigit c) : IsLetterOrDigit c.toUpper := by
  unfold Char.toUpper
  split
  · next hlower =>
    obtain ⟨ha, hz⟩ := hlower
    -- the difference is negative, so that the sum wraps
    have hshift : (c.val + ('A'.val - 'a'.val)).toNat = c.val.toNat - 32 := by
      have hs : ('A'.val - 'a'.val).toNat = 2 ^ 32 - 32 := rfl
      have h97 : 97 ≤ c.val.toNat := UInt32.le_iff_toNat_le.1 ha
      have h122 : c.val.toNat ≤ 122 := UInt32.le_iff_toNat_le.1 hz
      rw [UInt32.toNat_add]
      omega
    left
    show 'A'.val ≤ c.val + ('A'.val - 'a'.val) ∧ c.val + ('A'.val - 'a'.val) ≤ 'Z'.val
    rw [UInt32.le_iff_toNat_le, UInt32.le_iff_toNat_le, hshift]
    exact ⟨Nat.sub_le_sub_right (UInt32.le_iff_toNat_le.1 ha) 32,
      Nat.sub_le_sub_right (UInt32.le_iff_toNat_le.1 hz) 32⟩
  · exact h

theorem isLetterOrDigit_of_mem_readable {start : Bool} {cs : List Char} {c : Char}
    (h : c ∈ readable start cs) : IsLetterOrDigit c := by
  induction cs generalizing start with
  | nil => cases h
  | cons d rest ih =>
    unfold readable at h
    split at h
    · next hd =>
      rcases List.mem_cons.1 h with rfl | hrest
      · split
        · exact (isLetterOrDigit_iff.1 hd).toUpper
        · exact isLetterOrDigit_iff.1 hd
      · exact ih hrest
    · exact ih h

theorem isHexDigit_hexDigit {n : ℕ} (h : n < 16) : IsHexDigit (hexDigit n) := by
  revert n
  decide

theorem isHexDigit_of_mem_typeIdentity {addresses : List String} {c : Char}
    (h : c ∈ (typeIdentity addresses).toList) : IsHexDigit c := by
  obtain ⟨n, hn, rfl⟩ := exists_hexDigit_of_mem_hex h
  exact isHexDigit_hexDigit hn

/-! ### Names of sets of schemas -/

section

variable {schemas schemas' : List (String × String)} {digits digits' : HashLength}

/-- The name of the type that schemas are merged into, from their addresses and names. -/
def setName (schemas : List (String × String)) (digits : HashLength) : String :=
  typeNameOf schemas (typeIdentity (schemas.map Prod.fst)) digits.digits

/-- The part of a name that is made of the names of the schemas. -/
def readablePart (schemas : List (String × String)) : List Char :=
  readableNames (Table.ofList schemas).sorted.values

/-- The part of a name that is taken from the identity. -/
def identityPart (schemas : List (String × String)) (digits : HashLength) : List Char :=
  (typeIdentity (schemas.map Prod.fst)).toList.take digits.digits

/-- Schemas with one address have one name. -/
def OneNameEach (schemas : List (String × String)) : Prop :=
  ∀ address name name', (address, name) ∈ schemas → (address, name') ∈ schemas → name = name'

theorem toList_setName (schemas : List (String × String)) (digits : HashLength) :
    (setName schemas digits).toList
      = "Node".toList ++ readablePart schemas ++ '_' :: identityPart schemas digits :=
  toList_typeName _ _ _

theorem isLetterOrDigit_of_mem_readablePart {c : Char} (h : c ∈ readablePart schemas) :
    IsLetterOrDigit c := by
  obtain ⟨name, -, hc⟩ := List.mem_flatMap.1 h
  exact isLetterOrDigit_of_mem_readable hc

example : String.ofList (readablePart [("omg://b", "my cool-schema!"), ("omg://a", "été 2x")])
    = "T2xMyCoolSchema" := by
  decide +kernel

theorem isHexDigit_of_mem_identityPart {c : Char} (h : c ∈ identityPart schemas digits) : IsHexDigit c :=
  isHexDigit_of_mem_typeIdentity (List.mem_of_mem_take h)

theorem length_identityPart (schemas : List (String × String)) (digits : HashLength) :
    (identityPart schemas digits).length = digits.digits := by
  rw [identityPart, List.length_take, length_typeIdentity]
  exact Nat.min_eq_left digits.le_all

theorem isName_setName (schemas : List (String × String)) (digits : HashLength) :
    IsName (setName schemas digits) := by
  refine ⟨'N', ['o', 'd', 'e'] ++ (readablePart schemas ++ '_' :: identityPart schemas digits), ?_, ?_, ?_⟩
  · rw [toList_setName, List.append_assoc]
    rfl
  · exact .inr (.inl (by decide))
  · intro c hc
    rcases List.mem_append.1 hc with hnode | hc
    · exact continuesName_of_all (by decide) c hnode
    · rcases List.mem_append.1 hc with hr | hi
      · exact (isLetterOrDigit_of_mem_readablePart hr).continuesName
      · rcases List.mem_cons.1 hi with rfl | hi
        · exact .inl (.inl rfl)
        · exact (isHexDigit_of_mem_identityPart hi).isLetterOrDigit.continuesName

theorem not_isReserved_setName (schemas : List (String × String)) (digits : HashLength) :
    ¬ IsReserved (setName schemas digits) := by
  rintro ⟨rest, h⟩
  rw [toList_setName, List.append_assoc] at h
  cases h

/-- The underscore is found again: there is none before it and none after. -/
theorem setName_eq_iff : setName schemas digits = setName schemas' digits' ↔
    readablePart schemas = readablePart schemas' ∧
      identityPart schemas digits = identityPart schemas' digits' := by
  have hbefore : '_' ∉ readablePart schemas := fun h =>
    (isLetterOrDigit_of_mem_readablePart h).ne_underscore rfl
  have hafter : '_' ∉ identityPart schemas digits := fun h =>
    (isHexDigit_of_mem_identityPart h).isLetterOrDigit.ne_underscore rfl
  rw [← String.toList_inj, toList_setName, toList_setName, List.append_assoc, List.append_assoc,
    List.append_cancel_left_eq, List.append_cons_inj_of_notMem hbefore hafter]
  simp only [true_and]

/-- Of schemas of which those with one address have one name, the table has all. -/
theorem OneNameEach.mem_entries_ofList (h : OneNameEach schemas) {e : String × String} :
    e ∈ (Table.ofList schemas).entries ↔ e ∈ schemas := by
  obtain ⟨address, name⟩ := e
  rw [← Table.get?_eq_some_iff, Table.get?_ofList]
  constructor
  · exact fun hf => List.mem_reverse.1 (Table.mem_of_find hf)
  · intro hm
    have hkey : address ∈ schemas.reverse.map Prod.fst :=
      List.mem_map.2 ⟨_, List.mem_reverse.2 hm, rfl⟩
    obtain ⟨name', hf⟩ := Table.exists_find hkey
    rw [hf, h address name name' hm (List.mem_reverse.1 (Table.mem_of_find hf))]

/-- The order of the schemas does not matter, nor how often one stands among them. -/
theorem OneNameEach.setName_eq (h : OneNameEach schemas) (hs : ∀ e, e ∈ schemas' ↔ e ∈ schemas) :
    setName schemas' digits = setName schemas digits := by
  have h' : OneNameEach schemas' := fun address name name' hm hm' =>
    h address name name' ((hs _).1 hm) ((hs _).1 hm')
  have htable : (Table.ofList schemas').sorted = (Table.ofList schemas).sorted :=
    Table.sorted_congr fun e => by rw [h'.mem_entries_ofList, h.mem_entries_ofList, hs]
  have hidentity : typeIdentity (schemas'.map Prod.fst) = typeIdentity (schemas.map Prod.fst) :=
    typeIdentity_congr fun a => by simp only [List.mem_map, hs]
  rw [setName, setName, typeNameOf, typeNameOf, htable, hidentity]

/-- The addresses and names of the schemas of a set. -/
def namesOf (set : Table Schema) : List (String × String) := set.entries.map fun e => (e.1, e.2.name)

theorem keys_namesOf (set : Table Schema) : (namesOf set).map Prod.fst = set.keys := by
  rw [namesOf, List.map_map]
  rfl

theorem oneNameEach_namesOf (set : Table Schema) : OneNameEach (namesOf set) := by
  intro address name name' h h'
  have hn : ((namesOf set).map Prod.fst).Nodup := keys_namesOf set ▸ set.nodup
  exact Option.some.inj ((Table.find_of_mem hn h).symm.trans (Table.find_of_mem hn h'))

/-- The identity of a set is that of its addresses. -/
theorem typeIdentity_sorted (set : Table Schema) :
    typeIdentity set.sorted.keys = typeIdentity ((namesOf set).map Prod.fst) := by
  rw [keys_namesOf]
  exact typeIdentity_congr fun a => Table.mem_keys_sorted

/-- A compilation begins a type with the name of its set. -/
theorem name_blank (digits : HashLength) (set : Table Schema) :
    (blank digits.digits set).name = setName (namesOf set) digits := by
  have hentries : (Table.ofList (namesOf set)).sorted.entries
      = set.sorted.entries.map fun e => (e.1, e.2.name) := by
    have hn : ((namesOf set).map Prod.fst).Nodup := keys_namesOf set ▸ set.nodup
    show sortBy _ (Table.ofList (namesOf set)).entries = (sortBy _ set.entries).map _
    rw [Table.entries_ofList hn]
    exact (map_sortBy (fun _ _ => rfl) set.entries).symm
  have hvalues : (Table.ofList (namesOf set)).sorted.values = set.sorted.values.map Schema.name := by
    rw [Table.values, hentries, Table.values, List.map_map, List.map_map]
    rfl
  rw [setName, typeNameOf, hvalues, ← typeIdentity_sorted]
  rfl

end

/-! ### Roles -/

/-- What a name of a surface is the name of. -/
inductive NameRole where
  /-- An object made from schemas. -/
  | object
  /-- The input of such an object. -/
  | input
  /-- A type that does not depend on schemas, or the input of the root. -/
  | fixed
  deriving DecidableEq

namespace GraphQL

/-- The names that do not depend on schemas. -/
def staticNames : List String :=
  commonTypes.map Prod.fst ++ ["Query", "Mutation", "Float", "File", "FileInput"]

/-- The names that are fixed. The plain surface has a type of its own for documents. -/
def fixedNames : List String := staticNames ++ ["JSON", rootInputName]

theorem nodup_fixedNames : fixedNames.Nodup := by decide +kernel

end GraphQL

/-- A name has a role. -/
inductive Bears : NameRole → String → Prop where
  /-- The name of the type that schemas are merged into. -/
  | object (schemas : List (String × String)) (digits : HashLength) :
      Bears .object (setName schemas digits)
  /-- The name of the input of an object. -/
  | input {t : NodeType} (h : Bears .object t.name) : Bears .input (inputName t)
  /-- A name that is fixed. -/
  | fixed {name : String} (h : name ∈ fixedNames) : Bears .fixed name

/-- The texts that can have a role. -/
def NameRole.Allows : NameRole → String → Prop
  | .object, s => IsTitle s
  | .input, s => '_' ∈ s.toList ∧ ¬ IsTitle s
  | .fixed, s => '_' ∉ s.toList

theorem NameRole.Allows.unique {role role' : NameRole} {s : String} (h : role.Allows s)
    (h' : role'.Allows s) : role = role' := by
  cases role <;> cases role'
  case object.input => exact absurd h h'.2
  case input.object => exact absurd h' h.2
  case object.fixed => exact absurd h.1 h'
  case fixed.object => exact absurd h'.1 h
  case input.fixed => exact absurd h.1 h'
  case fixed.input => exact absurd h'.1 h
  all_goals rfl

theorem Bears.isTitle {s : String} (h : Bears .object s) : IsTitle s := by
  cases h
  exact isTitle_typeName _ _ _

theorem Bears.allows {role : NameRole} {s : String} (h : Bears role s) : role.Allows s := by
  cases h with
  | object schemas digits => exact (Bears.object schemas digits).isTitle
  | @input t h =>
    refine ⟨?_, not_isTitle_inputName t⟩
    rw [inputName, String.toList_append]
    exact List.mem_append_left _ h.isTitle.1
  | fixed h =>
    have hfixed : ∀ name ∈ fixedNames, '_' ∉ name.toList := by decide +kernel
    exact hfixed s h

theorem isName_append {s t : String} (h : IsName s) (ht : ∀ c ∈ t.toList, ContinuesName c) :
    IsName (s ++ t) := by
  obtain ⟨c, rest, hs, hc, hrest⟩ := h
  refine ⟨c, rest ++ t.toList, by rw [String.toList_append, hs, List.cons_append], hc, fun d hd => ?_⟩
  rcases List.mem_append.1 hd with hd | hd
  · exact hrest d hd
  · exact ht d hd

/-- A text after one that is not reserved does not make it so, where that one is long enough. -/
theorem isReserved_of_append {s t : String} (hs : 2 ≤ s.toList.length) (h : IsReserved (s ++ t)) :
    IsReserved s := by
  rw [IsReserved, String.toList_append] at h
  exact List.prefix_of_prefix_length_le h (List.prefix_append _ _) hs

theorem Bears.legal_object {s : String} (h : Bears .object s) : IsName s ∧ ¬ IsReserved s := by
  cases h
  exact ⟨isName_setName _ _, not_isReserved_setName _ _⟩

theorem Bears.two_le_length {s : String} (h : Bears .object s) : 2 ≤ s.toList.length := by
  cases h
  rw [toList_setName]
  simp

theorem Bears.legal {role : NameRole} {s : String} (h : Bears role s) : IsName s ∧ ¬ IsReserved s := by
  cases h with
  | object schemas digits => exact (Bears.object schemas digits).legal_object
  | @input t h =>
    obtain ⟨hname, hreserved⟩ := h.legal_object
    refine ⟨isName_append hname (continuesName_of_all (by decide +kernel)), fun hr => ?_⟩
    exact hreserved (isReserved_of_append h.two_le_length hr)
  | fixed h =>
    have hfixed : ∀ name ∈ fixedNames, nameProblem? name = none ∧ isReservedName name = false := by
      decide +kernel
    obtain ⟨hname, hreserved⟩ := hfixed s h
    refine ⟨nameProblem?_eq_none_iff_isName.1 hname, fun hr => ?_⟩
    exact Bool.false_ne_true (hreserved.symm.trans (isReservedName_iff.2 hr))

/-- **No name has two roles.** -/
theorem Bears.role_unique {role role' : NameRole} {s : String} (h : Bears role s) (h' : Bears role' s) :
    role = role' := h.allows.unique h'.allows

theorem bears_rootInputName : Bears .fixed rootInputName := .fixed (by decide +kernel)

/-! ### Names of a surface -/

theorem Source.bears_of_compile {source : Source} {digits : HashLength} {addresses : List String}
    {g : TypeGraph} (h : source.compile digits.digits addresses = .ok g) {i : String} {t : NodeType}
    (ht : g.types.get? i = some t) : ∃ schemas, OneNameEach schemas ∧
      i = typeIdentity (schemas.map Prod.fst) ∧ t.name = setName schemas digits := by
  refine type_induction (Q := fun i t => ∃ schemas, OneNameEach schemas ∧
    i = typeIdentity (schemas.map Prod.fst) ∧ t.name = setName schemas digits) h (fun set _ => ?_)
    (fun _ _ _ hq => hq) ht
  exact ⟨namesOf set, oneNameEach_namesOf set, typeIdentity_sorted set, name_blank digits set⟩

namespace GraphQL

theorem optionalType_sublist (used : Bool) (name : String) (t : NamedType) :
    ((optionalType used name t).map Prod.fst).Sublist [name] := by
  cases used
  · exact List.nil_sublist _
  · exact .refl _

theorem fixedTypes_sublist (g : TypeGraph) : ((fixedTypes g).map Prod.fst).Sublist staticNames := by
  have hbasic : (basicTypes g).map Prod.fst = commonTypes.map Prod.fst ++ ["Query", "Mutation"] := by
    rw [basicTypes, List.map_append]
    rfl
  have hnames : staticNames
      = commonTypes.map Prod.fst ++ ["Query", "Mutation"] ++ ["Float"] ++ ["File"] ++ ["FileInput"] := by
    simp [staticNames]
  rw [hnames, fixedTypes, List.map_append, List.map_append, List.map_append, hbasic]
  exact (((List.Sublist.refl _).append (optionalType_sublist _ _ _)).append
    (optionalType_sublist _ _ _)).append (optionalType_sublist _ _ _)

/-- The names of the surface of a graph have the roles of what stands under them. -/
structure NamedByRole (g : TypeGraph) : Prop where
  /-- An object has its own name. -/
  objects : ∀ n t, (named g NodeType.name g.rootType.name).get? n = some t →
    n = t.name ∧ Bears .object n
  /-- An input has the name of its object with a text at the end, that of the root a fixed name. -/
  inputs : ∀ n t, (named g inputName rootInputName).get? n = some t →
    n = rootInputName ∧ t = g.rootType ∨ n = inputName t ∧ Bears .input n
  /-- The other types have fixed names. -/
  others : ∀ n ∈ (fixedTypes g).map Prod.fst, n ∈ staticNames
  /-- No name is given twice, so that nothing is hidden by what has another role. -/
  entries : (Surface.ofGraph g).types.entries = fixedTypes g
    ++ (named g NodeType.name g.rootType.name).entries.map (fun e => (e.1, documentObject g.types e.2))
    ++ (named g inputName rootInputName).entries.map (fun e => (e.1, documentInput g.types e.2))

section

variable {g : TypeGraph} {n : String} {t : NodeType} (hb : ∀ t, g.Reaches t → Bears .object t.name)
include hb

theorem bears_object (h : (named g NodeType.name g.rootType.name).get? n = some t) :
    n = t.name ∧ Bears .object n := by
  obtain ⟨hr, ⟨rfl, rfl⟩ | rfl⟩ := named_cases h
  · exact ⟨rfl, hb _ hr⟩
  · exact ⟨rfl, hb _ hr⟩

theorem bears_input (h : (named g inputName rootInputName).get? n = some t) :
    n = rootInputName ∧ t = g.rootType ∨ n = inputName t ∧ Bears .input n := by
  obtain ⟨hr, hroot | rfl⟩ := named_cases h
  · exact .inl hroot
  · exact .inr ⟨rfl, .input (hb t hr)⟩

theorem role_of_mem_objects (h : n ∈ (named g NodeType.name g.rootType.name).keys) : Bears .object n := by
  obtain ⟨t, ht⟩ := Table.mem_keys_iff.1 h
  exact (bears_object hb ht).2

theorem role_of_mem_inputs (h : n ∈ (named g inputName rootInputName).keys) :
    n = rootInputName ∨ Bears .input n := by
  obtain ⟨t, ht⟩ := Table.mem_keys_iff.1 h
  exact (bears_input hb ht).imp And.left And.right

/-- The names of the three kinds are apart. -/
theorem nodup_names : ((fixedTypes g).map Prod.fst ++ (named g NodeType.name g.rootType.name).keys
    ++ (named g inputName rootInputName).keys).Nodup := by
  have hfixed : ∀ n ∈ (fixedTypes g).map Prod.fst, n ∈ staticNames := (fixedTypes_sublist g).subset
  have hstatic : ∀ n ∈ (fixedTypes g).map Prod.fst, Bears .fixed n := fun n hn =>
    .fixed (List.mem_append_left _ (hfixed n hn))
  have hroot : rootInputName ∉ staticNames := by decide +kernel
  refine List.nodup_append.2 ⟨List.nodup_append.2 ⟨?_, Table.nodup _, ?_⟩, Table.nodup _, ?_⟩
  · exact (nodup_fixedNames.sublist (List.sublist_append_left _ _)).sublist (fixedTypes_sublist g)
  · rintro n hn _ hobject rfl
    cases (hstatic n hn).role_unique (role_of_mem_objects hb hobject)
  · rintro n hn _ hinput rfl
    rcases role_of_mem_inputs hb hinput with rfl | hinput
    · rcases List.mem_append.1 hn with hn | hobject
      · exact hroot (hfixed _ hn)
      · cases bears_rootInputName.role_unique (role_of_mem_objects hb hobject)
    · rcases List.mem_append.1 hn with hn | hobject
      · cases (hstatic n hn).role_unique hinput
      · cases (role_of_mem_objects hb hobject).role_unique hinput

theorem entries_ofGraph : (Surface.ofGraph g).types.entries = fixedTypes g
    ++ (named g NodeType.name g.rootType.name).entries.map (fun e => (e.1, documentObject g.types e.2))
    ++ (named g inputName rootInputName).entries.map (fun e => (e.1, documentInput g.types e.2)) := by
  have hn : ((fixedTypes g
      ++ (named g NodeType.name g.rootType.name).entries.map (fun e => (e.1, documentObject g.types e.2))
      ++ (named g inputName rootInputName).entries.map (fun e => (e.1, documentInput g.types e.2))).map
        Prod.fst).Nodup := by
    rw [List.map_append, List.map_append, List.map_map, List.map_map]
    exact nodup_names hb
  exact Table.entries_ofList hn

theorem namedByRole : NamedByRole g where
  objects _ _ h := bears_object hb h
  inputs _ _ h := bears_input hb h
  others := (fixedTypes_sublist g).subset
  entries := entries_ofGraph hb

end

theorem keys_plain : Surface.plain.types.keys
    = commonTypes.map Prod.fst ++ ["JSON", "Query", "Mutation"] := rfl

end GraphQL

/-- The names of types are legal and apart, where they end in so many digits of identities. -/
structure SoundNames (digits : HashLength) : Prop where
  /-- A name is `Node`, letters and digits, an underscore, and so many hexadecimal digits. -/
  form : ∀ schemas,
    (setName schemas digits).toList
        = "Node".toList ++ readablePart schemas ++ '_' :: identityPart schemas digits ∧
      (∀ c ∈ readablePart schemas, IsLetterOrDigit c) ∧
      (identityPart schemas digits).length = digits.digits ∧
      ∀ c ∈ identityPart schemas digits, IsHexDigit c
  /-- It is a name of the query language, and none that the language keeps for itself. So are the names
  of other roles. -/
  legal : ∀ role s, Bears role s → IsName s ∧ ¬ IsReserved s
  /-- The order of the schemas does not matter, nor how often one stands among them. -/
  anyOrder : ∀ schemas schemas', OneNameEach schemas → (∀ e, e ∈ schemas' ↔ e ∈ schemas) →
    setName schemas' digits = setName schemas digits
  /-- Names are equal where both of their parts are, also those with other numbers of digits. -/
  parts : ∀ schemas schemas' digits', setName schemas digits = setName schemas' digits' ↔
    readablePart schemas = readablePart schemas' ∧
      identityPart schemas digits = identityPart schemas' digits'
  /-- No text is a name of two roles. -/
  roles : ∀ role role' s, Bears role s → Bears role' s → role = role'
  /-- Fixed names are apart. -/
  fixed : fixedNames.Nodup
  /-- The types of a compiled graph have such names. -/
  compiled : ∀ source addresses g, Source.compile source digits.digits addresses = .ok g →
    ∀ i t, g.types.get? i = some t → ∃ schemas, OneNameEach schemas ∧
      i = typeIdentity (schemas.map Prod.fst) ∧ t.name = setName schemas digits
  /-- So each name on the surface of one has the role of what stands under it. -/
  served : ∀ source addresses g, Source.compile source digits.digits addresses = .ok g → NamedByRole g
  /-- All names of the plain surface are fixed. -/
  plain : ∀ n ∈ Surface.plain.types.keys, n ∈ fixedNames

theorem soundNames (digits : HashLength) : SoundNames digits where
  form schemas := ⟨toList_setName schemas digits, fun _ => isLetterOrDigit_of_mem_readablePart,
    length_identityPart schemas digits, fun _ => isHexDigit_of_mem_identityPart⟩
  legal _ _ h := h.legal
  anyOrder _ _ h hs := h.setName_eq hs
  parts _ _ _ := setName_eq_iff
  roles _ _ _ h h' := h.role_unique h'
  fixed := nodup_fixedNames
  compiled _ _ _ h _ _ ht := Source.bears_of_compile h ht
  served source addresses g h := by
    refine namedByRole fun t ht => ?_
    obtain ⟨i, -, hi⟩ := ht
    obtain ⟨schemas, -, -, hname⟩ := Source.bears_of_compile h hi
    exact hname ▸ .object schemas digits
  plain n hn := by
    rw [keys_plain] at hn
    revert n
    decide +kernel

end ContentGraph
