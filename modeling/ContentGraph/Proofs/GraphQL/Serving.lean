import ContentGraph.GraphQL.Selecting
import ContentGraph.Proofs.Payload.NormalForm
import ContentGraph.Proofs.TypeGraph.Naming
import ContentGraph.Proofs.TypeGraph.Reachable

/-!
# What a surface serves

From the root on, every type that a graph leads to is served under its name, since each name that is
given is looked at once (`gather_closed`). Where no two of the types have one name, that is the type
itself (`TellsApart.get?_named`). The names of document types end in digits of their identities, and
those of other types do not, so that none stands in the way of another: what a name of a surface stands
for can be told from the name (`type?_ofGraph`).
-/

namespace ContentGraph

/-- A field leads to a type. -/
def Field.LeadsTo (types : Catalogue) (f : Field) (u : NodeType) : Prop :=
  ∃ target, f.target? = some target ∧ types.get? target = some u

/-- A field of a type leads to a type. -/
def NodeType.LeadsTo (types : Catalogue) (t u : NodeType) : Prop :=
  ∃ key f, t.fields.get? key = some f ∧ f.LeadsTo types u

/-- A type is reached from the root. -/
def TypeGraph.Reaches (g : TypeGraph) (t : NodeType) : Prop :=
  ∃ i, g.types.Reaches g.root i ∧ g.types.get? i = some t

namespace TypeGraph

variable {g : TypeGraph} {t u : NodeType}

theorem reaches_root (g : TypeGraph) : g.Reaches g.rootType := ⟨g.root, .refl, g.root_mem⟩

theorem Reaches.step (h : g.Reaches t) (hl : t.LeadsTo g.types u) : g.Reaches u := by
  obtain ⟨i, hr, hi⟩ := h
  obtain ⟨key, f, hf, target, ht, hu⟩ := hl
  exact ⟨target, hr.tail ⟨t, key, f, hi, hf, ht⟩, hu⟩

/-- Types with one name are one type. -/
theorem DistinctNames.eq (hn : g.DistinctNames) (ht : g.Reaches t) (hu : g.Reaches u)
    (he : t.name = u.name) : t = u := by
  obtain ⟨i, hri, hi⟩ := ht
  obtain ⟨j, hrj, hj⟩ := hu
  have hinj := List.inj_on_of_nodup_map hn
  have hpair := hinj (Catalogue.mem_reachableTypes.2 ⟨hri, hi⟩) (Catalogue.mem_reachableTypes.2 ⟨hrj, hj⟩) he
  exact congrArg Prod.snd hpair

end TypeGraph

namespace GraphQL

/-! ### Names that are given -/

section

variable {types : Catalogue} {nameOf : NodeType → String} {taken : Table NodeType} {n : String}
  {t : NodeType}

theorem register_of_mem (h : nameOf t ∈ taken.keys) : register nameOf taken t = taken := by
  rw [register, if_pos (Table.contains_iff.2 h)]

theorem register_of_not_mem (h : nameOf t ∉ taken.keys) :
    register nameOf taken t = taken.insert (nameOf t) t := by
  rw [register, if_neg fun hc => h (Table.contains_iff.1 hc)]

theorem mem_keys_registered {us : List NodeType} :
    n ∈ (us.foldl (register nameOf) taken).keys ↔ n ∈ taken.keys ∨ ∃ u ∈ us, nameOf u = n := by
  induction us generalizing taken with
  | nil => simp
  | cons u us ih =>
    have hkeys : n ∈ (register nameOf taken u).keys ↔ n ∈ taken.keys ∨ nameOf u = n := by
      by_cases hu : nameOf u ∈ taken.keys
      · rw [register_of_mem hu]
        exact ⟨.inl, fun h => h.elim id fun he => he ▸ hu⟩
      · rw [register_of_not_mem hu, Table.mem_keys_insert, or_comm, eq_comm]
    rw [List.foldl_cons, ih, hkeys, or_assoc, List.exists_mem_cons_iff]

theorem get?_registered {us : List NodeType} (h : taken.get? n = some t) :
    (us.foldl (register nameOf) taken).get? n = some t := by
  induction us generalizing taken with
  | nil => exact h
  | cons u us ih =>
    refine ih ?_
    by_cases hu : nameOf u ∈ taken.keys
    · rwa [register_of_mem hu]
    · have hne : n ≠ nameOf u := by
        rintro rfl
        exact hu (Table.mem_keys_iff.2 ⟨t, h⟩)
      rwa [register_of_not_mem hu, Table.get?_insert_of_ne hne]

theorem registered_cases {us : List NodeType}
    (h : (us.foldl (register nameOf) taken).get? n = some t) :
    taken.get? n = some t ∨ n ∉ taken.keys ∧ t ∈ us ∧ n = nameOf t := by
  induction us generalizing taken with
  | nil => exact .inl h
  | cons u us ih =>
    by_cases hu : nameOf u ∈ taken.keys
    · rw [List.foldl_cons, register_of_mem hu] at h
      exact (ih h).imp_right fun ⟨hn, hm, he⟩ => ⟨hn, List.mem_cons_of_mem _ hm, he⟩
    · rw [List.foldl_cons, register_of_not_mem hu] at h
      rcases ih h with hold | ⟨hn, hm, he⟩
      · by_cases hne : n = nameOf u
        · subst hne
          rw [Table.get?_insert_self] at hold
          cases hold
          exact .inr ⟨hu, List.mem_cons_self, rfl⟩
        · rw [Table.get?_insert_of_ne hne] at hold
          exact .inl hold
      · rw [Table.mem_keys_insert, not_or] at hn
        exact .inr ⟨hn.2, List.mem_cons_of_mem _ hm, he⟩

/-- The types that the type with a name leads to. -/
def targetsOf (types : Catalogue) (taken : Table NodeType) (name : String) : List NodeType :=
  ((taken.get? name).map fun t => t.targets.filterMap (Table.get? types)).getD []

theorem mem_targetsOf (h : taken.get? n = some t) {u : NodeType} :
    u ∈ targetsOf types taken n ↔ t.LeadsTo types u := by
  rw [targetsOf, h, Option.map_some, Option.getD_some, List.mem_filterMap]
  constructor
  · rintro ⟨target, hm, hu⟩
    obtain ⟨f, hf, ht⟩ := List.mem_filterMap.1 hm
    obtain ⟨⟨key, f⟩, he, rfl⟩ := List.mem_map.1 hf
    exact ⟨key, f, Table.get?_eq_some_iff.2 he, target, ht, hu⟩
  · rintro ⟨key, f, hf, target, ht, hu⟩
    have he := Table.get?_eq_some_iff.1 hf
    exact ⟨target, List.mem_filterMap.2 ⟨f, List.mem_map.2 ⟨(key, f), he, rfl⟩, ht⟩, hu⟩

theorem exists_of_mem_targetsOf {u : NodeType} (h : u ∈ targetsOf types taken n) :
    ∃ t, taken.get? n = some t ∧ t.LeadsTo types u := by
  cases hn : taken.get? n with
  | none =>
    rw [targetsOf, hn] at h
    cases h
  | some t => exact ⟨t, rfl, (mem_targetsOf hn).1 h⟩

variable {remaining pending : List String}

theorem gather_eq_taken (h : pending.find? remaining.contains = none) :
    gather types nameOf remaining pending taken = taken := by
  rw [gather, h]

theorem gather_eq_step {name : String} (h : pending.find? remaining.contains = some name) :
    gather types nameOf remaining pending taken
      = gather types nameOf (remaining.erase name)
          ((targetsOf types taken name).map nameOf ++ pending)
          ((targetsOf types taken name).foldl (register nameOf) taken) := by
  conv_lhs => unfold gather
  split
  · next hn =>
    rw [h] at hn
    cases hn
  · next name' hf =>
    cases h.symm.trans hf
    rfl

/-- A name that was given is kept. -/
theorem get?_gather (h : taken.get? n = some t) :
    (gather types nameOf remaining pending taken).get? n = some t := by
  induction remaining, pending, taken using gather.induct types nameOf with
  | case1 remaining pending taken hf => rwa [gather_eq_taken hf]
  | case2 remaining pending taken name hf _ ih =>
    rw [gather_eq_step hf]
    exact ih (get?_registered h)

/-- What holds of the names given so far and is kept from type to type holds of all names. -/
theorem gather_induction {P : String → NodeType → Prop}
    (hstep : ∀ n t u, P n t → t.LeadsTo types u → P (nameOf u) u)
    (hP : ∀ n t, taken.get? n = some t → P n t) {n : String} {t : NodeType}
    (h : (gather types nameOf remaining pending taken).get? n = some t) : P n t := by
  induction remaining, pending, taken using gather.induct types nameOf with
  | case1 remaining pending taken hf =>
    rw [gather_eq_taken hf] at h
    exact hP n t h
  | case2 remaining pending taken name hf _ ih =>
    rw [gather_eq_step hf] at h
    refine ih (fun n t ht => ?_) h
    rcases registered_cases ht with hold | ⟨-, hm, rfl⟩
    · exact hP n t hold
    · obtain ⟨u, hname, hu⟩ := exists_of_mem_targetsOf hm
      exact hstep name u t (hP name u hname) hu

/-- **What a named type leads to has its name given to some type.** The names that are given and not
looked at yet are pending, and none of them is left out. -/
theorem gather_closed (hpending : ∀ n ∈ pending, n ∈ taken.keys)
    (hroom : ∀ i u, types.get? i = some u → nameOf u ∈ remaining ∨ nameOf u ∈ taken.keys)
    (hopen : ∀ n t, taken.get? n = some t →
      n ∈ remaining ∧ n ∈ pending ∨ ∀ u, t.LeadsTo types u → nameOf u ∈ taken.keys)
    {n : String} {t u : NodeType} (h : (gather types nameOf remaining pending taken).get? n = some t)
    (hu : t.LeadsTo types u) :
    nameOf u ∈ (gather types nameOf remaining pending taken).keys := by
  induction remaining, pending, taken using gather.induct types nameOf with
  | case1 remaining pending taken hf =>
    rw [gather_eq_taken hf] at h ⊢
    rcases hopen n t h with ⟨hr, hp⟩ | hclosed
    · exact absurd (List.contains_iff_mem.2 hr) (List.find?_eq_none.1 hf n hp)
    · exact hclosed u hu
  | case2 remaining pending taken name hf targets ih =>
    have hname : name ∈ pending := List.mem_of_find?_eq_some hf
    rw [gather_eq_step hf] at h ⊢
    refine ih ?_ ?_ ?_ h
    · intro n hn
      rcases List.mem_append.1 hn with hn | hn
      · obtain ⟨v, hv, rfl⟩ := List.mem_map.1 hn
        exact mem_keys_registered.2 (.inr ⟨v, hv, rfl⟩)
      · exact mem_keys_registered.2 (.inl (hpending n hn))
    · intro i v hv
      rcases hroom i v hv with hr | hk
      · by_cases he : nameOf v = name
        · rw [he]
          exact .inr (mem_keys_registered.2 (.inl (hpending name hname)))
        · exact .inl ((List.mem_erase_of_ne he).2 hr)
      · exact .inr (mem_keys_registered.2 (.inl hk))
    · intro n t ht
      rcases registered_cases ht with hold | ⟨hn, hm, rfl⟩
      · by_cases he : n = name
        · -- this name is looked at now
          subst he
          refine .inr fun v hv => mem_keys_registered.2 (.inr ⟨v, ?_, rfl⟩)
          exact (mem_targetsOf hold).2 hv
        · rcases hopen n t hold with ⟨hr, hp⟩ | hclosed
          · exact .inl ⟨(List.mem_erase_of_ne he).2 hr, List.mem_append_right _ hp⟩
          · exact .inr fun v hv => mem_keys_registered.2 (.inl (hclosed v hv))
      · -- a new name is among those that are left, since it was not given before
        have hne : nameOf t ≠ name := by
          intro he
          rw [he] at hn
          exact hn (hpending name hname)
        obtain ⟨v, -, key, f, -, target, -, hget⟩ := exists_of_mem_targetsOf hm
        refine .inl ⟨(List.mem_erase_of_ne hne).2 ((hroom target t hget).resolve_right hn), ?_⟩
        exact List.mem_append_left _ (List.mem_map_of_mem hm)

end

/-! ### Types under their names -/

section

variable {g : TypeGraph} {nameOf : NodeType → String} {rootName : String} {t u : NodeType}

theorem get?_named_root : (named g nameOf rootName).get? rootName = some g.rootType :=
  get?_gather (Table.get?_insert_self _ _ _)

/-- Every name is that of the root, or of the type it is given to. -/
theorem named_cases {n : String} (h : (named g nameOf rootName).get? n = some t) :
    g.Reaches t ∧ (n = rootName ∧ t = g.rootType ∨ n = nameOf t) := by
  refine gather_induction (P := fun n t => g.Reaches t ∧ (n = rootName ∧ t = g.rootType ∨ n = nameOf t))
    (fun n t u ht hu => ⟨ht.1.step hu, .inr rfl⟩) (fun n t ht => ?_) h
  by_cases he : n = rootName
  · subst he
    rw [Table.get?_insert_self] at ht
    cases ht
    exact ⟨g.reaches_root, .inl ⟨rfl, rfl⟩⟩
  · rw [Table.get?_insert_of_ne he] at ht
    cases ht

theorem named_closed {n : String} (h : (named g nameOf rootName).get? n = some t)
    (hu : t.LeadsTo g.types u) : nameOf u ∈ (named g nameOf rootName).keys := by
  refine gather_closed (fun n hn => ?_) (fun i v hv => .inl ?_) (fun n t ht => .inl ?_) h hu
  · rw [List.mem_singleton.1 hn]
    exact Table.mem_keys_iff.2 ⟨_, Table.get?_insert_self _ _ _⟩
  · refine List.mem_eraseDups.2 (List.mem_cons_of_mem _ (List.mem_map_of_mem ?_))
    exact List.mem_map.2 ⟨(i, v), Table.get?_eq_some_iff.1 hv, rfl⟩
  · by_cases he : n = rootName
    · subst he
      exact ⟨List.mem_eraseDups.2 List.mem_cons_self, List.mem_cons_self⟩
    · rw [Table.get?_insert_of_ne he] at ht
      cases ht

/-- Names tell types apart, and only the root has the name of the root. -/
structure TellsApart (g : TypeGraph) (nameOf : NodeType → String) (rootName : String) : Prop where
  /-- Types with one name are one type. -/
  eq : ∀ {t u}, g.Reaches t → g.Reaches u → nameOf t = nameOf u → t = u
  /-- The type with the name of the root is the root. -/
  root : ∀ {t}, g.Reaches t → nameOf t = rootName → t = g.rootType

/-- **What a type under a name leads to stands under its own name.** -/
theorem TellsApart.get?_named (ha : TellsApart g nameOf rootName) {n : String}
    (h : (named g nameOf rootName).get? n = some t) (hu : t.LeadsTo g.types u) :
    (named g nameOf rootName).get? (nameOf u) = some u := by
  obtain ⟨v, hv⟩ := Table.mem_keys_iff.1 (named_closed h hu)
  have hru : g.Reaches u := (named_cases h).1.step hu
  obtain ⟨hrv, ⟨hn, rfl⟩ | hn⟩ := named_cases hv
  · rw [hv, ha.root hru hn]
  · rw [hv, ha.eq hru hrv hn]

/-- **Every type that is reached stands under a name.** -/
theorem TellsApart.exists_named (ha : TellsApart g nameOf rootName) (h : g.Reaches t) :
    ∃ n, (named g nameOf rootName).get? n = some t := by
  obtain ⟨i, hr, hi⟩ := h
  induction hr generalizing t with
  | refl =>
    cases g.root_mem.symm.trans hi
    exact ⟨rootName, get?_named_root⟩
  | tail _ hj ih =>
    obtain ⟨u, key, f, hu, hf, htarget⟩ := hj
    obtain ⟨n, hn⟩ := ih hu
    exact ⟨nameOf t, ha.get?_named hn ⟨key, f, hf, _, htarget, hi⟩⟩

end

/-! ### Names of a surface -/

/-- A type that is there where it is used. -/
def optionalType (used : Bool) (name : String) (t : NamedType) : List (String × NamedType) :=
  if used then [(name, t)] else []

/-- The types that stand on every surface of a graph, whatever fields its types have. -/
def basicTypes (g : TypeGraph) : List (String × NamedType) :=
  commonTypes ++ [("Query", queryObject g.rootType.name),
    ("Mutation", mutationObject [("createDocument", creates "doc" rootInputName)])]

/-- The types of a surface that are those of no document type. -/
def fixedTypes (g : TypeGraph) : List (String × NamedType) :=
  let objects := named g NodeType.name g.rootType.name
  let inputs := named g inputName rootInputName
  basicTypes g
    ++ optionalType (hasKind .number objects || hasKind .number inputs) "Float" (.scalar .number)
    ++ optionalType (hasKind .file objects) "File" fileObject
    ++ optionalType (hasKind .file inputs) "FileInput" fileInput

section

variable {g : TypeGraph} {n : String} {t : NodeType}

theorem find_reverse_entries {α β : Type} (table : Table α) (f : α → β) (key : String) :
    Table.find key (table.entries.map fun e => (e.1, f e.2)).reverse = (table.get? key).map f := by
  have hn : ((table.entries.map fun e => (e.1, f e.2)).map Prod.fst).Nodup := by
    rw [List.map_map]
    exact table.nodup
  rw [Table.find_reverse hn, Table.find_map, Table.get?]

theorem type?_ofGraph (g : TypeGraph) (n : String) :
    (Surface.ofGraph g).type? n
      = (((named g inputName rootInputName).get? n).map (documentInput g.types)).or
          ((((named g NodeType.name g.rootType.name).get? n).map (documentObject g.types)).or
            (Table.find n (fixedTypes g).reverse)) := by
  show (Table.ofList (fixedTypes g
    ++ (named g NodeType.name g.rootType.name).entries.map (fun e => (e.1, documentObject g.types e.2))
    ++ (named g inputName rootInputName).entries.map fun e => (e.1, documentInput g.types e.2))).get? n = _
  rw [Table.get?_ofList, List.reverse_append, List.reverse_append, Table.find_append, Table.find_append,
    find_reverse_entries, find_reverse_entries]

/-- An input is served under its name. -/
theorem type?_input (h : (named g inputName rootInputName).get? n = some t) :
    (Surface.ofGraph g).type? n = some (documentInput g.types t) := by
  rw [type?_ofGraph, h]
  rfl

/-- Names tell the objects apart. -/
theorem tellsApart_objects (hd : g.DistinctNames) : TellsApart g NodeType.name g.rootType.name where
  eq hr hr' he := hd.eq hr hr' he
  root hr he := hd.eq hr g.reaches_root he

theorem not_isTitle_inputName (t : NodeType) : ¬ IsTitle (inputName t) := by
  rintro ⟨-, c, hc, hhex⟩
  rw [inputName, String.toList_append, List.getLast?_append] at hc
  cases hc
  revert hhex
  decide

theorem not_isTitle_rootInputName : ¬ IsTitle rootInputName := fun h => absurd h.1 (by decide)

variable (ht : g.types.Titled)
include ht

theorem isTitle_of_reaches (h : g.Reaches t) : IsTitle t.name := by
  obtain ⟨i, -, hi⟩ := h
  exact ht i t hi

theorem underscore_mem_inputName (h : g.Reaches t) : '_' ∈ (inputName t).toList := by
  rw [inputName, String.toList_append]
  exact List.mem_append_left _ (isTitle_of_reaches ht h).1

theorem isTitle_of_object (h : (named g NodeType.name g.rootType.name).get? n = some t) : IsTitle n := by
  obtain ⟨hr, ⟨rfl, rfl⟩ | rfl⟩ := named_cases h
  · exact isTitle_of_reaches ht hr
  · exact isTitle_of_reaches ht hr

/-- An object is served under its name, which is that of no input. -/
theorem type?_object (h : (named g NodeType.name g.rootType.name).get? n = some t) :
    (Surface.ofGraph g).type? n = some (documentObject g.types t) := by
  have htitle := isTitle_of_object ht h
  have hinput : (named g inputName rootInputName).get? n = none := by
    cases hi : (named g inputName rootInputName).get? n with
    | none => rfl
    | some u =>
      obtain ⟨-, ⟨rfl, -⟩ | rfl⟩ := named_cases hi
      · exact absurd htitle not_isTitle_rootInputName
      · exact absurd htitle (not_isTitle_inputName u)
  rw [type?_ofGraph, hinput, h]
  rfl

/-- A name without an underscore is that of no document type. -/
theorem type?_fixed (hn : '_' ∉ n.toList) (hr : n ≠ rootInputName) :
    (Surface.ofGraph g).type? n = Table.find n (fixedTypes g).reverse := by
  have hinput : (named g inputName rootInputName).get? n = none := by
    cases hi : (named g inputName rootInputName).get? n with
    | none => rfl
    | some u =>
      obtain ⟨hu, ⟨rfl, -⟩ | rfl⟩ := named_cases hi
      · exact absurd rfl hr
      · exact absurd (underscore_mem_inputName ht hu) hn
  have hobject : (named g NodeType.name g.rootType.name).get? n = none := by
    cases ho : (named g NodeType.name g.rootType.name).get? n with
    | none => rfl
    | some u => exact absurd (isTitle_of_object ht ho).1 hn
  rw [type?_ofGraph, hinput, hobject]
  rfl

/-- Names tell the inputs apart. -/
theorem tellsApart_inputs (hd : g.DistinctNames) : TellsApart g inputName rootInputName where
  eq hr hr' he := hd.eq hr hr' ((String.append_left_inj _).1 he)
  root hr he := absurd (underscore_mem_inputName ht hr) (by rw [he]; decide)

end

/-- The fields of an object under its name are those of the type. -/
theorem field?_object {g : TypeGraph} {n name : String} {t : NodeType} (ht : g.types.Titled)
    (h : (named g NodeType.name g.rootType.name).get? n = some t) (hne : name ≠ typenameField) :
    (Surface.ofGraph g).field? n name
      = (t.fields.get? name).map fun f => ⟨fieldType g.types "File" NodeType.name f, []⟩ := by
  have hobject : (Surface.ofGraph g).object? n
      = some (t.fields.entries.map fun e => (e.1, ⟨fieldType g.types "File" NodeType.name e.2, []⟩)) := by
    rw [Surface.object?, type?_object ht h]
    rfl
  rw [Surface.field?, hobject, Option.bind_some, if_neg hne, Table.get?]
  exact Table.find_map (fun f => (⟨fieldType g.types "File" NodeType.name f, []⟩ : OutputField)) name
    t.fields.entries

/-- What stands under a field that leads to a type has the name of the type. -/
theorem name_fieldType_node {types : Catalogue} {file : String} {nameOf : NodeType → String} {f : Field}
    {u : NodeType} (h : f.LeadsTo types u) : (fieldType types file nameOf f).name = nameOf u := by
  obtain ⟨shape, multiple⟩ := f
  obtain ⟨target, ht, hu⟩ := h
  cases shape with
  | value kind => cases ht
  | node schemas other =>
    cases ht
    cases multiple <;> simp [fieldType, TypeRef.name, hu]

/-- Where a type has a field of a kind, the types that are served have one. -/
theorem hasKind_of_field {kind : ValueKind} {ts : Table NodeType} {n key : String} {t : NodeType} {f : Field}
    (ht : ts.get? n = some t) (hf : t.fields.get? key = some f) (hk : f.kind = .value kind) :
    hasKind kind ts = true := by
  refine List.any_eq_true.2 ⟨t, List.mem_map.2 ⟨(n, t), Table.get?_eq_some_iff.1 ht, rfl⟩, ?_⟩
  refine List.any_eq_true.2 ⟨f, List.mem_map.2 ⟨(key, f), Table.get?_eq_some_iff.1 hf, rfl⟩, ?_⟩
  simpa using hk

theorem find_optionalType_of_ne {used : Bool} {name key : String} (h : name ≠ key) (t : NamedType) :
    Table.find key (optionalType used name t).reverse = none := by
  cases used <;> simp [optionalType, Table.find, h]

theorem find_optionalType_self (name : String) (t : NamedType) :
    Table.find name (optionalType true name t).reverse = some t := by
  simp [optionalType, Table.find]

/-- A type that is always there is not hidden by one that may be. -/
theorem find_fixedTypes_basic (g : TypeGraph) {n : String} (hn : n ∉ ["Float", "File", "FileInput"]) :
    Table.find n (fixedTypes g).reverse = Table.find n (basicTypes g).reverse := by
  simp only [List.mem_cons, List.not_mem_nil, or_false, not_or] at hn
  obtain ⟨hfloat, hfile, hinput⟩ := hn
  simp only [fixedTypes, List.reverse_append, Table.find_append,
    find_optionalType_of_ne (Ne.symm hfloat), find_optionalType_of_ne (Ne.symm hfile),
    find_optionalType_of_ne (Ne.symm hinput), Option.none_or]

section

variable {g : TypeGraph} (ht : g.types.Titled)
include ht

/-- Texts are served on every surface. -/
theorem type?_text : (Surface.ofGraph g).type? "String" = some (.scalar .text) := by
  rw [type?_fixed ht (by decide) (by decide), find_fixedTypes_basic g (by decide)]
  simp [basicTypes, commonTypes, Table.find]

end

end GraphQL

end ContentGraph
