import ContentGraph.Proofs.Checked
import ContentGraph.Proofs.GraphQL.Requests
import ContentGraph.Proofs.GraphQL.Serving
import ContentGraph.Proofs.TypeGraph.Correctness

/-!
# Keys as names of fields

The keys of all types that a graph leads to are the names of fields of its surface. The check of a graph
passes exactly where all of them are names (`TypeGraph.checkFieldNames_eq_ok_iff`), and otherwise tells the
first that is none (`TypeGraph.RefusesKey`).

A name that begins with two underscores passes, although the query language keeps it for itself: a surface
with such a key is refused as a whole, whatever is asked (`GraphQL.hasReservedName_ofGraph`). So the surfaces
that are served are those of graphs that pass the check and have no such key (`GraphQL.checksNames`).
-/

namespace ContentGraph

/-! ### Names -/

/-- A letter or an underscore. -/
def StartsName (c : Char) : Prop := c = '_' ∨ 'A' ≤ c ∧ c ≤ 'Z' ∨ 'a' ≤ c ∧ c ≤ 'z'

/-- A letter, an underscore or a digit. -/
def ContinuesName (c : Char) : Prop := StartsName c ∨ '0' ≤ c ∧ c ≤ '9'

/-- A text is a name. -/
def IsName (s : String) : Prop :=
  ∃ c rest, s.toList = c :: rest ∧ StartsName c ∧ ∀ d ∈ rest, ContinuesName d

/-- A text begins with two underscores. -/
def IsReserved (s : String) : Prop := ['_', '_'] <+: s.toList

theorem isNameStart_iff {c : Char} : isNameStart c = true ↔ StartsName c := by
  have hletter : c.isAlpha = (decide ('A' ≤ c ∧ c ≤ 'Z') || (decide ('a' ≤ c) && decide (c ≤ 'z'))) := rfl
  rw [isNameStart, StartsName, hletter]
  simp only [Bool.or_eq_true, Bool.and_eq_true, decide_eq_true_eq]
  exact or_comm

theorem isNameContinue_iff {c : Char} : isNameContinue c = true ↔ ContinuesName c := by
  have hsplit : isNameContinue c = (c.isAlpha || (decide ('0' ≤ c) && decide (c ≤ '9')) || decide (c = '_')) :=
    rfl
  rw [ContinuesName, ← isNameStart_iff, hsplit, isNameStart]
  simp only [Bool.or_eq_true, Bool.and_eq_true, decide_eq_true_eq]
  exact or_right_comm

/-- There is no problem with a text that is a name, and with no other. -/
theorem nameProblem?_eq_none_iff_isName {s : String} : nameProblem? s = none ↔ IsName s := by
  cases hs : s.toList with
  | nil => simp [nameProblem?, IsName, hs]
  | cons c rest => simp [nameProblem?_eq_none_iff hs, IsName, hs, isNameStart_iff, isNameContinue_iff]

theorem isReservedName_iff {s : String} : isReservedName s = true ↔ IsReserved s := by
  unfold isReservedName IsReserved
  split
  · next rest hs => simp [hs]
  · next hs =>
    refine iff_of_false Bool.false_ne_true ?_
    rintro ⟨rest, hrest⟩
    exact hs rest hrest.symm

/-! ### The check of a graph -/

/-- For what failure a graph is not served: the first key that is no name, of the first type that has such
a key, with the addresses of that type. -/
inductive TypeGraph.RefusesKey (g : TypeGraph) : Failure → Prop
  /-- The types before it and the keys before it are all right. -/
  | first {seen unseen : List (String × NodeType)} {i key : String} {t : NodeType} {before after : List String}
      {problem : NameProblem} : g.reachable = seen ++ (i, t) :: unseen →
      (∀ e ∈ seen, ∀ k ∈ e.2.fields.keys, IsName k) → t.fields.keys = before ++ key :: after →
      (∀ k ∈ before, IsName k) → ¬ IsName key → nameProblem? key = some problem →
      RefusesKey g (.fieldName key t.addresses problem)

section

variable {g : TypeGraph} {t : NodeType}

theorem NodeType.fieldNameFailure?_eq_none_iff :
    t.fieldNameFailure? = none ↔ ∀ key ∈ t.fields.keys, IsName key := by
  unfold fieldNameFailure?
  simp only [List.findSome?_eq_none_iff, Option.map_eq_none_iff, nameProblem?_eq_none_iff_isName]

theorem NodeType.fieldNameFailure?_eq_some_iff {failure : Failure} : t.fieldNameFailure? = some failure ↔
    ∃ before key after problem, t.fields.keys = before ++ key :: after ∧ (∀ k ∈ before, IsName k) ∧
      nameProblem? key = some problem ∧ failure = .fieldName key t.addresses problem := by
  unfold fieldNameFailure?
  simp only [List.findSome?_eq_some_iff, Option.map_eq_none_iff, nameProblem?_eq_none_iff_isName,
    Option.map_eq_some_iff]
  constructor
  · rintro ⟨before, key, after, hkeys, ⟨problem, hp, rfl⟩, hbefore⟩
    exact ⟨before, key, after, problem, hkeys, hbefore, hp, rfl⟩
  · rintro ⟨before, key, after, problem, hkeys, hbefore, hp, rfl⟩
    exact ⟨before, key, after, hkeys, ⟨problem, hp, rfl⟩, hbefore⟩

namespace TypeGraph

theorem checkFieldNames_eq_error_iff {failure : Failure} :
    g.checkFieldNames = .error failure ↔ g.RefusesKey failure := by
  have hfound : g.checkFieldNames = .error failure ↔
      (g.reachable.findSome? fun t => t.2.fieldNameFailure?) = some failure := by
    unfold checkFieldNames
    cases g.reachable.findSome? fun t => t.2.fieldNameFailure? <;> simp
  rw [hfound, List.findSome?_eq_some_iff]
  constructor
  · rintro ⟨seen, ⟨i, t⟩, unseen, hreach, ht, hseen⟩
    obtain ⟨before, key, after, problem, hkeys, hbefore, hp, rfl⟩ :=
      NodeType.fieldNameFailure?_eq_some_iff.1 ht
    have hkey : ¬ IsName key := fun h => nomatch (nameProblem?_eq_none_iff_isName.2 h).symm.trans hp
    have hseen := fun e he => NodeType.fieldNameFailure?_eq_none_iff.1 (hseen e he)
    exact .first hreach hseen hkeys hbefore hkey hp
  · rintro ⟨hreach, hseen, hkeys, hbefore, -, hp⟩
    refine ⟨_, _, _, hreach, ?_, fun e he => NodeType.fieldNameFailure?_eq_none_iff.2 (hseen e he)⟩
    exact NodeType.fieldNameFailure?_eq_some_iff.2 ⟨_, _, _, _, hkeys, hbefore, hp, rfl⟩

/-- **The check of a graph passes where all keys of all types that it leads to are names.** -/
theorem checkFieldNames_eq_ok_iff :
    g.checkFieldNames = .ok () ↔ ∀ t, g.Reaches t → ∀ key ∈ t.fields.keys, IsName key := by
  have hfound : g.checkFieldNames = .ok () ↔
      (g.reachable.findSome? fun t => t.2.fieldNameFailure?) = none := by
    unfold checkFieldNames
    cases g.reachable.findSome? fun t => t.2.fieldNameFailure? <;> simp
  rw [hfound, List.findSome?_eq_none_iff]
  simp only [NodeType.fieldNameFailure?_eq_none_iff]
  constructor
  · rintro h t ⟨i, hr, ht⟩
    exact h (i, t) (Catalogue.mem_reachableTypes.2 ⟨hr, ht⟩)
  · rintro h ⟨i, t⟩ hm
    exact h t ⟨i, Catalogue.mem_reachableTypes.1 hm⟩

end TypeGraph

end

namespace GraphQL

/-! ### Names that are kept -/

section

variable {g : TypeGraph} {t : NodeType} {key : String}

theorem fieldNames_documentObject (types : Catalogue) (t : NodeType) :
    (documentObject types t).fieldNames = t.fields.keys := by
  simp [documentObject, NamedType.fieldNames, Table.keys]

theorem fieldNames_documentInput (types : Catalogue) (t : NodeType) :
    (documentInput types t).fieldNames = t.fields.keys := by
  simp [documentInput, NamedType.fieldNames, Table.keys]

/-- The types that are those of no document type have no field whose name is kept. -/
theorem not_isReserved_fixed {e : String × NamedType} (he : e ∈ fixedTypes g) (hk : key ∈ e.2.fieldNames) :
    isReservedName key = false := by
  have hall : ∀ e ∈ fixedTypes g, e.2.fieldNames.all fun key => !isReservedName key := by
    have hoptional : ∀ used name (t : NamedType), (t.fieldNames.all fun key => !isReservedName key) = true →
        ∀ e ∈ optionalType used name t, e.2.fieldNames.all fun key => !isReservedName key := by
      intro used name t ht e he
      cases used with
      | true =>
        rw [List.mem_singleton.1 he]
        exact ht
      | false => cases he
    have hbasic : ∀ e ∈ basicTypes g, e.2.fieldNames.all fun key => !isReservedName key := by
      intro e he
      have hlist : ((basicTypes g).map fun e => e.2.fieldNames) = (commonTypes.map fun e => e.2.fieldNames) ++
          [["get"], ["createSchema", "createAlias", "createDocument"]] := rfl
      have hnames : e.2.fieldNames ∈ (basicTypes g).map fun e => e.2.fieldNames := List.mem_map.2 ⟨e, he, rfl⟩
      rw [hlist] at hnames
      revert hnames
      generalize e.2.fieldNames = names
      revert names
      decide +kernel
    intro e he
    simp only [fixedTypes, List.mem_append] at he
    rcases he with ((he | he) | he) | he
    · exact hbasic e he
    · exact hoptional _ _ _ rfl e he
    · exact hoptional _ _ _ rfl e he
    · exact hoptional _ _ _ rfl e he
  simpa using List.all_eq_true.1 (hall e he) key hk

theorem hasReservedName_iff {s : Surface} : s.hasReservedName = true ↔
    ∃ n t key, s.type? n = some t ∧ key ∈ t.fieldNames ∧ IsReserved key := by
  unfold Surface.hasReservedName Surface.type?
  simp only [List.any_eq_true, isReservedName_iff]
  constructor
  · rintro ⟨t, ht, key, hk, hr⟩
    obtain ⟨⟨n, t⟩, he, rfl⟩ := List.mem_map.1 ht
    exact ⟨n, t, key, Table.get?_eq_some_iff.2 he, hk, hr⟩
  · rintro ⟨n, t, key, ht, hk, hr⟩
    exact ⟨t, List.mem_map.2 ⟨(n, t), Table.get?_eq_some_iff.1 ht, rfl⟩, key, hk, hr⟩

/-- A surface has a name that is kept where a type of its graph has such a key. -/
theorem hasReservedName_ofGraph (ht : g.types.Titled) (hd : g.DistinctNames) :
    (Surface.ofGraph g).hasReservedName = true ↔
      ∃ t, g.Reaches t ∧ ∃ key ∈ t.fields.keys, IsReserved key := by
  rw [hasReservedName_iff]
  constructor
  · rintro ⟨n, u, key, hu, hk, hr⟩
    rw [type?_ofGraph, Option.or_eq_some_iff, Option.or_eq_some_iff] at hu
    rcases hu with hu | ⟨-, hu | ⟨-, hu⟩⟩
    · obtain ⟨t, hn, rfl⟩ := Option.map_eq_some_iff.1 hu
      exact ⟨t, (named_cases hn).1, key, fieldNames_documentInput g.types t ▸ hk, hr⟩
    · obtain ⟨t, hn, rfl⟩ := Option.map_eq_some_iff.1 hu
      exact ⟨t, (named_cases hn).1, key, fieldNames_documentObject g.types t ▸ hk, hr⟩
    · have hno := not_isReserved_fixed (List.mem_reverse.1 (Table.mem_of_find hu)) hk
      rw [isReservedName_iff.2 hr] at hno
      cases hno
  · rintro ⟨t, hreach, key, hk, hr⟩
    obtain ⟨n, hn⟩ := (tellsApart_objects hd).exists_named hreach
    exact ⟨n, _, key, type?_object ht hn, (fieldNames_documentObject g.types t).symm ▸ hk, hr⟩

end

/-- Whatever is asked of a surface is refused where a field has a name that is kept, and only there. -/
theorem refused_iff_hasReservedName {gateway : Gateway} {settings : Settings} {addresses : List String}
    {s : Surface} (hs : Surface.build gateway.source settings addresses = .ok s) :
    (∀ i : Inquiry, (i.serve settings addresses (.ofGateway gateway)).1 = .refused .checking) ↔
      s.hasReservedName = true := by
  constructor
  · intro h
    by_contra hno
    have hempty := h ⟨"", [], none, none⟩
    rw [Inquiry.serve_ofGateway hs, Inquiry.check, if_neg hno] at hempty
    cases hempty
  · intro h i
    rw [Inquiry.serve_ofGateway hs, Inquiry.check, if_pos h]

/-- What the check of field names says of a graph, and what becomes of the requests for its addresses. -/
structure ChecksNames (gateway : Gateway) (settings : Settings) (addresses : List String) (g : TypeGraph) :
    Prop where
  /-- The check passes where all keys of all types that the graph leads to are names. -/
  passes : g.checkFieldNames = .ok () ↔ ∀ t, g.Reaches t → ∀ key ∈ t.fields.keys, IsName key
  /-- Otherwise it tells the first key that is none, with the addresses of its type. -/
  fails : ∀ failure, g.checkFieldNames = .error failure ↔ g.RefusesKey failure
  /-- Where it passes, every request is refused if a key begins with two underscores, and only then. -/
  refuses : g.checkFieldNames = .ok () →
    ((∀ i : Inquiry, (i.serve settings addresses (.ofGateway gateway)).1 = .refused .checking) ↔
      ∃ t, g.Reaches t ∧ ∃ key ∈ t.fields.keys, IsReserved key)

/-- **The check passes the graphs whose keys are names, and of these a graph is refused as a whole exactly where
one of its keys is kept by the query language.** -/
theorem checksNames {gateway : Gateway} {settings : Settings} {addresses : List String} {g : TypeGraph}
    (hg : gateway.source.compile settings.hashLength.digits addresses = .ok g) (hn : g.DistinctNames) :
    ChecksNames gateway settings addresses g where
  passes := TypeGraph.checkFieldNames_eq_ok_iff
  fails _ := TypeGraph.checkFieldNames_eq_error_iff
  refuses hpasses :=
    (refused_iff_hasReservedName
      (build_eq_ofGraph (Source.ne_nil_of_compile hg) hg (by rw [hpasses]; rfl))).trans
      (hasReservedName_ofGraph (Source.titled_of_compile hg) hn)

/-- A store of a schema whose key is a name that the query language keeps. -/
def keptNameStore : Store :=
  (Store.empty "omg://").putRaw "p" (.object [("kind", .text "schema"), ("name", .text "P"),
    ("elements", .object [("__x", .object [("kind", .text "string")])])])

theorem checksNames_kept : ∃ g,
    (Gateway.ofStore keptNameStore).source.compile Settings.default.hashLength.digits ["p"] = .ok g ∧
    g.DistinctNames ∧ g.checkFieldNames = .ok () ∧
    (∀ i : Inquiry, (i.serve .default ["p"] (.ofGateway (.ofStore keptNameStore))).1 = .refused .checking) ∧
    ChecksNames (.ofStore keptNameStore) .default ["p"] g := by
  have hrun : ((Gateway.ofStore keptNameStore).source.compile Settings.default.hashLength.digits
      ["p"]).toOption.any (fun g => decide g.DistinctNames && g.checkFieldNames.isOk &&
        (Surface.ofGraph g).hasReservedName) = true := by
    decide +kernel
  obtain ⟨g, hg, hrun⟩ := exists_ok_of_any hrun
  rw [Bool.and_eq_true, Bool.and_eq_true, decide_eq_true_eq] at hrun
  obtain ⟨⟨hn, hpasses⟩, hkept⟩ := hrun
  have hbuilt := build_eq_ofGraph (Source.ne_nil_of_compile hg) hg hpasses
  have hrefused := (refused_iff_hasReservedName hbuilt).2 hkept
  have hok : g.checkFieldNames = .ok () := by
    cases hc : g.checkFieldNames with
    | error e =>
      rw [hc] at hpasses
      cases hpasses
    | ok u => rfl
  exact ⟨g, hg, hn, hok, hrefused, checksNames hg hn⟩

end GraphQL

end ContentGraph
