import ContentGraph.Proofs.Document.Foreseen
import ContentGraph.Proofs.GraphQL.Serving

/-!
# Types that are found by their names

A type is known by its identity, but the model by which its payloads are read, the object under which
it is served and the input under which it is given are found by its name. The name tells a part of the
identity only, so that two types have one name where the names of their schemas read the same and their
identities begin with the same digits (`TypeGraph.NamesTypes`). What is found by a name is the type
itself exactly where no two types have one, and then a payload is read, written and served by the types
that its fields lead to, and no call ends in an accident (`TypeGraph.FoundByName`).

The number of digits is a setting. With all of them names are distinct, with fewer they need not be:
eight digits leave room for two schemas with one name (`sharesName_eightDigits`).
-/

namespace ContentGraph

open GraphQL

namespace TypeGraph

variable {source : Source} {digits : HashLength} {addresses : List String} {g : TypeGraph}
  {i j : String} {t u : NodeType}

/-! ### What a name tells -/

theorem get?_of_mem_reachable (h : (i, t) ∈ g.reachable) : g.types.get? i = some t :=
  Catalogue.get?_of_mem_reachableTypes h

theorem distinctNames_iff : g.DistinctNames ↔
    ∀ i t j u, (i, t) ∈ g.reachable → (j, u) ∈ g.reachable → t.name = u.name → i = j := by
  have hnodup : g.reachable.Nodup := Catalogue.nodup_reachableTypes g.types g.root
  rw [DistinctNames, List.nodup_map_iff_inj_on hnodup]
  constructor
  · intro h i t j u ht hu he
    exact congrArg Prod.fst (h (i, t) ht (j, u) hu he)
  · rintro h ⟨i, t⟩ ht ⟨j, u⟩ hu he
    obtain rfl := h i t j u ht hu he
    cases (get?_of_mem_reachable ht).symm.trans (get?_of_mem_reachable hu)
    rfl

/-- The names of the types of a compiled graph, and what is found by them. -/
structure NamesTypes (g : TypeGraph) (source : Source) (digits : HashLength) : Prop where
  /-- Two types have one name exactly where the names of their schemas read the same and their
  identities begin with the same digits. -/
  name_iff : ∀ i t j u, (i, t) ∈ g.reachable → (j, u) ∈ g.reachable → (t.name = u.name ↔
    readableNames (t.addresses.map source.schemaName) = readableNames (u.addresses.map source.schemaName) ∧
      i.toList.take digits.digits = j.toList.take digits.digits)
  /-- So names are distinct exactly where that is so of no two types. -/
  distinct_iff : g.DistinctNames ↔ ∀ i t j u, (i, t) ∈ g.reachable → (j, u) ∈ g.reachable → i ≠ j →
    readableNames (t.addresses.map source.schemaName) = readableNames (u.addresses.map source.schemaName) →
      i.toList.take digits.digits ≠ j.toList.take digits.digits
  /-- With all digits of the identities they are. -/
  all_digits : digits.digits = 64 → g.DistinctNames
  /-- The model that is found for a type is always the type itself exactly where names are distinct. -/
  models_iff : (∀ i t, (i, t) ∈ g.reachable → Models.target? g.reachable i = some t) ↔ g.DistinctNames

theorem target?_of_mem (h : (i, t) ∈ g.reachable) :
    Models.target? g.reachable i = Models.named? g.reachable t.name := by
  unfold Models.target?
  cases hf : g.reachable.find? fun m => m.1 = i with
  | none =>
    have hno := List.find?_eq_none.1 hf _ h
    simp at hno
  | some m =>
    have hi : m.1 = i := by simpa using List.find?_some hf
    have hget : g.types.get? m.1 = some m.2 := get?_of_mem_reachable (List.mem_of_find?_eq_some hf)
    rw [hi, get?_of_mem_reachable h] at hget
    rw [Option.bind_some, ← Option.some.inj hget]

theorem namesTypes (h : source.compile digits.digits addresses = .ok g) :
    g.NamesTypes source digits := by
  have hnamed : ∀ i t, (i, t) ∈ g.reachable → t.NamedAfter source digits.digits i := fun i t hm =>
    Source.namedAfter_of_compile h (get?_of_mem_reachable hm)
  have hiff : ∀ i t j u, (i, t) ∈ g.reachable → (j, u) ∈ g.reachable → (t.name = u.name ↔
      readableNames (t.addresses.map source.schemaName)
          = readableNames (u.addresses.map source.schemaName) ∧
        i.toList.take digits.digits = j.toList.take digits.digits) := by
    intro i t j u ht hu
    obtain ⟨hi, ht⟩ := hnamed i t ht
    obtain ⟨hj, hu⟩ := hnamed j u hu
    rw [ht, hu, hi, hj]
    exact typeName_eq_iff digits
  refine ⟨hiff, ?_, fun hall => ?_, ?_⟩
  · rw [distinctNames_iff]
    constructor
    · intro hd i t j u ht hu hne hr hdigits
      exact hne (hd i t j u ht hu ((hiff i t j u ht hu).2 ⟨hr, hdigits⟩))
    · intro hd i t j u ht hu he
      by_contra hne
      obtain ⟨hr, hdigits⟩ := (hiff i t j u ht hu).1 he
      exact hd i t j u ht hu hne hr hdigits
  · refine distinctNames_iff.2 fun i t j u ht hu he => ?_
    obtain ⟨-, hdigits⟩ := (hiff i t j u ht hu).1 he
    have hi : i.toList.length = 64 := by rw [(hnamed i t ht).identity, length_typeIdentity]
    have hj : j.toList.length = 64 := by rw [(hnamed j u hu).identity, length_typeIdentity]
    rw [List.take_of_length_le (by omega), List.take_of_length_le (by omega)] at hdigits
    exact String.toList_inj.1 hdigits
  · constructor
    · intro hm
      refine distinctNames_iff.2 fun i t j u ht hu he => ?_
      have htu : t = u := Option.some.inj (by
        rw [← hm i t ht, ← hm j u hu, target?_of_mem ht, target?_of_mem hu, he])
      rw [(hnamed i t ht).identity, (hnamed j u hu).identity, htu]
    · intro hd i t ht
      rw [target?_of_mem ht]
      exact Models.named?_name hd ht

/-! ### What is found by names -/

/-- What is found by the names of types is the types themselves. -/
structure FoundByName (g : TypeGraph) (s : Settings) (addresses : List String) : Prop where
  /-- Payloads are read by the types that fields lead to. -/
  read : ∀ p v, g.validatePayload p = .ok v ↔
    Payload.Conforms g.types g.rootType p ∧ Payload.Normalises g.types g.rootType p v
  /-- Every type that is reached is served under its name. -/
  objects : ∀ t, g.Reaches t →
    (Surface.ofGraph g).type? t.name = some (documentObject g.types t)
  /-- The root is given under the name of the root. -/
  rootInput : (Surface.ofGraph g).type? rootInputName = some (documentInput g.types g.rootType)
  /-- What a type leads to is given under its name. -/
  inputs : ∀ t u, g.Reaches t → t.LeadsTo g.types u →
    (Surface.ofGraph g).type? (inputName u) = some (documentInput g.types u)
  /-- In every history of an accepted payload, whatever moves are made and whatever happens to the
  store beside them, a job is given up with something foreseen. -/
  everyHistory : ∀ payload v, g.validatePayload payload = .ok v →
    ∀ version others start calls r,
      Job.Leads version others (.planned (.ofPayload g.types g.rootType addresses v), start) calls r →
      ∀ fault, r.1.fault? = some fault → fault.Foreseen
  /-- What `materialize` fails with is foreseen, where the payload is validated against the graph. -/
  materialized : ∀ payload validator gateway fault,
    (validatorFor s addresses validator (.ofGateway gateway)).1 = .ok g →
    (materialize s payload addresses validator (.ofGateway gateway)).1 = .error fault → fault.Foreseen
  /-- So is what `createDocument` fails with. -/
  created : ∀ payload validator gateway fault,
    (validatorFor s addresses validator (.ofGateway gateway)).1 = .ok g →
    (createDocument s payload addresses validator (.ofGateway gateway)).1 = .error fault → fault.Foreseen

theorem foundByName {s : Settings} (h : source.compile digits.digits addresses = .ok g)
    (hd : g.DistinctNames) : g.FoundByName s addresses := by
  have ht := Source.titled_of_compile h
  have hplan : ∀ payload v, g.validatePayload payload = .ok v →
      (Plan.ofPayload g.types g.rootType addresses v).All Portion.Foreseen := fun _ _ hv =>
    foreseen_ofPayload (Source.closed_of_compile h) hd hv addresses
  have hplans : ∀ payload validator gateway,
      (validatorFor s addresses validator (.ofGateway gateway)).1 = .ok g →
      PlansForeseen s payload addresses validator gateway := by
    rintro payload validator gateway hg plan ⟨graph, w, v, hw, hv, rfl⟩
    rw [hw] at hg
    cases hg
    exact hplan payload v hv
  refine ⟨fun p v => validatePayload_iff_normalises hd, fun t hr => ?_, type?_input get?_named_root,
    fun t u hr hu => ?_, fun payload v hv version others start calls r hl fault hf => ?_,
    fun payload validator gateway fault hg => foreseen_materialize (hplans payload validator gateway hg),
    fun payload validator gateway fault hg =>
      foreseen_createDocument (hplans payload validator gateway hg)⟩
  · obtain ⟨n, hn⟩ := (tellsApart_objects hd).exists_named hr
    have hname : n = t.name := by
      obtain ⟨-, ⟨rfl, rfl⟩ | rfl⟩ := named_cases hn <;> rfl
    exact hname ▸ type?_object ht hn
  · obtain ⟨n, hn⟩ := (tellsApart_inputs ht hd).exists_named hr
    exact type?_input ((tellsApart_inputs ht hd).get?_named hn hu)
  · exact (hl.foreseen (.planned (hplan payload v hv))).fault hf

/-- **The names of a compiled graph** tell two types apart unless the names of their schemas read the
same and their identities begin with the same digits. Where no two types are alike in this, whatever is
found by a name is right. -/
theorem names_of_compile {s : Settings} (h : source.compile s.hashLength.digits addresses = .ok g) :
    g.NamesTypes source s.hashLength ∧ (g.DistinctNames → g.FoundByName s addresses) :=
  ⟨namesTypes h, foundByName h⟩

theorem names_of_compile_chain : ∃ g,
    (Gateway.ofStore chainStore).source.compile Settings.default.hashLength.digits ["head", "link"]
      = .ok g ∧ g.DistinctNames ∧ g.NamesTypes (Gateway.ofStore chainStore).source
        Settings.default.hashLength ∧ g.FoundByName .default ["head", "link"] := by
  have hrun : ((Gateway.ofStore chainStore).source.compile Settings.default.hashLength.digits
      ["head", "link"]).toOption.any (fun g => decide g.DistinctNames) = true := by
    decide +kernel
  obtain ⟨g, hg, hn⟩ := exists_ok_of_any hrun
  have hn := of_decide_eq_true hn
  have h := names_of_compile hg
  exact ⟨g, hg, hn, h.1, h.2 hn⟩

/-! ### Two types with one name -/

/-- A schema with two nodes whose schemas have one name and whose types have identities that begin with
the same eight digits. -/
def eightDigitsStore : Store :=
  (((Store.empty "omg://").putRaw "s2330" (.object [("kind", .text "schema"), ("name", .text "X"),
      ("elements", .object [("a", .object [("kind", .text "string")])])])).putRaw
    "s130636" (.object [("kind", .text "schema"), ("name", .text "X"),
      ("elements", .object [("b", .object [("kind", .text "string")])])])).putRaw
    "post" (.object [("kind", .text "schema"), ("name", .text "Post"),
      ("elements", .object [("first", .object [("kind", .text "node"), ("schemas", .texts ["s2330"])]),
        ("second", .object [("kind", .text "node"), ("schemas", .texts ["s130636"])])])])

/-- A payload that has for each node what its schema defines. -/
def eightDigitsPayload : Json :=
  .object [("first", .object [("a", .text "x")]), ("second", .object [("b", .text "y")])]

/-- A payload that has for each node what the schema of the first defines. -/
def firstTwicePayload : Json :=
  .object [("first", .object [("a", .text "x")]), ("second", .object [("a", .text "y")])]

/-- The first payload is refused, and the second is accepted: that its second node has not the key of
its schema is met by accident, when its document is to be written. -/
theorem sharesName_eightDigits :
    (∃ g, (Gateway.ofStore eightDigitsStore).source.compile Settings.default.hashLength.digits ["post"]
        = .ok g ∧ ¬ g.DistinctNames ∧ (g.validatePayload eightDigitsPayload).toOption.isNone) ∧
      ∃ fault, (materialize .default firstTwicePayload ["post"] none
        (.ofGateway (.ofStore eightDigitsStore))).1 = .error fault ∧ ¬ fault.Foreseen := by
  have hgraph : ((Gateway.ofStore eightDigitsStore).source.compile Settings.default.hashLength.digits
      ["post"]).toOption.any (fun g =>
        ¬ g.DistinctNames ∧ (g.validatePayload eightDigitsPayload).toOption.isNone) = true := by
    decide +kernel
  have hfault : (errorOf? (materialize .default firstTwicePayload ["post"] none
      (.ofGateway (.ofStore eightDigitsStore))).1).any (fun fault => ¬ fault.Foreseen) = true := by
    decide +kernel
  obtain ⟨g, hg, h⟩ := exists_ok_of_any hgraph
  obtain ⟨fault, hf, hforeseen⟩ := exists_error_of_any hfault
  exact ⟨⟨g, hg, of_decide_eq_true h⟩, fault, hf, of_decide_eq_true hforeseen⟩

end TypeGraph

end ContentGraph
