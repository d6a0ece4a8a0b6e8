import ContentGraph.Proofs.Document.Rewriting

/-!
# Validation and reading

A document is validated in two passes: over its elements, for their keys and kinds, and over the fields
of the type, for how often their keys stand. A field is read by itself: first how often its key stands,
then the kinds of the elements, then the documents that they lead to. Where every reference leads to a
document, both accept the same documents (`NodeType.validateDocument_iff_readField`).

A document that is refused is so for its first element that does not fit the type, and only where there is
none for the first field whose key does not stand once and has to (`NodeType.Refuses`).
-/

namespace ContentGraph

/-- How many elements of a document stand under a key. -/
def Document.count (d : Document) (key : String) : ℕ := (d.elements.map fun e => e.key.text).count key

/-- There are as many elements under a key as its field asks for. -/
def Document.Counts (d : Document) (key : String) (f : Field) : Prop :=
  f.multiple = true ∨ d.count key = 1

/-- An element has a key of a type, and the kind of that key. -/
def NodeType.Fits (t : NodeType) (e : Element) : Prop :=
  ∃ f, t.fields.get? e.key.text = some f ∧ e.kind = f.kind

/-- For what failure a type refuses a document. -/
inductive NodeType.Refuses (t : NodeType) (d : Document) : Failure → Prop
  /-- The first element that does not fit has a key that is not one of the type. -/
  | unknownKey {before after : List Element} {e : Element} : d.elements = before ++ e :: after →
      (∀ x ∈ before, t.Fits x) → t.fields.get? e.key.text = none → Refuses t d (.unknownKey e.key.text [])
  /-- The first element that does not fit has another kind than its key. -/
  | wrongKind {before after : List Element} {e : Element} {f : Field} : d.elements = before ++ e :: after →
      (∀ x ∈ before, t.Fits x) → t.fields.get? e.key.text = some f → e.kind ≠ f.kind →
      Refuses t d (.wrongType e.key.text f.kind.element e.kind.element [])
  /-- All elements fit, and there is a first field under whose key another number stands than it asks
  for. -/
  | cardinality {before after : List (String × Field)} {key : String} {f : Field} :
      (∀ e ∈ d.elements, t.Fits e) → t.fields.entries = before ++ (key, f) :: after →
      (∀ x ∈ before, d.Counts x.1 x.2) → f.multiple = false → d.count key ≠ 1 →
      Refuses t d (.cardinality key (d.count key) [])

section

variable {t : NodeType} {d : Document}

/-! ### Elements and counts -/

theorem Document.length_elementsFor (d : Document) (key : String) :
    (d.elementsFor key).length = d.count key := by
  rw [elementsFor, count, List.count, List.countP_map, List.countP_eq_length_filter]
  rfl

theorem Document.counts_iff {key : String} {f : Field} :
    d.Counts key f ↔ f.multiple = true ∨ (d.elementsFor key).length = 1 := by
  rw [Counts, d.length_elementsFor]

theorem NodeType.elementFailure?_eq_some_iff {e : Element} {failure : Failure} :
    t.elementFailure? e = some failure ↔
      (t.fields.get? e.key.text = none ∧ failure = .unknownKey e.key.text []) ∨
      ∃ f, t.fields.get? e.key.text = some f ∧ e.kind ≠ f.kind ∧
        failure = .wrongType e.key.text f.kind.element e.kind.element [] := by
  unfold elementFailure?
  cases t.fields.get? e.key.text with
  | none => simp [eq_comm]
  | some f => by_cases hk : e.kind = f.kind <;> simp [hk, eq_comm]

theorem Document.cardinalityFailure?_eq_some_iff {key : String} {f : Field} {failure : Failure} :
    d.cardinalityFailure? key f = some failure ↔
      f.multiple = false ∧ d.count key ≠ 1 ∧ failure = .cardinality key (d.count key) [] := by
  unfold cardinalityFailure?
  rw [d.length_elementsFor]
  by_cases hc : d.count key = 1 <;> cases f.multiple <;> simp [hc, eq_comm]

/-! ### The first failure -/

/-- What fails in the pass over the elements is told of the first element that does not fit. -/
theorem NodeType.refuses_of_element {failure : Failure}
    (h : d.elements.findSome? t.elementFailure? = some failure) : t.Refuses d failure := by
  obtain ⟨before, e, after, hd, he, hbefore⟩ := List.findSome?_eq_some_iff.1 h
  have hfits : ∀ x ∈ before, t.Fits x := fun x hx => elementFailure?_eq_none_iff.1 (hbefore x hx)
  rcases elementFailure?_eq_some_iff.1 he with ⟨ht, rfl⟩ | ⟨f, ht, hk, rfl⟩
  · exact .unknownKey hd hfits ht
  · exact .wrongKind hd hfits ht hk

theorem NodeType.refuses_of_field {failure : Failure} (hfits : ∀ e ∈ d.elements, t.Fits e)
    (h : (t.fields.entries.findSome? fun e => d.cardinalityFailure? e.1 e.2) = some failure) :
    t.Refuses d failure := by
  obtain ⟨before, ⟨key, f⟩, after, hentries, he, hbefore⟩ := List.findSome?_eq_some_iff.1 h
  obtain ⟨hm, hc, rfl⟩ := Document.cardinalityFailure?_eq_some_iff.1 he
  refine .cardinality hfits hentries (fun x hx => ?_) hm hc
  exact Document.counts_iff.2 (Document.cardinalityFailure?_eq_none_iff.1 (hbefore x hx))

/-- The pass over the elements stops at the first that does not fit. -/
theorem findSome?_elementFailure? {before after : List Element} {e : Element} {failure : Failure}
    (hd : d.elements = before ++ e :: after) (hbefore : ∀ x ∈ before, t.Fits x)
    (he : t.elementFailure? e = some failure) : d.elements.findSome? t.elementFailure? = some failure :=
  List.findSome?_eq_some_iff.2
    ⟨before, e, after, hd, he, fun x hx => NodeType.elementFailure?_eq_none_iff.2 (hbefore x hx)⟩

/-- A document is refused for exactly one failure, that of the first element that does not fit or, where
all fit, of the first field that is not counted right. -/
theorem NodeType.validateDocument_eq_error_iff {failure : Failure} :
    t.validateDocument d = .error failure ↔ t.Refuses d failure := by
  unfold validateDocument
  constructor
  · intro h
    cases he : d.elements.findSome? t.elementFailure? with
    | some found =>
      rw [he] at h
      cases h
      exact refuses_of_element he
    | none =>
      have hfits : ∀ e ∈ d.elements, t.Fits e := fun e hm =>
        elementFailure?_eq_none_iff.1 (List.findSome?_eq_none_iff.1 he e hm)
      cases hc : t.fields.entries.findSome? fun e => d.cardinalityFailure? e.1 e.2 with
      | some found =>
        rw [he, hc] at h
        cases h
        exact refuses_of_field hfits hc
      | none =>
        rw [he, hc] at h
        cases h
  · intro h
    cases h with
    | unknownKey hd hbefore ht =>
      rw [findSome?_elementFailure? hd hbefore (elementFailure?_eq_some_iff.2 (.inl ⟨ht, rfl⟩))]
    | wrongKind hd hbefore ht hk =>
      rw [findSome?_elementFailure? hd hbefore (elementFailure?_eq_some_iff.2 (.inr ⟨_, ht, hk, rfl⟩))]
    | @cardinality before after key f hfits hentries hbefore hm hc =>
      have he : d.elements.findSome? t.elementFailure? = none :=
        List.findSome?_eq_none_iff.2 fun e hm => elementFailure?_eq_none_iff.2 (hfits e hm)
      have hfield : (t.fields.entries.findSome? fun e => d.cardinalityFailure? e.1 e.2)
          = some (.cardinality key (d.count key) []) := by
        refine List.findSome?_eq_some_iff.2 ⟨before, (key, f), after, hentries, ?_, fun x hx => ?_⟩
        · exact Document.cardinalityFailure?_eq_some_iff.2 ⟨hm, hc, rfl⟩
        · exact Document.cardinalityFailure?_eq_none_iff.2 (Document.counts_iff.1 (hbefore x hx))
      rw [he, hfield]

/-! ### Reading one field -/

/-- A field is read where its key stands as often as it asks for, by elements of its kind that lead to
documents where they lead anywhere. -/
theorem Source.exists_readField_iff {source : Source} {key : String} {f : Field} :
    (∃ value, source.readField d key f = .ok value) ↔
      d.Counts key f ∧ (∀ e ∈ d.elementsFor key, e.kind = f.kind) ∧
        ∀ e ∈ d.elementsFor key, ∃ item, source.item e = .ok item := by
  rw [Document.counts_iff]
  constructor
  · rintro ⟨value, h⟩
    obtain ⟨hcount, hkinds, items, hitems, -⟩ := readField_eq_ok_iff.1 h
    refine ⟨hcount, hkinds, fun e he => ?_⟩
    obtain ⟨item, -, hi⟩ := exists_of_mem_left (mapM_eq_ok_iff.1 hitems) e he
    exact ⟨item, hi⟩
  · rintro ⟨hcount, hkinds, hitems⟩
    obtain ⟨items, hread⟩ := exists_mapM_eq_ok hitems
    obtain ⟨value, hv⟩ := FieldValue.exists_madeOf (hcount.imp_right fun h =>
      (mapM_eq_ok_iff.1 hread).length_eq.symm.trans h)
    exact ⟨value, readField_eq_ok_iff.2 ⟨hcount, hkinds, items, hread, hv⟩⟩

theorem Source.exists_item {source : Source} {e : Element}
    (h : ∀ uri, e.content = .node uri → ∃ child, source.fetchDocument uri = .ok child) :
    ∃ item, source.item e = .ok item := by
  unfold Source.item
  cases hc : e.content with
  | node uri =>
    obtain ⟨child, hchild⟩ := h uri hc
    refine ⟨.document child, ?_⟩
    dsimp only
    rw [hchild]
    rfl
  | _ => exact ⟨_, rfl⟩

end

/-- **Validation and reading agree.** Where every reference of a document leads to a document, it is one of
a type exactly where it has no keys but those of the type and every field of the type is read. Where it is
not, the failure is that of the first element with another key or kind, or else of the first field that has
to stand once and does not. -/
theorem NodeType.validateDocument_iff_readField (t : NodeType) (d : Document) (source : Source)
    (hfetch : ∀ e ∈ d.elements, ∀ uri, e.content = .node uri → ∃ child, source.fetchDocument uri = .ok child) :
    (∀ d', t.validateDocument d = .ok d' ↔ d' = d ∧ (∀ e ∈ d.elements, e.key.text ∈ t.fields.keys) ∧
      ∀ key f, t.fields.get? key = some f → ∃ value, source.readField d key f = .ok value) ∧
    ∀ failure, t.validateDocument d = .error failure ↔ t.Refuses d failure := by
  refine ⟨fun d' => ?_, fun failure => validateDocument_eq_error_iff⟩
  rw [validateDocument_eq_ok_iff]
  refine and_congr_right fun _ => and_congr_right fun _ => forall_congr' fun key => forall_congr' fun f =>
    imp_congr_right fun _ => ?_
  have hitems : ∀ e ∈ d.elementsFor key, ∃ item, source.item e = .ok item := fun e he =>
    Source.exists_item (hfetch e (Document.mem_elementsFor.1 he).1)
  rw [Source.exists_readField_iff, Document.Counts, d.length_elementsFor]
  exact ⟨fun h => ⟨h.2, h.1, hitems⟩, fun h => ⟨h.2.1, h.1⟩⟩

theorem validateDocument_iff_readField_peers : ∃ graph d,
    (Gateway.ofStore storedPeers).source.compile 8 ["p"] = .ok graph ∧
    (Gateway.ofStore storedPeers).source.fetchDocument "al" = .ok d ∧
    (∀ e ∈ d.elements, ∀ uri, e.content = .node uri →
      ∃ child, (Gateway.ofStore storedPeers).source.fetchDocument uri = .ok child) ∧
    (∀ d', graph.rootType.validateDocument d = .ok d' ↔ d' = d ∧
      (∀ e ∈ d.elements, e.key.text ∈ graph.rootType.fields.keys) ∧
      ∀ key f, graph.rootType.fields.get? key = some f →
        ∃ value, (Gateway.ofStore storedPeers).source.readField d key f = .ok value) ∧
    ∀ failure, graph.rootType.validateDocument d = .error failure ↔ graph.rootType.Refuses d failure := by
  have hrun : ((Source.ofTable storedPeersResources).compile 8 ["p"]).toOption.any (fun graph =>
      ((Source.ofTable storedPeersResources).fetchDocument "al").toOption.any fun d =>
        validWithin (Source.ofTable storedPeersResources) graph.types 2 graph.rootType d) = true := by
    decide +kernel
  rw [← spells_storedPeers.source_eq] at hrun
  obtain ⟨graph, hg, hrun⟩ := exists_ok_of_any hrun
  obtain ⟨d, hd, hvalid⟩ := exists_ok_of_any hrun
  cases valid_of_validWithin hvalid with
  | document _ hfetch _ =>
    exact ⟨graph, d, hg, hd, hfetch, graph.rootType.validateDocument_iff_readField d _ hfetch⟩

end ContentGraph
