import ContentGraph.Proofs.Document.Grounding
import ContentGraph.Proofs.Document.Portions
import ContentGraph.Proofs.Document.Records

/-!
# Grounded documents record their payloads

A document that is grounded by some store calls is made of the elements of its portions, in order. No
two portions have elements with one key, so that the elements under a key are those of one portion
(`GroundedPortions.elementsFor`). Hence a document that is grounded as the one of the plan of a payload
records the payload, where references lead to what the calls stored (`Payload.Normal.records`).
-/

namespace ContentGraph

variable {version : String} {calls : List StoreCall} {types : Catalogue}

/-! ### Elements of portions -/

/-- The elements of the first portion and those of the others. -/
theorem GroundedPortions.exists_append {p : Portion} {rest : List Portion} {es : List Element}
    (h : GroundedPortions version calls (p :: rest) es) : ∃ here others, es = here ++ others ∧
      GroundedPortions version calls [p] here ∧ GroundedPortions version calls rest others := by
  cases h with
  | @elements es others _ hr =>
    have hone : GroundedPortions version calls [.elements es] (es ++ []) := .elements .nil
    rw [List.append_nil] at hone
    exact ⟨es, others, rfl, hone, hr⟩
  | @children key plans addresses es others _ ha he hr =>
    have hone : GroundedPortions version calls [.children key plans] (es ++ []) := .children ha he .nil
    rw [List.append_nil] at hone
    exact ⟨es, others, rfl, hone, hr⟩

/-- Where the elements of each portion have a key of its own, those with one key are the elements of
one portion. -/
theorem GroundedPortions.elementsFor {portion : String × Field → Portion} :
    ∀ {fields : List (String × Field)} {es : List Element}, (fields.map Prod.fst).Nodup →
    (∀ f ∈ fields, ∀ here, GroundedPortions version calls [portion f] here → ∀ e ∈ here, e.key.text = f.1) →
    GroundedPortions version calls (fields.map portion) es →
    (∀ e ∈ es, e.key.text ∈ fields.map Prod.fst) ∧ ∀ f ∈ fields,
      GroundedPortions version calls [portion f] (es.filter fun e => e.key.text = f.1)
  | [], _, _, _, h => by
    cases h
    exact ⟨fun _ he => absurd he List.not_mem_nil, fun _ hf => absurd hf List.not_mem_nil⟩
  | first :: fields, es, hn, hkey, h => by
    obtain ⟨hfirst, hn⟩ := List.nodup_cons.1 hn
    obtain ⟨hkeyFirst, hkey⟩ := List.forall_mem_cons.1 hkey
    obtain ⟨here, others, rfl, hhere, hothers⟩ := h.exists_append
    have hk := hkeyFirst here hhere
    obtain ⟨hmem, hrest⟩ := GroundedPortions.elementsFor hn hkey hothers
    obtain ⟨hfilter, hother⟩ := filter_key_append hk hmem hfirst
    refine ⟨fun e he => ?_, List.forall_mem_cons.2 ⟨?_, fun f hf => ?_⟩⟩
    · rcases List.mem_append.1 he with he | he
      · rw [hk e he]
        exact List.mem_cons_self
      · exact List.mem_cons_of_mem _ (hmem e he)
    · rw [hfilter]
      exact hhere
    · rw [hother f.1 (List.mem_map_of_mem hf)]
      exact hrest f hf

namespace Payload

/-! ### Elements of fields -/

/-- The element of a value records it. -/
theorem NormalItem.recordsItem {held : Document → String → Prop} {key : String} {kind : ValueKind}
    {v : Json} {e : Element} (h : NormalItem types (.value kind) v)
    (he : Plan.valueElement key kind v = .ok e) :
    e.key.text = key ∧ RecordsItem held types (.value kind) e v := by
  have hitem : itemElement? types "" "" key (.value kind) v = some e := by
    rw [itemElement?, he]
    rfl
  obtain ⟨hk, hw⟩ := h.written hitem
  refine ⟨hk, ?_⟩
  obtain ⟨k, content⟩ := e
  cases hw with
  | string => exact .string rfl
  | number => exact .number rfl
  | file => exact .file rfl

theorem forall₂_groundedAll {plan : Json → Plan} {vs : List Json} {addresses : List String}
    (h : GroundedAll version calls (vs.map plan) addresses) :
    List.Forall₂ (fun v address => ∃ d, (plan v).Grounded version calls d ∧ Stored calls d address)
      vs addresses := by
  induction vs generalizing addresses with
  | nil =>
    cases h
    exact .nil
  | cons v vs ih =>
    cases h with
    | cons hd hst hr => exact .cons ⟨_, hd, hst⟩ (ih hr)

/-- What is grounded for a field has its key and records its values, where what is grounded for the
payloads nested in it records those. -/
theorem PortionOf.records {key : String} {f : Field} {v : Json} {p : Portion} {es : List Element}
    (hp : PortionOf types key f v p) (hv : NormalField types f v)
    (hn : ∀ u w, Nested types f v u w → ∀ schemas d,
      (Plan.ofPayload types u schemas w).Grounded version calls d → Records (Stored calls) types u d w)
    (h : GroundedPortions version calls [p] es) :
    (∀ e ∈ es, e.key.text = key) ∧ RecordsField (Stored calls) types f es v := by
  have hall : List.Forall₂ (fun w e => e.key.text = key ∧ RecordsItem (Stored calls) types f.shape e w)
      (fieldValues f v) es := by
    cases hp with
    | elements hs hes =>
      cases h with
      | elements hr =>
        cases hr
        rw [List.append_nil]
        have hitems := hv.items
        rw [hs] at hitems ⊢
        have hboth := (List.forall₂_and_left _ _).2 ⟨normalItems_iff.1 hitems, mapM_eq_ok_iff.1 hes⟩
        exact hboth.imp fun w e hw => hw.1.recordsItem hw.2
    | children hs ht =>
      cases h with
      | children ha he hr =>
        cases hr
        rw [List.append_nil]
        have hboth := (List.forall₂_and_left _ _).2
          ⟨fun w (hw : w ∈ fieldValues f v) => hw, forall₂_comp (forall₂_groundedAll ha) (forall₂_references he)⟩
        refine hboth.imp ?_
        rintro w e ⟨hw, address, ⟨d, hd, hst⟩, hk, hc⟩
        rw [hs]
        exact ⟨hk, .node hc hst ht (hn _ w ⟨_, _, hs, ht, hw⟩ _ d hd)⟩
    | unbuilt _ _ => cases h
    | untargeted _ _ => cases h
  refine ⟨fun e he => ?_, .of_items hv (hall.imp fun _ _ hr => hr.2).flip⟩
  obtain ⟨w, -, hk, -⟩ := exists_of_mem_right hall e he
  exact hk

/-- **A document that is grounded as the one of a payload records it.** -/
theorem Normal.records {t : NodeType} {v : Json} {schemas : List String} {d : Document}
    (h : Normal types t v) (hd : (Plan.ofPayload types t schemas v).Grounded version calls d) :
    Records (Stored calls) types t d v := by
  have hall : Hereditary types fun t v => ∀ schemas d,
      (Plan.ofPayload types t schemas v).Grounded version calls d → Records (Stored calls) types t d v := by
    intro t vs hk hf schemas d hd
    have hfields : ∀ e ∈ t.fields.entries, ∀ here, GroundedPortions version calls
        [Plan.portion types vs (Plan.planMembers types vs) e.1 e.2] here → ∀ v, Table.find e.1 vs = some v →
        (∀ x ∈ here, x.key.text = e.1) ∧ RecordsField (Stored calls) types e.2 here v := by
      rintro ⟨key, f⟩ he here hhere v hv
      obtain ⟨hnormal, hnested⟩ := hf key f v (Table.get?_eq_some_iff.2 he) hv
      dsimp only at hhere
      rw [portion_eq hv] at hhere
      exact (portionOf_fieldPortion hnormal).records hnormal hnested hhere
    have hfind : ∀ e ∈ t.fields.entries, ∃ v, Table.find e.1 vs = some v := fun e he =>
      Table.exists_find (hk ▸ List.mem_map_of_mem he)
    cases hd with
    | document hg =>
      obtain ⟨hknows, hes⟩ := GroundedPortions.elementsFor t.fields.nodup (fun e he here hhere => by
        obtain ⟨v, hv⟩ := hfind e he
        exact (hfields e he here hhere v hv).1) hg
      refine .object hknows hk fun key f v ht hv => ?_
      have he := Table.get?_eq_some_iff.1 ht
      exact (hfields (key, f) he _ (hes (key, f) he) v hv).2
  exact Normal.induction hall h schemas d hd

end Payload

end ContentGraph
