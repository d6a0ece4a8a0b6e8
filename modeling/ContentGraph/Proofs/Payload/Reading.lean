import ContentGraph.Payload.Validator
import ContentGraph.Proofs.Checked
import ContentGraph.Proofs.Lists
import ContentGraph.Proofs.Table

/-!
# Payloads that are read

Reading a payload collects issues. Here is said, for each part of a payload, where there is none
and what is then read: of a value (`Payload.read_value`, `Payload.readScalar_eq_ok_iff`), of the
items of a list (`Payload.read_many_eq_ok_iff`), of a nested payload
(`Payload.read_node_eq_ok_iff`) and of the members of an object (`Payload.readRoot_eq_ok_iff`).
Since an object is read by looking its keys up, the order of its members does not matter
(`Json.Reordered.validatePayload`).
-/

namespace ContentGraph

/-! ### Values within values -/

/-- What holds of a value if it holds of the items and of the members that are found in it holds of
all values. -/
theorem Json.induction {P : Json → Prop}
    (step : ∀ v, (∀ items, v = .list items → ∀ u ∈ items, P u) →
      (∀ ms, v = .object ms → ∀ key u, Table.find key ms = some u → P u) → P v) (v : Json) : P v := by
  induction hn : sizeOf v using Nat.strongRecOn generalizing v with
  | _ n ih =>
    subst hn
    refine step v (fun items hv u hu => ih _ ?_ u rfl) fun ms hv key u hu => ih _ ?_ u rfl
    · have hlt := List.sizeOf_lt_of_mem hu
      rw [hv, list.sizeOf_spec]
      omega
    · have hlt := List.sizeOf_lt_of_mem (Table.mem_of_find hu)
      rw [Prod.mk.sizeOf_spec] at hlt
      rw [hv, object.sizeOf_spec]
      omega

/-- A value with the members of its objects, at any depth, in another order. -/
inductive Json.Reordered : Json → Json → Prop
  /-- Nothing is moved. -/
  | same (v : Json) : Reordered v v
  /-- The items of a list keep their order. -/
  | list {vs ws : List Json} : vs.length = ws.length →
      (∀ (n : ℕ) (v w : Json), vs[n]? = some v → ws[n]? = some w → Reordered v w) → Reordered (.list vs) (.list ws)
  /-- An object has the same keys in another order, and under each key the same up to order. -/
  | object {ms ns : List (String × Json)} : (ms.map Prod.fst).Perm (ns.map Prod.fst) →
      (∀ key v w, Table.find key ms = some v → Table.find key ns = some w → Reordered v w) →
      Reordered (.object ms) (.object ns)

namespace Json.Reordered

theorem symm {v w : Json} (h : Reordered v w) : Reordered w v := by
  induction h with
  | same v => exact .same v
  | list hl _ ih => exact .list hl.symm fun n v w hv hw => ih n w v hw hv
  | object hp _ ih => exact .object hp.symm fun key v w hv hw => ih key w v hw hv

theorem eq_of_text {s : String} {w : Json} (h : Reordered (.text s) w) : w = .text s := by
  cases h
  rfl

/-- The members of an object without a repeated key can stand in any order. -/
theorem of_perm {ms ns : List (String × Json)} (hn : (ms.map Prod.fst).Nodup) (hp : ms.Perm ns) :
    Reordered (.object ms) (.object ns) := by
  refine .object (hp.map Prod.fst) fun key v w hv hw => ?_
  cases hv.symm.trans ((Table.find_perm hn hp key).symm.trans hw)
  exact .same v

end Json.Reordered

namespace Payload

variable {models : Models} {types : Catalogue} {shape : Shape} {ms : List (String × Json)}
  {t : NodeType} {v w : Json}

/-! ### Values -/

theorem read_value (kind : ValueKind) (v : Json) :
    read models false (.value kind) v = readScalar kind v := by
  cases v <;> simp [read]

/-- What is read under a kind: a text or a number as itself, an integer that a number fits as that
number, and of a file its two texts, beside which nothing stands. -/
theorem readScalar_eq_ok_iff {kind : ValueKind} : readScalar kind v = .ok w ↔
    match kind with
    | .string => ∃ s, v = .text s ∧ w = .text s
    | .number => (∃ x, v = .number x ∧ w = .number x) ∨
        ∃ n x, v = .integer n ∧ Binary.ofInt? n = some x ∧ w = .number x
    | .file => ∃ ms contentType uri, v = .object ms ∧
        Table.find "contentType" ms = some (.text contentType) ∧ Table.find "uri" ms = some (.text uri) ∧
        (∀ key ∈ ms.map Prod.fst, key = "contentType" ∨ key = "uri") ∧
        w = .object [("contentType", .text contentType), ("uri", .text uri)] := by
  cases kind with
  | string => cases v <;> simp [readScalar, Checked.refuse, eq_comm]
  | number =>
    cases v with
    | integer n =>
      rw [readScalar, Checked.map_eq_ok_iff]
      simp only [Checked.ofOption_eq_ok_iff]
      constructor
      · rintro ⟨x, hx, rfl⟩
        exact .inr ⟨n, x, rfl, hx, rfl⟩
      · rintro (⟨_, h, -⟩ | ⟨_, x, h, hx, rfl⟩) <;> cases h
        exact ⟨x, hx, rfl⟩
    | number x => simp [readScalar, eq_comm]
    | _ => simp [readScalar, Checked.refuse]
  | file =>
    cases v with
    | object ms =>
      simp only [readScalar, Checked.seq_eq_ok_iff, Checked.fmap_eq_ok_iff, required_eq_ok_iff,
        Json.asText_eq_ok_iff, Json.object.injEq]
      constructor
      · rintro ⟨_, _, ⟨_, uri, ⟨contentType, ⟨_, hc, rfl⟩, rfl⟩, ⟨_, hu, rfl⟩, rfl⟩, ho, rfl⟩
        exact ⟨ms, contentType, uri, rfl, hc, hu, fun key hk => by simpa using noOthers_eq_ok_iff.1 ho key hk, rfl⟩
      · rintro ⟨_, contentType, uri, rfl, hc, hu, ho, rfl⟩
        exact ⟨_, (), ⟨_, uri, ⟨contentType, ⟨_, hc, rfl⟩, rfl⟩, ⟨_, hu, rfl⟩, rfl⟩,
          noOthers_eq_ok_iff.2 fun key hk => by simpa using ho key hk, rfl⟩
    | _ => simp [readScalar, Checked.refuse]

/-! ### Lists -/

theorem readItems_eq_ok_iff {n : ℕ} {vs ws : List Json} : readItems models shape n vs = .ok ws ↔
    List.Forall₂ (fun v w => read models false shape v = .ok w) vs ws := by
  induction vs generalizing n ws with
  | nil =>
    rw [readItems, List.forall₂_nil_left_iff, Checked.ok.injEq, eq_comm]
  | cons v vs ih =>
    rw [readItems, List.forall₂_cons_left_iff]
    constructor
    · intro h
      obtain ⟨_, ws, hv, hws, rfl⟩ := Checked.seq_eq_ok_iff.1 h
      obtain ⟨w, hw, rfl⟩ := Checked.map_eq_ok_iff.1 hv
      exact ⟨w, ws, Checked.under_eq_ok_iff.1 hw, ih.1 hws, rfl⟩
    · rintro ⟨w, ws, hw, hws, rfl⟩
      refine Checked.seq_eq_ok_iff.2 ⟨_, ws, Checked.map_eq_ok_iff.2 ⟨w, ?_, rfl⟩, ih.2 hws, rfl⟩
      exact Checked.under_eq_ok_iff.2 hw

/-- Under a key that may repeat stands a list, whose items are read. -/
theorem read_many_eq_ok_iff : read models true shape v = .ok w ↔
    ∃ vs ws, v = .list vs ∧ w = .list ws ∧
      List.Forall₂ (fun v w => read models false shape v = .ok w) vs ws := by
  cases v with
  | list vs =>
    simp only [read, if_true, Checked.map_eq_ok_iff, readItems_eq_ok_iff, Json.list.injEq]
    constructor
    · rintro ⟨ws, hws, rfl⟩
      exact ⟨vs, ws, rfl, rfl, hws⟩
    · rintro ⟨_, ws, rfl, rfl, hws⟩
      exact ⟨ws, hws, rfl⟩
  | _ => simp [read, Checked.refuse]

/-- Under a node key that stands once stands an object, which is read by the model for the type. -/
theorem read_node_eq_ok_iff {schemas : List String} {target : String} :
    read models false (.node schemas target) v = .ok w ↔
      ∃ ms t, v = .object ms ∧ models.target? target = some t ∧ readRoot models t ms = .ok w := by
  cases v with
  | object ms =>
    simp only [read, Json.object.injEq]
    constructor
    · intro h
      split at h
      · cases h
      · split at h
        · next t ht => exact ⟨ms, t, rfl, ht, h⟩
        · cases h
    · rintro ⟨_, t, rfl, ht, h⟩
      rw [if_neg Bool.false_ne_true, ht]
      exact h
  | _ => simp [read, Checked.refuse]

/-! ### Objects -/

/-- What is read under a key of a type: what stands there, or the empty list where nothing does and
the key may repeat. -/
def ReadsAt (models : Models) (ms : List (String × Json)) (key : String) (f : Field) (w : Json) : Prop :=
  (∃ v, Table.find key ms = some v ∧ read models f.multiple f.shape v = .ok w) ∨
    Table.find key ms = none ∧ f.multiple = true ∧ w = .list []

theorem find_readMembers (models : Models) (key : String) (ms : List (String × Json)) :
    Table.find key (readMembers models ms)
      = (Table.find key ms).map fun v f => read models f.multiple f.shape v := by
  induction ms with
  | nil => rfl
  | cons m rest ih =>
    obtain ⟨k, v⟩ := m
    by_cases h : k = key <;> simp [readMembers, Table.find, h, ih]

theorem readFields_eq_ok_iff {fields : List (String × Field)} {vs : List (String × Json)} :
    readFields ms (readMembers models ms) fields = .ok vs ↔
      List.Forall₂ (fun e m => m.1 = e.1 ∧ ReadsAt models ms e.1 e.2 m.2) fields vs := by
  induction fields generalizing vs with
  | nil => rw [readFields, List.forall₂_nil_left_iff, Checked.ok.injEq, eq_comm]
  | cons e fields ih =>
    obtain ⟨key, f⟩ := e
    rw [readFields, List.forall₂_cons_left_iff, find_readMembers]
    constructor
    · intro h
      obtain ⟨_, rest, hhere, hrest, rfl⟩ := Checked.seq_eq_ok_iff.1 h
      obtain ⟨w, hw, rfl⟩ := Checked.map_eq_ok_iff.1 hhere
      refine ⟨(key, w), rest, ⟨rfl, ?_⟩, ih.1 hrest, rfl⟩
      cases hf : Table.find key ms with
      | some v =>
        rw [hf] at hw
        exact .inl ⟨v, hf, Checked.under_eq_ok_iff.1 hw⟩
      | none =>
        rw [hf] at hw
        dsimp only [Option.map_none] at hw
        split at hw
        · next hm =>
          cases hw
          exact .inr ⟨hf, hm, rfl⟩
        · cases hw
    · rintro ⟨⟨_, w⟩, rest, ⟨rfl, hw⟩, hrest, rfl⟩
      refine Checked.seq_eq_ok_iff.2 ⟨_, rest, Checked.map_eq_ok_iff.2 ⟨w, ?_, rfl⟩, ih.2 hrest, rfl⟩
      rcases hw with ⟨v, hf, hr⟩ | ⟨hf, hm, rfl⟩
      · rw [hf]
        exact Checked.under_eq_ok_iff.2 hr
      · rw [hf]
        exact if_pos hm

/-- An object is read where it has no other keys than the type, to what is read under each key. -/
theorem readRoot_eq_ok_iff : readRoot models t ms = .ok w ↔
    (∀ key ∈ ms.map Prod.fst, key ∈ t.fields.keys) ∧
      ∃ vs, w = .object vs ∧ vs.map Prod.fst = t.fields.keys ∧
        ∀ key f u, t.fields.get? key = some f → Table.find key vs = some u → ReadsAt models ms key f u := by
  unfold readRoot readObject
  rw [← noOthers_eq_ok_iff]
  constructor
  · intro h
    obtain ⟨_, _, hf, ho, rfl⟩ := Checked.seq_eq_ok_iff.1 h
    obtain ⟨vs, hvs, rfl⟩ := Checked.map_eq_ok_iff.1 hf
    exact ⟨ho, vs, rfl, (Table.forall₂_iff_find t.fields.nodup).1 (readFields_eq_ok_iff.1 hvs)⟩
  · rintro ⟨ho, vs, rfl, hvs⟩
    have hf := readFields_eq_ok_iff.2 ((Table.forall₂_iff_find t.fields.nodup).2 hvs)
    exact Checked.seq_eq_ok_iff.2 ⟨_, (), Checked.map_eq_ok_iff.2 ⟨vs, hf, rfl⟩, ho, rfl⟩

/-- An object without other keys is read where something is read under each key. -/
theorem exists_readRoot (ho : ∀ key ∈ ms.map Prod.fst, key ∈ t.fields.keys)
    (hf : ∀ key f, t.fields.get? key = some f → ∃ w, ReadsAt models ms key f w) :
    ∃ w, readRoot models t ms = .ok w := by
  have hall : ∀ e ∈ t.fields.entries, ∃ m : String × Json, m.1 = e.1 ∧ ReadsAt models ms e.1 e.2 m.2 := by
    intro e he
    obtain ⟨w, hw⟩ := hf e.1 e.2 (Table.get?_eq_some_iff.2 he)
    exact ⟨(e.1, w), rfl, hw⟩
  obtain ⟨vs, hvs⟩ := exists_forall₂ hall
  exact ⟨.object vs, readRoot_eq_ok_iff.2 ⟨ho, vs, rfl, (Table.forall₂_iff_find t.fields.nodup).1 hvs⟩⟩

/-! ### Order of members -/

section

variable {ns : List (String × Json)} (hp : (ms.map Prod.fst).Perm (ns.map Prod.fst))
include hp

/-- Where objects have the same keys, something is found in one where it is found in the other. -/
theorem exists_find_of_perm {key : String} (hv : Table.find key ms = some v) :
    ∃ u, Table.find key ns = some u := by
  have hm : key ∈ ns.map Prod.fst := hp.mem_iff.1 (List.mem_map.2 ⟨_, Table.mem_of_find hv, rfl⟩)
  cases hu : Table.find key ns with
  | none => exact absurd hm (Table.find_eq_none_iff.1 hu)
  | some u => exact ⟨u, rfl⟩

theorem readRoot_reordered
    (hr : ∀ key v u, Table.find key ms = some v → Table.find key ns = some u →
      ∀ multiple shape w, read models multiple shape v = .ok w → read models multiple shape u = .ok w)
    (h : readRoot models t ms = .ok w) : readRoot models t ns = .ok w := by
  obtain ⟨ho, vs, rfl, hk, hf⟩ := readRoot_eq_ok_iff.1 h
  refine readRoot_eq_ok_iff.2 ⟨fun key hk => ho key (hp.mem_iff.2 hk), vs, rfl, hk, fun key f u ht hu => ?_⟩
  rcases hf key f u ht hu with ⟨v, hv, hw⟩ | ⟨hn, hm⟩
  · obtain ⟨v', hv'⟩ := exists_find_of_perm hp hv
    exact .inl ⟨v', hv', hr key v v' hv hv' _ _ _ hw⟩
  · refine .inr ⟨Table.find_eq_none_iff.2 fun hk => ?_, hm⟩
    exact Table.find_eq_none_iff.1 hn (hp.mem_iff.2 hk)

theorem readScalar_reordered {kind : ValueKind}
    (hr : ∀ key v u, Table.find key ms = some v → Table.find key ns = some u → v.Reordered u)
    (h : readScalar kind (.object ms) = .ok w) : readScalar kind (.object ns) = .ok w := by
  have hat : ∀ key s, Table.find key ms = some (.text s) → Table.find key ns = some (.text s) := by
    intro key s hs
    obtain ⟨u, hu⟩ := exists_find_of_perm hp hs
    rw [hu, (hr key _ u hs hu).eq_of_text]
  rw [readScalar_eq_ok_iff] at h ⊢
  cases kind with
  | string => simp at h
  | number => simp at h
  | file =>
    obtain ⟨_, contentType, uri, hv, hc, hu, ho, rfl⟩ := h
    cases hv
    exact ⟨ns, contentType, uri, rfl, hat _ _ hc, hat _ _ hu, fun key hk => ho key (hp.mem_iff.2 hk), rfl⟩

end

theorem read_reordered {v' : Json} (h : v.Reordered v') : ∀ multiple shape w,
    read models multiple shape v = .ok w → read models multiple shape v' = .ok w := by
  induction h with
  | same v => exact fun _ _ _ h => h
  | @list vs us hl _ ih =>
    intro multiple shape w h
    cases multiple with
    | true =>
      obtain ⟨_, ws, hvs, rfl, hws⟩ := read_many_eq_ok_iff.1 h
      cases hvs
      obtain ⟨hlen, hat⟩ := forall₂_iff_getElem?.1 hws
      refine read_many_eq_ok_iff.2 ⟨us, ws, rfl, rfl, forall₂_iff_getElem?.2 ⟨hl ▸ hlen, ?_⟩⟩
      intro n u w hu hw
      have hn : n < vs.length := hl ▸ (List.getElem?_eq_some_iff.1 hu).1
      have hv : vs[n]? = some vs[n] := List.getElem?_eq_getElem hn
      exact ih n _ u hv hu _ _ _ (hat n _ w hv hw)
    | false =>
      cases shape with
      | value kind =>
        rw [read_value, readScalar_eq_ok_iff] at h
        cases kind <;> simp at h
      | node schemas target =>
        obtain ⟨_, _, hv, -⟩ := read_node_eq_ok_iff.1 h
        cases hv
  | @object ms ns hp hr ih =>
    intro multiple shape w h
    cases multiple with
    | true =>
      obtain ⟨_, _, hv, -⟩ := read_many_eq_ok_iff.1 h
      cases hv
    | false =>
      cases shape with
      | value kind =>
        rw [read_value] at h ⊢
        exact readScalar_reordered hp hr h
      | node schemas target =>
        obtain ⟨_, t, hv, ht, hr⟩ := read_node_eq_ok_iff.1 h
        cases hv
        exact read_node_eq_ok_iff.2 ⟨ns, t, rfl, ht, readRoot_reordered hp ih hr⟩

end Payload

/-! ### Payloads -/

theorem TypeGraph.validatePayload_eq_ok_iff {g : TypeGraph} {p v : Json} :
    g.validatePayload p = .ok v ↔ ∃ ms, p = .object ms ∧ Payload.readRoot g.reachable g.rootType ms = .ok v := by
  cases p with
  | object ms =>
    rw [validatePayload]
    cases hr : Payload.readRoot g.reachable g.rootType ms with
    | ok w => simp [hr]
    | refused first more => simp [hr]
  | _ => simp [validatePayload]

/-- A payload whose objects are reordered is accepted as it was, with the same normal form. -/
theorem Json.Reordered.validatePayload {p p' : Json} (h : p.Reordered p') (g : TypeGraph) :
    (g.validatePayload p').toOption = (g.validatePayload p).toOption := by
  have hstep : ∀ {p p' v : Json}, p.Reordered p' → g.validatePayload p = .ok v →
      g.validatePayload p' = .ok v := by
    intro p p' v hr hv
    obtain ⟨ms, rfl, hroot⟩ := TypeGraph.validatePayload_eq_ok_iff.1 hv
    refine TypeGraph.validatePayload_eq_ok_iff.2 ?_
    cases hr with
    | same _ => exact ⟨ms, rfl, hroot⟩
    | object hp hat =>
      exact ⟨_, rfl, Payload.readRoot_reordered hp
        (fun key v u hv hu => Payload.read_reordered (hat key v u hv hu)) hroot⟩
  cases hp : g.validatePayload p with
  | ok v => rw [hstep h hp]
  | error f =>
    cases hp' : g.validatePayload p' with
    | ok v => exact nomatch hp.symm.trans (hstep h.symm hp')
    | error f' => rfl

end ContentGraph
