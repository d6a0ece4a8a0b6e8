import ContentGraph.Proofs.Document.Elements
import ContentGraph.Proofs.Document.Progress
import ContentGraph.Proofs.Payload.Reading

/-!
# How many documents a payload makes

A payload is an object of a type, and below its node fields stand other payloads. One document is
written for each of them (`Payload.length_documents`), neither more nor less, whatever else stands in
the payload. The normal form has as many as the payload that was given (`Payload.payloadsIn_of_read`).
-/

namespace ContentGraph.Payload

mutual

/-- The number of payloads in what stands under a node field: those of the items of a list, where the
field may repeat, and the one that stands there with those below it, where it may not. -/
def payloadsIn (types : Catalogue) : Json → Bool → NodeType → ℕ
  | .list items => fun multiple t => if multiple then payloadsOf types items t else 0
  | .object ms => fun multiple t =>
    if multiple then 0
    else 1 + (t.fields.entries.map fun e =>
      match e.2.target?.bind types.get? with
      | some u => ((Table.find e.1 (payloadsBelow types ms)).getD fun _ _ => 0) e.2.multiple u
      | none => 0).sum
  | _ => fun _ _ => 0

/-- The number of payloads in the items of a list. -/
def payloadsOf (types : Catalogue) : List Json → NodeType → ℕ
  | [], _ => 0
  | v :: rest, t => payloadsIn types v false t + payloadsOf types rest t

/-- For each member of an object, the number of payloads in it. -/
def payloadsBelow (types : Catalogue) : List (String × Json) → List (String × (Bool → NodeType → ℕ))
  | [] => []
  | (k, v) :: rest => (k, payloadsIn types v) :: payloadsBelow types rest

end

variable {types : Catalogue} {models : Models}

/-- The number of payloads under a key of an object, where there may be nothing. -/
def payloadsAt (types : Catalogue) (ms : List (String × Json)) (key : String) : Bool → NodeType → ℕ :=
  ((Table.find key ms).map (payloadsIn types)).getD fun _ _ => 0

theorem find_payloadsBelow (key : String) (ms : List (String × Json)) :
    Table.find key (payloadsBelow types ms) = (Table.find key ms).map (payloadsIn types) := by
  induction ms with
  | nil => rfl
  | cons m rest ih =>
    obtain ⟨k, v⟩ := m
    by_cases h : k = key <;> simp [payloadsBelow, Table.find, h, ih]

/-- The payloads of an object are itself and those under the keys of its type. -/
theorem payloadsIn_object (ms : List (String × Json)) (t : NodeType) :
    payloadsIn types (.object ms) false t = 1 + (t.fields.entries.map fun e =>
      match e.2.target?.bind types.get? with
      | some u => payloadsAt types ms e.1 e.2.multiple u
      | none => 0).sum := by
  rw [payloadsIn]
  simp only [find_payloadsBelow, payloadsAt]
  rfl

theorem payloadsIn_object_congr {ms ns : List (String × Json)}
    (h : ∀ key, payloadsAt types ms key = payloadsAt types ns key) :
    payloadsIn types (.object ms) = payloadsIn types (.object ns) := by
  funext multiple t
  cases multiple with
  | true => rw [payloadsIn, payloadsIn]; rfl
  | false =>
    rw [payloadsIn_object, payloadsIn_object]
    simp only [h]

/-! ### Normal forms -/

theorem payloadsAt_texts {ms : List (String × Json)} (h : ∀ m ∈ ms, ∃ s, m.2 = .text s) (key : String) :
    payloadsAt types ms key = fun _ _ => 0 := by
  unfold payloadsAt
  cases hf : Table.find key ms with
  | none => rfl
  | some v =>
    obtain ⟨s, rfl⟩ := h _ (Table.mem_of_find hf)
    rfl

/-- A value that is read as one of some kind has no payloads but itself, and neither has its normal
form. -/
theorem payloadsIn_of_readScalar {kind : ValueKind} {v w : Json} (h : readScalar kind v = .ok w) :
    payloadsIn types w = payloadsIn types v := by
  rw [readScalar_eq_ok_iff] at h
  cases kind with
  | string =>
    obtain ⟨s, rfl, rfl⟩ := h
    rfl
  | number =>
    rcases h with ⟨x, rfl, rfl⟩ | ⟨n, x, rfl, -, rfl⟩ <;> rfl
  | file =>
    obtain ⟨ms, contentType, uri, rfl, hc, hu, ho, rfl⟩ := h
    refine payloadsIn_object_congr fun key => ?_
    rw [payloadsAt_texts (by simp)]
    unfold payloadsAt
    cases hf : Table.find key ms with
    | none => rfl
    | some v =>
      rcases ho key (List.mem_map.2 ⟨_, Table.mem_of_find hf, rfl⟩) with rfl | rfl
      · cases hf.symm.trans hc
        rfl
      · cases hf.symm.trans hu
        rfl

/-- Under each key, what an object reads as has as many payloads. -/
theorem payloadsIn_of_readRoot {t : NodeType} {ms : List (String × Json)} {w : Json}
    (hms : ∀ key v, Table.find key ms = some v → ∀ multiple shape w, read models multiple shape v = .ok w →
      payloadsIn types w = payloadsIn types v)
    (h : readRoot models t ms = .ok w) : payloadsIn types w = payloadsIn types (.object ms) := by
  obtain ⟨ho, vs, rfl, hk, hf⟩ := readRoot_eq_ok_iff.1 h
  refine payloadsIn_object_congr fun key => ?_
  unfold payloadsAt
  cases hw : Table.find key vs with
  | none =>
    have hnone : Table.find key ms = none :=
      Table.find_eq_none_iff.2 fun hm => Table.find_eq_none_iff.1 hw (hk ▸ ho key hm)
    rw [hnone]
  | some w =>
    have hmem : key ∈ t.fields.keys := hk ▸ List.mem_map.2 ⟨_, Table.mem_of_find hw, rfl⟩
    obtain ⟨f, ht⟩ := Table.mem_keys_iff.1 hmem
    rcases hf key f w ht hw with ⟨v, hv, hr⟩ | ⟨hv, -, rfl⟩
    · rw [hv, Option.map_some, Option.map_some, hms key v hv _ _ w hr]
    · rw [hv]
      funext multiple u
      cases multiple <;> rfl

/-- What is read has as many payloads as what was given. -/
theorem payloadsIn_of_read (v : Json) : ∀ multiple shape w, read models multiple shape v = .ok w →
    payloadsIn types w = payloadsIn types v := by
  induction v using Json.induction with
  | step v ihItems ihMembers =>
    intro multiple shape w h
    cases multiple with
    | true =>
      obtain ⟨vs, ws, rfl, rfl, hws⟩ := read_many_eq_ok_iff.1 h
      have hof : ∀ t, payloadsOf types ws t = payloadsOf types vs t := by
        intro t
        have hitems := ihItems vs rfl
        clear ihItems ihMembers h
        induction hws with
        | nil => rfl
        | cons hv _ ih =>
          obtain ⟨hfirst, hrest⟩ := List.forall_mem_cons.1 hitems
          rw [payloadsOf, payloadsOf, hfirst _ _ _ hv, ih hrest]
      funext multiple t
      rw [payloadsIn, payloadsIn]
      dsimp only
      rw [hof]
    | false =>
      cases shape with
      | value kind =>
        rw [read_value] at h
        exact payloadsIn_of_readScalar h
      | node schemas target =>
        obtain ⟨ms, t, rfl, -, hr⟩ := read_node_eq_ok_iff.1 h
        exact payloadsIn_of_readRoot (ihMembers ms rfl) hr

/-- An accepted payload has as many payloads as its normal form. -/
theorem payloadsIn_of_validatePayload {g : TypeGraph} {p v : Json} (h : g.validatePayload p = .ok v) :
    payloadsIn types v = payloadsIn types p := by
  obtain ⟨ms, rfl, hr⟩ := TypeGraph.validatePayload_eq_ok_iff.1 h
  exact payloadsIn_of_readRoot (fun key v _ => payloadsIn_of_read v) hr

/-! ### Documents -/

variable {lead version : String}

/-- Plans that cannot be read stand for no documents, unless there are none. -/
theorem eq_nil_of_unreadable {α : Type} {as : List α} {schemas : List String} {ds : List Document}
    (h : plansRealised? lead version (as.map fun _ => Plan.unreadable schemas) = some ds) : as = [] := by
  cases as with
  | nil => rfl
  | cons a as => cases h

theorem realised_append {plans others : List Plan} {ds : List Document}
    (h : plansRealised? lead version (plans ++ others) = some ds) :
    (∃ ds, plansRealised? lead version plans = some ds) ∧
      ∃ ds, plansRealised? lead version others = some ds := by
  induction plans generalizing ds with
  | nil => exact ⟨⟨[], rfl⟩, ds, h⟩
  | cons p plans ih =>
    rw [List.cons_append, plansRealised?] at h
    obtain ⟨d, hd, h⟩ := Option.bind_eq_some_iff.1 h
    obtain ⟨later, hl, -⟩ := Option.map_eq_some_iff.1 h
    obtain ⟨⟨ds', hds'⟩, ho⟩ := ih hl
    refine ⟨⟨d :: ds', ?_⟩, ho⟩
    rw [plansRealised?, hd, Option.bind_some, hds', Option.map_some]

theorem plansDocuments_append (plans others : List Plan) : plansDocuments lead version (plans ++ others)
    = plansDocuments lead version plans ++ plansDocuments lead version others := by
  induction plans with
  | nil => rfl
  | cons p plans ih =>
    rw [List.cons_append, plansDocuments, plansDocuments, ih]
    exact (List.append_assoc _ _ _).symm

/-- The documents that what stands under a node field is planned as are as many as its payloads. -/
def Counted (types : Catalogue) (lead version : String) (v : Json) : Prop :=
  ∀ (t : NodeType) (multiple : Bool) (schemas : List String) (plans : List Plan) (ds : List Document),
    Plan.planValue types v t multiple schemas = .ok plans → plansRealised? lead version plans = some ds →
    (plansDocuments lead version plans).length = payloadsIn types v multiple t

theorem counted_items {items : List Json} (h : ∀ v ∈ items, Counted types lead version v) {t : NodeType}
    {schemas : List String} {ds : List Document}
    (hd : plansRealised? lead version (Plan.planItems types items t schemas) = some ds) :
    (plansDocuments lead version (Plan.planItems types items t schemas)).length = payloadsOf types items t := by
  induction items generalizing ds with
  | nil => rfl
  | cons v rest ih =>
    obtain ⟨hfirst, hrest⟩ := List.forall_mem_cons.1 h
    rw [Plan.planItems] at hd ⊢
    obtain ⟨⟨here, hhere⟩, later, hlater⟩ := realised_append hd
    rw [plansDocuments_append, List.length_append, ih hrest hlater, payloadsOf]
    congr 1
    cases hp : Plan.planValue types v t false schemas with
    | ok plans =>
      rw [hp] at hhere
      exact hfirst t false schemas plans here hp hhere
    | error fault =>
      -- what may stand once is always planned
      cases v <;> simp [Plan.planValue] at hp

/-- The documents beneath the portion of a field are as many as the payloads under its key. -/
theorem counted_portion {ms : List (String × Json)}
    (h : ∀ key v, Table.find key ms = some v → Counted types lead version v) {key : String} {f : Field}
    {es : List Element}
    (he : (Plan.portion types ms (Plan.planMembers types ms) key f).elements? lead version = some es) :
    ((Plan.portion types ms (Plan.planMembers types ms) key f).beneath lead version).length
      = match f.target?.bind types.get? with
        | some u => payloadsAt types ms key f.multiple u
        | none => 0 := by
  unfold Plan.portion at he ⊢
  rw [find_planMembers] at he ⊢
  unfold payloadsAt
  obtain ⟨shape, multiple⟩ := f
  cases hv : Table.find key ms with
  | none =>
    rw [hv] at he
    cases he
  | some v =>
    rw [hv] at he
    cases shape with
    | value kind =>
      dsimp only [Option.map_some] at he ⊢
      unfold Plan.valuePortion
      split <;> rfl
    | node schemas target =>
      cases ht : types.get? target with
      | none =>
        have hget : Table.get? types target = none := ht
        simp only [Option.map_some, hget] at he
        cases he
      | some u =>
        have hget : Table.get? types target = some u := ht
        simp only [Option.map_some, hget] at he ⊢
        cases hp : Plan.planValue types v u multiple schemas with
        | error fault =>
          rw [hp] at he
          cases he
        | ok plans =>
          rw [hp] at he
          obtain ⟨ds, hds, -⟩ := exists_references_of_elements he
          have hbind : (⟨.node schemas target, multiple⟩ : Field).target?.bind types.get? = some u := ht
          rw [hbind]
          exact h key v hv u multiple schemas plans ds hp hds

theorem counted_portions {ms : List (String × Json)}
    (h : ∀ key v, Table.find key ms = some v → Counted types lead version v)
    {fields : List (String × Field)} {es : List Element}
    (he : portionsElements? lead version (fields.map fun e =>
      Plan.portion types ms (Plan.planMembers types ms) e.1 e.2) = some es) :
    (portionsBeneath lead version (fields.map fun e =>
      Plan.portion types ms (Plan.planMembers types ms) e.1 e.2)).length = (fields.map fun e =>
        match e.2.target?.bind types.get? with
        | some u => payloadsAt types ms e.1 e.2.multiple u
        | none => 0).sum := by
  induction fields generalizing es with
  | nil => rfl
  | cons e fields ih =>
    rw [List.map_cons, portionsElements?] at he
    obtain ⟨here, hhere, he⟩ := Option.bind_eq_some_iff.1 he
    obtain ⟨others, ho, -⟩ := Option.map_eq_some_iff.1 he
    rw [List.map_cons, portionsBeneath, List.length_append, counted_portion h hhere, ih ho, List.map_cons,
      List.sum_cons]

/-- A payload that is an object has a document for itself and for each payload below it. -/
theorem counted_object {ms : List (String × Json)}
    (h : ∀ key v, Table.find key ms = some v → Counted types lead version v) {t : NodeType}
    {schemas : List String} {d : Document}
    (hd : (Plan.ofPayload types t schemas (.object ms)).realised? lead version = some d) :
    ((Plan.ofPayload types t schemas (.object ms)).documents lead version).length
      = payloadsIn types (.object ms) false t := by
  rw [Plan.documents, hd]
  rw [Plan.ofPayload, Plan.realised?] at hd
  obtain ⟨es, hes, -⟩ := Option.map_eq_some_iff.1 hd
  rw [Plan.ofPayload, Plan.beneath, List.length_append, counted_portions h hes, payloadsIn_object]
  exact Nat.add_comm _ _

theorem counted (lead version : String) (v : Json) : Counted types lead version v := by
  induction v using Json.induction with
  | step v ihItems ihMembers =>
    intro t multiple schemas plans ds hp hd
    match v, multiple with
    | .list items, true =>
      cases hp
      exact counted_items (ihItems items rfl) hd
    | .object ms, true =>
      cases hp
      rw [List.map_eq_nil_iff.2 (eq_nil_of_unreadable hd)]
      rfl
    | .text s, true =>
      cases hp
      rw [List.map_eq_nil_iff.2 (eq_nil_of_unreadable hd)]
      rfl
    | .object ms, false =>
      cases hp
      rw [plansRealised?] at hd
      obtain ⟨d, hd, -⟩ := Option.bind_eq_some_iff.1 hd
      have hone := counted_object (ihMembers ms rfl) hd
      rw [← hone, plansDocuments, plansDocuments, List.append_nil]
      rfl
    | .list items, false | .text s, false | .null, false | .bool b, false | .integer n, false
    | .number x, false =>
      cases hp
      cases hd
    | .null, true | .bool b, true | .integer n, true | .number x, true => cases hp

/-- **As many documents are written for a payload as there are payloads in it.** -/
theorem length_documents {t : NodeType} {schemas : List String} {v : Json} {d : Document}
    (h : (Plan.ofPayload types t schemas v).realised? lead version = some d) :
    ((Plan.ofPayload types t schemas v).documents lead version).length = payloadsIn types v false t := by
  cases v with
  | object ms => exact counted_object (fun _ v _ => counted lead version v) h
  | _ => cases h

end ContentGraph.Payload
