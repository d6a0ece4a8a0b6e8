import ContentGraph.Proofs.Payload.Conformance

/-!
# Violations of payloads

What is wrong with a payload, said of the types and not of the models that read it: the violations of an
object are those under its fields, in the order of the type, and then the members that the type does not
have; those of a list are those of its items, in order (`Violation.atObject`). A violation knows its cause,
from which the failure follows: an absent key, an undeclared key, or a value of the wrong shape
(`Violation.failure`).

Validation finds the cause otherwise, by following the place of an issue through the types. Where no two
types have one name it gives the issues of exactly these violations, and the failure of the first
(`TypeGraph.validatePayload_violations`).
-/

namespace ContentGraph

/-! ### Violations -/

/-- Why something is wrong at a place of a payload. -/
inductive Violation.Cause where
  /-- A nested object or the payload does not have a key that stands once. -/
  | absent
  /-- A nested object or the payload has a key that its type does not have. -/
  | undeclared
  /-- A value under a field, or a part of it, has the wrong shape. `whole` is whether it is the value of a
  key that may repeat, and no list. -/
  | wrong (f : Field) (whole : Bool)

/-- Something wrong with a payload. -/
structure Violation where
  /-- The issue that is told of it. -/
  issue : Issue
  /-- Why it is wrong. -/
  cause : Violation.Cause

namespace Violation

/-- The failure of a payload for which this is the first violation. -/
def failure (v : Violation) (issues : List Issue) : Failure :=
  match v.cause with
  | .absent => .cardinality (pathText v.issue.loc) 0 issues
  | .undeclared => .unknownKey (pathText v.issue.loc) issues
  | .wrong f whole =>
    .wrongType (pathText v.issue.loc) (if whole then "a list of " ++ f.expected else f.expected)
      v.issue.input.shape issues

/-- A value of the wrong shape. -/
def wrong (f : Field) (whole : Bool) (kind : IssueKind) (place : List Step) (input : Json) : Violation :=
  ⟨⟨kind, place, input⟩, .wrong f whole⟩

/-- The violations of a text that is part of a file. -/
def atPart (place : List Step) (f : Field) (ms : List (String × Json)) (name : String) : List Violation :=
  match Table.find name ms with
  | none => [wrong f false .missing (place ++ [.member name]) (.object ms)]
  | some (.text _) => []
  | some v => [wrong f false .notText (place ++ [.member name]) v]

/-- The violations of a value that holds nothing nested. -/
def atScalar (place : List Step) (f : Field) : ValueKind → Json → List Violation
  | .string, .text _ => []
  | .string, v => [wrong f false .notText place v]
  | .number, .number _ => []
  | .number, .integer n =>
    if Binary.Fits n then [] else [wrong f false .notNumber place (.integer n)]
  | .number, v => [wrong f false .notNumber place v]
  | .file, .object ms =>
    atPart place f ms "contentType" ++ atPart place f ms "uri" ++
      (ms.filter fun m => !(["contentType", "uri"].contains m.1)).map fun m =>
        wrong f false .extra (place ++ [.member m.1]) m.2
  | .file, v => [wrong f false .notModel place v]

/-- The members of an object that its type does not have. -/
def undeclared (place : List Step) (t : NodeType) (ms : List (String × Json)) : List Violation :=
  (ms.filter fun m => !t.fields.keys.contains m.1).map fun m =>
    ⟨⟨.extra, place ++ [.member m.1], m.2⟩, .undeclared⟩

mutual

/-- The violations of one value under a field. -/
def atValue (types : Catalogue) (place : List Step) (f : Field) : Json → List Violation
  | .object ms =>
    match f.shape with
    | .value kind => atScalar place f kind (.object ms)
    | .node _ target =>
      match types.get? target with
      | some t => (t.fields.entries.flatMap fun e => atMember types place e.1 e.2 (.object ms) ms) ++
          undeclared place t ms
      -- not so for a compiled field, which leads to a type
      | none => [wrong f false .notModel place (.object ms)]
  | v =>
    match f.shape with
    | .value kind => atScalar place f kind v
    | .node _ _ => [wrong f false .notModel place v]

/-- The violations of the items of a list from a position on. -/
def atItems (types : Catalogue) (place : List Step) (f : Field) : ℕ → List Json → List Violation
  | _, [] => []
  | n, v :: rest => atValue types (place ++ [.item n]) f v ++ atItems types place f (n + 1) rest

/-- The violations under a key of an object, looked for among its members. -/
def atMember (types : Catalogue) (place : List Step) (key : String) (f : Field) (object : Json) :
    List (String × Json) → List Violation
  | [] => if f.multiple then [] else [⟨⟨.missing, place ++ [.member key], object⟩, .absent⟩]
  | (k, v) :: rest =>
    if k = key then
      match f.multiple, v with
      | true, .list items => atItems types (place ++ [.member key]) f 0 items
      | true, v => [wrong f true .notList (place ++ [.member key]) v]
      | false, v => atValue types (place ++ [.member key]) f v
    else atMember types place key f object rest

end

/-- The violations of what stands under a field: of the items of a list where the key may repeat, else of
the value. -/
def atField (types : Catalogue) (place : List Step) (f : Field) (v : Json) : List Violation :=
  match f.multiple, v with
  | true, .list items => atItems types place f 0 items
  | true, v => [wrong f true .notList place v]
  | false, v => atValue types place f v

/-- The violations of an object of a type: those under the fields of the type, in order, and then its other
members. -/
def atObject (types : Catalogue) (place : List Step) (t : NodeType) (ms : List (String × Json)) :
    List Violation :=
  (t.fields.entries.flatMap fun e => atMember types place e.1 e.2 (.object ms) ms) ++ undeclared place t ms

variable {types : Catalogue} {place : List Step} {f : Field}

theorem atMember_eq (key : String) (object : Json) (ms : List (String × Json)) :
    atMember types place key f object ms = match Table.find key ms with
      | some v => atField types (place ++ [.member key]) f v
      | none => if f.multiple then [] else [⟨⟨.missing, place ++ [.member key], object⟩, .absent⟩] := by
  induction ms with
  | nil => rfl
  | cons m rest ih =>
    obtain ⟨k, v⟩ := m
    unfold atMember
    rw [Table.find]
    by_cases hk : k = key
    · rw [if_pos hk, if_pos hk]
      rfl
    · rw [if_neg hk, if_neg hk, ih]

theorem atValue_value {kind : ValueKind} (hs : f.shape = .value kind) (v : Json) :
    atValue types place f v = atScalar place f kind v := by
  cases v <;> simp [atValue, hs]

theorem atValue_node {schemas : List String} {target : String} (hs : f.shape = .node schemas target)
    (ms : List (String × Json)) : atValue types place f (.object ms) = match types.get? target with
      | some t => atObject types place t ms
      | none => [wrong f false .notModel place (.object ms)] := by
  rw [atValue, hs]
  rfl

end Violation

/-- The violations of a payload. -/
def TypeGraph.violations (g : TypeGraph) (ms : List (String × Json)) : List Violation :=
  Violation.atObject g.types [] g.rootType ms

/-! ### Issues of a reading -/

theorem Checked.issues_ofOption {α : Type} (kind : IssueKind) (input : Json) (x : Option α) :
    (Checked.ofOption kind input x).issues = if x.isSome then [] else [⟨kind, [], input⟩] := by
  cases x <;> rfl

theorem issues_noOthers (ms : List (String × Json)) (names : List String) :
    (noOthers ms names).issues = (ms.filter fun m => !names.contains m.1).map extra := by
  unfold noOthers
  split
  · next h =>
    rw [h]
    rfl
  · next h =>
    rw [h]
    rfl

/-- The issue as seen from the outermost value, where what was read stands at a place. -/
def Issue.at (place : List Step) (i : Issue) : Issue := { i with loc := place ++ i.loc }

theorem Issue.at_under (place : List Step) (step : Step) (i : Issue) :
    (i.under step).at place = i.at (place ++ [step]) := by
  simp [Issue.at, under]

/-! ### Reading gives the issues of the violations -/

namespace Payload

variable {models : Models} {types : Catalogue} {place : List Step} {f : Field}

/-- The issues of a text that is part of a file. -/
theorem issues_required (ms : List (String × Json)) (name : String) :
    (required ms name Json.asText).issues.map (Issue.at place)
      = (Violation.atPart place f ms name).map Violation.issue := by
  unfold required Violation.atPart
  cases Table.find name ms with
  | none => rfl
  | some v => cases v <;> simp [Json.asText, Issue.at, Issue.under, Violation.wrong]

theorem issues_readScalar (kind : ValueKind) (v : Json) :
    (readScalar kind v).issues.map (Issue.at place)
      = (Violation.atScalar place f kind v).map Violation.issue := by
  cases kind with
  | string => cases v <;> simp [readScalar, Violation.atScalar, Issue.at, Violation.wrong]
  | number =>
    cases v with
    | integer n =>
      simp only [readScalar, Checked.issues_map, Checked.issues_ofOption, Violation.atScalar,
        Binary.isSome_ofInt?_iff]
      split <;> simp [Issue.at, Violation.wrong]
    | _ => simp [readScalar, Violation.atScalar, Issue.at, Violation.wrong]
  | file =>
    cases v with
    | object ms =>
      show (Checked.seq (Checked.seq (Checked.seq (.ok _) _) _) _).issues.map (Issue.at place) = _
      simp only [Checked.issues_seq, Checked.issues_ok, List.nil_append, List.map_append,
        Violation.atScalar, issues_required (f := f), issues_noOthers, List.map_map]
      rfl
    | _ => simp [readScalar, Violation.atScalar, Issue.at, Violation.wrong]

theorem issues_readItems {vs : List Json} (h : ∀ v ∈ vs, ∀ place,
      (read models false f.shape v).issues.map (Issue.at place)
        = (Violation.atValue types place f v).map Violation.issue) (n : ℕ) :
    (readItems models f.shape n vs).issues.map (Issue.at place)
      = (Violation.atItems types place f n vs).map Violation.issue := by
  induction vs generalizing n with
  | nil => rfl
  | cons v rest ih =>
    obtain ⟨hv, hrest⟩ := List.forall_mem_cons.1 h
    rw [readItems, Violation.atItems, List.map_append, ← ih hrest, ← hv]
    simp [Issue.at_under]

theorem issues_readFields {ms : List (String × Json)} {fields : List (String × Field)}
    (h : ∀ e ∈ fields, ∀ v, Table.find e.1 ms = some v → ∀ place,
      (read models e.2.multiple e.2.shape v).issues.map (Issue.at place)
        = (Violation.atField types place e.2 v).map Violation.issue) :
    (readFields ms (readMembers models ms) fields).issues.map (Issue.at place)
      = (fields.flatMap fun e => Violation.atMember types place e.1 e.2 (.object ms) ms).map
          Violation.issue := by
  induction fields with
  | nil => rfl
  | cons e rest ih =>
    obtain ⟨key, f⟩ := e
    obtain ⟨hhere, hrest⟩ := List.forall_mem_cons.1 h
    rw [readFields, find_readMembers, List.flatMap_cons, List.map_append, ← ih hrest,
      Violation.atMember_eq, Checked.issues_seq, List.map_append, Checked.issues_map]
    refine congrArg (· ++ _) ?_
    cases hv : Table.find key ms with
    | some v =>
      rw [Option.map_some, ← hhere v hv]
      simp [Issue.at_under]
    | none =>
      rw [Option.map_none]
      cases f.multiple <;> rfl

theorem issues_readRoot {t : NodeType} {ms : List (String × Json)}
    (h : ∀ e ∈ t.fields.entries, ∀ v, Table.find e.1 ms = some v → ∀ place,
      (read models e.2.multiple e.2.shape v).issues.map (Issue.at place)
        = (Violation.atField types place e.2 v).map Violation.issue) :
    (readRoot models t ms).issues.map (Issue.at place)
      = (Violation.atObject types place t ms).map Violation.issue := by
  rw [readRoot, readObject, Violation.atObject, Checked.issues_seq, Checked.issues_map, List.map_append,
    List.map_append, issues_readFields h, issues_noOthers, Violation.undeclared, List.map_map, List.map_map]
  rfl

/-- What is read of a value under a field of a reachable type has the issues of its violations. -/
theorem issues_read {root : String} (hw : models.Within types) (hm : models.Complete types root) (v : Json) :
    ∀ place f, (∀ j, f.target? = some j → types.Reaches root j) →
      (read models false f.shape v).issues.map (Issue.at place)
        = (Violation.atValue types place f v).map Violation.issue ∧
      (read models f.multiple f.shape v).issues.map (Issue.at place)
        = (Violation.atField types place f v).map Violation.issue := by
  induction v using Json.induction with
  | step v ihItems ihMembers =>
    intro place f hr
    have hvalue : (read models false f.shape v).issues.map (Issue.at place)
        = (Violation.atValue types place f v).map Violation.issue := by
      cases hs : f.shape with
      | value kind =>
        rw [read_value, issues_readScalar (f := f), Violation.atValue_value hs]
      | node schemas target =>
        cases v with
        | object ms =>
          rw [Violation.atValue_node hs]
          have hreaches := hr target (by rw [Field.target?, hs])
          cases ht : types.get? target with
          | none =>
            have hno : models.target? target = none := by
              cases hmodel : models.target? target with
              | none => rfl
              | some t => cases ht.symm.trans (hw target t hmodel)
            simp [read, hno, Issue.at, Violation.wrong]
          | some t =>
            simp only [read, hm target t hreaches ht, Bool.false_eq_true, if_false]
            refine issues_readRoot fun e he v hv place => (ihMembers ms rfl e.1 v hv place e.2 fun j hj => ?_).2
            exact hreaches.tail ⟨t, e.1, e.2, ht, Table.get?_eq_some_iff.2 he, hj⟩
        | _ => simp [read, Violation.atValue, hs, Issue.at, Violation.wrong]
    refine ⟨hvalue, ?_⟩
    cases hmul : f.multiple with
    | false =>
      unfold Violation.atField
      rw [hvalue, hmul]
    | true =>
      cases v with
      | list items =>
        unfold Violation.atField
        rw [hmul]
        simp only [read, if_true, Checked.issues_map]
        exact issues_readItems (fun v hv place => (ihItems items rfl v hv place f hr).1) 0
      | _ => simp [read, Violation.atField, hmul, Issue.at, Violation.wrong]

end Payload

/-! ### The place of an issue tells its cause -/

namespace TypeGraph

variable {g : TypeGraph} {place : List Step} {t : NodeType} {key : String} {f : Field}

/-- The walk along a place, from the root on, comes to a type and a field. -/
def Arrives (g : TypeGraph) (place : List Step) (t : Option NodeType) (at_ : Option (String × Field)) : Prop :=
  ∀ rest, g.types.walk (some g.rootType) none (place ++ rest) = g.types.walk t at_ rest

theorem arrives_root : g.Arrives [] (some g.rootType) none := fun _ => rfl

theorem Arrives.member {at_ : Option (String × Field)} (h : g.Arrives place (some t) at_)
    (hf : t.fields.get? key = some f) :
    g.Arrives (place ++ [.member key]) (f.target?.bind g.types.get?) (some (key, f)) := by
  intro rest
  rw [List.append_assoc, List.singleton_append, h, Catalogue.walk, Option.bind_some, hf]

theorem Arrives.item {t : Option NodeType} {at_ : Option (String × Field)} (h : g.Arrives place t at_)
    (n : ℕ) : g.Arrives (place ++ [.item n]) t at_ := by
  intro rest
  rw [List.append_assoc, List.singleton_append, h, Catalogue.walk]

/-- A key that the type which a walk comes to does not have is no further field. -/
theorem Arrives.walk_member {t : Option NodeType} {at_ : Option (String × Field)} (h : g.Arrives place t at_)
    (hk : t.bind (fun t => t.fields.get? key) = none) :
    g.types.walk (some g.rootType) none (place ++ [.member key]) = (at_, false) := by
  rw [h, Catalogue.walk, hk]

theorem Arrives.walk {t : Option NodeType} {at_ : Option (String × Field)} (h : g.Arrives place t at_) :
    g.types.walk (some g.rootType) none place = (at_, at_.isSome) := by
  have hnil := h []
  rwa [List.append_nil, Catalogue.walk] at hnil

/-- A violation has the failure that validation finds for its issue. -/
def Tells (g : TypeGraph) (v : Violation) : Prop := ∀ issues, g.refusal v.issue issues = v.failure issues

theorem tells_absent {at_ : Option (String × Field)} (h : g.Arrives place (some t) at_)
    (hf : t.fields.get? key = some f) (object : Json) :
    g.Tells ⟨⟨.missing, place ++ [.member key], object⟩, .absent⟩ := by
  intro issues
  have hw := (h.member hf).walk
  simp [refusal, hw, Violation.failure]

theorem tells_undeclared {at_ : Option (String × Field)} (h : g.Arrives place (some t) at_)
    (hnode : ∀ e ∈ at_, e.2.kind = .node) (hk : t.fields.get? key = none) (v : Json) :
    g.Tells ⟨⟨.extra, place ++ [.member key], v⟩, .undeclared⟩ := by
  intro issues
  have hw := h.walk_member (t := some t) hk
  cases at_ with
  | none => simp [refusal, hw, Violation.failure]
  | some e => simp [refusal, hw, Violation.failure, hnode e rfl]

/-- A value of the wrong shape under a field is told with what the field asks for. -/
theorem tells_wrong {t : Option NodeType} {whole : Bool} {kind : IssueKind} {v : Json}
    (h : g.Arrives place t (some (key, f))) (hmissing : kind ≠ .missing) (hextra : kind ≠ .extra)
    (hwhole : whole = true ↔ f.multiple = true ∧ place.getLast? = some (.member key)) :
    g.Tells (.wrong f whole kind place v) := by
  intro issues
  have hw := h.walk
  cases whole <;> simp_all [refusal, Violation.failure, Violation.wrong]

/-- What is wrong within a file is told with what the field of the file asks for. -/
theorem tells_part {name : String} {kind : IssueKind} {v : Json} (h : g.Arrives place none (some (key, f)))
    (hf : f.kind ≠ .node) : g.Tells (.wrong f false kind (place ++ [.member name]) v) := by
  intro issues
  have hw : g.types.walk (some g.rootType) none (place ++ [.member name]) = (some (key, f), false) :=
    h.walk_member rfl
  simp [refusal, hw, hf, Violation.failure, Violation.wrong]

/-- The place of a value under a field is where a walk comes to that field, and not its key where a list is
asked for there. -/
structure ArrivesAt (g : TypeGraph) (place : List Step) (key : String) (f : Field) : Prop where
  /-- The walk comes to the field and to the type it leads to. -/
  arrives : g.Arrives place (f.target?.bind g.types.get?) (some (key, f))
  /-- The value is one of a key that stands once, or an item. -/
  single : ¬(f.multiple = true ∧ place.getLast? = some (.member key))

theorem ArrivesAt.tells {kind : IssueKind} {v : Json} (h : g.ArrivesAt place key f) (hmissing : kind ≠ .missing)
    (hextra : kind ≠ .extra) : g.Tells (.wrong f false kind place v) :=
  tells_wrong h.arrives hmissing hextra (by simpa using h.single)

theorem ArrivesAt.tells_scalar {kind : ValueKind} (h : g.ArrivesAt place key f) (hs : f.shape = .value kind)
    (v : Json) : ∀ w ∈ Violation.atScalar place f kind v, g.Tells w := by
  cases kind with
  | string => cases v <;> simp [Violation.atScalar, h.tells]
  | number =>
    cases v with
    | integer n =>
      simp only [Violation.atScalar]
      split <;> simp [h.tells]
    | _ => simp [Violation.atScalar, h.tells]
  | file =>
    have harrives : g.Arrives place none (some (key, f)) := by
      have hnone : f.target?.bind g.types.get? = none := by rw [Field.target?, hs]; rfl
      exact hnone ▸ h.arrives
    have hfile : f.kind ≠ .node := by
      rw [Field.kind, hs]
      exact nofun
    cases v with
    | object ms =>
      have hpart : ∀ name, ∀ w ∈ Violation.atPart place f ms name, g.Tells w := by
        intro name w hw
        unfold Violation.atPart at hw
        split at hw
        · rw [List.mem_singleton.1 hw]
          exact tells_part harrives hfile
        · cases hw
        · rw [List.mem_singleton.1 hw]
          exact tells_part harrives hfile
      intro w hw
      rw [Violation.atScalar, List.mem_append, List.mem_append] at hw
      rcases hw with (hw | hw) | hw
      · exact hpart _ w hw
      · exact hpart _ w hw
      · obtain ⟨m, -, rfl⟩ := List.mem_map.1 hw
        exact tells_part harrives hfile
    | _ => simp [Violation.atScalar, h.tells]

theorem tells_items {vs : List Json} (h : g.Arrives place (f.target?.bind g.types.get?) (some (key, f)))
    (hvs : ∀ v ∈ vs, ∀ place, g.ArrivesAt place key f → ∀ w ∈ Violation.atValue g.types place f v, g.Tells w)
    (n : ℕ) : ∀ w ∈ Violation.atItems g.types place f n vs, g.Tells w := by
  induction vs generalizing n with
  | nil => simp [Violation.atItems]
  | cons v rest ih =>
    obtain ⟨hv, hrest⟩ := List.forall_mem_cons.1 hvs
    intro w hw
    rw [Violation.atItems, List.mem_append] at hw
    rcases hw with hw | hw
    · exact hv _ ⟨h.item n, by simp⟩ w hw
    · exact ih hrest (n + 1) w hw

/-- What is told of an object is told rightly where that holds of its members. -/
theorem tells_object {at_ : Option (String × Field)} {ms : List (String × Json)}
    (h : g.Arrives place (some t) at_) (hnode : ∀ e ∈ at_, e.2.kind = .node)
    (hms : ∀ key v, Table.find key ms = some v → ∀ place f, place.getLast? = some (.member key) →
      g.Arrives place (f.target?.bind g.types.get?) (some (key, f)) →
      ∀ w ∈ Violation.atField g.types place f v, g.Tells w) :
    ∀ w ∈ Violation.atObject g.types place t ms, g.Tells w := by
  intro w hw
  rw [Violation.atObject, List.mem_append, List.mem_flatMap] at hw
  rcases hw with ⟨⟨key, f⟩, he, hw⟩ | hw
  · have hf := Table.get?_eq_some_iff.2 he
    rw [Violation.atMember_eq] at hw
    cases hv : Table.find key ms with
    | some v =>
      rw [hv] at hw
      exact hms key v hv _ f (by simp) (h.member hf) w hw
    | none =>
      rw [hv] at hw
      dsimp only at hw
      split at hw
      · cases hw
      · rw [List.mem_singleton.1 hw]
        exact tells_absent h hf _
  · obtain ⟨m, hm, rfl⟩ := List.mem_map.1 hw
    have hk : t.fields.get? m.1 = none := by
      cases hf : t.fields.get? m.1 with
      | none => rfl
      | some f => simp [Table.mem_keys_iff.2 ⟨f, hf⟩] at hm
    exact tells_undeclared h hnode hk m.2

/-- What is told of a value under a field, or of one of its items, is told rightly. -/
theorem tells_value (v : Json) : ∀ key f,
    (∀ place, g.ArrivesAt place key f → ∀ w ∈ Violation.atValue g.types place f v, g.Tells w) ∧
    ∀ place, place.getLast? = some (.member key) →
      g.Arrives place (f.target?.bind g.types.get?) (some (key, f)) →
      ∀ w ∈ Violation.atField g.types place f v, g.Tells w := by
  induction v using Json.induction with
  | step v ihItems ihMembers =>
    intro key f
    have hvalue : ∀ place, g.ArrivesAt place key f →
        ∀ w ∈ Violation.atValue g.types place f v, g.Tells w := by
      intro place h
      cases hs : f.shape with
      | value kind =>
        rw [Violation.atValue_value hs]
        exact h.tells_scalar hs v
      | node schemas target =>
        cases v with
        | object ms =>
          rw [Violation.atValue_node hs]
          have harrives := h.arrives
          rw [Field.target?, hs, Option.bind_some] at harrives
          cases ht : g.types.get? target with
          | none => simp [h.tells]
          | some t =>
            rw [ht] at harrives
            refine tells_object harrives ?_ fun key v hv place f => (ihMembers ms rfl key v hv key f).2 place
            rintro e ⟨⟩
            rw [Field.kind, hs]
        | _ => simp [Violation.atValue, hs, h.tells]
    refine ⟨hvalue, fun place hlast h => ?_⟩
    unfold Violation.atField
    cases hmul : f.multiple with
    | false => exact hvalue place ⟨h, by simp [hmul]⟩
    | true =>
      have hwhole : ∀ v, g.Tells (.wrong f true .notList place v) := fun v =>
        tells_wrong h nofun nofun (by simp [hmul, hlast])
      cases v with
      | list items => exact tells_items h (fun v hv => (ihItems items rfl v hv key f).1) 0
      | _ => simp [hwhole]

theorem tells_violations {ms : List (String × Json)} : ∀ v ∈ g.violations ms, g.Tells v :=
  tells_object arrives_root nofun fun key v _ place f => (tells_value v key f).2 place

theorem issues_readRoot_violations (hn : g.DistinctNames) (ms : List (String × Json)) :
    (Payload.readRoot g.reachable g.rootType ms).issues = (g.violations ms).map Violation.issue := by
  have hroot : (Payload.readRoot g.reachable g.rootType ms).issues.map (Issue.at [])
      = (g.violations ms).map Violation.issue := by
    refine Payload.issues_readRoot fun e he v _ place => ?_
    refine (Payload.issues_read (within_reachable hn) (complete_reachable hn) v place e.2 fun j hj => ?_).2
    exact .single ⟨g.rootType, e.1, e.2, g.root_mem, Table.get?_eq_some_iff.2 he, hj⟩
  have hid : Issue.at [] = id := rfl
  rwa [hid, List.map_id] at hroot

/-- **A payload is refused for its first violation, and all of them are told.** A payload is accepted where
it has no violations. -/
theorem validatePayload_violations (hn : g.DistinctNames) (ms : List (String × Json)) :
    ((∃ v, g.validatePayload (.object ms) = .ok v) ↔ g.violations ms = []) ∧
    ∀ failure, g.validatePayload (.object ms) = .error failure ↔
      ∃ first more, g.violations ms = first :: more ∧
        failure = first.failure ((first :: more).map Violation.issue) := by
  have hissues := issues_readRoot_violations hn ms
  unfold validatePayload
  cases hr : Payload.readRoot g.reachable g.rootType ms with
  | ok w =>
    rw [hr] at hissues
    have hnone : g.violations ms = [] := List.map_eq_nil_iff.1 hissues.symm
    simp [hr, hnone]
  | refused first more =>
    rw [hr] at hissues
    obtain ⟨v, others, hv, rfl, rfl⟩ := List.map_eq_cons_iff.1 hissues.symm
    have htells : g.refusal v.issue ((v :: others).map Violation.issue)
        = v.failure ((v :: others).map Violation.issue) :=
      tells_violations v (hv ▸ List.mem_cons_self) _
    rw [List.map_cons] at htells
    simp [hr, hv, htells, eq_comm]

/-- A payload of a chain whose title is absent and whose link is no link. -/
def brokenChain : List (String × Json) :=
  [("more", .null), ("next", .object [("other", .null), ("next", .list [])])]

theorem validatePayload_violations_chain : ∃ g,
    (Gateway.ofStore chainStore).source.compile 8 ["head", "link"] = .ok g ∧ g.DistinctNames ∧
    (g.violations brokenChain).map (fun v => pathText v.issue.loc)
      = ["title", "next.next", "next.other", "more"] ∧
    ((∃ v, g.validatePayload (.object brokenChain) = .ok v) ↔ g.violations brokenChain = []) ∧
    ∀ failure, g.validatePayload (.object brokenChain) = .error failure ↔
      ∃ first more, g.violations brokenChain = first :: more ∧
        failure = first.failure ((first :: more).map Violation.issue) := by
  have hrun : ((Source.ofTable chainResources).compile 8 ["head", "link"]).toOption.any (fun g =>
      decide g.DistinctNames && decide ((g.violations brokenChain).map (fun v => pathText v.issue.loc)
        = ["title", "next.next", "next.other", "more"])) = true := by
    decide +kernel
  rw [← spells_chain.source_eq] at hrun
  obtain ⟨g, hg, hrun⟩ := exists_ok_of_any hrun
  rw [Bool.and_eq_true, decide_eq_true_eq, decide_eq_true_eq] at hrun
  obtain ⟨hn, hplaces⟩ := hrun
  exact ⟨g, hg, hn, hplaces, validatePayload_violations hn brokenChain⟩

end TypeGraph

end ContentGraph
