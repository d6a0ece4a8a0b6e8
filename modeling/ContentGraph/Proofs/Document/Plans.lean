import ContentGraph.Proofs.Document.Elements

/-!
# Plans and what is below them

The documents beneath the document of a plan are those of the plans below it (`Plan.Below`). What
holds of every portion of a plan and of the plans below it is `Plan.All`. The plan of a payload
knows texts, numbers and files, and no references (`Plan.plain_ofPayload`): a reference stands in a
document only for a document that was planned.
-/

namespace ContentGraph

/-- A plan whose document has to be stored before that of another. -/
inductive Plan.Below : Plan → Plan → Prop
  /-- The other refers to it. -/
  | child {child plan : Plan} {key : String} {plans : List Plan} :
      .children key plans ∈ plan.portions → child ∈ plans → Below child plan
  /-- The other refers to one that it is below. -/
  | deeper {sub child plan : Plan} {key : String} {plans : List Plan} :
      .children key plans ∈ plan.portions → child ∈ plans → Below sub child → Below sub plan

/-- Every portion of a plan and of the plans below it has a property. -/
inductive Plan.All (P : Portion → Prop) : Plan → Prop
  /-- Its own portions have it, and those of the plans it refers to. -/
  | document {schemas : List String} {portions : List Portion} : (∀ p ∈ portions, P p) →
      (∀ key plans, .children key plans ∈ portions → ∀ child ∈ plans, All P child) →
      All P (.document schemas portions)

theorem Plan.All.portions {P : Portion → Prop} {plan : Plan} (h : plan.All P) :
    ∀ p ∈ plan.portions, P p := by
  cases h with
  | document hp _ => exact hp

theorem Plan.All.child {P : Portion → Prop} {plan child : Plan} {key : String} {plans : List Plan}
    (h : plan.All P) (hp : .children key plans ∈ plan.portions) (hc : child ∈ plans) :
    child.All P := by
  cases h with
  | document _ hs => exact hs key plans hp child hc

theorem Plan.All.of_below {P : Portion → Prop} {sub plan : Plan} (hs : sub.Below plan)
    (h : plan.All P) : sub.All P := by
  induction hs with
  | child hp hc => exact h.child hp hc
  | deeper hp hc _ ih => exact ih (h.child hp hc)

/-- It holds of what is left after some portions. -/
theorem Plan.All.of_append {P : Portion → Prop} {schemas : List String} (before : List Portion)
    {after portions : List Portion} (h : (Plan.document schemas portions).All P)
    (hp : portions = before ++ after) : (Plan.document schemas after).All P := by
  subst hp
  refine .document (fun p hm => ?_) fun key plans hm child hc => ?_
  · exact h.portions p (List.mem_append_right _ hm)
  · exact h.child (List.mem_append_right _ hm) hc

/-- There are no references among the elements that are known. -/
def Portion.Plain : Portion → Prop
  | .elements es => ∀ e ∈ es, e.kind ≠ .node
  | _ => True

/-! ### Plans of payloads -/

namespace Plan

theorem kind_of_valueElement {key : String} {kind : ValueKind} {v : Json} {e : Element}
    (h : valueElement key kind v = .ok e) : e.kind = .value kind := by
  have hc : ∀ {x : Checked Element}, x.toExcept = .ok e → x = .ok e := fun hx =>
    Checked.toOption_eq_some_iff.1 (by rw [← Checked.toOption_toExcept, hx]; rfl)
  unfold valueElement at h
  split at h
  · have hr := hc h
    simp only [Element.readString, Checked.seq_eq_ok_iff, Checked.fmap_eq_ok_iff] at hr
    obtain ⟨_, _, ⟨_, _, ⟨_, _, ⟨_, -, rfl⟩, -, rfl⟩, -, rfl⟩, -, rfl⟩ := hr
    rfl
  · have hr := hc h
    simp only [Element.readNumber, Checked.seq_eq_ok_iff, Checked.fmap_eq_ok_iff] at hr
    obtain ⟨_, _, ⟨_, _, ⟨_, _, ⟨_, -, rfl⟩, -, rfl⟩, -, rfl⟩, -, rfl⟩ := hr
    rfl
  · split at h
    · split at h
      · have hr := hc h
        simp only [Element.readFile, Checked.seq_eq_ok_iff, Checked.fmap_eq_ok_iff] at hr
        obtain ⟨_, _, ⟨_, _, ⟨_, _, ⟨_, _, ⟨_, -, rfl⟩, -, rfl⟩, -, rfl⟩, -, rfl⟩, -, rfl⟩ := hr
        rfl
      · cases h
      · cases h
    · cases h

theorem plain_valuePortion (key : String) (kind : ValueKind) (multiple : Bool) (v : Json) :
    (valuePortion key kind multiple v).Plain := by
  unfold valuePortion
  split
  · next es he =>
    cases hv : valuesOf multiple v with
    | error fault =>
      rw [hv] at he
      cases he
    | ok vs =>
      rw [hv] at he
      intro e hm hk
      obtain ⟨_, -, hv⟩ := exists_of_mem_right (mapM_eq_ok_iff.1 he) e hm
      cases (kind_of_valueElement hv).symm.trans hk
  · trivial

/-- What is planned below a field holds no references among the elements that are known. -/
def Planning.Plain (planning : Planning) : Prop :=
  ∀ t multiple schemas plans, planning t multiple schemas = .ok plans →
    ∀ plan ∈ plans, plan.All Portion.Plain

theorem all_unreadable (schemas : List String) : (unreadable schemas).All Portion.Plain := by
  refine .document ?_ ?_
  · intro p hp
    cases List.mem_singleton.1 hp
    trivial
  · intro key plans hp
    cases List.mem_singleton.1 hp

theorem all_of_unreadable {schemas : List String} {plans : List Plan}
    (h : ∀ plan ∈ plans, plan = unreadable schemas) : ∀ plan ∈ plans, plan.All Portion.Plain := by
  intro plan hp
  rw [h plan hp]
  exact all_unreadable schemas

/-- A value that is neither a text nor a list nor an object has no documents below it. -/
theorem plain_of_other {planning : Planning} (h : planning = fun _ multiple schemas =>
    if multiple then .error .wrongShape else .ok [unreadable schemas]) : Planning.Plain planning := by
  subst h
  intro t multiple schemas plans h
  dsimp only at h
  split at h <;> cases h
  exact all_of_unreadable fun _ hp => List.mem_singleton.1 hp

theorem all_portions {types : Catalogue} {ms : List (String × Json)} {t : NodeType}
    {schemas : List String} {plannings : List (String × Planning)}
    (h : ∀ key planning, Table.find key plannings = some planning → Planning.Plain planning) :
    (Plan.document schemas
      (t.fields.entries.map fun e => portion types ms plannings e.1 e.2)).All Portion.Plain := by
  have hcases : ∀ key f, (portion types ms plannings key f).Plain ∧
      ∀ other plans, portion types ms plannings key f = .children other plans →
        ∀ child ∈ plans, child.All Portion.Plain := by
    intro key f
    unfold portion
    split
    · next v planning _ hf =>
      split
      · next kind _ =>
        refine ⟨plain_valuePortion _ _ _ _, fun other plans hp => ?_⟩
        unfold valuePortion at hp
        split at hp <;> cases hp
      · split
        · exact ⟨trivial, fun _ _ hp => by cases hp⟩
        · split
          · next plans hplans =>
            refine ⟨trivial, fun other plans' hp => ?_⟩
            cases hp
            exact h key planning hf _ _ _ _ hplans
          · exact ⟨trivial, fun _ _ hp => by cases hp⟩
    · exact ⟨trivial, fun _ _ hp => by cases hp⟩
  refine .document ?_ ?_
  · intro p hp
    obtain ⟨e, -, rfl⟩ := List.mem_map.1 hp
    exact (hcases e.1 e.2).1
  · intro key plans hp
    obtain ⟨e, -, he⟩ := List.mem_map.1 hp
    exact (hcases e.1 e.2).2 key plans he

mutual

theorem plain_planValue (types : Catalogue) : ∀ v, Planning.Plain (planValue types v)
  | .list items => by
    intro t multiple schemas plans h
    unfold planValue at h
    split at h <;> cases h
    · exact plain_planItems types items t schemas
    · exact all_of_unreadable fun _ hp => List.mem_singleton.1 hp
  | .object ms => by
    intro t multiple schemas plans h
    unfold planValue at h
    split at h <;> cases h
    · exact all_of_unreadable fun _ hp => (List.mem_map.1 hp).elim fun _ h => h.2.symm
    · intro plan hp
      cases List.mem_singleton.1 hp
      exact all_portions (plain_planMembers types ms)
  | .text s => by
    intro t multiple schemas plans h
    unfold planValue at h
    split at h <;> cases h
    · exact all_of_unreadable fun _ hp => (List.mem_map.1 hp).elim fun _ h => h.2.symm
    · exact all_of_unreadable fun _ hp => List.mem_singleton.1 hp
  | .null => plain_of_other rfl
  | .bool _ => plain_of_other rfl
  | .integer _ => plain_of_other rfl
  | .number _ => plain_of_other rfl

theorem plain_planItems (types : Catalogue) : ∀ (items : List Json) (t : NodeType)
    (schemas : List String), ∀ plan ∈ planItems types items t schemas, plan.All Portion.Plain
  | [], _, _, _, hp => by
    unfold planItems at hp
    cases hp
  | v :: rest, t, schemas, plan, hp => by
    unfold planItems at hp
    rcases List.mem_append.1 hp with hp | hp
    · split at hp
      · next plans hv => exact plain_planValue types v t false schemas plans hv plan hp
      · cases hp
    · exact plain_planItems types rest t schemas plan hp

theorem plain_planMembers (types : Catalogue) : ∀ (ms : List (String × Json)) (key : String)
    (planning : Planning), Table.find key (planMembers types ms) = some planning →
    Planning.Plain planning
  | [], _, _, h => by cases h
  | (k, v) :: rest, key, planning, h => by
    unfold planMembers Table.find at h
    split at h
    · cases h
      exact plain_planValue types v
    · exact plain_planMembers types rest key planning h

end

/-- A payload is planned without references: those come with the documents they refer to. -/
theorem plain_ofPayload (types : Catalogue) (t : NodeType) (schemas : List String) (v : Json) :
    (ofPayload types t schemas v).All Portion.Plain := by
  unfold ofPayload
  split
  · exact all_portions (plain_planMembers types _)
  · exact all_unreadable schemas

end Plan

end ContentGraph
