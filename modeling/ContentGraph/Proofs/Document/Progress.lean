import ContentGraph.Document.Work
import ContentGraph.Proofs.Document.Realisation

/-!
# Jobs follow their plans

Whatever moves are made and in whatever order, a job is at a point of its plan: what it has built
are the elements that its portions stand for, the jobs it waits for follow the plans of a
portion, and the store holds all documents that were written (`Job.follows_moveAt`). So the
document of a plan that is carried out is the one the plan stands for, and the store holds the
documents beneath it (`Work.write_ok`), as long as no two of their texts have one digest.
-/

namespace ContentGraph

/-- The canonical texts of documents. -/
def documentTexts (ds : List Document) : List String :=
  ds.map fun d => (Resource.document d).canonicalText

theorem Store.HoldsAll.mono {texts : List String} {s s' : Store} {ds : List Document}
    (hk : s.Keeps texts s') (ht : documentTexts ds ⊆ texts) (h : s.HoldsAll ds) : s'.HoldsAll ds :=
  fun d hd => hk.2 _ (ht (List.mem_map_of_mem hd)) (h d hd)

/-- A gateway to a store that keeps what the store of another holds, with the same faults in
fetching. -/
def Gateway.Keeps (texts : List String) (g g' : Gateway) : Prop :=
  g.store.Keeps texts g'.store ∧ g'.fetchFaults = g.fetchFaults

theorem Gateway.Keeps.refl (texts : List String) (g : Gateway) : g.Keeps texts g :=
  ⟨.refl _ _, rfl⟩

theorem Gateway.Keeps.trans {texts : List String} {g g' g'' : Gateway} (h : g.Keeps texts g')
    (h' : g'.Keeps texts g'') : g.Keeps texts g'' :=
  ⟨h.1.trans h'.1, h'.2.trans h.2⟩

/-- Storing keeps what is held and has the resource's address, or changes nothing. -/
theorem Gateway.save_cases {texts : List String} (hc : NoCollision texts) (g : Gateway)
    {r : Resource} (hr : r.canonicalText ∈ texts) :
    (∃ g', g.save r = (.ok (r.address g.store.lead), g') ∧ g'.store.Holds r ∧ g.Keeps texts g') ∨
      ∃ f, g.save r = (.error f, g) := by
  obtain ⟨store, faults, storeFault⟩ := g
  have hk := Store.keeps_save hc store hr
  rcases storeFault with _ | ⟨_ | n, message, own⟩
  · exact .inl ⟨_, rfl, store.holds_save r, hk, rfl⟩
  · exact .inr ⟨_, rfl⟩
  · exact .inl ⟨_, rfl, store.holds_save r, hk, rfl⟩

variable {lead version : String} {texts : List String}

namespace Job

/-- The portions before a point are built, and the documents beneath them are held. -/
structure Reached (lead version : String) (s : Store) (before : List Portion) (done : List Element) :
    Prop where
  /-- The elements are those of the portions. -/
  elements : portionsElements? lead version before = some done
  /-- What the portions refer to is held. -/
  held : s.HoldsAll (portionsBeneath lead version before)

theorem Reached.concat {s : Store} {before : List Portion} {p : Portion} {done es : List Element}
    (h : Reached lead version s before done) (hp : p.elements? lead version = some es)
    (hh : s.HoldsAll (p.beneath lead version)) :
    Reached lead version s (before ++ [p]) (done ++ es) := by
  refine ⟨portionsElements?_concat h.elements hp, fun d hd => ?_⟩
  rw [portionsBeneath_append, List.mem_append, portionsBeneath, portionsBeneath, List.append_nil] at hd
  exact hd.elim (h.held d) (hh d)

mutual

/-- A job is at a point of a plan, and what was written for it is held. -/
inductive Follows (lead version : String) (s : Store) : Plan → Job → Prop
  /-- It is not begun. -/
  | planned {plan : Plan} : Follows lead version s plan (.planned plan)
  /-- It waits at a portion, and the portions before are built. -/
  | waiting {schemas : List String} {before rest : List Portion} {done : List Element} {key : String}
      {plans : List Plan} {children : List Job} :
      Reached lead version s before done → FollowsAll lead version s plans children →
      Follows lead version s (.document schemas (before ++ .children key plans :: rest))
        (.waiting schemas done key children rest)
  /-- Its document is built. -/
  | built {plan : Plan} {d : Document} : plan.realised? lead version = some d →
      s.HoldsAll (plan.beneath lead version) → Follows lead version s plan (.built d)
  /-- Its document is stored. -/
  | stored {plan : Plan} {d : Document} : plan.realised? lead version = some d →
      s.HoldsAll (plan.documents lead version) →
      Follows lead version s plan (.stored d ((Resource.document d).address lead))
  /-- It is given up alone. -/
  | alone {plan : Plan} {fault : Fault} : Follows lead version s plan (.failed fault [])
  /-- It is given up at a portion. -/
  | failed {plan : Plan} {fault : Fault} {key : String} {plans : List Plan} {children : List Job} :
      .children key plans ∈ plan.portions → FollowsAll lead version s plans children →
      Follows lead version s plan (.failed fault children)

/-- Jobs follow plans one by one. -/
inductive FollowsAll (lead version : String) (s : Store) : List Plan → List Job → Prop
  /-- There are no more jobs. -/
  | nil : FollowsAll lead version s [] []
  /-- The first job and the others. -/
  | cons {plan : Plan} {plans : List Plan} {job : Job} {jobs : List Job} :
      Follows lead version s plan job → FollowsAll lead version s plans jobs →
      FollowsAll lead version s (plan :: plans) (job :: jobs)

end

/-- The texts of all documents of a plan are among some texts. -/
abbrev Within (lead version : String) (texts : List String) (plan : Plan) : Prop :=
  documentTexts (plan.documents lead version) ⊆ texts

theorem children_mem_portions (schemas : List String) (before rest : List Portion) (key : String)
    (plans : List Plan) : .children key plans ∈
      (Plan.document schemas (before ++ .children key plans :: rest)).portions :=
  List.mem_append_right _ List.mem_cons_self

theorem within_child {plan child : Plan} {key : String} {plans : List Plan}
    (hp : .children key plans ∈ plan.portions) (hc : child ∈ plans)
    (h : Within lead version texts plan) : Within lead version texts child := by
  intro text ht
  obtain ⟨d, hd, rfl⟩ := List.mem_map.1 ht
  exact h (List.mem_map_of_mem (List.mem_append_left _ (Plan.mem_beneath_of_child hp hc hd)))

theorem documentTexts_beneath {plan : Plan} (h : Within lead version texts plan) :
    documentTexts (plan.beneath lead version) ⊆ texts := by
  intro text ht
  obtain ⟨d, hd, rfl⟩ := List.mem_map.1 ht
  exact h (List.mem_map_of_mem (List.mem_append_left _ hd))

theorem text_mem_of_realised? {plan : Plan} {d : Document} (h : Within lead version texts plan)
    (hd : plan.realised? lead version = some d) : (Resource.document d).canonicalText ∈ texts :=
  h (List.mem_map_of_mem (Plan.mem_documents_of_realised? hd))

/-! ### Later stores -/

theorem Reached.mono {s s' : Store} (hk : s.Keeps texts s') {schemas : List String}
    {before rest : List Portion} {done : List Element}
    (hw : Within lead version texts (.document schemas (before ++ rest)))
    (h : Reached lead version s before done) : Reached lead version s' before done := by
  refine ⟨h.elements, h.held.mono hk fun text ht => ?_⟩
  obtain ⟨d, hd, rfl⟩ := List.mem_map.1 ht
  refine documentTexts_beneath hw (List.mem_map_of_mem ?_)
  rw [Plan.beneath, portionsBeneath_append]
  exact List.mem_append_left _ hd

mutual

/-- A job follows its plan in every store that keeps what is held. -/
theorem Follows.mono {s s' : Store} (hk : s.Keeps texts s') {plan : Plan} {job : Job}
    (hw : Within lead version texts plan) (h : Follows lead version s plan job) :
    Follows lead version s' plan job := by
  cases h with
  | planned => exact .planned
  | @waiting schemas before rest done key plans children hr hf =>
    exact .waiting (hr.mono hk hw) (FollowsAll.mono hk
      (fun _ hc => within_child (children_mem_portions _ _ _ _ _) hc hw) hf)
  | built hr hh => exact .built hr (hh.mono hk (documentTexts_beneath hw))
  | stored hr hh => exact .stored hr (hh.mono hk hw)
  | alone => exact .alone
  | failed hp hf => exact .failed hp (FollowsAll.mono hk (fun _ hc => within_child hp hc hw) hf)

theorem FollowsAll.mono {s s' : Store} (hk : s.Keeps texts s') {plans : List Plan} {jobs : List Job}
    (hw : ∀ plan ∈ plans, Within lead version texts plan) (h : FollowsAll lead version s plans jobs) :
    FollowsAll lead version s' plans jobs := by
  cases h with
  | nil => exact .nil
  | cons hj hs =>
    exact .cons (Follows.mono hk (hw _ List.mem_cons_self) hj)
      (FollowsAll.mono hk (fun p hp => hw p (List.mem_cons_of_mem _ hp)) hs)

end

/-! ### Moves -/

theorem followsAll_planned {s : Store} : ∀ plans : List Plan,
    FollowsAll lead version s plans (plans.map .planned)
  | [] => .nil
  | _ :: plans => .cons .planned (followsAll_planned plans)

/-- What a move has to give: the job still follows the plan, and the store keeps what it holds. -/
def Advances (lead version : String) (texts : List String) (plan : Plan) (g : Gateway)
    (moved : Job × Gateway) : Prop :=
  Follows lead version moved.2.store plan moved.1 ∧ g.Keeps texts moved.2

theorem Advances.of_follows {plan : Plan} {g : Gateway} {job : Job}
    (h : Follows lead version g.store plan job) : Advances lead version texts plan g (job, g) :=
  ⟨h, .refl _ _⟩

theorem advances_finish (hc : NoCollision texts) {plan : Plan} {g : Gateway} {d : Document}
    (hl : g.store.lead = lead) (hw : Within lead version texts plan)
    (hd : plan.realised? lead version = some d) (hb : g.store.HoldsAll (plan.beneath lead version))
    (stores : Bool) : Advances lead version texts plan g (finish stores d g) := by
  unfold finish
  split
  · rcases g.save_cases hc (text_mem_of_realised? hw hd) with ⟨g', hs, hh, hk⟩ | ⟨f, hs⟩
    · rw [hs, hl]
      refine ⟨.stored hd ?_, hk⟩
      intro e he
      rw [Plan.documents, hd, List.mem_append] at he
      rcases he with he | he
      · exact hk.1.2 _ (documentTexts_beneath hw (List.mem_map_of_mem he)) (hb e he)
      · cases List.mem_singleton.1 he
        exact hh
    · rw [hs]
      exact .of_follows .alone
  · exact .of_follows (.built hd hb)

/-- Building portions from a point on keeps to the plan. -/
theorem advances_proceed (hc : NoCollision texts) {schemas : List String} {g : Gateway}
    (hl : g.store.lead = lead) (stores : Bool) : ∀ {rest before : List Portion} {done : List Element},
    Within lead version texts (.document schemas (before ++ rest)) →
    Reached lead version g.store before done →
    Advances lead version texts (.document schemas (before ++ rest)) g
      (proceed stores version schemas g done rest)
  | [], before, done, hw, hr => by
    rw [List.append_nil] at hw ⊢
    refine advances_finish hc hl hw ?_ ?_ stores
    · rw [Plan.realised?, hr.elements, Option.map_some]
    · exact hr.held
  | .elements es :: rest, before, done, hw, hr => by
    have hr' := hr.concat (p := .elements es) rfl fun d hd => absurd hd (by simp [Portion.beneath])
    rw [← List.singleton_append, ← List.append_assoc] at hw ⊢
    exact advances_proceed hc hl stores hw hr'
  | .fault _ :: _, _, _, _, _ => .of_follows .alone
  | .children key plans :: rest, before, done, hw, hr => by
    unfold proceed
    split
    · next he =>
      cases List.isEmpty_iff.1 he
      have hr' : Reached lead version g.store (before ++ [.children key []]) (done ++ []) :=
        hr.concat rfl fun d hd => absurd hd (by simp [Portion.beneath, plansDocuments])
      rw [← List.singleton_append, ← List.append_assoc] at hw ⊢
      rw [List.append_nil] at hr'
      exact advances_proceed hc hl stores hw hr'
    · exact .of_follows (.waiting hr (followsAll_planned plans))

/-- Where all jobs of a portion are stored, their addresses are those of the documents that the
plans stand for. -/
theorem FollowsAll.stored {s : Store} {plans : List Plan} {jobs : List Job} {addresses : List String}
    (hf : FollowsAll lead version s plans jobs) (h : jobs.mapM address? = some addresses) :
    ∃ ds, plansRealised? lead version plans = some ds ∧
      addresses = ds.map (fun d => (Resource.document d).address lead) ∧
      s.HoldsAll (plansDocuments lead version plans) := by
  induction plans generalizing jobs addresses with
  | nil =>
    cases hf
    cases h
    exact ⟨[], rfl, rfl, fun d hd => absurd hd (by simp [plansDocuments])⟩
  | cons plan plans ih =>
    obtain - | ⟨hj, hs⟩ := hf
    rw [List.mapM_cons] at h
    obtain ⟨a, ha, h⟩ := Option.bind_eq_some_iff.1 h
    obtain ⟨others, ho, he⟩ := Option.bind_eq_some_iff.1 h
    cases he
    obtain ⟨ds, hds, rfl, hh⟩ := ih hs ho
    cases hj with
    | @stored _ d hd hp =>
      cases ha
      refine ⟨d :: ds, ?_, rfl, ?_⟩
      · rw [plansRealised?, hd, Option.bind_some, hds, Option.map_some]
      · intro e he
        rw [plansDocuments, List.mem_append] at he
        exact he.elim (hp e) (hh e)
    | _ => cases ha

/-- A move of a job keeps to its plan. -/
theorem advances_move (hc : NoCollision texts) (stores : Bool) (m : Move) {plan : Plan} {job : Job}
    {g : Gateway} (hl : g.store.lead = lead) (hw : Within lead version texts plan)
    (hf : Follows lead version g.store plan job) :
    Advances lead version texts plan g (move stores version m job g) := by
  unfold move
  split
  · cases hf with
    | planned =>
      obtain ⟨schemas, portions⟩ := plan
      have hr : Reached lead version g.store [] [] :=
        ⟨rfl, fun d hd => absurd hd (by simp [portionsBeneath])⟩
      exact advances_proceed hc hl stores hw hr
  · cases hf with
    | waiting hr hs =>
      rename_i schemas done key children rest before plans
      split
      · exact .of_follows (.waiting hr hs)
      · next addresses ha =>
        obtain ⟨ds, hds, rfl, hh⟩ := hs.stored ha
        split
        · next es he =>
          have hp : (Portion.children key plans).elements? lead version = some es := by
            rw [Portion.elements?, hds, Option.bind_some, he]
            rfl
          have hr' := hr.concat hp hh
          rw [← List.singleton_append, ← List.append_assoc] at hw ⊢
          exact advances_proceed hc hl stores hw hr'
        · exact .of_follows (.failed (children_mem_portions _ _ _ _ _) hs)
  · cases hf with
    | waiting hr hs =>
      split
      · exact .of_follows (.failed (children_mem_portions _ _ _ _ _) hs)
      · exact .of_follows (.waiting hr hs)
  · exact .of_follows hf

/-- Replacing one of several jobs by what it advances to. -/
theorem followsAll_modifyAt {step : Job → Gateway → Job × Gateway}
    (hstep : ∀ {plan job} {g : Gateway}, g.store.lead = lead → Within lead version texts plan →
      Follows lead version g.store plan job → Advances lead version texts plan g (step job g)) :
    ∀ (n : ℕ) {plans : List Plan} {jobs : List Job} {g : Gateway}, g.store.lead = lead →
      (∀ plan ∈ plans, Within lead version texts plan) →
      FollowsAll lead version g.store plans jobs →
      FollowsAll lead version (modifyAt step n jobs g).2.store plans (modifyAt step n jobs g).1 ∧
        g.Keeps texts (modifyAt step n jobs g).2
  | _, _, [], g, _, _, h => by
    unfold modifyAt
    exact ⟨h, .refl _ _⟩
  | 0, _, _ :: _, g, hl, hw, .cons hj hs => by
    obtain ⟨hf, hk⟩ := hstep hl (hw _ List.mem_cons_self) hj
    exact ⟨.cons hf (hs.mono hk.1 fun p hp => hw p (List.mem_cons_of_mem _ hp)), hk⟩
  | n + 1, _, _ :: _, g, hl, hw, .cons hj hs => by
    obtain ⟨hf, hk⟩ := followsAll_modifyAt hstep n hl (fun p hp => hw p (List.mem_cons_of_mem _ hp)) hs
    exact ⟨.cons (hj.mono hk.1 (hw _ List.mem_cons_self)) hf, hk⟩

/-- **A move at any place keeps to the plan.** -/
theorem follows_moveAt (hc : NoCollision texts) (m : Move) : ∀ (place : List ℕ) (stores : Bool)
    {plan : Plan} {job : Job} {g : Gateway}, g.store.lead = lead → Within lead version texts plan →
    Follows lead version g.store plan job →
    Advances lead version texts plan g (moveAt version m place stores job g)
  | [], stores, _, _, _, hl, hw, hf => by
    unfold moveAt
    exact advances_move hc stores m hl hw hf
  | n :: place, stores, plan, job, g, hl, hw, hf => by
    have hstep : ∀ {plan job} {g : Gateway}, g.store.lead = lead → Within lead version texts plan →
        Follows lead version g.store plan job →
        Advances lead version texts plan g (moveAt version m place true job g) :=
      fun hl hw hf => follows_moveAt hc m place true hl hw hf
    unfold moveAt
    split
    · cases hf with
      | waiting hr hs =>
        obtain ⟨hs', hk⟩ := followsAll_modifyAt hstep n hl
          (fun c hc => within_child (children_mem_portions _ _ _ _ _) hc hw) hs
        exact ⟨.waiting (hr.mono hk.1 hw) hs', hk⟩
    · cases hf with
      | alone =>
        unfold modifyAt
        exact .of_follows .alone
      | failed hp hs =>
        obtain ⟨hs', hk⟩ := followsAll_modifyAt hstep n hl (fun c hc => within_child hp hc hw) hs
        exact ⟨.failed hp hs', hk⟩
    · exact .of_follows hf

end Job

/-! ### Work -/

namespace Job.FollowsAll

theorem append {s : Store} {plans plans' : List Plan} {jobs jobs' : List Job}
    (h : FollowsAll lead version s plans jobs) (h' : FollowsAll lead version s plans' jobs') :
    FollowsAll lead version s (plans ++ plans') (jobs ++ jobs') := by
  induction jobs generalizing plans with
  | nil =>
    cases h
    exact h'
  | cons job jobs ih =>
    cases h with
    | cons hj hs => exact .cons hj (ih hs)

theorem length_eq {s : Store} {plans : List Plan} {jobs : List Job}
    (h : FollowsAll lead version s plans jobs) : jobs.length = plans.length := by
  induction jobs generalizing plans with
  | nil =>
    cases h
    rfl
  | cons job jobs ih =>
    cases h with
    | cons hj hs => simp [ih hs]

theorem getElem? {s : Store} {plans : List Plan} {jobs : List Job} {n : ℕ} {plan : Plan} {job : Job}
    (h : FollowsAll lead version s plans jobs) (hp : plans[n]? = some plan)
    (hj : jobs[n]? = some job) : Follows lead version s plan job := by
  induction n generalizing plans jobs with
  | zero =>
    cases h with
    | nil => cases hj
    | cons h _ =>
      cases hp
      cases hj
      exact h
  | succ n ih =>
    cases h with
    | nil => cases hj
    | cons _ hs => exact ih hs hp hj

end Job.FollowsAll

/-- What was built of a job that follows a plan is the document of the plan. -/
theorem Job.Follows.outcome {s : Store} {plan : Plan} {job : Job} {d : Document}
    (h : Follows lead version s plan job) (ho : job.outcome? = some (.ok d)) :
    plan.realised? lead version = some d ∧ s.HoldsAll (plan.beneath lead version) := by
  cases h with
  | built hd hb =>
    cases ho
    exact ⟨hd, hb⟩
  | stored hd hb =>
    cases ho
    exact ⟨hd, fun e he => hb e (List.mem_append_left _ he)⟩
  | _ => cases ho

namespace Work

/-- The jobs of some work follow plans, at a store whose addresses begin with `lead`. -/
structure Follows (lead version : String) (plans : List Plan) (w : Work) : Prop where
  /-- How addresses begin. -/
  lead_eq : w.gateway.store.lead = lead
  /-- Each job follows its plan. -/
  jobs : Job.FollowsAll lead version w.gateway.store plans w.jobs

variable {plans : List Plan}

theorem follows_step (hc : NoCollision texts) (hw : ∀ plan ∈ plans, Job.Within lead version texts plan)
    {w : Work} (h : w.Follows lead version plans) :
    (w.step version).Follows lead version plans ∧ w.gateway.Keeps texts (w.step version).gateway := by
  unfold step
  split
  · exact ⟨h, .refl _ _⟩
  · next outermost place m queue _ =>
    obtain ⟨hs, hk⟩ := Job.followsAll_modifyAt
      (fun hl hp hf => Job.follows_moveAt hc m place false hl hp hf) outermost h.lead_eq hw h.jobs
    exact ⟨⟨hk.1.1.trans h.lead_eq, hs⟩, hk⟩
  · exact ⟨⟨h.lead_eq, h.jobs⟩, .refl _ _⟩

theorem follows_runUntil (hc : NoCollision texts)
    (hw : ∀ plan ∈ plans, Job.Within lead version texts plan) (outermost : ℕ) : ∀ (limit : ℕ) {w : Work},
    w.Follows lead version plans → (w.runUntil version outermost limit).Follows lead version plans ∧
      w.gateway.Keeps texts (w.runUntil version outermost limit).gateway
  | 0, _, h => ⟨h, .refl _ _⟩
  | limit + 1, w, h => by
    unfold runUntil
    split
    · exact ⟨h, .refl _ _⟩
    · obtain ⟨hs, hk⟩ := follows_step hc hw h
      obtain ⟨hr, hk'⟩ := follows_runUntil hc hw outermost limit hs
      exact ⟨hr, hk.trans hk'⟩

/-- **A plan that is carried out gives the document it stands for**, and everything that the
document refers to is held. -/
theorem write_ok (hc : NoCollision texts) {w w' : Work} {plan : Plan} {d : Document}
    (hw : ∀ p ∈ plans ++ [plan], Job.Within lead version texts p) (h : w.Follows lead version plans)
    (hd : w.write version plan = (.ok d, w')) :
    plan.realised? lead version = some d ∧ w'.gateway.store.HoldsAll (plan.beneath lead version) ∧
      w.gateway.Keeps texts w'.gateway := by
  have ha : (w.add plan).Follows lead version (plans ++ [plan]) :=
    ⟨h.lead_eq, h.jobs.append (.cons .planned .nil)⟩
  have hn : (w.add plan).jobs.length - 1 = plans.length := by
    rw [ha.jobs.length_eq, List.length_append, List.length_singleton, Nat.add_sub_cancel]
  unfold write at hd
  dsimp only at hd
  rw [hn] at hd
  obtain ⟨hr, hk⟩ := follows_runUntil hc hw plans.length (4 * Job.sizeOfAll (w.add plan).jobs + 4) ha
  obtain ⟨ho, rfl⟩ := Prod.mk.inj hd
  rw [gateway_settle]
  cases hj : (runUntil version plans.length (4 * Job.sizeOfAll (w.add plan).jobs + 4)
      (w.add plan)).jobs[plans.length]? with
  | none =>
    rw [hj] at ho
    cases ho
  | some job =>
    have hp : (plans ++ [plan])[plans.length]? = some plan := by simp
    have hf := hr.jobs.getElem? hp hj
    rw [hj, Option.bind_some] at ho
    cases hjo : job.outcome? with
    | none =>
      rw [hjo] at ho
      cases ho
    | some outcome =>
      rw [hjo] at ho
      cases ho
      obtain ⟨hd, hb⟩ := hf.outcome hjo
      exact ⟨hd, hb, hk⟩

end Work

end ContentGraph
