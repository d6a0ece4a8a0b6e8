import ContentGraph.Proofs.Document.History
import ContentGraph.Proofs.Document.Plans
import ContentGraph.Proofs.Document.Progress

/-!
# What is beneath a document

A document is grounded by some store calls when it is the one that a plan is for, everything beneath
it was stored by those calls, and it refers to the addresses that the store gave
(`Plan.Grounded`). Jobs build documents that are grounded by the calls made so far, whatever moves
come in whatever order (`Job.Leads.tracks`), and hand no others to the store
(`Job.MovedAt.tracks`).
-/

namespace ContentGraph

/-! ### Documents of plans -/

mutual

/-- A document is the one that a plan is for, and everything beneath it was stored by some calls. -/
inductive Plan.Grounded (version : String) (calls : List StoreCall) : Plan → Document → Prop
  /-- Its elements are those of the portions. -/
  | document {schemas : List String} {portions : List Portion} {es : List Element} :
      GroundedPortions version calls portions es →
      Plan.Grounded version calls (.document schemas portions) ⟨version, schemas, es⟩

/-- Elements are those of portions, and everything that the portions refer to was stored. -/
inductive GroundedPortions (version : String) (calls : List StoreCall) :
    List Portion → List Element → Prop
  /-- There are no more portions. -/
  | nil : GroundedPortions version calls [] []
  /-- Elements that were known. -/
  | elements {es others : List Element} {rest : List Portion} :
      GroundedPortions version calls rest others →
      GroundedPortions version calls (.elements es :: rest) (es ++ others)
  /-- References to the addresses at which documents were stored. -/
  | children {key : String} {plans : List Plan} {addresses : List String} {es others : List Element}
      {rest : List Portion} : GroundedAll version calls plans addresses →
      Job.references key addresses = .ok es → GroundedPortions version calls rest others →
      GroundedPortions version calls (.children key plans :: rest) (es ++ others)

/-- The documents of plans were stored at addresses, one by one. -/
inductive GroundedAll (version : String) (calls : List StoreCall) :
    List Plan → List String → Prop
  /-- There are no more plans. -/
  | nil : GroundedAll version calls [] []
  /-- The document of the first plan, and the others. -/
  | cons {plan : Plan} {plans : List Plan} {d : Document} {address : String}
      {addresses : List String} : Plan.Grounded version calls plan d → Stored calls d address →
      GroundedAll version calls plans addresses →
      GroundedAll version calls (plan :: plans) (address :: addresses)

end

section

variable {version : String} {calls calls' : List StoreCall}

mutual

/-- What was stored stays stored by more calls. -/
theorem Plan.Grounded.mono (hs : calls ⊆ calls') {plan : Plan} {d : Document}
    (h : plan.Grounded version calls d) : plan.Grounded version calls' d := by
  cases h with
  | document hp => exact .document (hp.mono hs)

theorem GroundedPortions.mono (hs : calls ⊆ calls') {portions : List Portion} {es : List Element}
    (h : GroundedPortions version calls portions es) :
    GroundedPortions version calls' portions es := by
  cases h with
  | nil => exact .nil
  | elements hr => exact .elements (hr.mono hs)
  | children ha he hr => exact .children (ha.mono hs) he (hr.mono hs)

theorem GroundedAll.mono (hs : calls ⊆ calls') {plans : List Plan} {addresses : List String}
    (h : GroundedAll version calls plans addresses) :
    GroundedAll version calls' plans addresses := by
  cases h with
  | nil => exact .nil
  | cons hd hst hr => exact .cons (hd.mono hs) (hst.mono hs) (hr.mono hs)

end

theorem GroundedPortions.append {before rest : List Portion} {done es : List Element}
    (hb : GroundedPortions version calls before done) (hr : GroundedPortions version calls rest es) :
    GroundedPortions version calls (before ++ rest) (done ++ es) := by
  induction before generalizing done with
  | nil =>
    cases hb
    exact hr
  | cons p before ih =>
    cases hb with
    | elements hb =>
      rw [List.append_assoc]
      exact .elements (ih hb)
    | children ha he hb =>
      rw [List.append_assoc]
      exact .children ha he (ih hb)

/-- Portions that are built at once add their own elements. -/
theorem GroundedPortions.gathered {before : List Portion} {es : List Element} :
    ∀ {rest : List Portion} {done : List Element}, GroundedPortions version calls before done →
      Job.gathered? done rest = some es → GroundedPortions version calls (before ++ rest) es
  | [], done, hb, hg => by
    cases hg
    rwa [List.append_nil]
  | .elements new :: rest, done, hb, hg => by
    have hnew : GroundedPortions version calls [.elements new] (new ++ []) := .elements .nil
    have hb' := hb.append hnew
    rw [List.append_nil] at hb'
    rw [← List.singleton_append, ← List.append_assoc]
    exact hb'.gathered hg
  | .fault _ :: _, _, _, hg => by cases hg
  | .children key plans :: rest, done, hb, hg => by
    unfold Job.gathered? at hg
    split at hg
    · next he =>
      cases List.isEmpty_iff.1 he
      have hb' : GroundedPortions version calls (before ++ [.children key []]) (done ++ ([] ++ [])) :=
        hb.append (.children .nil rfl .nil)
      rw [List.append_nil, List.append_nil] at hb'
      rw [← List.singleton_append, ← List.append_assoc]
      exact hb'.gathered hg
    · cases hg

theorem GroundedPortions.of_mem {portions : List Portion} {es : List Element} {key : String}
    {plans : List Plan} (h : GroundedPortions version calls portions es)
    (hp : .children key plans ∈ portions) : ∃ addresses, GroundedAll version calls plans addresses := by
  induction portions generalizing es with
  | nil => cases hp
  | cons p rest ih =>
    cases h with
    | elements hr =>
      rcases List.mem_cons.1 hp with he | hp
      · cases he
      · exact ih hr hp
    | children ha _ hr =>
      rcases List.mem_cons.1 hp with he | hp
      · cases he
        exact ⟨_, ha⟩
      · exact ih hr hp

theorem GroundedAll.of_mem {plans : List Plan} {addresses : List String} {plan : Plan}
    (h : GroundedAll version calls plans addresses) (hp : plan ∈ plans) :
    ∃ d address, plan.Grounded version calls d ∧ Stored calls d address := by
  induction plans generalizing addresses with
  | nil => cases hp
  | cons first rest ih =>
    cases h with
    | cons hd hst hr =>
      rcases List.mem_cons.1 hp with rfl | hp
      · exact ⟨_, _, hd, hst⟩
      · exact ih hr hp

theorem GroundedAll.stored {plans : List Plan} {addresses : List String}
    (h : GroundedAll version calls plans addresses) :
    ∀ address ∈ addresses, ∃ d, Stored calls d address := by
  induction plans generalizing addresses with
  | nil =>
    cases h
    exact fun _ ha => absurd ha List.not_mem_nil
  | cons first rest ih =>
    cases h with
    | cons _ hst hr =>
      intro address ha
      rcases List.mem_cons.1 ha with rfl | ha
      · exact ⟨_, hst⟩
      · exact ih hr address ha

/-- **Everything beneath a document was stored.** -/
theorem Plan.Grounded.of_below {sub plan : Plan} {d : Document} (hs : sub.Below plan)
    (h : plan.Grounded version calls d) :
    ∃ e address, sub.Grounded version calls e ∧ Stored calls e address := by
  induction hs generalizing d with
  | child hp hc =>
    cases h with
    | document hg =>
      obtain ⟨addresses, ha⟩ := hg.of_mem hp
      exact ha.of_mem hc
  | deeper hp hc _ ih =>
    cases h with
    | document hg =>
      obtain ⟨addresses, ha⟩ := hg.of_mem hp
      obtain ⟨e, -, he, -⟩ := ha.of_mem hc
      exact ih he

/-! ### References -/

/-- The references to some addresses, one by one. -/
theorem forall₂_references {key : String} {addresses : List String} {es : List Element}
    (h : Job.references key addresses = .ok es) :
    List.Forall₂ (fun address e => e.key.text = key ∧ e.content = .node address) addresses es := by
  refine (mapM_eq_ok_iff.1 h).imp fun address e he => ?_
  have hok : (Element.ofKey key (.node address)).toExcept.toOption = some e := by
    rw [← Element.readNode_eq, he]
    rfl
  rw [Checked.toOption_toExcept] at hok
  exact Element.ofKey_eq_ok (Checked.toOption_eq_some_iff.1 hok)

theorem GroundedPortions.references {portions : List Portion} {es : List Element}
    (h : GroundedPortions version calls portions es) (hp : ∀ p ∈ portions, p.Plain) :
    ∀ e ∈ es, ∀ uri, e.content = .node uri → ∃ d, Stored calls d uri := by
  induction portions generalizing es with
  | nil =>
    cases h
    exact fun _ he => absurd he List.not_mem_nil
  | cons p rest ih =>
    have hrest : ∀ q ∈ rest, q.Plain := fun q hq => hp q (List.mem_cons_of_mem _ hq)
    intro e he uri hu
    cases h with
    | elements hr =>
      rcases List.mem_append.1 he with he | he
      · exact absurd (congrArg Content.kind hu) (hp _ List.mem_cons_self e he)
      · exact ih hr hrest e he uri hu
    | @children key plans addresses _ _ _ ha hrefs hr =>
      rcases List.mem_append.1 he with he | he
      · obtain ⟨address, haddress, -, hc⟩ := exists_of_mem_right (forall₂_references hrefs) e he
        cases hu.symm.trans hc
        exact ha.stored uri haddress
      · exact ih hr hrest e he uri hu

theorem Plan.Grounded.references {plan : Plan} {d : Document} (h : plan.Grounded version calls d)
    (hp : plan.All Portion.Plain) :
    ∀ e ∈ d.elements, ∀ uri, e.content = .node uri → ∃ e', Stored calls e' uri := by
  cases h with
  | document hg => exact hg.references hp.portions

end

/-! ### Jobs and their plans -/

namespace Job

variable {version : String} {calls calls' : List StoreCall}

mutual

/-- A job is at a point of a plan, and everything it has built so far is grounded. -/
inductive Tracks (version : String) (calls : List StoreCall) : Plan → Job → Prop
  /-- It is not begun. -/
  | planned {plan : Plan} : Tracks version calls plan (.planned plan)
  /-- It waits at a portion. -/
  | waiting {schemas : List String} {before rest : List Portion} {done : List Element} {key : String}
      {plans : List Plan} {children : List Job} : GroundedPortions version calls before done →
      TracksAll version calls plans children →
      Tracks version calls (.document schemas (before ++ .children key plans :: rest))
        (.waiting schemas done key children rest)
  /-- Its document is built. -/
  | built {plan : Plan} {d : Document} : plan.Grounded version calls d →
      Tracks version calls plan (.built d)
  /-- Its document is stored. -/
  | stored {plan : Plan} {d : Document} {address : String} : plan.Grounded version calls d →
      Stored calls d address → Tracks version calls plan (.stored d address)
  /-- It is given up alone. -/
  | alone {plan : Plan} {fault : Fault} : Tracks version calls plan (.failed fault [])
  /-- It is given up at a portion. -/
  | failed {plan : Plan} {fault : Fault} {key : String} {plans : List Plan} {children : List Job} :
      .children key plans ∈ plan.portions → TracksAll version calls plans children →
      Tracks version calls plan (.failed fault children)

/-- Jobs are at points of plans, one by one. -/
inductive TracksAll (version : String) (calls : List StoreCall) : List Plan → List Job → Prop
  /-- There are no more jobs. -/
  | nil : TracksAll version calls [] []
  /-- The first job and the others. -/
  | cons {plan : Plan} {plans : List Plan} {job : Job} {jobs : List Job} :
      Tracks version calls plan job → TracksAll version calls plans jobs →
      TracksAll version calls (plan :: plans) (job :: jobs)

end

mutual

theorem Tracks.mono (hs : calls ⊆ calls') {plan : Plan} {job : Job}
    (h : Tracks version calls plan job) : Tracks version calls' plan job := by
  cases h with
  | planned => exact .planned
  | waiting hg ha => exact .waiting (hg.mono hs) (ha.mono hs)
  | built hg => exact .built (hg.mono hs)
  | stored hg hst => exact .stored (hg.mono hs) (hst.mono hs)
  | alone => exact .alone
  | failed hp ha => exact .failed hp (ha.mono hs)

theorem TracksAll.mono (hs : calls ⊆ calls') {plans : List Plan} {jobs : List Job}
    (h : TracksAll version calls plans jobs) : TracksAll version calls' plans jobs := by
  cases h with
  | nil => exact .nil
  | cons hj hr => exact .cons (hj.mono hs) (hr.mono hs)

end

theorem Tracks.grounded {plan : Plan} {d : Document} (h : Tracks version calls plan (.built d)) :
    plan.Grounded version calls d := by
  cases h with
  | built hg => exact hg

theorem tracksAll_planned : ∀ plans : List Plan,
    TracksAll version calls plans (plans.map .planned)
  | [] => .nil
  | _ :: plans => .cons .planned (tracksAll_planned plans)

theorem TracksAll.getElem? {plans : List Plan} {jobs : List Job} {n : ℕ} {job : Job}
    (h : TracksAll version calls plans jobs) (hj : jobs[n]? = some job) :
    ∃ plan ∈ plans, Tracks version calls plan job := by
  induction n generalizing plans jobs with
  | zero =>
    cases h with
    | nil => cases hj
    | cons h _ =>
      cases hj
      exact ⟨_, List.mem_cons_self, h⟩
  | succ n ih =>
    cases h with
    | nil => cases hj
    | cons _ hr =>
      obtain ⟨plan, hp, h⟩ := ih hr hj
      exact ⟨plan, List.mem_cons_of_mem _ hp, h⟩

/-- Replacing one of several jobs by what it becomes. -/
theorem TracksAll.set {plans : List Plan} {jobs : List Job} {n : ℕ} {job job' : Job}
    (hs : calls ⊆ calls') (h : TracksAll version calls plans jobs) (hj : jobs[n]? = some job)
    (hjob : ∀ plan, Tracks version calls plan job → Tracks version calls' plan job') :
    TracksAll version calls' plans (jobs.set n job') := by
  induction n generalizing plans jobs with
  | zero =>
    cases h with
    | nil => cases hj
    | cons h hr =>
      cases hj
      exact .cons (hjob _ h) (hr.mono hs)
  | succ n ih =>
    cases h with
    | nil => cases hj
    | cons h hr => exact .cons (h.mono hs) (ih hr hj)

/-- Where all jobs of a portion are stored, their addresses are those of the documents of the
plans. -/
theorem TracksAll.addresses {plans : List Plan} {jobs : List Job} {addresses : List String}
    (h : TracksAll version calls plans jobs) (ha : jobs.mapM address? = some addresses) :
    GroundedAll version calls plans addresses := by
  induction jobs generalizing plans addresses with
  | nil =>
    cases h
    cases ha
    exact .nil
  | cons job jobs ih =>
    cases h with
    | cons hj hr =>
      rw [List.mapM_cons] at ha
      obtain ⟨address, hjob, ha⟩ := Option.bind_eq_some_iff.1 ha
      obtain ⟨others, ho, he⟩ := Option.bind_eq_some_iff.1 ha
      cases he
      cases hj with
      | stored hg hst =>
        cases hjob
        exact .cons hg hst (ih hr ho)
      | _ => cases hjob

/-! ### Moves -/

/-- More calls were made, the one of a document among them, if it was stored. -/
structure Adds (calls calls' : List StoreCall) (d : Option Document) (g : Gateway) : Prop where
  /-- None is forgotten. -/
  subset : calls ⊆ calls'
  /-- A document that the store took is among them. -/
  stored : ∀ document address, d = some document → (g.save (.document document)).1 = .ok address →
    Stored calls' document address

variable {g : Gateway} {plan : Plan}

theorem Finished.tracks {stores : Bool} {d : Document} {r : Job × Gateway}
    (h : Finished d g stores r) (hd : plan.Grounded version calls d)
    (ha : Adds calls calls' (if stores then some d else none) g) : Tracks version calls' plan r.1 := by
  cases h with
  | built => exact .built (hd.mono ha.subset)
  | @stored address hs => exact .stored (hd.mono ha.subset) (ha.stored d address rfl hs)
  | refused _ => exact .alone

/-- Building portions keeps to the plan, and what is completed is grounded. -/
theorem Proceeded.tracks {stores : Bool} {schemas : List String} {before portions : List Portion}
    {done : List Element} {d : Option Document} {r : Job × Gateway}
    (h : Proceeded version stores schemas g done portions d r)
    (hb : GroundedPortions version calls before done)
    (ha : Adds calls calls' (if stores then d else none) g) :
    (∀ document, d = some document →
      (Plan.document schemas (before ++ portions)).Grounded version calls document) ∧
      Tracks version calls' (.document schemas (before ++ portions)) r.1 := by
  cases h with
  | finished hg =>
    have hd : (Plan.document schemas (before ++ portions)).Grounded version calls _ :=
      .document (hb.gathered hg)
    refine ⟨fun document he => ?_, (finished_finish _ _ _).tracks hd ha⟩
    cases he
    exact hd
  | stuck _ => exact ⟨fun _ he => (by cases he), .alone⟩
  | waits hr hg _ =>
    refine ⟨fun _ he => (by cases he), ?_⟩
    rw [hr, ← List.append_assoc]
    exact .waiting ((hb.gathered hg).mono ha.subset) (tracksAll_planned _)

theorem Moved.tracks {stores : Bool} {m : Move} {job : Job} {d : Option Document}
    {r : Job × Gateway} (h : Moved version stores g m job d r) (ht : Tracks version calls plan job)
    (ha : Adds calls calls' (if stores then d else none) g) :
    (∀ document, d = some document → plan.Grounded version calls document) ∧
      Tracks version calls' plan r.1 := by
  cases h with
  | idle _ => exact ⟨fun _ he => (by cases he), ht.mono ha.subset⟩
  | begun hp =>
    cases ht with
    | planned => exact hp.tracks .nil ha
  | resumed haddresses hrefs hp =>
    cases ht with
    | @waiting _ before rest _ key plans _ hg hall =>
      have hb := hg.append (.children (hall.addresses haddresses) hrefs .nil)
      rw [List.append_nil] at hb
      rw [← List.singleton_append, ← List.append_assoc]
      exact hp.tracks hb ha
  | unreferenced _ _ =>
    cases ht with
    | waiting _ hall =>
      exact ⟨fun _ he => (by cases he),
        .failed (children_mem_portions _ _ _ _ _) (hall.mono ha.subset)⟩
  | abandoned _ _ =>
    cases ht with
    | waiting _ hall =>
      exact ⟨fun _ he => (by cases he),
        .failed (children_mem_portions _ _ _ _ _) (hall.mono ha.subset)⟩

/-- **A move at any place keeps to the plan**, and what it hands to the store is the document of a
plan, with everything beneath it stored. -/
theorem MovedAt.tracks {m : Move} {place : List ℕ} {stores : Bool} {job : Job} {d : Option Document}
    {r : Job × Gateway} (h : MovedAt version g m place stores job d r) :
    ∀ {plan : Plan}, Tracks version calls plan job → Adds calls calls' d g →
    (∀ document, d = some document → ∃ sub : Plan, sub.Grounded version calls document ∧
      (place = [] ∧ sub = plan ∨ place ≠ [] ∧ sub.Below plan)) ∧
      Tracks version calls' plan r.1 := by
  induction h with
  | @here stores job d r hm =>
    intro plan ht ha
    obtain ⟨hd, ht'⟩ := hm.tracks ht ha
    refine ⟨fun document he => ⟨plan, hd document ?_, .inl ⟨rfl, rfl⟩⟩, ht'⟩
    cases stores with
    | false => cases he
    | true => exact he
  | @deeper n place stores job child d r hc hm ih =>
    intro plan ht ha
    -- the job is one of several children, which are those of one portion of the plan
    have hchildren : ∃ key plans, .children key plans ∈ plan.portions ∧
        TracksAll version calls plans job.children := by
      cases ht with
      | waiting _ hall => exact ⟨_, _, children_mem_portions _ _ _ _ _, hall⟩
      | failed hp hall => exact ⟨_, _, hp, hall⟩
      | _ => cases hc
    obtain ⟨key, plans, hp, hall⟩ := hchildren
    obtain ⟨childPlan, hmem, hchild⟩ := hall.getElem? hc
    refine ⟨fun document he => ?_, ?_⟩
    · obtain ⟨sub, hg, hsub⟩ := (ih hchild ha).1 document he
      refine ⟨sub, hg, .inr ⟨List.cons_ne_nil _ _, ?_⟩⟩
      rcases hsub with ⟨-, rfl⟩ | ⟨-, hbelow⟩
      · exact .child hp hmem
      · exact .deeper hp hmem hbelow
    · have hset : ∀ {plans}, TracksAll version calls plans job.children →
          TracksAll version calls' plans (job.children.set n r.1) :=
        fun hall => hall.set ha.subset hc fun _ ht => (ih ht ha).2
      cases ht with
      | waiting hg hw => exact .waiting (hg.mono ha.subset) (hset hw)
      | failed hp hf => exact .failed hp (hset hf)
      | _ => cases hc
  | nowhere _ =>
    intro plan ht ha
    exact ⟨fun _ he => (by cases he), ht.mono ha.subset⟩

theorem adds_callAt? (calls : List StoreCall) (m : Move) (place : List ℕ) (job : Job) (g : Gateway) :
    Adds calls (calls ++ (callAt? version m place job g).toList)
      (handedOver? version m place false job) g := by
  refine ⟨List.subset_append_left _ _, fun document address hd ha => ?_⟩
  refine ⟨.made place document g, ?_, rfl, ha⟩
  rw [callAt?, hd]
  exact List.mem_append_right _ (List.mem_singleton.2 rfl)

/-- **Whatever a job leads to keeps to its plan.** -/
theorem Leads.tracks {others : Gateway → Gateway → Prop} {r : Job × Gateway}
    (h : Leads version others (.planned plan, g) calls r) : Tracks version calls plan r.1 := by
  induction h with
  | start => exact .planned
  | @move calls r m place _ ih =>
    exact ((movedAt_moveAt version r.2 m place false r.1).tracks ih (adds_callAt? _ _ _ _ _)).2
  | other _ _ ih => exact ih

end Job

end ContentGraph
