import ContentGraph.Proofs.Document.Progress
import ContentGraph.Proofs.Document.Termination

/-!
# Jobs that carry documents

While a plan is carried out, each of its documents is stored once. A job carries the documents that
were stored for it (`Job.Carries`), and a move adds the one that it hands over to them
(`Job.MovedAt.carries`), whatever else happens to the store between the moves. At the end a job has
carried all documents of its plan, which does not depend on the order of the moves.

A plan that stands for a document lets no job fail. So some job is ready for a move until the outermost
is built (`Job.Carries.exists_ready`), and since every such move uses up turns
(`Job.MovedAt.turns_lt`), all that is left to choose is the order.
-/

namespace ContentGraph

variable {lead version : String}

/-! ### What is gathered -/

/-- Portions that are gathered at once stand for what is gathered, and nothing is beneath them. -/
theorem Job.elements_of_gathered {done es : List Element} {portions : List Portion}
    (h : gathered? done portions = some es) :
    ∃ others, portionsElements? lead version portions = some others ∧ es = done ++ others ∧
      portionsBeneath lead version portions = [] := by
  induction portions generalizing done with
  | nil =>
    cases h
    exact ⟨[], rfl, (List.append_nil _).symm, rfl⟩
  | cons p rest ih =>
    cases p with
    | elements here =>
      obtain ⟨others, ho, rfl, hb⟩ := ih h
      refine ⟨here ++ others, ?_, List.append_assoc _ _ _, ?_⟩
      · rw [portionsElements?, Portion.elements?, Option.bind_some, ho, Option.map_some]
      · rw [portionsBeneath, hb]
        rfl
    | children key plans =>
      rw [gathered?] at h
      split at h
      · next he =>
        cases List.isEmpty_iff.1 he
        obtain ⟨others, ho, rfl, hb⟩ := ih h
        refine ⟨others, ?_, rfl, ?_⟩
        · rw [portionsElements?, ho]
          rfl
        · rw [portionsBeneath, Portion.beneath, hb]
          rfl
      · cases h
    | fault fault => cases h

/-- Where several plans stand for documents, each of them does. -/
theorem exists_realised_of_mem {plans : List Plan} {ds : List Document} {plan : Plan}
    (h : plansRealised? lead version plans = some ds) (hm : plan ∈ plans) :
    ∃ d, plan.realised? lead version = some d := by
  induction plans generalizing ds with
  | nil => cases hm
  | cons p plans ih =>
    rw [plansRealised?] at h
    obtain ⟨d, hd, h⟩ := Option.bind_eq_some_iff.1 h
    obtain ⟨others, ho, -⟩ := Option.map_eq_some_iff.1 h
    rcases List.mem_cons.1 hm with rfl | hm
    · exact ⟨d, hd⟩
    · exact ih ho hm

namespace Job

mutual

/-- A job is at a point of a plan, and some documents were stored for it so far. A job that stores its
document ends with all documents of the plan, the outermost with those beneath its own. -/
inductive Carries (lead version : String) : Bool → Plan → Job → List Document → Prop
  /-- It is not begun. -/
  | planned {stores : Bool} {plan : Plan} : Carries lead version stores plan (.planned plan) []
  /-- It waits at a portion. -/
  | waiting {stores : Bool} {schemas : List String} {before rest : List Portion} {done : List Element}
      {key : String} {plans : List Plan} {children : List Job} {ds : List Document} :
      portionsElements? lead version before = some done → CarriesAll lead version plans children ds →
      Carries lead version stores (.document schemas (before ++ .children key plans :: rest))
        (.waiting schemas done key children rest) (portionsBeneath lead version before ++ ds)
  /-- Its document is built. -/
  | built {plan : Plan} {d : Document} : plan.realised? lead version = some d →
      Carries lead version false plan (.built d) (plan.beneath lead version)
  /-- Its document is stored. -/
  | stored {plan : Plan} {d : Document} : plan.realised? lead version = some d →
      Carries lead version true plan (.stored d ((Resource.document d).address lead))
        (plan.documents lead version)

/-- Jobs carry documents of plans, one by one. -/
inductive CarriesAll (lead version : String) : List Plan → List Job → List Document → Prop
  /-- There are no more jobs. -/
  | nil : CarriesAll lead version [] [] []
  /-- The first job and the others. -/
  | cons {plan : Plan} {plans : List Plan} {job : Job} {jobs : List Job} {ds ds' : List Document} :
      Carries lead version true plan job ds → CarriesAll lead version plans jobs ds' →
      CarriesAll lead version (plan :: plans) (job :: jobs) (ds ++ ds')

end

theorem carriesAll_planned : ∀ plans : List Plan, CarriesAll lead version plans (plans.map .planned) []
  | [] => .nil
  | _ :: plans => .cons .planned (carriesAll_planned plans)

mutual

/-- Nothing is carried but documents of the plan. -/
theorem Carries.subset {stores : Bool} {plan : Plan} {job : Job} {ds : List Document}
    (h : Carries lead version stores plan job ds) : ds ⊆ plan.documents lead version := by
  cases h with
  | planned => exact List.nil_subset _
  | waiting _ hall =>
    refine List.Subset.trans ?_ (List.subset_append_left _ _)
    rw [Plan.beneath, portionsBeneath_append, portionsBeneath, Portion.beneath]
    refine List.append_subset.2 ⟨List.subset_append_left _ _, ?_⟩
    exact List.Subset.trans hall.subset
      (List.Subset.trans (List.subset_append_left _ _) (List.subset_append_right _ _))
  | built _ => exact List.subset_append_left _ _
  | stored _ => exact List.Subset.refl _

theorem CarriesAll.subset {plans : List Plan} {jobs : List Job} {ds : List Document}
    (h : CarriesAll lead version plans jobs ds) : ds ⊆ plansDocuments lead version plans := by
  cases h with
  | nil => exact List.Subset.refl _
  | cons hj hs =>
    rw [plansDocuments]
    exact List.append_subset.2 ⟨List.Subset.trans hj.subset (List.subset_append_left _ _),
      List.Subset.trans hs.subset (List.subset_append_right _ _)⟩

end

/-- Where all jobs of a portion are stored, all documents of their plans were. -/
theorem CarriesAll.stored {plans : List Plan} {jobs : List Job} {ds : List Document}
    {addresses : List String} (h : CarriesAll lead version plans jobs ds)
    (ha : jobs.mapM address? = some addresses) : ∃ documents,
    plansRealised? lead version plans = some documents ∧
      addresses = documents.map (fun d => (Resource.document d).address lead) ∧
      ds = plansDocuments lead version plans := by
  induction jobs generalizing plans ds addresses with
  | nil =>
    cases h
    cases ha
    exact ⟨[], rfl, rfl, rfl⟩
  | cons job jobs ih =>
    obtain - | ⟨hj, hs⟩ := h
    rw [List.mapM_cons] at ha
    obtain ⟨a, hjob, ha⟩ := Option.bind_eq_some_iff.1 ha
    obtain ⟨others, ho, he⟩ := Option.bind_eq_some_iff.1 ha
    cases he
    obtain ⟨documents, hds, rfl, rfl⟩ := ih hs ho
    cases hj with
    | @stored _ d hd =>
      cases hjob
      refine ⟨d :: documents, ?_, rfl, rfl⟩
      rw [plansRealised?, hd, Option.bind_some, hds, Option.map_some]
    | _ => cases hjob

/-! ### Moves -/

/-- What a move has to give: the job is at a point of the plan, and carries what is handed over too. -/
def CarriesOn (lead version : String) (stores : Bool) (plan : Plan) (job : Job)
    (ds : List Document) : Prop :=
  ∃ ds', Carries lead version stores plan job ds' ∧ ds'.Perm ds

variable {stores : Bool} {plan : Plan} {s : Store} {d : Option Document} {r : Job × Gateway}

/-- Building portions keeps to a plan that stands for a document. -/
theorem Proceeded.carries {schemas : List String} {before portions : List Portion}
    {done es : List Element} (h : Proceeded version stores schemas (.ofStore s) done portions d r)
    (hl : s.lead = lead) (hb : portionsElements? lead version before = some done)
    (hp : portionsElements? lead version (before ++ portions) = some es) :
    CarriesOn lead version stores (.document schemas (before ++ portions)) r.1
      (portionsBeneath lead version before ++ (if stores then d else none).toList) := by
  obtain ⟨done', others, hd, ho, rfl⟩ := exists_elements_of_append hp
  cases hb.symm.trans hd
  cases h with
  | @finished built hg =>
    obtain ⟨others', ho', rfl, hbeneath⟩ := elements_of_gathered hg
    cases ho.symm.trans ho'
    have hr : (Plan.document schemas (before ++ portions)).realised? lead version
        = some ⟨version, schemas, done ++ others⟩ := by
      rw [Plan.realised?, hp, Option.map_some]
    have hbelow : (Plan.document schemas (before ++ portions)).beneath lead version
        = portionsBeneath lead version before := by
      rw [Plan.beneath, portionsBeneath_append, hbeneath, List.append_nil]
    cases stores with
    | false => exact ⟨_, .built hr, by simp [hbelow]⟩
    | true =>
      subst hl
      refine ⟨_, .stored hr, ?_⟩
      rw [Plan.documents, hbelow, hr]
      exact List.Perm.refl _
  | @stuck fault hf =>
    obtain ⟨before', after, rfl⟩ := List.append_of_mem hf
    obtain ⟨_, later, -, hlater, -⟩ := exists_elements_of_append ho
    cases hlater
  | @waits before' after key plans here hr hg _ =>
    subst hr
    obtain ⟨others', ho', rfl, hbeneath⟩ := elements_of_gathered hg
    refine ⟨_, ?_, List.Perm.refl _⟩
    have hdone : portionsElements? lead version (before ++ before') = some (done ++ others') :=
      portionsElements?_append hb ho'
    have hw : Carries lead version stores (.document schemas ((before ++ before') ++ .children key plans :: after))
        (.waiting schemas (done ++ others') key (plans.map .planned) after) _ :=
      .waiting hdone (carriesAll_planned plans)
    rw [portionsBeneath_append, hbeneath, List.append_nil, List.append_assoc] at hw
    cases stores <;> exact hw

theorem CarriesAll.fault?_eq_none {plans : List Plan} {jobs : List Job} {ds : List Document}
    (h : CarriesAll lead version plans jobs ds) : ∀ job ∈ jobs, job.fault? = none := by
  induction jobs generalizing plans ds with
  | nil => exact fun _ hm => absurd hm List.not_mem_nil
  | cons job jobs ih =>
    obtain - | ⟨hj, hs⟩ := h
    refine List.forall_mem_cons.2 ⟨?_, ih hs⟩
    cases hj <;> rfl

/-- A move of a job whose plan stands for a document keeps to the plan. -/
theorem Moved.carries {m : Move} {job : Job} {ds : List Document} {document : Document}
    (h : Moved version stores (.ofStore s) m job d r) (hl : s.lead = lead)
    (hc : Carries lead version stores plan job ds) (hp : plan.realised? lead version = some document) :
    CarriesOn lead version stores plan r.1 (ds ++ (if stores then d else none).toList) := by
  cases h with
  | idle _ =>
    rw [ite_self, Option.toList_none, List.append_nil]
    exact ⟨ds, hc, List.Perm.refl _⟩
  | begun hb =>
    cases hc
    rw [Plan.realised?] at hp
    obtain ⟨es, hes, -⟩ := Option.map_eq_some_iff.1 hp
    have hbefore : portionsElements? lead version [] = some [] := rfl
    exact hb.carries hl hbefore hes
  | @resumed schemas done here key children rest addresses _ _ ha hr hb =>
    obtain - | @⟨_, _, before, _, _, _, plans, _, _, hbefore, hall⟩ := hc
    obtain ⟨documents, hds, rfl, rfl⟩ := hall.stored ha
    rw [Plan.realised?] at hp
    obtain ⟨es, hes, -⟩ := Option.map_eq_some_iff.1 hp
    have hportion : (Portion.children key plans).elements? lead version = some here := by
      rw [Portion.elements?, hds, Option.bind_some, hr]
      rfl
    have hdone := portionsElements?_concat hbefore hportion
    have hbeneath : portionsBeneath lead version (before ++ [.children key plans])
        = portionsBeneath lead version before ++ plansDocuments lead version plans := by
      rw [portionsBeneath_append, portionsBeneath, portionsBeneath, List.append_nil, Portion.beneath]
    rw [← List.singleton_append, ← List.append_assoc] at hes ⊢
    rw [← hbeneath]
    exact hb.carries hl hdone hes
  | unreferenced ha hr =>
    obtain - | @⟨_, _, before, _, _, _, plans, _, _, hbefore, hall⟩ := hc
    obtain ⟨documents, hds, rfl, rfl⟩ := hall.stored ha
    rw [Plan.realised?] at hp
    obtain ⟨es, hes, -⟩ := Option.map_eq_some_iff.1 hp
    -- the references to the documents are among the elements of the plan
    obtain ⟨_, later, -, hlater, -⟩ := exists_elements_of_append hes
    rw [portionsElements?] at hlater
    obtain ⟨here, hhere, -⟩ := Option.bind_eq_some_iff.1 hlater
    obtain ⟨documents', hds', hr'⟩ := exists_references_of_elements hhere
    cases hds.symm.trans hds'
    cases hr.symm.trans hr'
  | abandoned hchild hf =>
    obtain - | @⟨_, _, before, _, _, _, plans, _, _, hbefore, hall⟩ := hc
    have hnone := hall.fault?_eq_none _ (List.mem_of_getElem? hchild)
    cases hnone.symm.trans hf

/-- Replacing one of several jobs by what it becomes. -/
theorem CarriesAll.set {plans : List Plan} {jobs : List Job} {n : ℕ} {job job' : Job}
    {ds handed : List Document} (h : CarriesAll lead version plans jobs ds) (hj : jobs[n]? = some job)
    (hjob : ∀ plan ∈ plans, ∀ ds, Carries lead version true plan job ds →
      CarriesOn lead version true plan job' (ds ++ handed)) :
    ∃ ds', CarriesAll lead version plans (jobs.set n job') ds' ∧ ds'.Perm (ds ++ handed) := by
  induction n generalizing plans jobs ds with
  | zero =>
    obtain - | @⟨_, _, _, _, here, others, hc, hs⟩ := h
    · cases hj
    · cases hj
      obtain ⟨here', hc', hperm⟩ := hjob _ List.mem_cons_self _ hc
      refine ⟨here' ++ others, .cons hc' hs, (hperm.append_right others).trans ?_⟩
      rw [List.append_assoc, List.append_assoc]
      exact List.perm_append_comm.append_left here
  | succ n ih =>
    obtain - | @⟨_, _, _, _, here, others, hc, hs⟩ := h
    · cases hj
    · obtain ⟨others', hs', hperm⟩ := ih hs hj fun p hp => hjob p (List.mem_cons_of_mem _ hp)
      refine ⟨here ++ others', .cons hc hs', ?_⟩
      rw [List.append_assoc]
      exact hperm.append_left here

/-- **A move at any place adds to what a job carries what it hands over**, and nothing else. -/
theorem MovedAt.carries {m : Move} {place : List ℕ} {job : Job}
    (h : MovedAt version (.ofStore s) m place stores job d r) (hl : s.lead = lead) :
    ∀ {plan : Plan} {ds : List Document} {document : Document}, Carries lead version stores plan job ds →
      plan.realised? lead version = some document →
      CarriesOn lead version stores plan r.1 (ds ++ d.toList) := by
  induction h with
  | here hm => exact fun hc hp => hm.carries hl hc hp
  | @deeper n place stores job child d r hchild _ ih =>
    intro plan ds document hc hp
    cases hc with
    | @waiting _ schemas before rest done key plans children ds' hbefore hall =>
      rw [Plan.realised?] at hp
      obtain ⟨es, hes, -⟩ := Option.map_eq_some_iff.1 hp
      obtain ⟨_, later, -, hlater, -⟩ := exists_elements_of_append hes
      rw [portionsElements?] at hlater
      obtain ⟨here, hhere, -⟩ := Option.bind_eq_some_iff.1 hlater
      obtain ⟨documents, hds, -⟩ := exists_references_of_elements hhere
      obtain ⟨ds'', hall', hperm⟩ := hall.set hchild fun p hmem ds hc =>
        (exists_realised_of_mem hds hmem).elim fun _ hd => ih hc hd
      refine ⟨_, .waiting hbefore hall', ?_⟩
      rw [List.append_assoc]
      exact hperm.append_left _
    | _ => cases hchild
  | nowhere _ =>
    intro plan ds document hc _
    rw [Option.toList_none, List.append_nil]
    exact ⟨ds, hc, List.Perm.refl _⟩

/-! ### Jobs go on -/

mutual

/-- Until it is built or stored, some job of a job is ready for a move. -/
theorem Carries.exists_ready {stores : Bool} {plan : Plan} {job : Job} {ds : List Document}
    (h : Carries lead version stores plan job ds) (hn : job.isDone = false) :
    ∃ m place sub, job.at? place = some sub ∧ Ready m sub := by
  cases h with
  | planned => exact ⟨.begin, [], _, rfl, trivial⟩
  | waiting _ hall =>
    rcases hall.exists_ready with hstored | ⟨n, child, m, place, sub, hchild, hat, hr⟩
    · exact ⟨.resume, [], _, rfl, hstored⟩
    · exact ⟨m, n :: place, sub, at?_cons_eq_some_iff.2 ⟨child, hchild, hat⟩, hr⟩
  | built _ => cases hn
  | stored _ => cases hn

/-- Until all of several jobs are stored, one of them or below them is ready for a move. -/
theorem CarriesAll.exists_ready {plans : List Plan} {jobs : List Job} {ds : List Document}
    (h : CarriesAll lead version plans jobs ds) : (∀ job ∈ jobs, job.address?.isSome) ∨
      ∃ (n : ℕ) (child : Job) (m : Move) (place : List ℕ) (sub : Job),
        jobs[n]? = some child ∧ child.at? place = some sub ∧ Ready m sub := by
  cases h with
  | nil => exact .inl fun _ hm => absurd hm List.not_mem_nil
  | @cons _ _ job _ _ _ hj hs =>
    by_cases hdone : job.isDone = false
    · obtain ⟨m, place, sub, hat, hr⟩ := hj.exists_ready hdone
      exact .inr ⟨0, job, m, place, sub, rfl, hat, hr⟩
    · rcases hs.exists_ready with hstored | ⟨n, child, hrest⟩
      · refine .inl (List.forall_mem_cons.2 ⟨?_, hstored⟩)
        cases hj with
        | stored _ => rfl
        | _ => exact absurd rfl hdone
      · exact .inr ⟨n + 1, child, hrest⟩

end

/-! ### Moves use up turns -/

variable {g : Gateway}

theorem Finished.turns_eq {d : Document} {stores : Bool} (h : Finished d g stores r) :
    r.1.turns = 0 := by
  cases h <;> rfl

theorem Proceeded.turns_lt {schemas : List String} {done : List Element} {portions : List Portion}
    (h : Proceeded version stores schemas g done portions d r) : r.1.turns < portionsTurns portions := by
  cases h with
  | finished _ =>
    have htwo := two_le_portionsTurns portions
    rw [(finished_finish _ _ _).turns_eq]
    omega
  | stuck _ => exact Nat.lt_of_lt_of_le Nat.zero_lt_two (two_le_portionsTurns portions)
  | @waits before after key plans es hr _ hne =>
    subst hr
    have hafter := portionsTurns_le_append before (.children key plans :: after)
    have hplans := turnsOfAll_planned plans
    have hpos := List.length_pos_iff.2 hne
    rw [portionsTurns, Portion.turns] at hafter
    rw [turns]
    omega

theorem Moved.turns_lt {m : Move} {job : Job} (h : Moved version stores g m job d r) (hr : Ready m job) :
    r.1.turns < job.turns := by
  cases h with
  | idle hn => exact absurd hr hn
  | begun hp => exact hp.turns_lt
  | resumed _ _ hp =>
    rw [turns]
    exact Nat.lt_add_left _ hp.turns_lt
  | @unreferenced _ _ _ children rest _ _ _ _ =>
    have htwo := two_le_portionsTurns rest
    rw [turns, turns]
    omega
  | @abandoned _ _ _ children rest _ _ _ _ _ =>
    have htwo := two_le_portionsTurns rest
    rw [turns, turns]
    omega

/-- **A move that a job is ready for uses up turns.** -/
theorem MovedAt.turns_lt {m : Move} {place : List ℕ} {job sub : Job}
    (h : MovedAt version g m place stores job d r) (hs : job.at? place = some sub) (hr : Ready m sub) :
    r.1.turns < job.turns := by
  obtain ⟨_, new, hm, he⟩ := h.setAt hs
  have hlt : new.turns < sub.turns := hm.turns_lt hr
  have hsum := turns_setAt hs new
  rw [he]
  omega

end Job

end ContentGraph
