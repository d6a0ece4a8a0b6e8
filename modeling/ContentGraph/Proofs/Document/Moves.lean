import Mathlib.Data.List.Basic
import ContentGraph.Document.Job

/-!
# What a move does

A move finds a job ready for it or changes nothing. A job that begins or goes on builds the
portions before the next one that has to wait (`Job.Proceeded`), and with all of them built it keeps
its document or hands it to the store (`Job.Finished`); one that gives up keeps the jobs that were
begun for it (`Job.Moved`), and a move further down changes one child of each job on the way
(`Job.MovedAt`). What is proved of jobs, in whatever order their moves come, is proved from
these relations. They also name the document that a move hands to the store, of which there is at
most one.
-/

namespace ContentGraph

namespace Job

/-! ### Portions -/

/-- The elements at the end of portions of which none has to wait. -/
def gathered? : List Element → List Portion → Option (List Element)
  | done, [] => some done
  | done, .elements es :: rest => gathered? (done ++ es) rest
  | _, .fault _ :: _ => none
  | done, .children _ plans :: rest => if plans.isEmpty then gathered? done rest else none

/-- The document that is completed by building portions. -/
def gatheredDocument? (version : String) (schemas : List String) (done : List Element)
    (portions : List Portion) : Option Document :=
  (gathered? done portions).map fun es => ⟨version, schemas, es⟩

variable {version : String} {stores : Bool} {schemas : List String} {g : Gateway}

/-- What becomes of a job whose document is completed. -/
inductive Finished (d : Document) (g : Gateway) : Bool → Job × Gateway → Prop
  /-- The document is not to be stored. -/
  | built : Finished d g false (.built d, g)
  /-- The store takes it. -/
  | stored {address : String} : (g.save (.document d)).1 = .ok address →
      Finished d g true (.stored d address, (g.save (.document d)).2)
  /-- The store does not take it. -/
  | refused {f : Failure} : (g.save (.document d)).1 = .error f →
      Finished d g true (.failed (.failure f) [], (g.save (.document d)).2)

theorem finished_finish (stores : Bool) (d : Document) (g : Gateway) :
    Finished d g stores (finish stores d g) := by
  unfold finish
  cases stores with
  | false => exact .built
  | true =>
    rw [if_pos rfl]
    split
    · next h =>
      have hs := Finished.stored (congrArg Prod.fst h)
      rwa [h] at hs
    · next h =>
      have hs := Finished.refused (congrArg Prod.fst h)
      rwa [h] at hs

/-- What becomes of a job that builds portions, with the document it completes. -/
inductive Proceeded (version : String) (stores : Bool) (schemas : List String) (g : Gateway)
    (done : List Element) (portions : List Portion) : Option Document → Job × Gateway → Prop
  /-- All of them are built. -/
  | finished {es : List Element} : gathered? done portions = some es →
      Proceeded version stores schemas g done portions (some ⟨version, schemas, es⟩)
        (finish stores ⟨version, schemas, es⟩ g)
  /-- One of them cannot be built. -/
  | stuck {fault : Fault} : .fault fault ∈ portions →
      Proceeded version stores schemas g done portions none (.failed fault [], g)
  /-- One of them has to wait. -/
  | waits {before after : List Portion} {key : String} {plans : List Plan} {es : List Element} :
      portions = before ++ .children key plans :: after → gathered? done before = some es →
      plans ≠ [] → Proceeded version stores schemas g done portions none
        (.waiting schemas es key (plans.map .planned) after, g)

/-- A portion that is built at once does not change what becomes of a job. -/
theorem Proceeded.cons {p : Portion} {done es : List Element} {rest : List Portion}
    {d : Option Document} {r : Job × Gateway}
    (hp : ∀ portions, gathered? done (p :: portions) = gathered? es portions)
    (h : Proceeded version stores schemas g es rest d r) :
    Proceeded version stores schemas g done (p :: rest) d r := by
  cases h with
  | finished hg => exact .finished ((hp rest).trans hg)
  | stuck hf => exact .stuck (List.mem_cons_of_mem _ hf)
  | waits hr hg hn =>
    rw [hr, ← List.cons_append]
    exact .waits rfl ((hp _).trans hg) hn

theorem proceeded_proceed : ∀ (done : List Element) (portions : List Portion),
    Proceeded version stores schemas g done portions
      (gatheredDocument? version schemas done portions)
      (proceed stores version schemas g done portions)
  | done, [] => .finished rfl
  | done, .elements es :: rest => .cons (fun _ => rfl) (proceeded_proceed (done ++ es) rest)
  | done, .fault fault :: rest => .stuck List.mem_cons_self
  | done, .children key plans :: rest => by
    unfold proceed gatheredDocument? gathered?
    split
    · next he => exact .cons (fun _ => if_pos he) (proceeded_proceed done rest)
    · next he =>
      refine .waits (List.nil_append _).symm rfl ?_
      rintro rfl
      exact he rfl

/-! ### Moves of one job -/

/-- A job is ready for a move. -/
def Ready : Move → Job → Prop
  | .begin, .planned _ => True
  | .resume, .waiting _ _ _ children _ => ∀ child ∈ children, child.address?.isSome
  | .abandon n, .waiting _ _ _ children _ => ∃ child, children[n]? = some child ∧ child.fault?.isSome
  | _, _ => False

/-- The document that a move of a job completes. -/
def completed? (version : String) : Move → Job → Option Document
  | .begin, .planned plan => gatheredDocument? version plan.schemas [] plan.portions
  | .resume, .waiting schemas done key children rest =>
    (children.mapM address?).bind fun addresses =>
      (references key addresses).toOption.bind fun es =>
        gatheredDocument? version schemas (done ++ es) rest
  | _, _ => none

/-- What becomes of a job by a move, with the document that it completes. -/
inductive Moved (version : String) (stores : Bool) (g : Gateway) :
    Move → Job → Option Document → Job × Gateway → Prop
  /-- It was not ready. -/
  | idle {m : Move} {job : Job} : ¬ Ready m job → Moved version stores g m job none (job, g)
  /-- It begins. -/
  | begun {schemas : List String} {portions : List Portion} {d : Option Document}
      {r : Job × Gateway} : Proceeded version stores schemas g [] portions d r →
      Moved version stores g .begin (.planned (.document schemas portions)) d r
  /-- It goes on with references to its children. -/
  | resumed {schemas : List String} {done es : List Element} {key : String} {children : List Job}
      {rest : List Portion} {addresses : List String} {d : Option Document} {r : Job × Gateway} :
      children.mapM address? = some addresses → references key addresses = .ok es →
      Proceeded version stores schemas g (done ++ es) rest d r →
      Moved version stores g .resume (.waiting schemas done key children rest) d r
  /-- It cannot refer to its children. -/
  | unreferenced {schemas : List String} {done : List Element} {key : String} {children : List Job}
      {rest : List Portion} {addresses : List String} {fault : Fault} :
      children.mapM address? = some addresses → references key addresses = .error fault →
      Moved version stores g .resume (.waiting schemas done key children rest) none
        (.failed fault children, g)
  /-- It gives up because of a child. -/
  | abandoned {schemas : List String} {done : List Element} {key : String} {children : List Job}
      {rest : List Portion} {n : ℕ} {child : Job} {fault : Fault} :
      children[n]? = some child → child.fault? = some fault →
      Moved version stores g (.abandon n) (.waiting schemas done key children rest) none
        (.failed fault children, g)

theorem exists_addresses {children : List Job} (h : ∀ child ∈ children, child.address?.isSome) :
    ∃ addresses, children.mapM address? = some addresses := by
  induction children with
  | nil => exact ⟨[], rfl⟩
  | cons child rest ih =>
    obtain ⟨addresses, ha⟩ := ih fun c hc => h c (List.mem_cons_of_mem _ hc)
    obtain ⟨address, hc⟩ := Option.isSome_iff_exists.1 (h child List.mem_cons_self)
    refine ⟨address :: addresses, ?_⟩
    rw [List.mapM_cons, hc, ha]
    rfl

theorem isSome_of_addresses {children : List Job} {addresses : List String}
    (h : children.mapM address? = some addresses) : ∀ child ∈ children, child.address?.isSome := by
  induction children generalizing addresses with
  | nil => exact fun _ hc => absurd hc List.not_mem_nil
  | cons child rest ih =>
    rw [List.mapM_cons] at h
    obtain ⟨address, hc, h⟩ := Option.bind_eq_some_iff.1 h
    obtain ⟨others, ho, -⟩ := Option.bind_eq_some_iff.1 h
    intro c hm
    rcases List.mem_cons.1 hm with rfl | hm
    · rw [hc]
      rfl
    · exact ih ho c hm

/-- **What becomes of a job by a move.** -/
theorem moved_move (m : Move) (job : Job) :
    Moved version stores g m job (completed? version m job) (move stores version m job g) := by
  unfold move
  split
  · next plan =>
    obtain ⟨schemas, portions⟩ := plan
    exact .begun (proceeded_proceed [] portions)
  · simp only [completed?]
    split
    · next hn =>
      rw [hn]
      refine .idle fun hr => ?_
      obtain ⟨addresses, ha⟩ := exists_addresses hr
      cases hn.symm.trans ha
    · next addresses ha =>
      rw [ha, Option.bind_some]
      split
      · next es he =>
        rw [he]
        exact .resumed ha he (proceeded_proceed _ _)
      · next fault he =>
        rw [he]
        exact .unreferenced ha he
  · split
    · next fault hf =>
      obtain ⟨child, hc, hf⟩ := Option.bind_eq_some_iff.1 hf
      exact .abandoned hc hf
    · next hn =>
      refine .idle fun ⟨child, hc, hf⟩ => ?_
      rw [hc, Option.bind_some] at hn
      rw [hn] at hf
      cases hf
  · next hb hr ha =>
    cases m with
    | begin =>
      cases job with
      | planned plan => exact (hb plan rfl rfl).elim
      | _ => exact .idle id
    | resume =>
      cases job with
      | waiting => exact (hr _ _ _ _ _ rfl rfl).elim
      | _ => exact .idle id
    | abandon n =>
      cases job with
      | waiting => exact (ha _ _ _ _ _ _ rfl rfl).elim
      | _ => exact .idle id

/-! ### Moves further down -/

/-- A job with one of its children replaced. -/
def withChild (job : Job) (n : ℕ) (child : Job) : Job :=
  match job with
  | .waiting schemas done key children rest => .waiting schemas done key (children.set n child) rest
  | .failed fault children => .failed fault (children.set n child)
  | _ => job

@[simp] theorem children_withChild (job : Job) (n : ℕ) (child : Job) :
    (job.withChild n child).children = job.children.set n child := by
  cases job <;> rfl

@[simp] theorem fault?_withChild (job : Job) (n : ℕ) (child : Job) :
    (job.withChild n child).fault? = job.fault? := by
  cases job <;> rfl

@[simp] theorem address?_withChild (job : Job) (n : ℕ) (child : Job) :
    (job.withChild n child).address? = job.address? := by
  cases job <;> rfl

/-- The document that a move of the job at a place hands to the store. The outermost job keeps what
it completes. -/
def handedOver? (version : String) (m : Move) : List ℕ → Bool → Job → Option Document
  | [], stores, job => if stores then completed? version m job else none
  | n :: place, _, job => job.children[n]?.bind (handedOver? version m place true)

/-- What becomes of a job by a move at a place below it, with the document that is handed to the
store. -/
inductive MovedAt (version : String) (g : Gateway) (m : Move) :
    List ℕ → Bool → Job → Option Document → Job × Gateway → Prop
  /-- It is a move of the job itself. -/
  | here {stores : Bool} {job : Job} {d : Option Document} {r : Job × Gateway} :
      Moved version stores g m job d r →
      MovedAt version g m [] stores job (if stores then d else none) r
  /-- It is one of the job at a place below a child. -/
  | deeper {n : ℕ} {place : List ℕ} {stores : Bool} {job child : Job} {d : Option Document}
      {r : Job × Gateway} : job.children[n]? = some child →
      MovedAt version g m place true child d r →
      MovedAt version g m (n :: place) stores job d (job.withChild n r.1, r.2)
  /-- There is no child on the way. -/
  | nowhere {n : ℕ} {place : List ℕ} {stores : Bool} {job : Job} : job.children[n]? = none →
      MovedAt version g m (n :: place) stores job none (job, g)

theorem modifyAt_of_some {σ : Type} {step : Job → σ → Job × σ} {n : ℕ} {jobs : List Job} {s : σ}
    {job : Job} (h : jobs[n]? = some job) :
    modifyAt step n jobs s = (jobs.set n (step job s).1, (step job s).2) := by
  induction n generalizing jobs with
  | zero =>
    cases jobs with
    | nil => cases h
    | cons first rest =>
      cases h
      rfl
  | succ n ih =>
    cases jobs with
    | nil => cases h
    | cons first rest =>
      unfold modifyAt
      rw [ih h]
      rfl

theorem modifyAt_of_none {σ : Type} {step : Job → σ → Job × σ} {n : ℕ} {jobs : List Job} {s : σ}
    (h : jobs[n]? = none) : modifyAt step n jobs s = (jobs, s) := by
  induction n generalizing jobs with
  | zero =>
    cases jobs with
    | nil => rfl
    | cons first rest => cases h
  | succ n ih =>
    cases jobs with
    | nil => rfl
    | cons first rest =>
      unfold modifyAt
      rw [ih h]

theorem moveAt_of_some {m : Move} {n : ℕ} {place : List ℕ} {job child : Job}
    (h : job.children[n]? = some child) : moveAt version m (n :: place) stores job g
      = (job.withChild n (moveAt version m place true child g).1,
        (moveAt version m place true child g).2) := by
  cases job with
  | waiting schemas done key children rest =>
    have hc : children[n]? = some child := h
    simp only [moveAt, modifyAt_of_some hc, withChild]
  | failed fault children =>
    have hc : children[n]? = some child := h
    simp only [moveAt, modifyAt_of_some hc, withChild]
  | _ => cases h

theorem moveAt_of_none {m : Move} {n : ℕ} {place : List ℕ} {job : Job}
    (h : job.children[n]? = none) : moveAt version m (n :: place) stores job g = (job, g) := by
  cases job with
  | waiting schemas done key children rest =>
    have hc : children[n]? = none := h
    simp only [moveAt, modifyAt_of_none hc]
  | failed fault children =>
    have hc : children[n]? = none := h
    simp only [moveAt, modifyAt_of_none hc]
  | _ => rfl

/-- **What becomes of a job by a move at a place below it.** -/
theorem movedAt_moveAt (version : String) (g : Gateway) (m : Move) : ∀ (place : List ℕ) (stores : Bool) (job : Job),
    MovedAt version g m place stores job (handedOver? version m place stores job)
      (moveAt version m place stores job g)
  | [], _, job => .here (moved_move m job)
  | n :: place, _, job => by
    unfold handedOver?
    cases h : job.children[n]? with
    | some child =>
      rw [moveAt_of_some h]
      exact .deeper h (movedAt_moveAt version g m place true child)
    | none =>
      rw [moveAt_of_none h]
      exact .nowhere h

/-! ### The store -/

/-- A document that is completed is handed to the store, where it is to be. -/
theorem Finished.snd {d : Document} {r : Job × Gateway} (h : Finished d g stores r) :
    r.2 = if stores then (g.save (.document d)).2 else g := by
  cases h <;> rfl

end Job

/-- The store after a document was handed to it, if one was. -/
def Gateway.after (g : Gateway) : Option Document → Gateway
  | some d => (g.save (.document d)).2
  | none => g

namespace Job

theorem Proceeded.snd {done : List Element} {portions : List Portion} {d : Option Document}
    {r : Job × Gateway} (h : Proceeded version stores schemas g done portions d r) :
    r.2 = g.after (if stores then d else none) := by
  cases h with
  | finished _ =>
    rw [(finished_finish _ _ _).snd]
    cases stores <;> rfl
  | stuck _ => cases stores <;> rfl
  | waits _ _ _ => cases stores <;> rfl

theorem Moved.snd {m : Move} {job : Job} {d : Option Document} {r : Job × Gateway}
    (h : Moved version stores g m job d r) : r.2 = g.after (if stores then d else none) := by
  cases h with
  | begun hp => exact hp.snd
  | resumed _ _ hp => exact hp.snd
  | _ => cases stores <;> rfl

theorem MovedAt.snd {m : Move} {place : List ℕ} {job : Job} {d : Option Document}
    {r : Job × Gateway} (h : MovedAt version g m place stores job d r) : r.2 = g.after d := by
  induction h with
  | here hm => exact hm.snd
  | deeper _ _ ih => exact ih
  | nowhere _ => rfl

/-- **A move changes the store by the document that it hands over, and by nothing else.** -/
theorem snd_moveAt (m : Move) (place : List ℕ) (stores : Bool) (job : Job) (g : Gateway) :
    (moveAt version m place stores job g).2 = g.after (handedOver? version m place stores job) :=
  (movedAt_moveAt version g m place stores job).snd

end Job

end ContentGraph
