import ContentGraph.Document.Writing
import ContentGraph.Proofs.Document.Moves

/-!
# Histories of writing

While a payload is written, documents are handed to the store one after the other. A job leads to
another by moves at any places and in any order (`Job.Leads`); between two moves the store may be
changed by others, and may begin to fail. Its history is the row of store calls that were made, each
with the answer of the store. A history can be taken apart at any of its calls
(`Job.Leads.split`), so that a statement about what comes before and after a call is one about every
moment. `Work.write` is one such run (`Work.write_leads`), with the moves in the order of its queue.
-/

namespace ContentGraph

/-- A document that was handed to the store for the job at a place. -/
structure StoreCall where
  /-- The place of the job. -/
  place : List ℕ
  /-- The document. -/
  document : Document
  /-- What the store answered: the address of the document, or why it was not stored. -/
  answer : Except Failure String

/-- The call by which a document is handed to a store. -/
def StoreCall.made (place : List ℕ) (d : Document) (g : Gateway) : StoreCall :=
  ⟨place, d, (g.save (.document d)).1⟩

/-- The store did not take the document. -/
def StoreCall.Failed (c : StoreCall) : Prop := ∃ f, c.answer = .error f

/-- One of several calls stored a document at an address. -/
def Stored (calls : List StoreCall) (d : Document) (address : String) : Prop :=
  ∃ c ∈ calls, c.document = d ∧ c.answer = .ok address

theorem Stored.mono {calls calls' : List StoreCall} (h : calls ⊆ calls') {d : Document}
    {address : String} : Stored calls d address → Stored calls' d address :=
  fun ⟨c, hc, hd⟩ => ⟨c, h hc, hd⟩

namespace Job

/-- The store call of a move, if it makes one. -/
def callAt? (version : String) (m : Move) (place : List ℕ) (job : Job) (g : Gateway) :
    Option StoreCall :=
  (handedOver? version m place false job).map fun d => .made place d g

/-- What a job and a store become by moves, with the store calls that were made. What else happens to
the store is given by `others`. -/
inductive Leads (version : String) (others : Gateway → Gateway → Prop) (start : Job × Gateway) :
    List StoreCall → Job × Gateway → Prop
  /-- Nothing has happened. -/
  | start : Leads version others start [] start
  /-- A move of the job at a place. -/
  | move {calls : List StoreCall} {r : Job × Gateway} (m : Move) (place : List ℕ) :
      Leads version others start calls r →
      Leads version others start (calls ++ (callAt? version m place r.1 r.2).toList)
        (moveAt version m place false r.1 r.2)
  /-- Something else that happens to the store. -/
  | other {calls : List StoreCall} {r : Job × Gateway} {g : Gateway} : others r.2 g →
      Leads version others start calls r → Leads version others start calls (r.1, g)

variable {version : String} {others : Gateway → Gateway → Prop} {start last : Job × Gateway}

/-- A history taken apart at one of its calls. -/
theorem Leads.split {calls before after : List StoreCall} {c : StoreCall}
    (h : Leads version others start calls last) (hc : calls = before ++ c :: after) :
    ∃ m place r, Leads version others start before r ∧
      callAt? version m place r.1 r.2 = some c ∧
      Leads version others (moveAt version m place false r.1 r.2) after last := by
  induction h generalizing after with
  | start => simp at hc
  | @move calls r m place hr ih =>
    cases hcall : callAt? version m place r.1 r.2 with
    | none =>
      rw [hcall, Option.toList_none, List.append_nil] at hc
      obtain ⟨m', place', r', hr', hc', hafter⟩ := ih hc
      refine ⟨m', place', r', hr', hc', ?_⟩
      have hmove := hafter.move m place
      rwa [hcall, Option.toList_none, List.append_nil] at hmove
    | some made =>
      rw [hcall, Option.toList_some] at hc
      rcases List.eq_nil_or_concat after with rfl | ⟨after', final, rfl⟩
      · obtain ⟨rfl, he⟩ := List.append_inj' hc rfl
        cases he
        exact ⟨m, place, r, hr, hcall, .start⟩
      · rw [List.concat_eq_append] at hc ⊢
        rw [← List.cons_append, ← List.append_assoc] at hc
        obtain ⟨hcalls, he⟩ := List.append_inj' hc rfl
        cases he
        obtain ⟨m', place', r', hr', hc', hafter⟩ := ih hcalls
        refine ⟨m', place', r', hr', hc', ?_⟩
        have hmove := hafter.move m place
        rwa [hcall, Option.toList_some] at hmove
  | other ho _ ih =>
    obtain ⟨m', place', r', hr', hc', hafter⟩ := ih hc
    exact ⟨m', place', r', hr', hc', hafter.other ho⟩

/-- The calls of jobs are those of the jobs below the outermost, which keeps its document. -/
theorem place_ne_nil_of_callAt? {m : Move} {place : List ℕ} {job : Job} {g : Gateway} {c : StoreCall}
    (h : callAt? version m place job g = some c) : c.place ≠ [] := by
  obtain ⟨d, hd, rfl⟩ := Option.map_eq_some_iff.1 h
  rintro rfl
  cases hd

end Job

/-- The histories of creating the document of a plan: the store calls for what is beneath it, and,
once it is built, the one that stores it. -/
inductive Creation (version : String) (others : Gateway → Gateway → Prop) (plan : Plan)
    (g : Gateway) : List StoreCall → Gateway → Prop
  /-- The document is not handed to the store, or not yet. -/
  | beneath {calls : List StoreCall} {r : Job × Gateway} :
      Job.Leads version others (.planned plan, g) calls r →
      Creation version others plan g calls r.2
  /-- The document is handed to the store. -/
  | root {calls : List StoreCall} {d : Document} {g' : Gateway} :
      Job.Leads version others (.planned plan, g) calls (.built d, g') →
      Creation version others plan g (calls ++ [.made [] d g']) (g'.after (some d))

/-! ### Work -/

namespace Work

variable {version : String} {others : Gateway → Gateway → Prop} {start : Job × Gateway}

/-- The jobs of some work beside one change the store in a way that is counted as something else. -/
def Beside (others : Gateway → Gateway → Prop) (outermost : ℕ) (w : Work) : Prop :=
  ∀ n ≠ outermost, n < w.jobs.length → ∀ g d, others g (g.after d)

theorem length_step (w : Work) : (w.step version).jobs.length = w.jobs.length := by
  unfold step
  split
  · rfl
  · next outermost place m _ _ =>
    show (Job.modifyAt _ outermost w.jobs w.gateway).1.length = _
    cases h : w.jobs[outermost]? with
    | some job => rw [Job.modifyAt_of_some h, List.length_set]
    | none => rw [Job.modifyAt_of_none h]
  · rfl

/-- One signal makes a move of an outermost job, or something else happens to the store. -/
theorem leads_step {w : Work} {outermost : ℕ} {job : Job} {calls : List StoreCall}
    (ho : w.Beside others outermost) (hj : w.jobs[outermost]? = some job)
    (h : Job.Leads version others start calls (job, w.gateway)) :
    ∃ calls' job', (w.step version).jobs[outermost]? = some job' ∧
      Job.Leads version others start calls' (job', (w.step version).gateway) := by
  unfold step
  split
  · exact ⟨calls, job, hj, h⟩
  · next n place m queue _ =>
    dsimp only
    cases hn : w.jobs[n]? with
    | none =>
      rw [Job.modifyAt_of_none hn]
      exact ⟨calls, job, hj, h⟩
    | some moved =>
      rw [Job.modifyAt_of_some hn]
      by_cases he : n = outermost
      · subst he
        cases hn.symm.trans hj
        refine ⟨_, _, ?_, h.move m place⟩
        have hlt : n < w.jobs.length := (List.getElem?_eq_some_iff.1 hj).1
        simp [hlt]
      · have hlt : n < w.jobs.length := (List.getElem?_eq_some_iff.1 hn).1
        refine ⟨calls, job, ?_, ?_⟩
        · simp [he, hj]
        · rw [Job.snd_moveAt]
          exact h.other (ho n he hlt w.gateway _)
  · exact ⟨calls, job, hj, h⟩

theorem leads_runUntil {outermost : ℕ} : ∀ (limit : ℕ) {w : Work} {job : Job}
    {calls : List StoreCall}, w.Beside others outermost → w.jobs[outermost]? = some job →
    Job.Leads version others start calls (job, w.gateway) →
    ∃ calls' job', (w.runUntil version outermost limit).jobs[outermost]? = some job' ∧
      Job.Leads version others start calls' (job', (w.runUntil version outermost limit).gateway)
  | 0, _, job, calls, _, hj, h => ⟨calls, job, hj, h⟩
  | limit + 1, w, job, calls, ho, hj, h => by
    unfold runUntil
    split
    · exact ⟨calls, job, hj, h⟩
    · obtain ⟨calls', job', hj', h'⟩ := leads_step ho hj h
      refine leads_runUntil limit (fun n hn hlt => ho n hn ?_) hj' h'
      rwa [length_step] at hlt

/-- What comes of the jobs and the store when a plan is written. -/
def carryOut (version : String) (plan : Plan) (w : Work) : Work :=
  (w.add plan).runUntil version w.jobs.length (4 * Job.sizeOfAll (w.add plan).jobs + 4)

theorem write_eq (version : String) (plan : Plan) (w : Work) : w.write version plan =
    ((((w.carryOut version plan).jobs[w.jobs.length]?).bind Job.outcome?).getD (.error .wrongShape),
      (w.carryOut version plan).settle) := by
  have hn : (w.add plan).jobs.length - 1 = w.jobs.length := by simp [add]
  unfold write
  dsimp only
  rw [hn]
  rfl

/-- **Carrying out a plan makes moves of its job.** -/
theorem leads_carryOut (version : String) (plan : Plan) {w : Work}
    (ho : (w.add plan).Beside others w.jobs.length) : ∃ calls job,
    (w.carryOut version plan).jobs[w.jobs.length]? = some job ∧
    Job.Leads version others (.planned plan, w.gateway) calls
      (job, (w.carryOut version plan).gateway) := by
  have hj : (w.add plan).jobs[w.jobs.length]? = some (.planned plan) := by simp [add]
  exact leads_runUntil (4 * Job.sizeOfAll (w.add plan).jobs + 4) ho hj .start

/-- Writing a plan gives what its job comes to. -/
theorem write_leads (version : String) (plan : Plan) {w : Work}
    (ho : (w.add plan).Beside others w.jobs.length) : ∃ calls job,
    Job.Leads version others (.planned plan, w.gateway) calls
      (job, (w.write version plan).2.gateway) ∧
    (w.write version plan).1 = job.outcome?.getD (.error .wrongShape) := by
  obtain ⟨calls, job, hj, h⟩ := leads_carryOut version plan ho
  rw [write_eq]
  refine ⟨calls, job, ?_, ?_⟩
  · rw [gateway_settle]
    exact h
  · rw [hj, Option.bind_some]

end Work

end ContentGraph
