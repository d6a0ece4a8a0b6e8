import ContentGraph.Proofs.Document.History
import ContentGraph.Proofs.Document.Queue

/-!
# Writing ends

Every signal that is taken from the queue uses up a turn: the turns of a plan count the signals that
can still come of it, and what a move adds to the queue was counted before (`Work.Sound.spent`).
As long as a job has no outcome, the queue is not empty (`Work.queue_ne_nil`). So the limit on the
number of signals is never reached, and the job of a plan that is written comes to an outcome
(`Work.isDone_carryOut`).
-/

namespace ContentGraph

mutual

/-- The number of turns that are still to come of a plan that is to begin: its report, and for each
document below it the beginning and the turns of that document. A report counts twice, for what
follows from it. -/
def Plan.turns : Plan → ℕ
  | .document _ portions => portionsTurns portions

/-- The number of turns of a portion. -/
def Portion.turns : Portion → ℕ
  | .children _ plans => plansTurns plans
  | _ => 0

/-- The number of turns that are still to come of a job with portions to build. -/
def portionsTurns : List Portion → ℕ
  | [] => 2
  | p :: rest => p.turns + portionsTurns rest

/-- The number of turns of several plans that are to begin. -/
def plansTurns : List Plan → ℕ
  | [] => 0
  | p :: rest => 1 + p.turns + plansTurns rest

end

theorem two_le_portionsTurns (portions : List Portion) : 2 ≤ portionsTurns portions := by
  induction portions with
  | nil => exact Nat.le_refl _
  | cons p rest ih =>
    rw [portionsTurns]
    omega

theorem portionsTurns_le_append (before rest : List Portion) :
    portionsTurns rest ≤ portionsTurns (before ++ rest) := by
  induction before with
  | nil => exact Nat.le_refl _
  | cons p before ih =>
    rw [List.cons_append, portionsTurns]
    omega

mutual

/-- The size of a plan bounds its turns. -/
theorem Plan.turns_lt (plan : Plan) : plan.turns + 1 ≤ 3 * plan.size := by
  cases plan with
  | document schemas portions =>
    have := portionsTurns_le portions
    rw [Plan.turns, Plan.size]
    omega

theorem Portion.turns_le (p : Portion) : p.turns ≤ 3 * p.size := by
  cases p with
  | children key plans =>
    have := plansTurns_le plans
    rw [Portion.turns, Portion.size]
    omega
  | _ => exact Nat.zero_le _

theorem portionsTurns_le (portions : List Portion) :
    portionsTurns portions ≤ 3 * portionsSize portions + 2 := by
  cases portions with
  | nil => exact Nat.le_refl _
  | cons p rest =>
    have := Portion.turns_le p
    have := portionsTurns_le rest
    rw [portionsTurns, portionsSize]
    omega

theorem plansTurns_le (plans : List Plan) : plansTurns plans ≤ 3 * plansSize plans := by
  cases plans with
  | nil => exact Nat.le_refl _
  | cons p rest =>
    have := Plan.turns_lt p
    have := plansTurns_le rest
    rw [plansTurns, plansSize]
    omega

end

namespace Job

mutual

/-- The number of turns that are still to come of a job and the jobs below it. -/
def turns : Job → ℕ
  | .planned plan => plan.turns
  | .waiting _ _ _ children rest => turnsOfAll children + portionsTurns rest
  | .failed _ children => turnsOfAll children
  | _ => 0

/-- The number of turns of several jobs. -/
def turnsOfAll : List Job → ℕ
  | [] => 0
  | job :: rest => job.turns + turnsOfAll rest

end

theorem turnsOfAll_set {jobs : List Job} {n : ℕ} {job : Job} (h : jobs[n]? = some job) (new : Job) :
    turnsOfAll (jobs.set n new) + job.turns = turnsOfAll jobs + new.turns := by
  induction jobs generalizing n with
  | nil => cases h
  | cons first rest ih =>
    cases n with
    | zero =>
      cases h
      rw [List.set_cons_zero, turnsOfAll, turnsOfAll]
      omega
    | succ n =>
      have := ih (n := n) h
      rw [List.set_cons_succ, turnsOfAll, turnsOfAll]
      omega

theorem turnsOfAll_planned (plans : List Plan) :
    turnsOfAll (plans.map .planned) + plans.length = plansTurns plans := by
  induction plans with
  | nil => rfl
  | cons p rest ih =>
    rw [List.map_cons, turnsOfAll, plansTurns, turns, List.length_cons]
    omega

/-- Replacing a job replaces its turns. -/
theorem turns_setAt {place : List ℕ} {job old : Job} (h : job.at? place = some old) (new : Job) :
    (setAt place new job).turns + old.turns = job.turns + new.turns := by
  induction place generalizing job with
  | nil =>
    cases h
    exact Nat.add_comm _ _
  | cons n place ih =>
    obtain ⟨child, hc, h⟩ := at?_cons_eq_some_iff.1 h
    rw [setAt_cons hc]
    have hchild := ih h
    cases job with
    | waiting schemas done key children rest =>
      have hset := turnsOfAll_set (show children[n]? = some child from hc) (setAt place new child)
      simp only [withChild, turns]
      omega
    | failed fault children =>
      have hset := turnsOfAll_set (show children[n]? = some child from hc) (setAt place new child)
      simp only [withChild, turns]
      omega
    | _ => cases hc

end Job

/-- The number of turns that a signal stands for: a report counts for what follows from it too. -/
def Signal.turns : Signal → ℕ
  | .act _ _ _ => 1
  | .report _ _ _ => 2

/-- The number of turns of several signals. -/
def signalsTurns : List Signal → ℕ
  | [] => 0
  | s :: rest => s.turns + signalsTurns rest

theorem signalsTurns_append (signals others : List Signal) :
    signalsTurns (signals ++ others) = signalsTurns signals + signalsTurns others := by
  induction signals with
  | nil => exact (Nat.zero_add _).symm
  | cons s rest ih =>
    rw [List.cons_append, signalsTurns, signalsTurns, ih]
    omega

theorem signalsTurns_begin (n : ℕ) (p ks : List ℕ) :
    signalsTurns (ks.map fun k => .act n (p ++ [k]) .begin) = ks.length := by
  induction ks with
  | nil => rfl
  | cons k rest ih =>
    rw [List.map_cons, signalsTurns, ih, List.length_cons, Signal.turns]
    omega

namespace Work

variable {version : String} {w : Work} {n : ℕ} {p : List ℕ}

/-- Where the jobs of some work stand. -/
def marks (w : Work) : Marks
  | [] => none
  | n :: p => (w.at? n p).map Job.mark

/-- The number of turns that are still to come. -/
def turns (w : Work) : ℕ := signalsTurns w.queue + Job.turnsOfAll w.jobs

/-- The queue holds what the jobs need, and all jobs but the outermost store what they build. -/
structure Sound (w : Work) : Prop where
  /-- The queue holds what the jobs need. -/
  orderly : w.marks.Orderly w.queue
  /-- Only an outermost job keeps its document. -/
  unbuilt : ∀ n p k, w.marks (n :: p ++ [k]) ≠ some .built

theorem turns_eq_of_queue {s : Signal} {tail : List Signal} (hq : w.queue = s :: tail) :
    w.turns = s.turns + signalsTurns tail + Job.turnsOfAll w.jobs := by
  rw [turns, hq, signalsTurns]

/-! ### Marks of jobs -/

theorem at?_append (n : ℕ) (p q : List ℕ) (w : Work) :
    w.at? n (p ++ q) = (w.at? n p).bind (Job.at? q) := by
  unfold at?
  rw [Option.bind_assoc]
  exact congrArg _ (funext fun job => Job.at?_append p q job)

theorem at?_child {job : Job} (h : w.at? n p = some job) (k : ℕ) :
    w.at? n (p ++ [k]) = job.children[k]? := by
  rw [at?_append, h, Option.bind_some]
  show job.children[k]?.bind (Job.at? []) = _
  cases job.children[k]? <;> rfl

theorem marks_child {job : Job} (h : w.at? n p = some job) (k : ℕ) :
    w.marks (n :: p ++ [k]) = job.children[k]?.map Job.mark :=
  congrArg (Option.map Job.mark) (at?_child h k)

theorem marks_eq_some_iff {m : Mark} :
    w.marks (n :: p) = some m ↔ ∃ job, w.at? n p = some job ∧ job.mark = m :=
  Option.map_eq_some_iff

theorem exists_planned (h : w.marks (n :: p) = some .planned) :
    ∃ plan, w.at? n p = some (.planned plan) := by
  obtain ⟨job, hj, hm⟩ := marks_eq_some_iff.1 h
  cases job with
  | planned plan => exact ⟨plan, hj⟩
  | _ => cases hm

theorem exists_waiting {c : ℕ} (h : w.marks (n :: p) = some (.waiting c)) :
    ∃ schemas done key children rest,
      w.at? n p = some (.waiting schemas done key children rest) ∧ children.length = c := by
  obtain ⟨job, hj, hm⟩ := marks_eq_some_iff.1 h
  cases job with
  | waiting schemas done key children rest =>
    exact ⟨schemas, done, key, children, rest, hj, Mark.waiting.inj hm⟩
  | _ => cases hm

theorem exists_failed {c : ℕ} (h : w.marks (n :: p) = some (.failed c)) :
    ∃ fault children, w.at? n p = some (.failed fault children) := by
  obtain ⟨job, hj, hm⟩ := marks_eq_some_iff.1 h
  cases job with
  | failed fault children => exact ⟨fault, children, hj⟩
  | _ => cases hm

theorem fails_child_iff {job : Job} (h : w.at? n p = some job) (k : ℕ) :
    w.marks.Fails (n :: p ++ [k]) ↔ ∃ child, job.children[k]? = some child ∧ child.fault?.isSome := by
  unfold Marks.Fails
  rw [marks_child h]
  constructor
  · rintro ⟨c, hc⟩
    obtain ⟨child, hk, hm⟩ := Option.map_eq_some_iff.1 hc
    exact ⟨child, hk, Job.mark_eq_failed_iff.1 ⟨c, hm⟩⟩
  · rintro ⟨child, hk, hf⟩
    obtain ⟨c, hm⟩ := Job.mark_eq_failed_iff.2 hf
    exact ⟨c, Option.map_eq_some_iff.2 ⟨child, hk, hm⟩⟩

theorem allStored_iff {schemas : List String} {done : List Element} {key : String}
    {children : List Job} {rest : List Portion}
    (h : w.at? n p = some (.waiting schemas done key children rest)) :
    w.marks.AllStored (n :: p) ↔ ∀ child ∈ children, child.address?.isSome := by
  have hmark : w.marks (n :: p) = some (.waiting children.length) := congrArg (Option.map Job.mark) h
  have hchild : ∀ i, w.marks (n :: p ++ [i]) = children[i]?.map Job.mark := marks_child h
  constructor
  · rintro ⟨c, hc, hall⟩ child hmem
    cases hmark.symm.trans hc
    obtain ⟨i, hlt, rfl⟩ := List.getElem_of_mem hmem
    have hm := hall i hlt
    rw [hchild, List.getElem?_eq_getElem hlt] at hm
    exact Job.mark_eq_stored_iff.1 (Option.some.inj hm)
  · intro hall
    refine ⟨_, hmark, fun i hlt => ?_⟩
    rw [hchild, List.getElem?_eq_getElem hlt]
    exact congrArg some (Job.mark_eq_stored_iff.2 (hall _ (List.getElem_mem hlt)))

/-- A job that waits has no more children than its mark says. -/
theorem bounded_marks (w : Work) : w.marks.Bounded := by
  intro q c k hw hk
  cases q with
  | nil => cases hw
  | cons n p =>
    obtain ⟨schemas, done, key, children, rest, hj, rfl⟩ := exists_waiting hw
    rw [marks_child hj] at hk
    by_contra hlt
    exact hk (by simp [Job.children, List.getElem?_eq_none (Nat.le_of_not_lt hlt)])

/-- Below a place without a job, and below a job that is stored, there is none. -/
theorem marks_leaf (h : w.marks (n :: p) = none ∨ w.marks (n :: p) = some .stored) (k : ℕ) :
    w.marks (n :: p ++ [k]) = none := by
  cases hj : w.at? n p with
  | none =>
    show (w.at? n (p ++ [k])).map Job.mark = none
    rw [at?_append, hj]
    rfl
  | some job =>
    rw [marks_child hj]
    have hm : w.marks (n :: p) = some job.mark := congrArg (Option.map Job.mark) hj
    rcases h with h | h
    · cases hm.symm.trans h
    · cases job with
      | stored d address => rfl
      | _ => cases hm.symm.trans h

theorem marks_deep {m : Move} (hd : w.marks.Due (n :: p) m) (k j : ℕ) :
    w.marks (n :: p ++ [k] ++ [j]) = none :=
  marks_leaf (p := p ++ [k]) (hd.child (bounded_marks w) k) j

/-! ### One signal -/

/-- A job that has come to an outcome reports it. -/
theorem consequences_of_done (job : Job) (h : job.mark.Done) (n : ℕ) (p : List ℕ) :
    consequences n p job = Marks.reportOf n p := by
  cases job with
  | planned plan => cases h
  | waiting schemas done key children rest => cases h
  | _ => rfl

theorem turns_reportOf_le (n : ℕ) (p : List ℕ) :
    signalsTurns (Marks.reportOf n p) ≤ 2 := by
  rcases List.eq_nil_or_concat p with rfl | ⟨above, k, rfl⟩
  · exact Nat.zero_le 2
  · rw [List.concat_eq_append, Marks.reportOf_append]
    exact Nat.le_refl 2

/-- What a move leaves of a job and adds to the queue. -/
structure Replaced (w : Work) (n : ℕ) (p : List ℕ) (old new : Job) (tail follows : List Signal)
    (w' : Work) : Prop where
  /-- There is an outermost job with the old one at the place, and now the new one. -/
  jobs : ∃ job, w.jobs[n]? = some job ∧ job.at? p = some old ∧
    w'.jobs = w.jobs.set n (Job.setAt p new job)
  /-- The signals that follow. -/
  queue : w'.queue = tail ++ follows

namespace Replaced

variable {old new : Job} {tail follows : List Signal} {w' : Work}

theorem at?_eq (h : w.Replaced n p old new tail follows w') (q : List ℕ) :
    w'.at? n (p ++ q) = new.at? q := by
  obtain ⟨job, hj, ho, hjobs⟩ := h.jobs
  have hlt : n < w.jobs.length := (List.getElem?_eq_some_iff.1 hj).1
  rw [at?, hjobs, List.getElem?_set_self hlt, Option.bind_some, Job.at?_setAt _ ho]

theorem marks_here (h : w.Replaced n p old new tail follows w') :
    w'.marks (n :: p) = some new.mark := by
  have hq := h.at?_eq []
  rw [List.append_nil] at hq
  exact congrArg (Option.map Job.mark) hq

theorem marks_below (h : w.Replaced n p old new tail follows w') (k : ℕ) :
    w'.marks (n :: p ++ [k]) = new.children[k]?.map Job.mark := by
  have hq := h.at?_eq []
  rw [List.append_nil] at hq
  exact marks_child hq k

theorem marks_eq (h : w.Replaced n p old new tail follows w') {q : List ℕ}
    (hq : ¬ n :: p <+: q) : w'.marks q = w.marks q := by
  obtain ⟨job, hj, ho, hjobs⟩ := h.jobs
  have hlt : n < w.jobs.length := (List.getElem?_eq_some_iff.1 hj).1
  cases q with
  | nil => rfl
  | cons k q =>
    show (w'.jobs[k]?.bind (Job.at? q)).map Job.mark = (w.jobs[k]?.bind (Job.at? q)).map Job.mark
    rw [hjobs]
    by_cases hk : n = k
    · subst hk
      rw [List.getElem?_set_self hlt, hj]
      exact Job.markAt?_setAt ho fun hp => hq (List.cons_prefix_cons.2 ⟨rfl, hp⟩)
    · rw [List.getElem?_set_ne hk]

theorem at?_old (h : w.Replaced n p old new tail follows w') : w.at? n p = some old := by
  obtain ⟨job, hj, ho, -⟩ := h.jobs
  rw [at?, hj, Option.bind_some, ho]

theorem turns_eq (h : w.Replaced n p old new tail follows w') :
    w'.turns + old.turns
      = signalsTurns tail + signalsTurns follows + Job.turnsOfAll w.jobs + new.turns := by
  obtain ⟨job, hj, ho, hjobs⟩ := h.jobs
  have hset := Job.turnsOfAll_set hj (Job.setAt p new job)
  have hjob := Job.turns_setAt ho new
  rw [turns, h.queue, hjobs, signalsTurns_append]
  omega

end Replaced

/-- **What a move due at the head of the queue does.** -/
theorem replaced_step (version : String) {m : Move} {tail : List Signal} {old : Job}
    (hq : w.queue = .act n p m :: tail) (hold : w.at? n p = some old) : ∃ d r,
    Job.Moved version (!p.isEmpty) w.gateway m old d r ∧
    w.Replaced n p old r.1 tail (if old.isDone then [] else consequences n p r.1)
      (w.step version) := by
  obtain ⟨job, hj, ho⟩ := Option.bind_eq_some_iff.1 hold
  obtain ⟨d, new, hm, hr⟩ := (Job.movedAt_moveAt version w.gateway m p false job).setAt ho
  rw [Bool.false_or] at hm
  have hlt : n < w.jobs.length := (List.getElem?_eq_some_iff.1 hj).1
  have hnew : (Job.setAt p new job).at? p = some new := by
    have h := Job.at?_setAt new ho []
    rwa [List.append_nil] at h
  have hstep : w.step version = ⟨w.jobs.set n (Job.setAt p new job),
      (Job.moveAt version m p false job w.gateway).2,
      tail ++ if old.isDone then [] else consequences n p new⟩ := by
    unfold step
    rw [hq]
    dsimp only
    rw [Job.modifyAt_of_some hj, hr, hold, Option.map_some]
    dsimp only
    have hat : (Work.mk (w.jobs.set n (Job.setAt p new job))
        (Job.moveAt version m p false job w.gateway).2 tail).at? n p = some new := by
      rw [at?, List.getElem?_set_self hlt, Option.bind_some, hnew]
    rw [hat]
    cases old.isDone <;> rfl
  rw [hstep]
  exact ⟨d, _, hm, ⟨job, hj, ho, rfl⟩, rfl⟩

/-! ### The invariant -/

section

variable {m : Move} {tail follows : List Signal} {old new : Job} {w' : Work}

/-- The children of what a job becomes have no children of their own, and those it had before had
none. -/
theorem Replaced.sameBut (h : w.Replaced n p old new tail follows w')
    (hold : ∀ k j, w.marks (n :: p ++ [k] ++ [j]) = none)
    (hnew : ∀ child ∈ new.children, child.children = []) :
    w.marks.SameBut w'.marks (n :: p) := by
  intro q hq hc
  by_cases hprefix : n :: p <+: q
  · obtain ⟨r, rfl⟩ := hprefix
    match r with
    | [] => exact absurd (List.append_nil _) hq
    | [k] => exact absurd rfl (hc k)
    | k :: j :: r =>
      have hafter : w'.at? n (p ++ k :: j :: r) = none := by
        rw [h.at?_eq]
        show new.children[k]?.bind (Job.at? (j :: r)) = none
        cases hk : new.children[k]? with
        | none => rfl
        | some child =>
          show child.children[j]?.bind _ = none
          rw [hnew child (List.mem_of_getElem? hk)]
          rfl
      have hbefore : w.at? n (p ++ k :: j :: r) = none := by
        have hkj : w.at? n (p ++ [k] ++ [j]) = none := Option.map_eq_none_iff.1 (hold k j)
        rw [show p ++ k :: j :: r = p ++ [k] ++ [j] ++ r by simp, at?_append, hkj]
        rfl
      show (w'.at? n (p ++ k :: j :: r)).map _ = (w.at? n (p ++ k :: j :: r)).map _
      rw [hafter, hbefore]
  · exact h.marks_eq hprefix

/-- A job that is replaced by itself leaves all marks as they are. -/
theorem Replaced.marks_self (h : w.Replaced n p old old tail follows w') : w'.marks = w.marks := by
  funext q
  by_cases hprefix : n :: p <+: q
  · obtain ⟨r, rfl⟩ := hprefix
    show (w'.at? n (p ++ r)).map _ = (w.at? n (p ++ r)).map _
    rw [h.at?_eq, at?_append, h.at?_old]
    rfl
  · exact h.marks_eq hprefix

theorem Replaced.unbuilt (h : w.Replaced n p old new tail follows w')
    (hu : ∀ n p k, w.marks (n :: p ++ [k]) ≠ some .built)
    (hsame : w.marks.SameBut w'.marks (n :: p)) (hnew : p ≠ [] → new.mark ≠ .built)
    (hchild : ∀ child ∈ new.children, child.mark ≠ .built) :
    ∀ n p k, w'.marks (n :: p ++ [k]) ≠ some .built := by
  intro n' q k hb
  by_cases hp : n' :: q ++ [k] = n :: p
  · rw [hp, h.marks_here] at hb
    have hne : p ≠ [] := by
      rintro rfl
      have := congrArg List.length hp
      simp at this
    exact hnew hne (Option.some.inj hb)
  by_cases hc : ∃ j, n' :: q ++ [k] = n :: p ++ [j]
  · obtain ⟨j, hj⟩ := hc
    rw [hj, h.marks_below] at hb
    obtain ⟨child, hget, hm⟩ := Option.map_eq_some_iff.1 hb
    exact hchild child (List.mem_of_getElem? hget) hm
  · rw [hsame _ hp fun j hj => hc ⟨j, hj⟩] at hb
    exact hu n' q k hb

/-- What one signal has to leave: the invariant, and fewer turns. -/
def Spent (w w' : Work) : Prop := w'.Sound ∧ w'.turns < w.turns

variable (hs : w.Sound) (hq : w.queue = .act n p m :: tail)

include hs hq

/-- A job comes to an outcome. -/
theorem Replaced.spent_of_ended (h : w.Replaced n p old new tail (consequences n p new) w')
    (hd : w.marks.Due (n :: p) m) (hdone : new.mark.Done) (hleaf : new.children = [])
    (hbuilt : p ≠ [] → new.mark ≠ .built) (hturns : 2 ≤ old.turns) : Spent w w' := by
  have ho : w.marks.Orderly (.act n p m :: tail) := hq ▸ hs.orderly
  have hsame := h.sameBut (marks_deep hd) fun child hc => by
    rw [hleaf] at hc
    cases hc
  refine ⟨⟨?_, h.unbuilt hs.unbuilt hsame hbuilt fun child hc => ?_⟩, ?_⟩
  · rw [h.queue, consequences_of_done _ hdone]
    refine ho.ended (bounded_marks w) hd (marks_deep hd) ⟨_, h.marks_here, hdone⟩ (fun k => ?_) hsame
    rw [h.marks_below, hleaf]
    rfl
  · rw [hleaf] at hc
    cases hc
  · have hnew : new.turns = 0 := by
      cases new with
      | planned plan => cases hdone
      | waiting schemas done key children rest => cases hdone
      | failed fault children =>
        cases hleaf
        rfl
      | _ => rfl
    have hsum := h.turns_eq
    have hreport := turns_reportOf_le n p
    rw [consequences_of_done _ hdone] at hsum
    have hbefore := turns_eq_of_queue hq
    rw [Signal.turns] at hbefore
    omega

/-- A job waits again. -/
theorem Replaced.spent_of_waits {schemas : List String} {es : List Element} {key : String}
    {plans : List Plan} {rest : List Portion}
    (h : w.Replaced n p old (.waiting schemas es key (plans.map .planned) rest) tail
      (consequences n p (.waiting schemas es key (plans.map .planned) rest)) w')
    (hd : w.marks.Due (n :: p) m) (hne : plans ≠ [])
    (hturns : plansTurns plans + portionsTurns rest ≤ old.turns) : Spent w w' := by
  have ho : w.marks.Orderly (.act n p m :: tail) := hq ▸ hs.orderly
  have hplanned : ∀ child ∈ (Job.waiting schemas es key (plans.map .planned) rest).children,
      ∃ plan, child = .planned plan := fun child hc => by
    obtain ⟨plan, -, rfl⟩ := List.mem_map.1 hc
    exact ⟨plan, rfl⟩
  have hsame := h.sameBut (marks_deep hd) fun child hc => by
    obtain ⟨plan, rfl⟩ := hplanned child hc
    rfl
  have hfollows : consequences n p (.waiting schemas es key (plans.map .planned) rest)
      = (List.range plans.length).map fun k => .act n (p ++ [k]) .begin := by
    rw [consequences, List.length_map]
  refine ⟨⟨?_, h.unbuilt hs.unbuilt hsame (fun _ => Mark.noConfusion) fun child hc => ?_⟩, ?_⟩
  · rw [h.queue, hfollows]
    refine ho.waits (bounded_marks w) hd (marks_deep hd) (List.length_pos_iff.2 hne) ?_ (fun k => ?_)
      hsame
    · rw [h.marks_here, Job.mark, List.length_map]
    · rw [h.marks_below, Job.children, List.getElem?_map, Option.map_map]
      split
      · next hk =>
        rw [List.getElem?_eq_getElem hk]
        rfl
      · next hk =>
        rw [List.getElem?_eq_none (Nat.le_of_not_lt hk)]
        rfl
  · obtain ⟨plan, rfl⟩ := hplanned child hc
    exact Mark.noConfusion
  · have hsum := h.turns_eq
    have hbegin : signalsTurns (consequences n p (.waiting schemas es key (plans.map .planned) rest))
        = plans.length := by
      rw [hfollows, signalsTurns_begin, List.length_range]
    have hplans := Job.turnsOfAll_planned plans
    rw [hbegin, Job.turns] at hsum
    have hbefore := turns_eq_of_queue hq
    rw [Signal.turns] at hbefore
    omega

/-- A job gives up. -/
theorem Replaced.spent_of_gaveUp {schemas : List String} {done : List Element} {key : String}
    {children : List Job} {rest : List Portion} {fault : Fault}
    (h : w.Replaced n p (.waiting schemas done key children rest) (.failed fault children) tail
      (consequences n p (.failed fault children)) w')
    (hm : m = .resume ∨ ∃ k, m = .abandon k) : Spent w w' := by
  have ho : w.marks.Orderly (.act n p m :: tail) := hq ▸ hs.orderly
  have hw : w.marks (n :: p) = some (.waiting children.length) :=
    congrArg (Option.map Job.mark) h.at?_old
  -- the children are the same, so that only the job itself has another mark
  have hsame : ∀ q, q ≠ n :: p → w'.marks q = w.marks q := by
    intro q hne
    by_cases hprefix : n :: p <+: q
    · obtain ⟨r, rfl⟩ := hprefix
      match r with
      | [] => exact absurd (List.append_nil _) hne
      | k :: r =>
        show (w'.at? n (p ++ k :: r)).map _ = (w.at? n (p ++ k :: r)).map _
        rw [h.at?_eq, at?_append, h.at?_old]
        rfl
    · exact h.marks_eq hprefix
  refine ⟨⟨?_, h.unbuilt hs.unbuilt (fun q hne _ => hsame q hne) (fun _ => Mark.noConfusion)
    fun child hc => ?_⟩, ?_⟩
  · rw [h.queue, consequences_of_done (.failed fault children) trivial]
    exact ho.gaveUp (bounded_marks w) hm hw h.marks_here hsame
  · obtain ⟨k, hk⟩ := List.getElem?_of_mem hc
    intro hb
    refine hs.unbuilt n p k ?_
    rw [marks_child h.at?_old]
    show children[k]?.map Job.mark = _
    rw [show children[k]? = some child from hk, Option.map_some, hb]
  · have hsum := h.turns_eq
    have hreport := turns_reportOf_le n p
    have hrest := two_le_portionsTurns rest
    rw [consequences_of_done (.failed fault children) trivial, Job.turns, Job.turns] at hsum
    have hbefore := turns_eq_of_queue hq
    rw [Signal.turns] at hbefore
    omega

/-- A job builds portions. -/
theorem Replaced.spent_of_proceeded {g : Gateway} {schemas : List String} {done : List Element}
    {portions : List Portion} {d : Option Document} {r : Job × Gateway}
    (h : w.Replaced n p old r.1 tail (consequences n p r.1) w')
    (hr : Job.Proceeded version (!p.isEmpty) schemas g done portions d r)
    (hd : w.marks.Due (n :: p) m) (hturns : portionsTurns portions ≤ old.turns) : Spent w w' := by
  have htwo := two_le_portionsTurns portions
  cases hr with
  | finished _ =>
    obtain ⟨hdone, hleaf, hbuilt⟩ := (Job.finished_finish (!p.isEmpty) _ g).ended
    refine h.spent_of_ended hs hq hd hdone hleaf (fun hp => hbuilt ?_) (Nat.le_trans htwo hturns)
    simpa using hp
  | stuck _ =>
    exact h.spent_of_ended hs hq hd trivial rfl (fun _ => Mark.noConfusion) (Nat.le_trans htwo hturns)
  | @waits before after key plans es hp _ hne =>
    refine h.spent_of_waits hs hq hd hne (Nat.le_trans ?_ hturns)
    have hrest := portionsTurns_le_append before (.children key plans :: after)
    rw [hp]
    rwa [portionsTurns, Portion.turns] at hrest

end

theorem expectsReport_eq_true_iff (queue : List Signal) (n : ℕ) (p : List ℕ) :
    expectsReport queue n p = true ↔ ∃ k, .report n p k ∈ queue := by
  unfold expectsReport
  rw [List.any_eq_true]
  constructor
  · rintro ⟨s, hs, h⟩
    split at h
    · next n' p' k =>
      obtain ⟨rfl, rfl⟩ := of_decide_eq_true h
      exact ⟨k, hs⟩
    · cases h
  · rintro ⟨k, hk⟩
    exact ⟨_, hk, by simp⟩

theorem follows_onReport (tail : List Signal) (n : ℕ) (p : List ℕ) (k : ℕ) :
    w.marks.Follows tail n p k (onReport (w.at? n p) tail n p k) := by
  unfold onReport
  split
  · next schemas done key children rest hj =>
    have hw : w.marks.Waits (n :: p) := ⟨_, congrArg (Option.map Job.mark) hj⟩
    have hstored := allStored_iff hj
    have hfails : w.marks.Fails (n :: p ++ [k]) ↔ ((children[k]?).bind Job.fault?).isSome := by
      rw [fails_child_iff hj, Option.isSome_bind, Option.any_eq_true]
      rfl
    split
    · next hf => exact .abandon hw (hfails.2 hf)
    · next hf =>
      split
      · next hall =>
        obtain ⟨hall, hlast⟩ := hall
        refine .resume (hstored.2 (List.all_eq_true.1 hall)) fun j hj => ?_
        rw [(expectsReport_eq_true_iff tail n p).2 ⟨j, hj⟩] at hlast
        cases hlast
      · next hmore =>
        refine .nothing (fun _ h => hf (hfails.1 h)) fun hall => ?_
        by_contra hno
        refine hmore ⟨List.all_eq_true.2 (hstored.1 hall), ?_⟩
        rw [Bool.not_eq_true', Bool.eq_false_iff]
        exact fun h => hno ((expectsReport_eq_true_iff tail n p).1 h)
  · next hj =>
    have hnot : ∀ c, w.marks (n :: p) ≠ some (.waiting c) := by
      intro c hc
      obtain ⟨schemas, done, key, children, rest, hat, -⟩ := exists_waiting hc
      exact hj _ _ _ _ _ hat
    exact .nothing (fun ⟨c, hw⟩ => absurd hw (hnot c)) fun ⟨c, hw, _⟩ => absurd hw (hnot c)

section

variable {tail : List Signal} (version) (hs : w.Sound)

include hs

theorem Sound.spent_begin (hq : w.queue = .act n p .begin :: tail) : Spent w (w.step version) := by
  have hmark := (hs.orderly n p).begins.1 (hq ▸ List.mem_cons_self)
  obtain ⟨plan, hold⟩ := exists_planned hmark
  have hd : w.marks.Due (n :: p) .begin := .inl ⟨rfl, hmark, fun k => marks_child hold k⟩
  obtain ⟨d, r, hmoved, hr⟩ := replaced_step version hq hold
  cases hmoved with
  | idle hn => exact absurd trivial hn
  | begun hp => exact hr.spent_of_proceeded hs hq hp hd (Nat.le_refl _)

theorem Sound.spent_resume (hq : w.queue = .act n p .resume :: tail) :
    Spent w (w.step version) := by
  have hall := (hs.orderly n p).resumes (hq ▸ List.mem_cons_self)
  obtain ⟨c, hmark, -⟩ := id hall
  obtain ⟨schemas, done, key, children, rest, hold, -⟩ := exists_waiting hmark
  obtain ⟨d, r, hmoved, hr⟩ := replaced_step version hq hold
  cases hmoved with
  | idle hn => exact absurd ((allStored_iff hold).1 hall) hn
  | resumed _ _ hp =>
    refine hr.spent_of_proceeded hs hq hp (.inr ⟨rfl, hall⟩) ?_
    rw [Job.turns]
    omega
  | unreferenced _ _ => exact hr.spent_of_gaveUp hs hq (.inl rfl)

/-- A job gives up once: it may hear of another failure later, and does nothing then. -/
theorem Sound.spent_abandon {k : ℕ} (hq : w.queue = .act n p (.abandon k) :: tail) :
    Spent w (w.step version) := by
  rcases (hs.orderly n p).abandons k (hq ▸ List.mem_cons_self) with ⟨⟨c, hmark⟩, hfails⟩ | ⟨c, hmark⟩
  · obtain ⟨schemas, done, key, children, rest, hold, -⟩ := exists_waiting hmark
    obtain ⟨d, r, hmoved, hr⟩ := replaced_step version hq hold
    cases hmoved with
    | idle hn => exact absurd ((fails_child_iff hold k).1 hfails) hn
    | abandoned _ _ => exact hr.spent_of_gaveUp hs hq (.inr ⟨k, rfl⟩)
  · obtain ⟨fault, children, hold⟩ := exists_failed hmark
    obtain ⟨d, r, hmoved, hr⟩ := replaced_step version hq hold
    cases hmoved with
    | idle _ =>
      rw [show (Job.failed fault children).isDone = true from rfl, if_pos rfl] at hr
      have ho : w.marks.Orderly (.act n p (.abandon k) :: tail) := hq ▸ hs.orderly
      refine ⟨⟨?_, ?_⟩, ?_⟩
      · rw [hr.queue, List.append_nil, hr.marks_self]
        exact ho.idle ⟨c, hmark⟩
      · rw [hr.marks_self]
        exact hs.unbuilt
      · have hsum := hr.turns_eq
        have hbefore := turns_eq_of_queue hq
        rw [signalsTurns] at hsum
        rw [Signal.turns] at hbefore
        dsimp only at hsum
        omega

theorem Sound.spent_report {k : ℕ} (hq : w.queue = .report n p k :: tail) :
    Spent w (w.step version) := by
  have hstep : w.step version = { w with queue := tail ++ onReport (w.at? n p) tail n p k } := by
    unfold step
    rw [hq]
  have ho : w.marks.Orderly (.report n p k :: tail) := hq ▸ hs.orderly
  have hfollows := follows_onReport (w := w) tail n p k
  have hnew : signalsTurns (onReport (w.at? n p) tail n p k) ≤ 1 := by
    generalize onReport (w.at? n p) tail n p k = new at hfollows
    cases hfollows <;> simp [signalsTurns, Signal.turns]
  rw [hstep]
  refine ⟨⟨ho.reported (bounded_marks w) hfollows, hs.unbuilt⟩, ?_⟩
  have hbefore := turns_eq_of_queue hq
  rw [Signal.turns] at hbefore
  show signalsTurns (tail ++ onReport (w.at? n p) tail n p k) + Job.turnsOfAll w.jobs < _
  rw [signalsTurns_append]
  omega

/-- **Every signal leaves the invariant and fewer turns.** -/
theorem Sound.spent {s : Signal} (hq : w.queue = s :: tail) : Spent w (w.step version) := by
  cases s with
  | act n p m =>
    cases m with
    | begin => exact hs.spent_begin version hq
    | resume => exact hs.spent_resume version hq
    | abandon k => exact hs.spent_abandon version hq
  | report n p k => exact hs.spent_report version hq

end

/-! ### Until the end -/

/-- As long as a job has no outcome, something is left to do. -/
theorem queue_ne_nil (hs : w.Sound) {job : Job} (hj : w.at? n p = some job)
    (hd : job.isDone = false) : w.queue ≠ [] := by
  induction hsize : sizeOf job using Nat.strongRecOn generalizing job p with
  | ind size ih =>
    cases job with
    | planned plan =>
      have hmark : w.marks (n :: p) = some .planned := congrArg (Option.map Job.mark) hj
      exact List.ne_nil_of_mem ((hs.orderly n p).begins.2 hmark)
    | waiting schemas done key children rest =>
      have hmark : w.marks (n :: p) = some (.waiting children.length) :=
        congrArg (Option.map Job.mark) hj
      by_cases hall : ∀ child ∈ children, child.isDone = true
      · by_cases hfails : ∃ k, w.marks.Fails (n :: p ++ [k])
        · obtain ⟨k, hf⟩ := hfails
          rcases (hs.orderly n p).failedHeard k ⟨_, hmark⟩ hf with hr | ⟨j, hr⟩
          · exact List.ne_nil_of_mem hr
          · exact List.ne_nil_of_mem hr
        · -- a child with an outcome that was not given up is stored
          have hstored : w.marks.AllStored (n :: p) := by
            refine (allStored_iff hj).2 fun child hc => ?_
            obtain ⟨k, hk⟩ := List.getElem?_of_mem hc
            have hdone := hall child hc
            cases child with
            | stored d address => rfl
            | failed fault others => exact absurd ⟨k, (fails_child_iff hj k).2 ⟨_, hk, rfl⟩⟩ hfails
            | built d => exact absurd ((marks_child hj k).trans (congrArg _ hk)) (hs.unbuilt n p k)
            | _ => cases hdone
          rcases (hs.orderly n p).storedHeard hstored with ⟨k, hr⟩ | hr
          · exact List.ne_nil_of_mem hr
          · exact List.ne_nil_of_mem hr
      · obtain ⟨child, hc, hopen⟩ : ∃ child ∈ children, child.isDone = false := by
          simpa using hall
        obtain ⟨k, hk⟩ := List.getElem?_of_mem hc
        have hlt : sizeOf child < sizeOf (Job.waiting schemas done key children rest) := by
          have := List.sizeOf_lt_of_mem hc
          simp only [Job.waiting.sizeOf_spec]
          omega
        exact ih _ (hsize ▸ hlt) ((at?_child hj k).trans hk) hopen rfl
    | _ => cases hd

/-- Where the limit is not below the turns to come, it is not reached. -/
theorem isDone_runUntil {limit : ℕ} (hs : w.Sound) (hl : w.turns ≤ limit) {job : Job}
    (hj : w.jobs[n]? = some job) :
    ∃ job, (w.runUntil version n limit).jobs[n]? = some job ∧ job.isDone = true := by
  induction limit generalizing w job with
  | zero =>
    refine ⟨job, hj, ?_⟩
    by_contra hd
    obtain ⟨s, tail, hq⟩ := List.exists_cons_of_ne_nil
      (queue_ne_nil (p := []) hs (by rw [at?, hj]; rfl) (Bool.eq_false_iff.2 hd))
    have hpos : 0 < s.turns := by cases s <;> exact Nat.zero_lt_succ _
    have := turns_eq_of_queue hq
    omega
  | succ limit ih =>
    unfold runUntil
    rw [hj, Option.map_some, Option.getD_some]
    cases hd : job.isDone with
    | true => exact ⟨job, hj, hd⟩
    | false =>
      obtain ⟨s, tail, hq⟩ := List.exists_cons_of_ne_nil
        (queue_ne_nil (p := []) hs (by rw [at?, hj]; rfl) hd)
      obtain ⟨hs', hless⟩ := hs.spent version hq
      have hlt : n < (w.step version).jobs.length := by
        rw [length_step]
        exact (List.getElem?_eq_some_iff.1 hj).1
      rw [if_neg Bool.false_ne_true]
      exact ih hs' (by omega) (List.getElem?_eq_getElem hlt)

/-- A single job that is to begin. -/
theorem sound_add (g : Gateway) (plan : Plan) : ((Work.ofGateway g).add plan).Sound := by
  have hjobs : ((Work.ofGateway g).add plan).jobs = [.planned plan] := rfl
  have hqueue : ((Work.ofGateway g).add plan).queue = [.act 0 [] .begin] := rfl
  have hmarks : ∀ n p, ¬ (n = 0 ∧ p = []) → ((Work.ofGateway g).add plan).marks (n :: p) = none := by
    intro n p hne
    show (([Job.planned plan][n]?).bind (Job.at? p)).map Job.mark = none
    cases n with
    | zero =>
      cases p with
      | nil => exact absurd ⟨rfl, rfl⟩ hne
      | cons k p => rfl
    | succ n => rfl
  refine ⟨fun n p => ?_, fun n p k hb => ?_⟩
  · rw [hqueue]
    by_cases hp : n = 0 ∧ p = []
    · obtain ⟨rfl, rfl⟩ := hp
      refine Marks.expects_of_planned rfl (fun s hs _ => List.mem_singleton.1 hs) ?_
      rw [List.count_singleton_self]
    · have hnone := hmarks n p hp
      refine Marks.expects_of_silent (fun s hs he => ?_) (by simp [hnone]) fun ⟨_, hw⟩ => ?_
      · cases List.mem_singleton.1 hs
        cases he
        exact hp ⟨rfl, rfl⟩
      · cases hnone.symm.trans hw
  · have hnone := hmarks n (p ++ [k]) fun h => List.append_ne_nil_of_right_ne_nil _ (by simp) h.2
    cases hnone.symm.trans hb

/-- **The job of a plan that is written comes to an outcome.** -/
theorem isDone_carryOut (g : Gateway) (version : String) (plan : Plan) :
    ∃ job, ((Work.ofGateway g).carryOut version plan).jobs[0]? = some job ∧ job.isDone = true := by
  refine isDone_runUntil (sound_add g plan) ?_ (show _ = some (Job.planned plan) from rfl)
  have hplan := plan.turns_lt
  have hturns : ((Work.ofGateway g).add plan).turns = 1 + (plan.turns + 0) := rfl
  have hsize : Job.sizeOfAll ((Work.ofGateway g).add plan).jobs = plan.size + 1 + 0 := rfl
  omega

end Work

end ContentGraph
