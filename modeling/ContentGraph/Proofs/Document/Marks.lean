import ContentGraph.Document.Work
import ContentGraph.Proofs.Document.Moves

/-!
# Where jobs stand

The mark of a job says where it stands, without what it builds. A move of the job at a place replaces
that job (`Job.MovedAt.setAt`), so that the marks at all places are known after it: at the place and
below it those of what the job becomes, and elsewhere what they were (`Job.markAt?_setAt`).
-/

namespace ContentGraph

/-- Where a job stands, and how many jobs were begun for it. -/
inductive Mark where
  /-- Not begun. -/
  | planned
  /-- Waiting for its children. -/
  | waiting (children : ℕ)
  /-- Built and not to be stored. -/
  | built
  /-- Stored. -/
  | stored
  /-- Given up. -/
  | failed (children : ℕ)

/-- A job with the mark has an outcome. -/
def Mark.Done : Mark → Prop
  | .planned => False
  | .waiting _ => False
  | _ => True

namespace Job

/-- The mark of a job. -/
def mark : Job → Mark
  | .planned _ => .planned
  | .waiting _ _ _ children _ => .waiting children.length
  | .built _ => .built
  | .stored _ _ => .stored
  | .failed _ children => .failed children.length

/-- The mark of the job at a place. -/
def markAt? (place : List ℕ) (job : Job) : Option Mark := (job.at? place).map mark

@[simp] theorem mark_withChild (job : Job) (n : ℕ) (child : Job) :
    (job.withChild n child).mark = job.mark := by
  cases job <;> simp [withChild, mark]

/-- A job whose document is completed has come to an outcome, and has no children. -/
theorem Finished.ended {d : Document} {g : Gateway} {stores : Bool} {r : Job × Gateway}
    (h : Finished d g stores r) :
    r.1.mark.Done ∧ r.1.children = [] ∧ (stores = true → r.1.mark ≠ .built) := by
  cases h with
  | built => exact ⟨trivial, rfl, fun h => by cases h⟩
  | stored _ => exact ⟨trivial, rfl, fun _ => Mark.noConfusion⟩
  | refused _ => exact ⟨trivial, rfl, fun _ => Mark.noConfusion⟩

theorem mark_eq_stored_iff {job : Job} : job.mark = .stored ↔ job.address?.isSome := by
  cases job <;> simp [mark, address?]

theorem mark_eq_failed_iff {job : Job} : (∃ n, job.mark = .failed n) ↔ job.fault?.isSome := by
  cases job <;> simp [mark, fault?]

/-! ### Places -/

theorem at?_append (p q : List ℕ) (job : Job) :
    job.at? (p ++ q) = (job.at? p).bind (at? q) := by
  induction p generalizing job with
  | nil => rfl
  | cons n p ih =>
    show job.children[n]?.bind (at? (p ++ q)) = (job.children[n]?.bind (at? p)).bind (at? q)
    rw [Option.bind_assoc]
    exact congrArg _ (funext fun child => ih child)

theorem at?_cons_eq_some_iff {n : ℕ} {p : List ℕ} {job below : Job} :
    job.at? (n :: p) = some below ↔ ∃ child, job.children[n]? = some child ∧
      child.at? p = some below :=
  Option.bind_eq_some_iff

/-- The job with the one at a place below it replaced. -/
def setAt : List ℕ → Job → Job → Job
  | [], new, _ => new
  | n :: place, new, job =>
    match job.children[n]? with
    | some child => job.withChild n (setAt place new child)
    | none => job

theorem setAt_cons {n : ℕ} {place : List ℕ} {new job child : Job}
    (h : job.children[n]? = some child) :
    setAt (n :: place) new job = job.withChild n (setAt place new child) := by
  simp only [setAt, h]

/-- At the place itself and below it stand the marks of what the job becomes. -/
theorem at?_setAt (new : Job) {place : List ℕ} {job old : Job} (h : job.at? place = some old)
    (q : List ℕ) : (setAt place new job).at? (place ++ q) = new.at? q := by
  induction place generalizing job with
  | nil => rfl
  | cons n place ih =>
    obtain ⟨child, hc, h⟩ := at?_cons_eq_some_iff.1 h
    have hlt : n < job.children.length := (List.getElem?_eq_some_iff.1 hc).1
    rw [setAt_cons hc, List.cons_append]
    show (job.withChild n _).children[n]?.bind _ = _
    rw [children_withChild, List.getElem?_set_self hlt, Option.bind_some, ih h]

/-- Elsewhere the marks are what they were. -/
theorem markAt?_setAt {place : List ℕ} {new job old : Job} (h : job.at? place = some old)
    {q : List ℕ} (hq : ¬ place <+: q) : (setAt place new job).markAt? q = job.markAt? q := by
  induction place generalizing job q with
  | nil => exact absurd (List.nil_prefix) hq
  | cons n place ih =>
    obtain ⟨child, hc, h⟩ := at?_cons_eq_some_iff.1 h
    have hlt : n < job.children.length := (List.getElem?_eq_some_iff.1 hc).1
    rw [setAt_cons hc]
    cases q with
    | nil => simp [markAt?, at?]
    | cons k q =>
      show ((job.withChild n _).children[k]?.bind (at? q)).map mark
        = (job.children[k]?.bind (at? q)).map mark
      rw [children_withChild]
      by_cases hk : n = k
      · subst hk
        rw [List.getElem?_set_self hlt, hc]
        exact ih h fun hp => hq (List.cons_prefix_cons.2 ⟨rfl, hp⟩)
      · rw [List.getElem?_set_ne hk]

variable {version : String} {g : Gateway}

/-- **A move at a place replaces the job there** by what becomes of it. -/
theorem MovedAt.setAt {m : Move} {place : List ℕ} {stores : Bool} {job old : Job}
    {d : Option Document} {r : Job × Gateway} (h : MovedAt version g m place stores job d r)
    (ho : job.at? place = some old) : ∃ d' new,
      Moved version (stores || !place.isEmpty) g m old d' (new, r.2) ∧
        r.1 = Job.setAt place new job := by
  induction h with
  | @here stores job d r hm =>
    cases ho
    refine ⟨d, r.1, ?_, rfl⟩
    rw [List.isEmpty_nil, Bool.not_true, Bool.or_false]
    exact hm
  | @deeper n place stores job child d r hc _ ih =>
    obtain ⟨other, hother, ho⟩ := at?_cons_eq_some_iff.1 ho
    cases hc.symm.trans hother
    obtain ⟨d', new, hm, hr⟩ := ih ho
    refine ⟨d', new, ?_, ?_⟩
    · simpa using hm
    · rw [setAt_cons hc, hr]
  | nowhere hc =>
    obtain ⟨other, hother, -⟩ := at?_cons_eq_some_iff.1 ho
    cases hc.symm.trans hother

end Job

end ContentGraph
