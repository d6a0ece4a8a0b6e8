import Mathlib.Data.List.Nodup
import ContentGraph.Proofs.Document.Marks

/-!
# What stands in the queue

The queue holds what the jobs need to go on, and nothing else (`Marks.Expects`): a job that is not
begun is to begin, once; a job that waits will hear of every child that was given up, or give up
itself; and when all its children are stored it will hear of one of them, or go on. A signal is taken
from the queue only when it is due, so that this is kept whatever becomes of the job
(`Marks.Orderly.ended`, `waits`, `gaveUp`, `idle` and `reported`).
-/

namespace ContentGraph

/-- The place of the job that a signal is for, its outermost job first. -/
def Signal.place : Signal → List ℕ
  | .act outermost place _ => outermost :: place
  | .report outermost place _ => outermost :: place

/-- Where all jobs stand. -/
abbrev Marks := List ℕ → Option Mark

namespace Marks

/-- The job at a place waits. -/
def Waits (marks : Marks) (p : List ℕ) : Prop := ∃ c, marks p = some (.waiting c)

/-- The job at a place was given up. -/
def Fails (marks : Marks) (p : List ℕ) : Prop := ∃ c, marks p = some (.failed c)

/-- The job at a place has an outcome. -/
def Ends (marks : Marks) (p : List ℕ) : Prop := ∃ m, marks p = some m ∧ m.Done

/-- The job at a place waits, and all its children are stored. -/
def AllStored (marks : Marks) (p : List ℕ) : Prop :=
  ∃ c, marks p = some (.waiting c) ∧ ∀ k < c, marks (p ++ [k]) = some .stored

/-- A job that waits has no more children than it says. -/
def Bounded (marks : Marks) : Prop :=
  ∀ p c k, marks p = some (.waiting c) → marks (p ++ [k]) ≠ none → k < c

/-- What the queue holds for the job at a place. -/
structure Expects (marks : Marks) (queue : List Signal) (n : ℕ) (p : List ℕ) : Prop where
  /-- It is to begin if and only if it has not begun. -/
  begins : .act n p .begin ∈ queue ↔ marks (n :: p) = some .planned
  /-- It goes on only when all its children are stored. -/
  resumes : .act n p .resume ∈ queue → marks.AllStored (n :: p)
  /-- It goes on only when it has heard of all its children. -/
  silent : .act n p .resume ∈ queue → ∀ k, .report n p k ∉ queue
  /-- It gives up only because of a child, or has done so. -/
  abandons : ∀ k, .act n p (.abandon k) ∈ queue →
    marks.Waits (n :: p) ∧ marks.Fails (n :: p ++ [k]) ∨ marks.Fails (n :: p)
  /-- It hears only of children with an outcome. -/
  reports : ∀ k, .report n p k ∈ queue → marks.Ends (n :: p ++ [k])
  /-- It begins and goes on once. -/
  once : ∀ m, m = .begin ∨ m = .resume → queue.count (.act n p m) ≤ 1
  /-- It hears of a child that was given up, or gives up. -/
  failedHeard : ∀ k, marks.Waits (n :: p) → marks.Fails (n :: p ++ [k]) →
    .report n p k ∈ queue ∨ ∃ j, .act n p (.abandon j) ∈ queue
  /-- It hears of a child when all are stored, or goes on. -/
  storedHeard : marks.AllStored (n :: p) →
    (∃ k, .report n p k ∈ queue) ∨ .act n p .resume ∈ queue

/-- What the queue holds is what every job needs. -/
def Orderly (marks : Marks) (queue : List Signal) : Prop := ∀ n p, marks.Expects queue n p

variable {marks marks' : Marks} {queue queue' tail : List Signal} {n : ℕ} {p : List ℕ}

/-- A job has the same outcome, if any. -/
def Agree (marks marks' : Marks) (p : List ℕ) : Prop :=
  ∀ m : Mark, m.Done → (marks' p = some m ↔ marks p = some m)

theorem agree_of_eq (h : marks' p = marks p) : marks.Agree marks' p := fun _ _ => by rw [h]

theorem agree_of_open (h : ¬ marks.Ends p) (h' : ¬ marks'.Ends p) : marks.Agree marks' p :=
  fun m hm => ⟨fun he => absurd ⟨m, he, hm⟩ h', fun he => absurd ⟨m, he, hm⟩ h⟩

theorem Agree.fails (h : marks.Agree marks' p) : marks'.Fails p ↔ marks.Fails p :=
  exists_congr fun _ => h _ trivial

theorem Agree.ends (h : marks.Agree marks' p) : marks'.Ends p ↔ marks.Ends p :=
  exists_congr fun m => ⟨fun ⟨he, hm⟩ => ⟨(h m hm).1 he, hm⟩, fun ⟨he, hm⟩ => ⟨(h m hm).2 he, hm⟩⟩

theorem allStored_congr (hm : marks' p = marks p) (hc : ∀ k, marks.Agree marks' (p ++ [k])) :
    marks'.AllStored p ↔ marks.AllStored p := by
  unfold AllStored
  rw [hm]
  exact exists_congr fun c => and_congr_right fun _ => forall₂_congr fun k _ => hc k _ trivial

/-- What the queue holds for a job depends on its mark, the outcomes of its children, and the signals
for it. -/
theorem Expects.congr (h : marks.Expects queue n p) (hm : marks' (n :: p) = marks (n :: p))
    (hc : ∀ k, marks.Agree marks' (n :: p ++ [k]))
    (hq : ∀ s : Signal, s.place = n :: p → queue'.count s = queue.count s) :
    marks'.Expects queue' n p := by
  have hmem : ∀ s : Signal, s.place = n :: p → (s ∈ queue' ↔ s ∈ queue) := fun s hs => by
    rw [← List.count_pos_iff, ← List.count_pos_iff, hq s hs]
  have hact : ∀ m, (.act n p m ∈ queue' ↔ .act n p m ∈ queue) := fun m => hmem _ rfl
  have hreport : ∀ k, (.report n p k ∈ queue' ↔ .report n p k ∈ queue) := fun k => hmem _ rfl
  have hwaits : marks'.Waits (n :: p) ↔ marks.Waits (n :: p) := by rw [Waits, Waits, hm]
  constructor
  case begins => rw [hact, hm, h.begins]
  case resumes => exact fun hr => (allStored_congr hm hc).2 (h.resumes ((hact _).1 hr))
  case silent => exact fun hr k hk => h.silent ((hact _).1 hr) k ((hreport k).1 hk)
  case abandons =>
    intro k hk
    have hfails : marks'.Fails (n :: p) ↔ marks.Fails (n :: p) := by rw [Fails, Fails, hm]
    rw [hwaits, (hc k).fails, hfails]
    exact h.abandons k ((hact _).1 hk)
  case reports => exact fun k hk => (hc k).ends.2 (h.reports k ((hreport k).1 hk))
  case once =>
    intro m hm'
    rw [hq _ rfl]
    exact h.once m hm'
  case failedHeard =>
    intro k hw hf
    rw [hwaits] at hw
    rw [(hc k).fails] at hf
    exact (h.failedHeard k hw hf).imp (hreport k).2 fun ⟨j, hj⟩ => ⟨j, (hact _).2 hj⟩
  case storedHeard =>
    intro hs
    rw [allStored_congr hm hc] at hs
    exact (h.storedHeard hs).imp (fun ⟨k, hk⟩ => ⟨k, (hreport k).2 hk⟩) (hact _).2

/-- What is expected of a job that the signal taken and the new ones are not for. -/
theorem Expects.aside {s : Signal} {new : List Signal} (h : marks.Expects (s :: tail) n p)
    (hs : s.place ≠ n :: p) (hnew : ∀ s ∈ new, s.place ≠ n :: p)
    (hm : marks' (n :: p) = marks (n :: p)) (hc : ∀ k, marks.Agree marks' (n :: p ++ [k])) :
    marks'.Expects (tail ++ new) n p := by
  refine h.congr hm hc fun s' hs' => ?_
  have hno : s' ∉ new := fun hmem => hnew s' hmem hs'
  have hhead : s ≠ s' := by
    rintro rfl
    exact hs hs'
  rw [List.count_append, List.count_eq_zero_of_not_mem hno, Nat.add_zero,
    List.count_cons_of_ne hhead]

/-- A job for which there are no signals. -/
theorem expects_of_silent (hq : ∀ s ∈ queue, s.place ≠ n :: p)
    (hp : marks (n :: p) ≠ some .planned)
    (hw : marks.Waits (n :: p) → ¬ marks.AllStored (n :: p) ∧ ∀ k, ¬ marks.Fails (n :: p ++ [k])) :
    marks.Expects queue n p where
  begins := ⟨fun h => absurd rfl (hq _ h), fun h => absurd h hp⟩
  resumes h := absurd rfl (hq _ h)
  silent h := absurd rfl (hq _ h)
  abandons _ h := absurd rfl (hq _ h)
  reports _ h := absurd rfl (hq _ h)
  once m _ := by
    have hno : .act n p m ∉ queue := fun h => absurd rfl (hq _ h)
    rw [List.count_eq_zero_of_not_mem hno]
    exact Nat.zero_le 1
  failedHeard k hwaits hf := absurd hf ((hw hwaits).2 k)
  storedHeard hs := absurd hs (hw ⟨hs.choose, hs.choose_spec.1⟩).1

/-- A job that was given up. -/
theorem expects_of_failed (hf : marks.Fails (n :: p)) (hb : .act n p .begin ∉ queue)
    (hr : .act n p .resume ∉ queue)
    (hreports : ∀ k, .report n p k ∈ queue → marks.Ends (n :: p ++ [k])) :
    marks.Expects queue n p := by
  have hne : ∀ {m}, marks (n :: p) = some m → ∃ c, m = .failed c := by
    intro m hm
    obtain ⟨c, hf⟩ := hf
    exact ⟨c, Option.some.inj (hm.symm.trans hf)⟩
  constructor
  case begins => exact ⟨fun h => absurd h hb, fun h => by cases (hne h).choose_spec⟩
  case resumes => exact fun h => absurd h hr
  case silent => exact fun h => absurd h hr
  case abandons => exact fun _ _ => .inr hf
  case reports => exact hreports
  case once =>
    rintro m (rfl | rfl)
    · rw [List.count_eq_zero_of_not_mem hb]
      exact Nat.zero_le 1
    · rw [List.count_eq_zero_of_not_mem hr]
      exact Nat.zero_le 1
  case failedHeard =>
    rintro k ⟨_, hw⟩
    cases (hne hw).choose_spec
  case storedHeard =>
    rintro ⟨_, hw, -⟩
    cases (hne hw).choose_spec

/-- A job that is to begin. -/
theorem expects_of_planned (hp : marks (n :: p) = some .planned)
    (hq : ∀ s ∈ queue, s.place = n :: p → s = .act n p .begin)
    (hb : queue.count (.act n p .begin) = 1) : marks.Expects queue n p := by
  have hne : ∀ {s : Signal}, s.place = n :: p → s ≠ .act n p .begin → s ∉ queue :=
    fun hs hn hm => hn (hq _ hm hs)
  have hresume : .act n p .resume ∉ queue := hne rfl (by simp)
  constructor
  case begins => exact ⟨fun _ => hp, fun _ => List.count_pos_iff.1 (by omega)⟩
  case resumes => exact fun h => absurd h hresume
  case silent => exact fun h => absurd h hresume
  case abandons => exact fun k h => absurd h (hne rfl (by simp))
  case reports => exact fun k h => absurd h (hne rfl (by simp))
  case once =>
    rintro m (rfl | rfl)
    · exact Nat.le_of_eq hb
    · rw [List.count_eq_zero_of_not_mem hresume]
      exact Nat.zero_le 1
  case failedHeard =>
    rintro k ⟨_, hw⟩
    cases hp.symm.trans hw
  case storedHeard =>
    rintro ⟨_, hw, -⟩
    cases hp.symm.trans hw

/-- A job is ready to begin, or to go on after its children. -/
def Due (marks : Marks) (p : List ℕ) (m : Move) : Prop :=
  m = .begin ∧ marks p = some .planned ∧ (∀ k, marks (p ++ [k]) = none) ∨
    m = .resume ∧ marks.AllStored p

theorem AllStored.not_fails (hb : marks.Bounded) (h : marks.AllStored p) (k : ℕ) :
    ¬ marks.Fails (p ++ [k]) := by
  rintro ⟨c', hf⟩
  obtain ⟨c, hw, hs⟩ := h
  have hk : k < c := hb p c k hw (by simp [hf])
  cases (hs k hk).symm.trans hf

/-- When a job begins or goes on, no other signal is for it. -/
theorem Expects.only {m : Move} (h : marks.Expects (.act n p m :: tail) n p) (hb : marks.Bounded)
    (hd : marks.Due (n :: p) m) : ∀ s ∈ tail, s.place ≠ n :: p := by
  have honce : .act n p m ∉ tail := by
    have hc := h.once m (hd.imp And.left And.left)
    rw [List.count_cons_self] at hc
    exact List.count_eq_zero.1 (by omega)
  have hin : ∀ {s}, s ∈ tail → s ∈ Signal.act n p m :: tail := List.mem_cons_of_mem _
  have hstatus : ¬ marks.Fails (n :: p) ∧ ∀ k, marks.Waits (n :: p) → ¬ marks.Fails (n :: p ++ [k]) := by
    rcases hd with ⟨-, hp, -⟩ | ⟨-, hs⟩
    · refine ⟨fun ⟨_, hf⟩ => ?_, fun _ ⟨_, hw⟩ => ?_⟩
      · cases hp.symm.trans hf
      · cases hp.symm.trans hw
    · refine ⟨fun ⟨_, hf⟩ => ?_, fun k _ => hs.not_fails hb k⟩
      obtain ⟨_, hw, -⟩ := hs
      cases hw.symm.trans hf
  intro s hs hplace
  cases s with
  | act n' p' m' =>
    cases hplace
    cases m' with
    | begin =>
      have hp := h.begins.1 (hin hs)
      rcases hd with ⟨rfl, -⟩ | ⟨-, _, hw, -⟩
      · exact honce hs
      · cases hp.symm.trans hw
    | resume =>
      obtain ⟨_, hw, -⟩ := h.resumes (hin hs)
      rcases hd with ⟨-, hp, -⟩ | ⟨rfl, -⟩
      · cases hp.symm.trans hw
      · exact honce hs
    | abandon k =>
      rcases h.abandons k (hin hs) with ⟨hw, hf⟩ | hf
      · exact hstatus.2 k hw hf
      · exact hstatus.1 hf
  | report n' p' k =>
    cases hplace
    rcases hd with ⟨-, -, hnone⟩ | ⟨rfl, -⟩
    · obtain ⟨_, hm, -⟩ := h.reports k (hin hs)
      cases (hnone k).symm.trans hm
    · exact h.silent List.mem_cons_self k (hin hs)

/-- A job that hears of a child. -/
theorem Expects.heard {s : Signal} {k : ℕ} (h : marks.Expects (s :: tail) n p) (hb : marks.Bounded)
    (hs : s.place ≠ n :: p) (hchild : marks (n :: p ++ [k]) ≠ none)
    (hopen : ¬ marks.Ends (n :: p ++ [k])) (hends : marks'.Ends (n :: p ++ [k]))
    (hm : marks' (n :: p) = marks (n :: p))
    (hc : ∀ j ≠ k, marks' (n :: p ++ [j]) = marks (n :: p ++ [j])) :
    marks'.Expects (tail ++ [.report n p k]) n p := by
  have hact : ∀ m, (.act n p m ∈ tail ++ [.report n p k] ↔ .act n p m ∈ s :: tail) := by
    intro m
    have hne : Signal.act n p m ≠ s := fun he => hs (he ▸ rfl)
    simp [hne]
  have hreport : ∀ {j}, .report n p j ∈ s :: tail → .report n p j ∈ tail := by
    intro j hj
    rcases List.mem_cons.1 hj with rfl | hj
    · exact absurd rfl hs
    · exact hj
  have hother : ∀ {j}, marks.Ends (n :: p ++ [j]) → j ≠ k := fun he hj => hopen (hj ▸ he)
  have hfails : ∀ {j}, marks.Fails (n :: p ++ [j]) → marks.Ends (n :: p ++ [j]) :=
    fun ⟨c, hf⟩ => ⟨_, hf, trivial⟩
  have hnot : ¬ marks.AllStored (n :: p) := by
    rintro ⟨c, hw, hst⟩
    exact hopen ⟨_, hst k (hb _ c k hw hchild), trivial⟩
  constructor
  case begins => rw [hact, hm, h.begins]
  case resumes => exact fun hr => absurd (h.resumes ((hact _).1 hr)) hnot
  case silent => exact fun hr => absurd (h.resumes ((hact _).1 hr)) hnot
  case abandons =>
    intro j hj
    unfold Waits Fails
    rcases h.abandons j ((hact _).1 hj) with ⟨hw, hf⟩ | hf
    · rw [hm, hc j (hother (hfails hf))]
      exact .inl ⟨hw, hf⟩
    · rw [hm]
      exact .inr hf
  case reports =>
    intro j hj
    rcases List.mem_append.1 hj with hj | hj
    · have he := h.reports j (List.mem_cons_of_mem _ hj)
      unfold Ends
      rw [hc j (hother he)]
      exact he
    · cases List.mem_singleton.1 hj
      exact hends
  case once =>
    intro m hm'
    have hcount := h.once m hm'
    have hno : Signal.act n p m ∉ [Signal.report n p k] := by simp
    rw [List.count_cons] at hcount
    rw [List.count_append, List.count_eq_zero_of_not_mem hno]
    omega
  case failedHeard =>
    intro j hw hf
    by_cases hj : j = k
    · subst hj
      exact .inl (by simp)
    · unfold Waits at hw
      unfold Fails at hf
      rw [hm] at hw
      rw [hc j hj] at hf
      rcases h.failedHeard j hw hf with hr | ⟨i, hi⟩
      · exact .inl (List.mem_append_left _ (hreport hr))
      · exact .inr ⟨i, (hact _).2 hi⟩
  case storedHeard => exact fun _ => .inl ⟨k, by simp⟩

/-- A job that has no children and needs nothing. -/
theorem Expects.silent_of_leaf (h : marks.Expects queue n p)
    (hm : marks (n :: p) = none ∨ marks (n :: p) = some .stored)
    (hc : ∀ k, marks (n :: p ++ [k]) = none) : ∀ s ∈ queue, s.place ≠ n :: p := by
  have hne : ∀ {m}, marks (n :: p) = some m → m = .stored := by
    intro m hp
    rcases hm with hm | hm
    · cases hm.symm.trans hp
    · exact (Option.some.inj (hm.symm.trans hp)).symm
  intro s hs hplace
  cases s with
  | act n' p' m =>
    cases hplace
    cases m with
    | begin => cases hne (h.begins.1 hs)
    | resume =>
      obtain ⟨_, hw, -⟩ := h.resumes hs
      cases hne hw
    | abandon k =>
      rcases h.abandons k hs with ⟨⟨_, hw⟩, -⟩ | ⟨_, hf⟩
      · cases hne hw
      · cases hne hf
  | report n' p' k =>
    cases hplace
    obtain ⟨_, hk, -⟩ := h.reports k hs
    cases (hc k).symm.trans hk

/-! ### One signal is taken -/

/-- The report of a job with an outcome to the one it was begun for. -/
def reportOf (n : ℕ) (p : List ℕ) : List Signal :=
  match Work.parent? p with
  | some (above, child) => [.report n above child]
  | none => []

@[simp] theorem reportOf_nil (n : ℕ) : reportOf n [] = [] := rfl

@[simp] theorem reportOf_append (n : ℕ) (p : List ℕ) (k : ℕ) :
    reportOf n (p ++ [k]) = [.report n p k] := by
  simp [reportOf, Work.parent?]

theorem place_of_mem_reportOf {s : Signal} (h : s ∈ reportOf n p) : ∃ k, n :: p = s.place ++ [k] := by
  rcases List.eq_nil_or_concat p with rfl | ⟨above, k, rfl⟩
  · cases h
  · rw [List.concat_eq_append, reportOf_append, List.mem_singleton] at h
    subst h
    exact ⟨k, by rw [List.concat_eq_append]; rfl⟩

/-- A job changes at a place: elsewhere, apart from its children, the marks are what they were. -/
def SameBut (marks marks' : Marks) (p : List ℕ) : Prop :=
  ∀ q, q ≠ p → (∀ k, q ≠ p ++ [k]) → marks' q = marks q

variable {m : Move} {new : List Signal}

theorem ne_append_cons (q : List ℕ) (k : ℕ) (r : List ℕ) : q ≠ q ++ k :: r := by
  intro he
  have := congrArg List.length he
  rw [List.length_append, List.length_cons] at this
  omega

/-- What is expected away from the place of a move. -/
theorem Orderly.elsewhere (h : marks.Orderly (.act n p m :: tail))
    (hsame : marks.SameBut marks' (n :: p)) {n' : ℕ} {q : List ℕ} (hp : n' :: q ≠ n :: p)
    (hc : ∀ k, n' :: q ≠ n :: p ++ [k])
    (ha : ∀ k, n :: p = n' :: q ++ [k] → marks.Agree marks' (n :: p))
    (hnew : ∀ s ∈ new, s.place ≠ n' :: q) : marks'.Expects (tail ++ new) n' q := by
  refine (h n' q).aside (Ne.symm hp) hnew (hsame _ hp hc) fun k => ?_
  by_cases hk : n' :: q ++ [k] = n :: p
  · rw [hk]
    exact ha k hk.symm
  · exact agree_of_eq (hsame _ hk fun j he => hp (List.append_inj_left' he rfl))

/-- What is expected where a job reports its outcome. -/
theorem Orderly.above {k : ℕ} (h : marks.Orderly (.act n (p ++ [k]) m :: tail)) (hb : marks.Bounded)
    (hsome : marks (n :: p ++ [k]) ≠ none) (hopen : ¬ marks.Ends (n :: p ++ [k]))
    (hends : marks'.Ends (n :: p ++ [k])) (hsame : marks.SameBut marks' (n :: p ++ [k])) :
    marks'.Expects (tail ++ [.report n p k]) n p := by
  refine (h n p).heard hb (fun he => ne_append_cons (n :: p) k [] he.symm) hsome hopen hends
    (hsame _ (ne_append_cons _ _ _) fun j => ?_) fun j hj => hsame _ (fun he => ?_) fun i he => ?_
  · rw [List.append_assoc]
    exact ne_append_cons _ _ _
  · cases List.append_cancel_left he
    exact hj rfl
  · have := congrArg List.length he
    simp at this

theorem Due.open_ (hd : marks.Due p m) : marks p ≠ none ∧ ¬ marks.Ends p := by
  rcases hd with ⟨-, hp, -⟩ | ⟨-, _, hp, -⟩
  all_goals
    refine ⟨by simp [hp], fun ⟨mark, hm, hdone⟩ => ?_⟩
    cases hp.symm.trans hm
    exact hdone

theorem Due.child (hb : marks.Bounded) (hd : marks.Due p m) (k : ℕ) :
    marks (p ++ [k]) = none ∨ marks (p ++ [k]) = some .stored := by
  rcases hd with ⟨-, -, hc⟩ | ⟨-, c, hw, hs⟩
  · exact .inl (hc k)
  · cases hk : marks (p ++ [k]) with
    | none => exact .inl rfl
    | some mark =>
      refine .inr ?_
      rw [← hk]
      exact hs k (hb p c k hw (by simp [hk]))

/-- The children of a job that begins or goes on need nothing. -/
theorem Orderly.silent_child (h : marks.Orderly (.act n p m :: tail)) (hb : marks.Bounded)
    (hd : marks.Due (n :: p) m) (hdeep : ∀ k j, marks (n :: p ++ [k] ++ [j]) = none) (k : ℕ) :
    ∀ s ∈ tail, s.place ≠ n :: p ++ [k] := fun s hs =>
  (h n (p ++ [k])).silent_of_leaf (hd.child hb k) (hdeep k) s (List.mem_cons_of_mem _ hs)

/-- A job with an outcome, for which there are no signals. -/
theorem expects_of_ended (hq : ∀ s ∈ queue, s.place ≠ n :: p) (hends : marks.Ends (n :: p)) :
    marks.Expects queue n p := by
  obtain ⟨mark, hmark, hdone⟩ := hends
  refine expects_of_silent hq (fun he => ?_) fun ⟨_, he⟩ => ?_
  · cases hmark.symm.trans he
    exact hdone
  · cases hmark.symm.trans he
    exact hdone.elim

/-- A place without a job, for which there are no signals. -/
theorem expects_of_none (hq : ∀ s ∈ queue, s.place ≠ n :: p) (hnone : marks (n :: p) = none) :
    marks.Expects queue n p := by
  refine expects_of_silent hq (fun he => ?_) fun ⟨_, he⟩ => ?_
  · cases hnone.symm.trans he
  · cases hnone.symm.trans he

/-- **A job comes to an outcome**, and reports it. -/
theorem Orderly.ended (h : marks.Orderly (.act n p m :: tail)) (hb : marks.Bounded)
    (hd : marks.Due (n :: p) m) (hdeep : ∀ k j, marks (n :: p ++ [k] ++ [j]) = none)
    (hends : marks'.Ends (n :: p)) (hgone : ∀ k, marks' (n :: p ++ [k]) = none)
    (hsame : marks.SameBut marks' (n :: p)) : marks'.Orderly (tail ++ reportOf n p) := by
  intro n' q
  by_cases hp : n' :: q = n :: p
  · cases hp
    refine expects_of_ended (fun s hs he => ?_) hends
    rcases List.mem_append.1 hs with hs | hs
    · exact (h n p).only hb hd s hs he
    · obtain ⟨k, hk⟩ := place_of_mem_reportOf hs
      rw [he] at hk
      exact ne_append_cons _ _ _ hk
  by_cases hc : ∃ k, n' :: q = n :: p ++ [k]
  · obtain ⟨k, hk⟩ := hc
    obtain ⟨rfl, rfl⟩ : n' = n ∧ q = p ++ [k] := List.cons.inj hk
    refine expects_of_none (fun s hs he => ?_) (hgone k)
    rcases List.mem_append.1 hs with hs | hs
    · exact h.silent_child hb hd hdeep k s hs he
    · obtain ⟨j, hj⟩ := place_of_mem_reportOf hs
      rw [he, hk, List.append_assoc] at hj
      exact ne_append_cons _ _ _ hj
  by_cases ha : ∃ k, n :: p = n' :: q ++ [k]
  · obtain ⟨k, hk⟩ := ha
    obtain ⟨rfl, rfl⟩ : n = n' ∧ p = q ++ [k] := List.cons.inj hk
    rw [reportOf_append]
    exact h.above hb hd.open_.1 hd.open_.2 hends hsame
  · refine h.elsewhere hsame hp (fun k hk => hc ⟨k, hk⟩) (fun k hk => absurd ⟨k, hk⟩ ha) ?_
    intro s hs he
    obtain ⟨k, hk⟩ := place_of_mem_reportOf hs
    exact ha ⟨k, by rw [hk, he]⟩

/-- **A job gives up** while its children stay, and reports it. -/
theorem Orderly.gaveUp {c : ℕ} (h : marks.Orderly (.act n p m :: tail)) (hb : marks.Bounded)
    (hm : m = .resume ∨ ∃ k, m = .abandon k) (hw : marks (n :: p) = some (.waiting c))
    (hf : marks' (n :: p) = some (.failed c)) (hsame : ∀ q, q ≠ n :: p → marks' q = marks q) :
    marks'.Orderly (tail ++ reportOf n p) := by
  have hopen : ¬ marks.Ends (n :: p) := by
    rintro ⟨mark, hmark, hdone⟩
    cases hw.symm.trans hmark
    exact hdone
  have hnew : ∀ s ∈ reportOf n p, ∃ k, n :: p = s.place ++ [k] :=
    fun s hs => place_of_mem_reportOf hs
  intro n' q
  by_cases hp : n' :: q = n :: p
  · obtain ⟨rfl, rfl⟩ := List.cons.inj hp
    have hin : ∀ {s}, s ∈ tail ++ reportOf n' q → s.place = n' :: q → s ∈ tail := by
      intro s hs he
      rcases List.mem_append.1 hs with hs | hs
      · exact hs
      · obtain ⟨k, hk⟩ := hnew s hs
        rw [he] at hk
        exact absurd hk (ne_append_cons _ _ _)
    refine expects_of_failed ⟨c, hf⟩ (fun hs => ?_) (fun hs => ?_) fun k hs => ?_
    · cases hw.symm.trans ((h n' q).begins.1 (List.mem_cons_of_mem _ (hin hs rfl)))
    · have hs := hin hs rfl
      rcases hm with rfl | ⟨k, rfl⟩
      · have hcount := (h n' q).once .resume (.inr rfl)
        rw [List.count_cons_self] at hcount
        exact absurd hs (List.count_eq_zero.1 (by omega))
      · have hall := (h n' q).resumes (List.mem_cons_of_mem _ hs)
        rcases (h n' q).abandons k List.mem_cons_self with ⟨-, hk⟩ | ⟨_, hk⟩
        · exact hall.not_fails hb k hk
        · cases hw.symm.trans hk
    · have hends := (h n' q).reports k (List.mem_cons_of_mem _ (hin hs rfl))
      exact (agree_of_eq (hsame _ fun he => ne_append_cons _ _ _ he.symm)).ends.2 hends
  by_cases ha : ∃ k, n :: p = n' :: q ++ [k]
  · obtain ⟨k, hk⟩ := ha
    obtain ⟨rfl, rfl⟩ : n = n' ∧ p = q ++ [k] := List.cons.inj hk
    rw [reportOf_append]
    exact h.above hb (by rw [← hk, hw]; exact Option.some_ne_none _) (hk ▸ hopen)
      ⟨_, hf, trivial⟩ fun q hq _ => hsame q hq
  · refine (h n' q).aside (Ne.symm hp) (fun s hs he => ?_) (hsame _ hp) fun k => ?_
    · obtain ⟨k, hk⟩ := hnew s hs
      exact ha ⟨k, by rw [hk, he]⟩
    · exact agree_of_eq (hsame _ fun he => ha ⟨k, he.symm⟩)

/-- **A job that was given up hears of another child that was.** -/
theorem Orderly.idle {k : ℕ} (h : marks.Orderly (.act n p (.abandon k) :: tail))
    (hf : marks.Fails (n :: p)) : marks.Orderly tail := by
  intro n' q
  by_cases hp : n' :: q = n :: p
  · obtain ⟨rfl, rfl⟩ := List.cons.inj hp
    have hin : ∀ {s}, s ∈ tail → s ∈ Signal.act n' q (.abandon k) :: tail := List.mem_cons_of_mem _
    obtain ⟨c, hc⟩ := id hf
    refine expects_of_failed hf (fun hs => ?_) (fun hs => ?_) fun k hs => (h n' q).reports k (hin hs)
    · cases hc.symm.trans ((h n' q).begins.1 (hin hs))
    · obtain ⟨_, hw, -⟩ := (h n' q).resumes (hin hs)
      cases hc.symm.trans hw
  · rw [← List.append_nil tail]
    exact (h n' q).aside (Ne.symm hp) (fun _ hs => absurd hs List.not_mem_nil) rfl
      fun _ => agree_of_eq rfl

/-- The signals that begin the children of a job. -/
theorem mem_begins {s : Signal} {c : ℕ} :
    s ∈ ((List.range c).map fun k => Signal.act n (p ++ [k]) .begin) ↔
      ∃ k < c, s = .act n (p ++ [k]) .begin := by
  rw [List.mem_map]
  exact exists_congr fun k => and_congr List.mem_range eq_comm

theorem count_begins {c k : ℕ} (hk : k < c) :
    ((List.range c).map fun k => Signal.act n (p ++ [k]) .begin).count
      (.act n (p ++ [k]) .begin) = 1 := by
  have hinj : Function.Injective fun k => Signal.act n (p ++ [k]) .begin := by
    intro i j he
    simpa using he
  exact List.count_eq_one_of_mem (List.nodup_range.map hinj) (mem_begins.2 ⟨k, hk, rfl⟩)

/-- A job that waits for its children to begin. -/
theorem expects_of_waiting {c : ℕ} (hq : ∀ s ∈ queue, s.place ≠ n :: p) (hc : 0 < c)
    (hw : marks (n :: p) = some (.waiting c))
    (hchild : ∀ k, marks (n :: p ++ [k]) = if k < c then some .planned else none) :
    marks.Expects queue n p := by
  refine expects_of_silent hq (by simp [hw]) fun _ => ⟨?_, ?_⟩
  · rintro ⟨c', hw', hs⟩
    cases hw.symm.trans hw'
    have hzero := hs 0 hc
    rw [hchild, if_pos hc] at hzero
    cases hzero
  · rintro k ⟨_, hf⟩
    rw [hchild] at hf
    split at hf <;> cases hf

/-- A child is to begin if it is one of the children that a job waits for. -/
theorem expects_of_begins {c k : ℕ} (hq : ∀ s ∈ tail, s.place ≠ n :: p ++ [k])
    (hm : marks (n :: p ++ [k]) = if k < c then some .planned else none) :
    marks.Expects (tail ++ (List.range c).map fun k => .act n (p ++ [k]) .begin) n (p ++ [k]) := by
  -- a signal for the child begins it, and so it is one that the job waits for
  have honly : ∀ s ∈ tail ++ (List.range c).map fun k => Signal.act n (p ++ [k]) .begin,
      s.place = n :: p ++ [k] → k < c ∧ s = .act n (p ++ [k]) .begin := by
    intro s hs he
    rcases List.mem_append.1 hs with hs | hs
    · exact absurd he (hq s hs)
    · obtain ⟨j, hj, rfl⟩ := mem_begins.1 hs
      obtain rfl : j = k := by simpa [Signal.place] using he
      exact ⟨hj, rfl⟩
  by_cases hk : k < c
  · refine expects_of_planned (hm.trans (if_pos hk)) (fun s hs he => (honly s hs he).2) ?_
    have hno : Signal.act n (p ++ [k]) .begin ∉ tail := fun hs => hq _ hs rfl
    rw [List.count_append, List.count_eq_zero_of_not_mem hno, Nat.zero_add, count_begins hk]
  · exact expects_of_none (fun s hs he => hk (honly s hs he).1) (hm.trans (if_neg hk))

/-- **A job waits again**, and its new children are to begin. -/
theorem Orderly.waits {c : ℕ} (h : marks.Orderly (.act n p m :: tail)) (hb : marks.Bounded)
    (hd : marks.Due (n :: p) m) (hdeep : ∀ k j, marks (n :: p ++ [k] ++ [j]) = none) (hc : 0 < c)
    (hw : marks' (n :: p) = some (.waiting c))
    (hchild : ∀ k, marks' (n :: p ++ [k]) = if k < c then some .planned else none)
    (hsame : marks.SameBut marks' (n :: p)) :
    marks'.Orderly (tail ++ (List.range c).map fun k => .act n (p ++ [k]) .begin) := by
  intro n' q
  by_cases hp : n' :: q = n :: p
  · obtain ⟨rfl, rfl⟩ := List.cons.inj hp
    refine expects_of_waiting (fun s hs he => ?_) hc hw hchild
    rcases List.mem_append.1 hs with hs | hs
    · exact (h n' q).only hb hd s hs he
    · obtain ⟨k, -, rfl⟩ := mem_begins.1 hs
      exact ne_append_cons (n' :: q) k [] he.symm
  by_cases hq : ∃ k, n' :: q = n :: p ++ [k]
  · obtain ⟨k, hk⟩ := hq
    obtain ⟨rfl, rfl⟩ : n' = n ∧ q = p ++ [k] := List.cons.inj hk
    exact expects_of_begins (h.silent_child hb hd hdeep k) (hchild k)
  · refine h.elsewhere hsame hp (fun k hk => hq ⟨k, hk⟩) (fun k _ => ?_) fun s hs he => ?_
    · refine agree_of_open hd.open_.2 ?_
      rintro ⟨mark, hmark, hdone⟩
      cases hw.symm.trans hmark
      exact hdone
    · obtain ⟨k, -, rfl⟩ := mem_begins.1 hs
      exact hq ⟨k, he.symm⟩

/-- What follows from a report: the first failure is passed on, and the last report lets the job go
on. -/
inductive Follows (marks : Marks) (tail : List Signal) (n : ℕ) (p : List ℕ) (k : ℕ) :
    List Signal → Prop
  /-- The child was given up. -/
  | abandon : marks.Waits (n :: p) → marks.Fails (n :: p ++ [k]) →
      Follows marks tail n p k [.act n p (.abandon k)]
  /-- All children are stored, and there are no more reports. -/
  | resume : marks.AllStored (n :: p) → (∀ j, .report n p j ∉ tail) →
      Follows marks tail n p k [.act n p .resume]
  /-- There is more to hear. -/
  | nothing : (marks.Waits (n :: p) → ¬ marks.Fails (n :: p ++ [k])) →
      (marks.AllStored (n :: p) → ∃ j, .report n p j ∈ tail) → Follows marks tail n p k []

/-- What is expected of the job that hears of a child. -/
theorem Expects.reported {k : ℕ} (h : marks.Expects (.report n p k :: tail) n p) (hb : marks.Bounded)
    (hnew : marks.Follows tail n p k new) : marks.Expects (tail ++ new) n p := by
  obtain ⟨hbegins, hresumes, hsilent, habandons, hreports, honce, hfailed, hstored⟩ := h
  have hin : ∀ {s}, s ∈ tail → s ∈ Signal.report n p k :: tail := List.mem_cons_of_mem _
  -- the job was not about to go on, since there was a report
  have hresume : .act n p .resume ∉ tail := fun hr => hsilent (hin hr) k List.mem_cons_self
  have hnoreport : ∀ j, .report n p j ∉ new := by
    intro j hj
    cases hnew <;> simp at hj
  constructor
  case begins =>
    rw [← hbegins]
    cases hnew <;> simp
  case resumes =>
    intro hr
    rcases List.mem_append.1 hr with hr | hr
    · exact hresumes (hin hr)
    · cases hnew with
      | resume hs _ => exact hs
      | _ => simp at hr
  case silent =>
    intro hr j hj
    have htail : .report n p j ∈ tail := (List.mem_append.1 hj).resolve_right (hnoreport j)
    rcases List.mem_append.1 hr with hr | hr
    · exact hresume hr
    · cases hnew with
      | resume _ hno => exact hno j htail
      | _ => simp at hr
  case abandons =>
    intro j hj
    rcases List.mem_append.1 hj with hj | hj
    · exact habandons j (hin hj)
    · cases hnew with
      | abandon hw hf =>
        cases List.mem_singleton.1 hj
        exact .inl ⟨hw, hf⟩
      | _ => simp at hj
  case reports =>
    intro j hj
    exact hreports j (hin ((List.mem_append.1 hj).resolve_right (hnoreport j)))
  case once =>
    rintro m (rfl | rfl)
    · have hcount := honce .begin (.inl rfl)
      have hno : Signal.act n p .begin ∉ new := by
        intro hs
        cases hnew <;> simp at hs
      rw [List.count_cons] at hcount
      rw [List.count_append, List.count_eq_zero_of_not_mem hno]
      omega
    · rw [List.count_append, List.count_eq_zero_of_not_mem hresume]
      cases hnew <;> simp
  case failedHeard =>
    intro j hw hf
    rcases hfailed j hw hf with hr | ⟨i, hi⟩
    · rcases List.mem_cons.1 hr with hr | hr
      · cases hr
        cases hnew with
        | abandon _ _ => exact .inr ⟨k, by simp⟩
        | resume hs _ => exact absurd hf (hs.not_fails hb k)
        | nothing hno _ => exact absurd hf (hno hw)
      · exact .inl (List.mem_append_left _ hr)
    · refine .inr ⟨i, List.mem_append_left _ ?_⟩
      simpa using hi
  case storedHeard =>
    intro hs
    cases hnew with
    | abandon _ hf => exact absurd hf (hs.not_fails hb k)
    | resume _ _ => exact .inr (by simp)
    | nothing _ hmore =>
      obtain ⟨j, hj⟩ := hmore hs
      exact .inl ⟨j, List.mem_append_left _ hj⟩

/-- **A job hears of a child.** -/
theorem Orderly.reported {k : ℕ} (h : marks.Orderly (.report n p k :: tail)) (hb : marks.Bounded)
    (hnew : marks.Follows tail n p k new) : marks.Orderly (tail ++ new) := by
  intro n' q
  by_cases hp : n' :: q = n :: p
  · obtain ⟨rfl, rfl⟩ := List.cons.inj hp
    exact (h n' q).reported hb hnew
  · refine (h n' q).aside (Ne.symm hp) (fun s hs he => ?_) rfl fun _ => agree_of_eq rfl
    have hplace : s.place = n :: p := by
      cases hnew <;> simp_all [Signal.place]
    exact hp (he.symm.trans hplace)

end Marks

end ContentGraph
