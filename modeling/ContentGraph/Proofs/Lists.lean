import Mathlib.Data.List.Forall2

/-!
# Lists one by one

Two lists belong to each other one by one where they are of one length and what stands at one position
belongs to each other. A monadic map that succeeds gives such a list (`mapM_eq_ok_iff`).
-/

namespace ContentGraph

section

variable {α β : Type} {R : α → β → Prop} {as : List α} {bs : List β}

theorem forall₂_iff_getElem? : List.Forall₂ R as bs ↔
    as.length = bs.length ∧ ∀ (n : ℕ) (a : α) (b : β), as[n]? = some a → bs[n]? = some b → R a b := by
  rw [List.forall₂_iff_get]
  refine and_congr_right fun hl => ?_
  constructor
  · intro h n a b ha hb
    obtain ⟨hna, rfl⟩ := List.getElem?_eq_some_iff.1 ha
    obtain ⟨hnb, rfl⟩ := List.getElem?_eq_some_iff.1 hb
    exact h n hna hnb
  · intro h n hna hnb
    exact h n _ _ (List.getElem?_eq_getElem hna) (List.getElem?_eq_getElem hnb)

theorem exists_of_mem_left (h : List.Forall₂ R as bs) : ∀ a ∈ as, ∃ b ∈ bs, R a b := by
  induction h with
  | nil => exact fun _ ha => absurd ha List.not_mem_nil
  | @cons a b _ _ hab _ ih =>
    refine List.forall_mem_cons.2 ⟨⟨b, List.mem_cons_self, hab⟩, fun a' ha' => ?_⟩
    obtain ⟨b', hb', hr⟩ := ih a' ha'
    exact ⟨b', List.mem_cons_of_mem _ hb', hr⟩

theorem exists_of_mem_right (h : List.Forall₂ R as bs) : ∀ b ∈ bs, ∃ a ∈ as, R a b :=
  exists_of_mem_left (R := flip R) h.flip

theorem exists_forall₂ (h : ∀ a ∈ as, ∃ b, R a b) : ∃ bs, List.Forall₂ R as bs := by
  induction as with
  | nil => exact ⟨[], .nil⟩
  | cons a as ih =>
    obtain ⟨b, hb⟩ := h a List.mem_cons_self
    obtain ⟨bs, hbs⟩ := ih fun a' ha' => h a' (List.mem_cons_of_mem _ ha')
    exact ⟨b :: bs, .cons hb hbs⟩

theorem forall₂_comp {γ : Type} {S : β → γ → Prop} {cs : List γ} (h : List.Forall₂ R as bs)
    (h' : List.Forall₂ S bs cs) : List.Forall₂ (fun a c => ∃ b, R a b ∧ S b c) as cs := by
  induction h generalizing cs with
  | nil =>
    cases h'
    exact .nil
  | cons hab _ ih =>
    cases h' with
    | cons hbc hrest => exact .cons ⟨_, hab, hbc⟩ (ih hrest)

theorem rel_head? (h : List.Forall₂ R as bs) : Option.Rel R as.head? bs.head? := by
  cases h with
  | nil => exact .none
  | cons hab _ => exact .some hab

theorem rel_getLast? (h : List.Forall₂ R as bs) : Option.Rel R as.getLast? bs.getLast? := by
  rw [← List.head?_reverse, ← List.head?_reverse]
  exact rel_head? (List.forall₂_reverse_iff.2 h)

end

/-! ### Steps of items -/

section

variable {α : Type} {r : α → α → Prop}

/-- One item of a list takes a step, and the others stay as they are. -/
def StepsIn (r : α → α → Prop) (as as' : List α) : Prop :=
  ∃ n a a', as[n]? = some a ∧ r a a' ∧ as' = as.set n a'

/-- Items side by side take finitely many steps where each of them does. -/
theorem acc_stepsIn {as : List α} (h : ∀ a ∈ as, Acc (flip r) a) : Acc (flip (StepsIn r)) as := by
  induction as with
  | nil =>
    refine ⟨_, fun next hstep => ?_⟩
    obtain ⟨_, _, _, hn, -⟩ := hstep
    cases hn
  | cons a as ih =>
    obtain ⟨ha, has⟩ := List.forall_mem_cons.1 h
    replace ih := ih has
    clear h has
    induction ha generalizing as with
    | intro a _ iha =>
      induction ih with
      | intro as hrest ihas =>
        refine ⟨_, fun next hstep => ?_⟩
        obtain ⟨n, b, b', hn, hr, rfl⟩ := hstep
        cases n with
        | zero =>
          cases hn
          exact iha _ hr _ ⟨_, hrest⟩
        | succ n => exact ihas _ ⟨n, b, b', hn, hr, rfl⟩

end

/-! ### Lists of outcomes -/

variable {α β γ ε : Type}

/-- What a monadic map gives are the outcomes of the items, one by one. -/
theorem mapM_eq_ok_iff {f : α → Except ε β} {as : List α} {bs : List β} :
    as.mapM f = .ok bs ↔ List.Forall₂ (fun a b => f a = .ok b) as bs := by
  induction as generalizing bs with
  | nil =>
    rw [List.forall₂_nil_left_iff]
    exact ⟨fun h => by cases h; rfl, fun h => by rw [h]; rfl⟩
  | cons a as ih =>
    rw [List.forall₂_cons_left_iff, List.mapM_cons]
    cases ha : f a with
    | error e => simp [Bind.bind, Except.bind]
    | ok b =>
      cases hr : as.mapM f with
      | error e =>
        have hno : ∀ bs, ¬ List.Forall₂ (fun a b => f a = .ok b) as bs := fun bs h => by
          cases hr.symm.trans (ih.2 h)
        simp [Bind.bind, Except.bind, hno]
      | ok others =>
        rw [hr] at ih
        constructor
        · intro h
          cases h
          exact ⟨b, others, rfl, ih.1 rfl, rfl⟩
        · rintro ⟨_, _, hb, hbs, rfl⟩
          cases hb
          cases ih.2 hbs
          rfl

/-- So it is where the items have results or none. -/
theorem mapM_eq_some_iff {f : α → Option β} {as : List α} {bs : List β} :
    as.mapM f = some bs ↔ List.Forall₂ (fun a b => f a = some b) as bs := by
  induction as generalizing bs with
  | nil =>
    rw [List.forall₂_nil_left_iff]
    exact ⟨fun h => by cases h; rfl, fun h => by rw [h]; rfl⟩
  | cons a as ih =>
    rw [List.forall₂_cons_left_iff, List.mapM_cons]
    constructor
    · intro h
      obtain ⟨b, hb, h⟩ := Option.bind_eq_some_iff.1 h
      obtain ⟨others, ho, h⟩ := Option.bind_eq_some_iff.1 h
      cases h
      exact ⟨b, others, hb, ih.1 ho, rfl⟩
    · rintro ⟨b, others, hb, ho, rfl⟩
      rw [hb, ih.2 ho]
      rfl

theorem exists_mapM_eq_ok {f : α → Except ε β} {as : List α} (h : ∀ a ∈ as, ∃ b, f a = .ok b) :
    ∃ bs, as.mapM f = .ok bs := by
  obtain ⟨bs, hbs⟩ := exists_forall₂ h
  exact ⟨bs, mapM_eq_ok_iff.2 hbs⟩

theorem exists_of_mapM_eq_error {f : α → Except ε β} {as : List α} {e : ε} (h : as.mapM f = .error e) :
    ∃ a ∈ as, f a = .error e := by
  induction as with
  | nil => cases h
  | cons a rest ih =>
    rw [List.mapM_cons] at h
    cases ha : f a with
    | error e' =>
      rw [ha] at h
      cases h
      exact ⟨a, List.mem_cons_self, ha⟩
    | ok b =>
      cases hr : rest.mapM f with
      | error e' =>
        rw [ha, hr] at h
        cases h
        obtain ⟨a', ha', he⟩ := ih hr
        exact ⟨a', List.mem_cons_of_mem _ ha', he⟩
      | ok bs =>
        rw [ha, hr] at h
        cases h

theorem mapM_toOption (f : α → Except ε β) (as : List α) :
    (as.mapM f).toOption = as.mapM fun a => (f a).toOption := by
  induction as with
  | nil => rfl
  | cons a rest ih =>
    rw [List.mapM_cons, List.mapM_cons, ← ih]
    cases f a with
    | error e => rfl
    | ok b => cases rest.mapM f <;> rfl

theorem mapM_bind_mapM (f : α → Option β) (g : β → Option γ) (as : List α) :
    ((as.mapM f).bind fun bs => bs.mapM g) = as.mapM fun a => (f a).bind g := by
  induction as with
  | nil => rfl
  | cons a rest ih =>
    rw [List.mapM_cons, List.mapM_cons, ← ih]
    cases f a with
    | none => rfl
    | some b =>
      cases rest.mapM f with
      | none => cases hb : g b <;> simp [hb]
      | some bs => simp [List.mapM_cons]

end ContentGraph
