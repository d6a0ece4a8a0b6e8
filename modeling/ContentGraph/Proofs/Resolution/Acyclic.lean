import ContentGraph.Proofs.Resolution
import Mathlib.Logic.Relation

/-!
# Where addresses can be resolved

An alias names addresses, so that an address leads to others. The aliases on the way to an address
are its chain (`Source.Way`). No expansion of a list of addresses fails exactly where every address
that the list leads to holds a schema or an alias and none leads back to itself
(`Source.expandable_iff`). An address that is met again beside itself is no reason to fail: what
counts is the way to it.
-/

namespace ContentGraph

namespace Source

section

variable (source : Source)

/-- An alias names an address. -/
def Names (a b : String) : Prop := ∃ al, source.fetch a = .ok (.alias al) ∧ b ∈ al.schemas

/-- An address holds a schema or an alias. -/
def Declares (a : String) : Prop :=
  (∃ s, source.fetch a = .ok (.schema s)) ∨ ∃ al, source.fetch a = .ok (.alias al)

/-- Some addresses lead to an address, through any number of aliases. -/
def Reachable (addresses : List String) (b : String) : Prop :=
  ∃ a ∈ addresses, Relation.ReflTransGen source.Names a b

/-- All that some addresses lead to holds schemas and aliases, and no alias leads back to itself. -/
structure Expandable (addresses : List String) : Prop where
  /-- Every address holds a schema or an alias. -/
  declared : ∀ b, source.Reachable addresses b → source.Declares b
  /-- No address leads back to itself. -/
  acyclic : ∀ b, source.Reachable addresses b → ¬ Relation.TransGen source.Names b b

/-- The way from some addresses to an address, with the aliases before it. -/
inductive Way (addresses : List String) : List String → String → Prop
  /-- It is one of the addresses. -/
  | start {a : String} : a ∈ addresses → Way addresses [] a
  /-- The last alias on the way names it. -/
  | step {chain : List String} {a b : String} : Way addresses chain a → a ∉ chain → source.Names a b →
      Way addresses (chain ++ [a]) b

end

variable {source : Source} {addresses chain : List String} {a b : String} {al : Alias}

theorem mem_addresses_of_fetch {r : Resource} (h : source.fetch a = .ok r) : a ∈ source.addresses := by
  by_contra hn
  obtain ⟨f, hf⟩ := source.error_of_not_mem a hn
  cases hf.symm.trans h

/-! ### Ways -/

namespace Way

theorem reachable (h : source.Way addresses chain a) : source.Reachable addresses a := by
  induction h with
  | start ha => exact ⟨_, ha, .refl⟩
  | step _ _ hn ih =>
    obtain ⟨first, hf, hr⟩ := ih
    exact ⟨first, hf, hr.tail hn⟩

/-- Every alias on a way leads to its end. -/
theorem leads (h : source.Way addresses chain a) : ∀ b ∈ chain, Relation.TransGen source.Names b a := by
  induction h with
  | start _ => simp
  | step _ _ hn ih =>
    intro b hb
    rcases List.mem_append.1 hb with hb | hb
    · exact (ih b hb).tail hn
    · cases List.mem_singleton.1 hb
      exact .single hn

theorem nodup (h : source.Way addresses chain a) : chain.Nodup := by
  induction h with
  | start _ => exact List.nodup_nil
  | step _ hm _ ih =>
    refine List.nodup_append.2 ⟨ih, List.nodup_singleton _, fun b hb c hc => ?_⟩
    cases List.mem_singleton.1 hc
    exact ne_of_mem_of_not_mem hb hm

theorem mem_addresses (h : source.Way addresses chain a) : ∀ b ∈ chain, b ∈ source.addresses := by
  induction h with
  | start _ => simp
  | step _ _ hn ih =>
    intro b hb
    rcases List.mem_append.1 hb with hb | hb
    · exact ih b hb
    · cases List.mem_singleton.1 hb
      obtain ⟨_, ha, -⟩ := hn
      exact mem_addresses_of_fetch ha

/-- A way is no longer than there are addresses that hold something. -/
theorem length_le (h : source.Way addresses chain a) : chain.length ≤ source.addresses.length :=
  (List.subperm_of_subset h.nodup h.mem_addresses).length_le

end Way

/-! ### Expansions without failures -/

/-- An expansion fails nowhere where the address is not on its chain, holds something that can be
resolved, and no expansion of what it names fails. -/
theorem failures_expand_succ {steps depth : ℕ} :
    (expand source.fetch (steps + 1) chain a).failures depth = [] ↔
      a ∉ chain ∧ source.Declares a ∧ ∀ b, source.Names a b →
        (expand source.fetch steps (chain ++ [a]) b).failures (depth + 1) = [] := by
  rw [expand]
  unfold Declares Names
  by_cases hc : a ∈ chain
  · simp [hc, Expansion.failures]
  · simp only [hc, if_false, not_false_eq_true, true_and]
    cases hf : source.fetch a with
    | error f => simp [Expansion.failures]
    | ok r =>
      cases r with
      | schema s => simp [Expansion.failures]
      | document d => simp [Expansion.failures]
      | «alias» al => simp [Expansion.failures, Expansion.failuresOf_eq_nil_iff]

/-- Where an expansion fails nowhere, all that the address leads to can be resolved, is not on the
chain and does not lead back to itself. -/
theorem sound_of_failures {steps depth : ℕ}
    (h : (expand source.fetch steps chain a).failures depth = [])
    (hr : Relation.ReflTransGen source.Names a b) :
    b ∉ chain ∧ source.Declares b ∧ ¬ Relation.TransGen source.Names b b := by
  induction steps generalizing chain a b depth with
  | zero => simp [expand, Expansion.failures] at h
  | succ steps ih =>
    obtain ⟨hm, hd, hn⟩ := failures_expand_succ.1 h
    rcases hr.cases_head with rfl | ⟨c, hac, hcb⟩
    · refine ⟨hm, hd, fun ht => ?_⟩
      -- a way back to the address would meet it on the chain
      obtain ⟨c, hac, hca⟩ := Relation.TransGen.head'_iff.1 ht
      exact (ih (hn c hac) hca).1 (by simp)
    · obtain ⟨hb, hdb, hnb⟩ := ih (hn c hac) hcb
      exact ⟨fun hbc => hb (List.mem_append_left _ hbc), hdb, hnb⟩

/-- Where some addresses can be expanded, nothing on a way from them fails. -/
theorem Expandable.failures_eq_nil (h : source.Expandable addresses) {steps depth : ℕ}
    (hw : source.Way addresses chain a) (hs : source.addresses.length < chain.length + steps) :
    (expand source.fetch steps chain a).failures depth = [] := by
  induction steps generalizing chain a depth with
  | zero => exact absurd hw.length_le (by omega)
  | succ steps ih =>
    have hm : a ∉ chain := fun hc => h.acyclic a hw.reachable (hw.leads a hc)
    refine failures_expand_succ.2 ⟨hm, h.declared a hw.reachable, fun b hb => ?_⟩
    exact ih (hw.step hm hb) (by rw [List.length_append, List.length_singleton]; omega)

/-- No expansion of some addresses fails exactly where they can be expanded. -/
theorem expandable_iff : source.Expandable addresses ↔
    ∀ a ∈ addresses, (source.expansion a).failures 0 = [] := by
  constructor
  · intro h a ha
    exact h.failures_eq_nil (.start ha) (by simp)
  · intro h
    constructor
    · rintro b ⟨a, ha, hr⟩
      exact (sound_of_failures (h a ha) hr).2.1
    · rintro b ⟨a, ha, hr⟩
      exact (sound_of_failures (h a ha) hr).2.2

/-- Some addresses resolve to a set exactly where they can be expanded. -/
theorem exists_resolve_iff :
    (∃ set, source.resolve addresses = .ok set) ↔ source.Expandable addresses := by
  rw [expandable_iff]
  constructor
  · rintro ⟨set, h⟩
    exact (resolve_eq_ok_iff.1 h).1
  · intro h
    exact ⟨_, resolve_eq_ok_iff.2 ⟨h, rfl⟩⟩

end Source

end ContentGraph
