import ContentGraph.Proofs.TypeGraph.Compiling

/-!
# Catalogues of compilers

In the catalogue of a compiler stand complete types and types that lead to a set that cannot be
merged (`Settled`); a call keeps it so, whether it fails or not (`Settled.compile`). A call succeeds
exactly where all sets that are looked at can be merged (`compile_ok_iff`).
-/

namespace ContentGraph

/-- What stands in the catalogue of a compiler: complete types, and types that lead to a set that
cannot be merged. -/
structure Settled (source : Source) (R : Table Schema → Prop) (hashLength : Int) (types : Catalogue) :
    Prop where
  /-- The types have the names of sets. -/
  named : Named R hashLength types
  /-- Every type is complete or doomed. -/
  each : ∀ i ∈ types.keys, Complete source R types i ∨ Doomed source R i

variable {source : Source} {R : Table Schema → Prop} {hashLength : Int} {types types' : Catalogue}
  {set root : Table Schema} {addresses : List String}

namespace Settled

theorem empty : Settled source R hashLength .empty := ⟨.empty, fun _ hi => by cases hi⟩

/-- **A call keeps the catalogue settled**, whether it fails or not. -/
theorem compile (hR : Family source R) (h : Settled source R hashLength types)
    (hroot : ∀ root, source.resolve addresses = .ok root → R root) :
    Settled source R hashLength (types.compile source hashLength addresses).2 := by
  cases hr : source.resolve addresses with
  | error e =>
    rw [Catalogue.compile_eq, hr]
    exact h
  | ok root =>
    have hc := compiles_compile hR h.named (hroot root hr) hr
    generalize types.compile source hashLength addresses = result at hc ⊢
    obtain ⟨r, types'⟩ := result
    cases r with
    | error e =>
      have hfails : Fails source R hashLength types root types' := hc
      refine ⟨hfails.named, fun i hi => ?_⟩
      by_cases hold : i ∈ types.keys
      · exact (h.each i hold).imp_left (·.mono hfails.older)
      · exact hfails.newer i hi hold
    | ok i =>
      have hdone : Succeeds source R hashLength types root i types' := hc
      refine ⟨hdone.named, fun j hj => ?_⟩
      by_cases hold : j ∈ types.keys
      · exact (h.each j hold).imp_left (·.mono hdone.older)
      · exact .inl (hdone.newer j hj hold)

end Settled

/-! ### Sets that lead to mergeable sets only -/

theorem LeadsTo.reached (h : LeadsTo source root set) (hroot : Reached source [addresses] root) :
    Reached source [addresses] set := by
  induction h with
  | refl => exact hroot
  | tail _ hl ih => exact ih.step hl

/-- All sets that a set leads to can be merged. -/
def Sound (source : Source) (set : Table Schema) : Prop :=
  ∀ ⦃set'⦄, LeadsTo source set set' → Mergeable source set'

theorem WellDefined.sound (hw : WellDefined source addresses) (h : Reached source [addresses] set) :
    Sound source set := fun _ hl => hw.mergeable (hl.reached h)

theorem Sound.congr {set' : Table Schema} (hR : Family source R) (hs : R set) (hs' : R set')
    (hsame : SameAddresses set set') (h : Sound source set) : Sound source set' := by
  intro bad hl
  rcases Relation.ReflTransGen.cases_head hl with rfl | ⟨next, hnext, hl⟩
  · exact hR.mergeable_congr hs hs' hsame (h .refl)
  · exact h (.head (hR.leads_congr hs' hs hsame.symm hnext) hl)

theorem Sound.not_doomed (hR : Family source R) (hs : R set) (h : Sound source set) :
    ¬ Doomed source R (identityOf set) := by
  rintro ⟨set', bad, hs', hi, hl, hbad⟩
  exact hbad (h.congr hR hs hs' (hR.separated hs hs' hi) hl)

/-! ### Outcomes -/

/-- **A call succeeds exactly where all sets that are looked at can be merged.** -/
theorem compile_ok_iff (hR : Family source R) (hn : Named R hashLength types)
    (hroot : ∀ root, source.resolve addresses = .ok root → R root) :
    (∃ i, (types.compile source hashLength addresses).1 = .ok i) ↔
      ∃ root, source.resolve addresses = .ok root ∧
        ∀ ⦃s⦄, Exposed source types root s → Mergeable source s := by
  cases hr : source.resolve addresses with
  | error e =>
    rw [Catalogue.compile_eq, hr]
    constructor
    · rintro ⟨i, ⟨⟩⟩
    · rintro ⟨root, ⟨⟩, -⟩
  | ok root =>
    have hs := hroot root hr
    have hc := compiles_compile hR hn hs hr
    generalize types.compile source hashLength addresses = result at hc ⊢
    obtain ⟨r, types'⟩ := result
    cases r with
    | error e =>
      have hfails : Fails source R hashLength types root types' := hc
      constructor
      · rintro ⟨i, ⟨⟩⟩
      · rintro ⟨_, ⟨⟩, hmergeable⟩
        obtain ⟨bad, he, hbad⟩ := hfails.bad
        exact absurd (hmergeable he) hbad
    | ok i =>
      have hdone : Succeeds source R hashLength types root i types' := hc
      -- the types of all sets that were looked at are complete
      have hlooked : ∀ {s}, Exposed source types root s → R s ∧ Complete source R types' (identityOf s) := by
        intro s he
        induction he with
        | self hi => exact ⟨hs, hdone.newer _ (hdone.identity ▸ hdone.mem) hi⟩
        | step _ hl hi ih =>
          obtain ⟨hs', hc'⟩ := ih
          exact ⟨hR.closed hs' hl, hdone.newer _ (hc'.mem_of_leads hR hs' hl) hi⟩
      refine ⟨fun _ => ⟨root, rfl, fun s he => ?_⟩, fun _ => ⟨i, rfl⟩⟩
      obtain ⟨hs', hc'⟩ := hlooked he
      exact hc'.mergeable hR hs'

end ContentGraph
