import ContentGraph.Proofs.TypeGraph.Isomorphism

/-!
# Compilers that are called again

A compiler keeps its catalogue from call to call, also when a call fails. The types of a failed call
stay there as far as they were merged, and are given to later calls as if they were complete. So a
call has the outcome that it would have on its own exactly where it is well defined or something
that cannot be merged is still looked at (`compile_after_iff`). That is so where no earlier call
failed (`sameOutcome_of_wellDefined`), and never for a failed call that is made again
(`compile_again`).
-/

namespace ContentGraph

/-- The catalogue of a compiler after some calls. -/
def Catalogue.compileAll (types : Catalogue) (source : Source) (hashLength : Int)
    (calls : List (List String)) : Catalogue :=
  calls.foldl (fun types addresses => (types.compile source hashLength addresses).2) types

/-- A call to a compiler has the outcome of a compilation on its own. -/
def SameOutcome : Except Failure TypeGraph → Except Failure String × Catalogue → Prop
  | .ok g, (.ok root, types) => Isomorphic g.types types g.root root
  | .error _, (.error _, _) => True
  | _, _ => False

variable {source : Source} {R : Table Schema → Prop} {hashLength : Int} {types types' : Catalogue}
  {set root : Table Schema} {addresses : List String} {calls lists : List (List String)} {i : String}

/-! ### Catalogues of compilers -/

theorem Settled.compileAll (hR : Family source R) (h : Settled source R hashLength types)
    (hcalls : ∀ call ∈ calls, ∀ root, source.resolve call = .ok root → R root) :
    Settled source R hashLength (types.compileAll source hashLength calls) := by
  induction calls generalizing types with
  | nil => exact h
  | cons call rest ih =>
    have hstep := h.compile hR (hcalls call List.mem_cons_self)
    exact ih hstep fun c hc => hcalls c (List.mem_cons_of_mem _ hc)

theorem settled_compileAll (hs : Separated (Reached source lists)) (hl : ∀ call ∈ calls, call ∈ lists) :
    Settled source (Reached source lists) hashLength
      (Catalogue.compileAll .empty source hashLength calls) :=
  Settled.empty.compileAll hs.family fun call hc _ hr => .root (hl call hc) hr

/-! ### Calls -/

/-- The condition on which a call to a settled compiler has the outcome of a fresh one. -/
theorem Settled.sameOutcome_iff (hR : Family source R) (h : Settled source R hashLength types)
    (hsub : ∀ s, Reached source [addresses] s → R s) :
    SameOutcome (source.compile hashLength addresses) (types.compile source hashLength addresses) ↔
      WellDefined source addresses ∨ ∀ root, source.resolve addresses = .ok root →
        ∃ bad, Exposed source types root bad ∧ ¬ Mergeable source bad := by
  have hs := hR.separated.mono hsub
  have hiff := Source.compile_ok_iff hs hashLength
  by_cases hw : WellDefined source addresses
  · obtain ⟨g, hg⟩ := hiff.2 hw
    obtain ⟨i, types', hcall, hrep'⟩ := h.represents hR hsub hw
    obtain ⟨root, hr⟩ := hw.resolved
    have hrep := Source.represents_of_compile hs hg
    rw [hg, hcall]
    exact ⟨fun _ => .inl hw, fun _ => hrep.isomorphic hR hsub hsub hr hr (fun _ => Iff.rfl) hrep'⟩
  · have hfresh : ∃ e, source.compile hashLength addresses = .error e := by
      cases hg : source.compile hashLength addresses with
      | error e => exact ⟨e, rfl⟩
      | ok g => exact absurd (hiff.1 ⟨g, hg⟩) hw
    obtain ⟨e, he⟩ := hfresh
    have hcall := compile_ok_iff hR h.named fun root hr => hsub root (.root List.mem_cons_self hr)
    rw [he, or_iff_right hw]
    generalize types.compile source hashLength addresses = result at hcall ⊢
    obtain ⟨r, types'⟩ := result
    cases r with
    | error e' =>
      refine ⟨fun _ root hr => ?_, fun _ => trivial⟩
      by_contra hno
      obtain ⟨i, ⟨⟩⟩ := hcall.2 ⟨root, hr, fun s he => by_contra fun hbad => hno ⟨s, he, hbad⟩⟩
    | ok i =>
      refine ⟨False.elim, fun hall => ?_⟩
      obtain ⟨root, hr, hmergeable⟩ := hcall.1 ⟨i, rfl⟩
      obtain ⟨bad, he, hbad⟩ := hall root hr
      exact hbad (hmergeable he)

/-- **A call that follows others has the outcome of a compilation on its own exactly where it is well
defined, or still looks at a set that cannot be merged.** -/
theorem compile_after_iff (hashLength : Int) (hs : Separated (Reached source (addresses :: calls))) :
    SameOutcome (source.compile hashLength addresses)
        ((Catalogue.compileAll .empty source hashLength calls).compile source hashLength addresses) ↔
      WellDefined source addresses ∨ ∀ root, source.resolve addresses = .ok root →
        ∃ bad, Exposed source (Catalogue.compileAll .empty source hashLength calls) root bad ∧
          ¬ Mergeable source bad :=
  (settled_compileAll hs fun _ => List.mem_cons_of_mem _).sameOutcome_iff hs.family
    fun _ h => h.mono (by simp)

/-- A store of two schemas that define one key in different ways. -/
def clashStore : Store :=
  ((Store.empty "omg://").putRaw "text" (.object [("kind", .text "schema"), ("name", .text "Text"),
      ("elements", .object [("size", .object [("kind", .text "string")])])])).putRaw
    "count" (.object [("kind", .text "schema"), ("name", .text "Count"),
      ("elements", .object [("size", .object [("kind", .text "number")])])])

theorem compile_after_iff_clash :
    ¬ SameOutcome ((Gateway.ofStore clashStore).source.compile 8 ["text", "count"])
        ((Catalogue.compileAll .empty (Gateway.ofStore clashStore).source 8 [["text", "count"]]).compile
          (Gateway.ofStore clashStore).source 8 ["text", "count"]) ∧
      ¬ (WellDefined (Gateway.ofStore clashStore).source ["text", "count"] ∨
        ∀ root, (Gateway.ofStore clashStore).source.resolve ["text", "count"] = .ok root →
          ∃ bad, Exposed (Gateway.ofStore clashStore).source
            (Catalogue.compileAll .empty (Gateway.ofStore clashStore).source 8 [["text", "count"]]) root bad ∧
            ¬ Mergeable (Gateway.ofStore clashStore).source bad) := by
  have hs : (Gateway.ofStore clashStore).source.Separates [["text", "count"], ["text", "count"]] := by
    decide +kernel
  have hfresh : ((Gateway.ofStore clashStore).source.compile 8 ["text", "count"]).toOption.isNone = true := by
    decide +kernel
  have hcall : ((Catalogue.compileAll .empty (Gateway.ofStore clashStore).source 8 [["text", "count"]]).compile
      (Gateway.ofStore clashStore).source 8 ["text", "count"]).1.toOption.any (fun _ => true) = true := by
    decide +kernel
  have hiff := compile_after_iff 8 hs.separated
  rw [← hiff, and_self]
  generalize (Gateway.ofStore clashStore).source.compile 8 ["text", "count"] = fresh at hfresh
  generalize Catalogue.compile _ _ _ _ = shared at hcall
  obtain ⟨r, types⟩ := shared
  obtain ⟨i, hi, -⟩ := exists_ok_of_any hcall
  cases show r = .ok i from hi
  cases fresh with
  | error e => exact id
  | ok g => cases hfresh

/-! ### Calls after successful calls, and failed calls -/

/-- A type that is there after well-defined calls belongs to one of them, and so all that is below it
can be merged. -/
theorem sound_of_mem_keys (hs : Separated (Reached source (addresses :: calls)))
    (hcalls : ∀ call ∈ calls, WellDefined source call) {s : Table Schema}
    (hr : Reached source [addresses] s)
    (hi : identityOf s ∈ (Catalogue.compileAll .empty source hashLength calls).keys) : Sound source s := by
  have hsub : ∀ s, Reached source calls s → Reached source (addresses :: calls) s := fun _ h =>
    h.mono fun _ => List.mem_cons_of_mem _
  have hnamed : Named (Reached source calls) hashLength
      (Catalogue.compileAll .empty source hashLength calls) :=
    (settled_compileAll (hs.mono hsub) fun _ => id).named
  obtain ⟨t, ht⟩ := Table.mem_keys_iff.1 hi
  obtain ⟨s', hs', hi', -⟩ := hnamed _ t ht
  obtain ⟨call, hcall, hreached⟩ := hs'.exists_list
  have hr' : Reached source (addresses :: calls) s := hr.mono (by simp)
  have hsame := hs.family.separated (hsub s' hs') hr' hi'.symm
  exact ((hcalls call hcall).sound hreached).congr hs.family (hsub s' hs') hr' hsame

/-- What a list of schemas leads to is still looked at, or lies below a type that is there. -/
theorem Reached.exposed_or_sound {s : Table Schema} (hr : Reached source [addresses] s)
    (hroot : source.resolve addresses = .ok root)
    (hknown : ∀ s, Reached source [addresses] s → identityOf s ∈ types.keys → Sound source s) :
    Exposed source types root s ∨ Sound source s := by
  induction hr with
  | root ha hr =>
    cases List.mem_singleton.1 ha
    cases hroot.symm.trans hr
    by_cases hi : identityOf root ∈ types.keys
    · exact .inr (hknown root (.root ha hr) hi)
    · exact .inl (.self hi)
  | @step s s' hr hl ih =>
    rcases ih with he | hsound
    · by_cases hi : identityOf s' ∈ types.keys
      · exact .inr (hknown s' (hr.step hl) hi)
      · exact .inl (he.step hl hi)
    · exact .inr fun _ hl' => hsound (.head hl hl')

/-- **Where no earlier call fails, every call has the outcome of a compilation on its own.** -/
theorem sameOutcome_of_wellDefined (hashLength : Int)
    (hs : Separated (Reached source (addresses :: calls)))
    (hcalls : ∀ call ∈ calls, WellDefined source call) :
    SameOutcome (source.compile hashLength addresses)
      ((Catalogue.compileAll .empty source hashLength calls).compile source hashLength addresses) := by
  have hsettled : Settled source (Reached source (addresses :: calls)) hashLength
      (Catalogue.compileAll .empty source hashLength calls) :=
    settled_compileAll hs fun _ => List.mem_cons_of_mem _
  rw [hsettled.sameOutcome_iff hs.family fun _ h => h.mono (by simp)]
  by_cases hw : WellDefined source addresses
  · exact .inl hw
  · right
    intro root hroot
    by_contra hno
    refine hw ⟨⟨root, hroot⟩, fun s hr => ?_⟩
    rcases hr.exposed_or_sound hroot fun s => sound_of_mem_keys hs hcalls with he | hsound
    · by_contra hbad
      exact hno ⟨s, he, hbad⟩
    · exact hsound .refl

/-- **A failed call that is made again succeeds**, if the list can be resolved at all. -/
theorem compile_again (hR : Family source R) (hn : Named R hashLength types) (hs : R root)
    (hr : source.resolve addresses = .ok root) :
    ((types.compile source hashLength addresses).2.compile source hashLength addresses).1
      = .ok (identityOf root) := by
  have hc := compiles_compile hR hn hs hr
  generalize types.compile source hashLength addresses = result at hc ⊢
  obtain ⟨r, types'⟩ := result
  have hmem : identityOf root ∈ types'.keys := by
    cases r with
    | error e =>
      have hfails : Fails source R hashLength types root types' := hc
      exact hfails.mem
    | ok i =>
      have hdone : Succeeds source R hashLength types root i types' := hc
      exact hdone.identity ▸ hdone.mem
  rw [Catalogue.compile_eq, hr]
  dsimp only
  rw [Compilation.exec_compileSet_known (identityOf_eq root ▸ hmem), identityOf_eq]

end ContentGraph
