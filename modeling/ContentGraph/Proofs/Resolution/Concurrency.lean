import ContentGraph.Proofs.Resolution.Order

/-!
# Resolution with concurrent fetches

What an alias names is fetched side by side, and the fetches are answered in any order. An
`Unfolding` is as much of an expansion as is known at one moment. A step answers one of the fetches
that are still open, wherever it stands; what was resolved is handed over when none is open, and a
failure that is met may be raised at any moment from then on (`Source.Step`).

Every step keeps the expansion that an unfolding is a part of (`Answered.unfolds`). So a run hands
over what `Source.resolve` gives or raises a failure of the expansion, in whatever order the fetches
are answered, and every run ends (`Source.resolve_exact`).
-/

namespace ContentGraph

/-- What is known of an expansion. -/
inductive Unfolding where
  /-- An address below a chain of aliases that is still to be fetched. -/
  | pending (chain : List String) (address : String)
  /-- A schema. -/
  | schema (address : String) (schema : Schema)
  /-- An alias, with what is known of what it names. -/
  | alias (address : String) (parts : List Unfolding)
  /-- Nothing that could be used. -/
  | failed (failure : Failure)

namespace Unfolding

/-- The schemas of unfoldings in which no fetch is open and nothing failed, from left to right. -/
inductive Leaves : List Unfolding → List (String × Schema) → Prop
  /-- Of no unfolding. -/
  | nil : Leaves [] []
  /-- A schema is a leaf. -/
  | schema {a : String} {s : Schema} {rest : List Unfolding} {leaves : List (String × Schema)} :
      Leaves rest leaves → Leaves (.schema a s :: rest) ((a, s) :: leaves)
  /-- An alias has the leaves of what it names. -/
  | «alias» {a : String} {parts rest : List Unfolding} {below leaves : List (String × Schema)} :
      Leaves parts below → Leaves rest leaves → Leaves (.alias a parts :: rest) (below ++ leaves)

/-- A failure stands in some unfoldings. -/
inductive Fails (f : Failure) : List Unfolding → Prop
  /-- It is the first of them. -/
  | here {rest : List Unfolding} : Fails f (.failed f :: rest)
  /-- It stands in what the first of them names. -/
  | inside {a : String} {parts rest : List Unfolding} : Fails f parts → Fails f (.alias a parts :: rest)
  /-- It stands in another. -/
  | later {u : Unfolding} {rest : List Unfolding} : Fails f rest → Fails f (u :: rest)

end Unfolding

/-- Where the resolution of a list of addresses stands. -/
inductive ResolutionState where
  /-- Fetches are open or their answers are put together. -/
  | running (unfoldings : List Unfolding)
  /-- The schemas were handed over. -/
  | returned (set : Table Schema)
  /-- It was given up. -/
  | raised (failure : Failure)

namespace Source

section

variable (source : Source)

/-- What a fetch makes of an address below a chain. -/
def answer (chain : List String) (address : String) : Unfolding :=
  if address ∈ chain then .failed (.aliasCycle (chain ++ [address]))
  else
    match source.fetch address with
    | .error f => .failed f
    | .ok (.schema s) => .schema address s
    | .ok (.alias al) => .alias address (al.schemas.map (.pending (chain ++ [address])))
    | .ok (.document _) => .failed (.unexpectedResource address "schema or alias" "document")

/-- One open fetch is answered. -/
inductive Answered : List Unfolding → List Unfolding → Prop
  /-- It is the first of the unfoldings. -/
  | here {chain : List String} {a : String} {rest : List Unfolding} :
      Answered (.pending chain a :: rest) (source.answer chain a :: rest)
  /-- It stands in what the first of them names. -/
  | inside {a : String} {parts parts' rest : List Unfolding} : Answered parts parts' →
      Answered (.alias a parts :: rest) (.alias a parts' :: rest)
  /-- It stands in another. -/
  | later {u : Unfolding} {rest rest' : List Unfolding} : Answered rest rest' →
      Answered (u :: rest) (u :: rest')

/-- A step of resolution. -/
inductive Step : ResolutionState → ResolutionState → Prop
  /-- A fetch is answered. -/
  | answer {us us' : List Unfolding} : source.Answered us us' → Step (.running us) (.running us')
  /-- A failure that was met is raised. -/
  | raise {us : List Unfolding} {f : Failure} : Unfolding.Fails f us → Step (.running us) (.raised f)
  /-- Nothing is open: the schemas are handed over, each once. -/
  | return {us : List Unfolding} {leaves : List (String × Schema)} : Unfolding.Leaves us leaves →
      Step (.running us) (.returned (firstOfEach leaves))

/-- Resolution of a list of addresses begins with all of them open. -/
def begun (addresses : List String) : ResolutionState := .running (addresses.map (.pending []))

/-- A run of the resolution of a list of addresses has come to a state. -/
def Comes (addresses : List String) (state : ResolutionState) : Prop :=
  Relation.ReflTransGen source.Step (begun addresses) state

/-- Unfoldings are parts of expansions, each open fetch with the way that led to it. -/
inductive Unfolds (addresses : List String) : List Unfolding → List Expansion → Prop
  /-- None is part of none. -/
  | nil : Unfolds addresses [] []
  /-- An open fetch stands for the whole expansion of its address. -/
  | pending {chain : List String} {a : String} {rest : List Unfolding} {es : List Expansion} :
      source.Way addresses chain a → Unfolds addresses rest es →
      Unfolds addresses (.pending chain a :: rest)
        (expand source.fetch (source.addresses.length + 1 - chain.length) chain a :: es)
  /-- A schema. -/
  | schema {a : String} {s : Schema} {rest : List Unfolding} {es : List Expansion} :
      Unfolds addresses rest es → Unfolds addresses (.schema a s :: rest) (.schema a s :: es)
  /-- An alias. -/
  | «alias» {a : String} {parts rest : List Unfolding} {below es : List Expansion} :
      Unfolds addresses parts below → Unfolds addresses rest es →
      Unfolds addresses (.alias a parts :: rest) (.alias a below :: es)
  /-- A failure. -/
  | failed {f : Failure} {rest : List Unfolding} {es : List Expansion} :
      Unfolds addresses rest es → Unfolds addresses (.failed f :: rest) (.failed f :: es)

end

variable {source : Source} {addresses chain : List String} {a : String} {f : Failure}
  {us us' : List Unfolding} {es : List Expansion}

/-! ### Open fetches -/

theorem unfolds_pending {as : List String} (h : ∀ a ∈ as, source.Way addresses chain a) :
    source.Unfolds addresses (as.map (.pending chain))
      (as.map (expand source.fetch (source.addresses.length + 1 - chain.length) chain)) := by
  induction as with
  | nil => exact .nil
  | cons a rest ih =>
    exact .pending (h a List.mem_cons_self) (ih fun b hb => h b (List.mem_cons_of_mem _ hb))

theorem unfolds_begun : source.Unfolds addresses (addresses.map (.pending [])) (source.expansions addresses) :=
  unfolds_pending fun _ ha => .start ha

/-- The answer to a fetch is part of the expansion that the fetch stood for. -/
theorem Way.unfolds_answer (h : source.Way addresses chain a) {rest : List Unfolding}
    (hr : source.Unfolds addresses rest es) :
    source.Unfolds addresses (source.answer chain a :: rest)
      (expand source.fetch (source.addresses.length + 1 - chain.length) chain a :: es) := by
  have hl := h.length_le
  rw [show source.addresses.length + 1 - chain.length = source.addresses.length - chain.length + 1 by omega,
    expand, answer]
  by_cases hm : a ∈ chain
  · rw [if_pos hm, if_pos hm]
    exact .failed hr
  · rw [if_neg hm, if_neg hm]
    cases hf : source.fetch a with
    | error f => exact .failed hr
    | ok r =>
      cases r with
      | schema s => exact .schema hr
      | document d => exact .failed hr
      | «alias» al =>
        have hp := unfolds_pending fun b hb => h.step hm ⟨al, hf, hb⟩
        rw [List.length_append, List.length_singleton, Nat.add_sub_add_right] at hp
        exact .alias hp hr

/-- The answer to a fetch leaves the expansions as they are. -/
theorem Answered.unfolds (h : source.Answered us us') (hu : source.Unfolds addresses us es) :
    source.Unfolds addresses us' es := by
  induction h generalizing es with
  | here =>
    cases hu with
    | pending hw hr => exact hw.unfolds_answer hr
  | inside _ ih =>
    cases hu with
    | «alias» hp hr => exact .alias (ih hp) hr
  | later _ ih =>
    cases hu with
    | pending hw hr => exact .pending hw (ih hr)
    | schema hr => exact .schema (ih hr)
    | «alias» hp hr => exact .alias hp (ih hr)
    | failed hr => exact .failed (ih hr)

/-! ### Leaves and failures of unfoldings -/

theorem Unfolds.schemasOf_eq (hu : source.Unfolds addresses us es) {leaves : List (String × Schema)}
    (hl : Unfolding.Leaves us leaves) :
    Expansion.schemasOf es = leaves ∧ ∀ depth, Expansion.failuresOf depth es = [] := by
  induction hl generalizing es with
  | nil =>
    cases hu
    exact ⟨rfl, fun _ => rfl⟩
  | schema _ ih =>
    cases hu with
    | schema hr =>
      obtain ⟨hs, hf⟩ := ih hr
      exact ⟨by rw [Expansion.schemasOf, Expansion.schemas, hs, List.singleton_append],
        fun depth => by rw [Expansion.failuresOf, Expansion.failures, hf, List.append_nil]⟩
  | «alias» _ _ ihBelow ihRest =>
    cases hu with
    | «alias» hp hr =>
      obtain ⟨hs, hf⟩ := ihBelow hp
      obtain ⟨hs', hf'⟩ := ihRest hr
      exact ⟨by rw [Expansion.schemasOf, Expansion.schemas, hs, hs'],
        fun depth => by rw [Expansion.failuresOf, Expansion.failures, hf, hf', List.append_nil]⟩

theorem Unfolds.mem_failuresOf (hu : source.Unfolds addresses us es) (hf : Unfolding.Fails f us)
    (depth : ℕ) : ∃ d, (d, f) ∈ Expansion.failuresOf depth es := by
  induction hf generalizing es depth with
  | here =>
    cases hu with
    | failed _ => exact ⟨depth, by simp [Expansion.failuresOf, Expansion.failures]⟩
  | inside _ ih =>
    cases hu with
    | «alias» hp _ =>
      obtain ⟨d, hd⟩ := ih hp (depth + 1)
      exact ⟨d, List.mem_append_left _ hd⟩
  | later _ ih =>
    cases hu with
    | pending _ hr | schema hr | «alias» _ hr | failed hr =>
      obtain ⟨d, hd⟩ := ih hr depth
      exact ⟨d, List.mem_append_right _ hd⟩

/-- Where no fetch is open, the failures of the expansions were met. -/
theorem Unfolds.fails_of_mem (hu : source.Unfolds addresses us es)
    (hs : ∀ us', ¬ source.Answered us us') {depth d : ℕ}
    (hm : (d, f) ∈ Expansion.failuresOf depth es) : Unfolding.Fails f us := by
  induction hu generalizing depth d with
  | nil => cases hm
  | pending _ _ _ => exact absurd .here (hs _)
  | schema _ ih =>
    rw [Expansion.failuresOf, Expansion.failures, List.nil_append] at hm
    exact .later (ih (fun _ h => hs _ (.later h)) hm)
  | «alias» _ _ ihBelow ihRest =>
    rcases List.mem_append.1 hm with hm | hm
    · exact .inside (ihBelow (fun _ h => hs _ (.inside h)) hm)
    · exact .later (ihRest (fun _ h => hs _ (.later h)) hm)
  | failed _ ih =>
    rcases List.mem_append.1 hm with hm | hm
    · cases List.mem_singleton.1 hm
      exact .here
    · exact .later (ih (fun _ h => hs _ (.later h)) hm)

/-- Where no fetch is open and nothing failed, the schemas can be handed over. -/
theorem Unfolds.exists_leaves (hu : source.Unfolds addresses us es)
    (hs : ∀ us', ¬ source.Answered us us') (hf : ∀ f, ¬ Unfolding.Fails f us) :
    ∃ leaves, Unfolding.Leaves us leaves := by
  induction hu with
  | nil => exact ⟨_, .nil⟩
  | pending _ _ _ => exact absurd .here (hs _)
  | schema _ ih =>
    obtain ⟨leaves, hl⟩ := ih (fun _ h => hs _ (.later h)) fun f h => hf f (.later h)
    exact ⟨_, .schema hl⟩
  | «alias» _ _ ihBelow ihRest =>
    obtain ⟨below, hb⟩ := ihBelow (fun _ h => hs _ (.inside h)) fun f h => hf f (.inside h)
    obtain ⟨leaves, hl⟩ := ihRest (fun _ h => hs _ (.later h)) fun f h => hf f (.later h)
    exact ⟨_, .alias hb hl⟩
  | failed _ _ => exact absurd .here (hf _)

/-! ### Every run ends -/

theorem acc_nil : Acc (flip source.Answered) [] := ⟨_, fun _ h => by cases h⟩

/-- Fetches side by side are answered in finitely many steps where each part of them is. -/
theorem acc_cons {u : Unfolding} {rest : List Unfolding} (hu : Acc (flip source.Answered) [u])
    (hr : Acc (flip source.Answered) rest) : Acc (flip source.Answered) (u :: rest) := by
  -- the parts are single unfoldings, which no step makes more of
  generalize hus : [u] = us at hu
  induction hu generalizing u rest with
  | intro us _ ihu =>
    subst hus
    induction hr with
    | intro rest hr ihr =>
      refine ⟨_, fun us' h => ?_⟩
      cases h with
      | here => exact ihu _ .here ⟨_, hr⟩ rfl
      | inside hp => exact ihu _ (.inside hp) ⟨_, hr⟩ rfl
      | later hr' => exact ihr _ hr'

theorem acc_alias {parts : List Unfolding} (h : Acc (flip source.Answered) parts) :
    Acc (flip source.Answered) [.alias a parts] := by
  induction h with
  | intro parts _ ih =>
    refine ⟨_, fun us' h => ?_⟩
    cases h with
    | inside hp => exact ih _ hp
    | later hr => cases hr

theorem acc_of_forall (h : ∀ u ∈ us, Acc (flip source.Answered) [u]) :
    Acc (flip source.Answered) us := by
  induction us with
  | nil => exact acc_nil
  | cons u rest ih =>
    exact acc_cons (h u List.mem_cons_self) (ih fun v hv => h v (List.mem_cons_of_mem _ hv))

/-- Each alias on the way to an address takes one of the addresses that hold something, so that a
fetch is followed by finitely many others. -/
theorem Way.acc_pending (h : source.Way addresses chain a) {steps : ℕ}
    (hs : source.addresses.length < chain.length + steps) :
    Acc (flip source.Answered) [.pending chain a] := by
  induction steps generalizing chain a with
  | zero => exact absurd h.length_le (by omega)
  | succ steps ih =>
    have hend : ∀ u : Unfolding, (∀ us, ¬ source.Answered [u] us) → Acc (flip source.Answered) [u] :=
      fun u hu => ⟨_, fun us ha => absurd ha (hu us)⟩
    refine ⟨_, fun us' ha => ?_⟩
    cases ha with
    | later hr => cases hr
    | here =>
      unfold answer
      split
      · exact hend _ fun us hn => by cases hn with | later hr => cases hr
      · next hm =>
        split
        · exact hend _ fun us hn => by cases hn with | later hr => cases hr
        · exact hend _ fun us hn => by cases hn with | later hr => cases hr
        · next al hf =>
          refine acc_alias (acc_of_forall ?_)
          rw [List.forall_mem_map]
          intro b hb
          exact ih (h.step hm ⟨al, hf, hb⟩) (by rw [List.length_append, List.length_singleton]; omega)
        · exact hend _ fun us hn => by cases hn with | later hr => cases hr

theorem acc_begun : Acc (flip source.Answered) (addresses.map (.pending [])) := by
  refine acc_of_forall ?_
  rw [List.forall_mem_map]
  intro a ha
  exact (Way.start ha).acc_pending (Nat.lt_of_lt_of_le (Nat.lt_succ_self _) (Nat.le_add_left _ _))

theorem acc_running (h : Acc (flip source.Answered) us) : Acc (flip source.Step) (.running us) := by
  induction h with
  | intro us _ ih =>
    refine ⟨_, fun state hs => ?_⟩
    cases hs with
    | answer ha => exact ih _ ha
    | «raise» _ => exact ⟨_, fun _ h => by cases h⟩
    | «return» _ => exact ⟨_, fun _ h => by cases h⟩

/-- All open fetches can be answered. -/
theorem exists_settled (h : Acc (flip source.Answered) us) :
    ∃ us', Relation.ReflTransGen source.Answered us us' ∧ ∀ us'', ¬ source.Answered us' us'' := by
  induction h with
  | intro us _ ih =>
    by_cases hs : ∃ us', source.Answered us us'
    · obtain ⟨us', ha⟩ := hs
      obtain ⟨us'', hr, hn⟩ := ih us' ha
      exact ⟨us'', .head ha hr, hn⟩
    · exact ⟨us, .refl, fun us' ha => hs ⟨us', ha⟩⟩

/-! ### What a run comes to -/

/-- What the states of a run have to do with the expansions of the addresses. -/
inductive Fits (source : Source) (addresses : List String) : ResolutionState → Prop
  /-- What is known is part of the expansions. -/
  | running {us : List Unfolding} : source.Unfolds addresses us (source.expansions addresses) →
      Fits source addresses (.running us)
  /-- What was handed over is what the addresses resolve to. -/
  | returned {set : Table Schema} : source.resolve addresses = .ok set → Fits source addresses (.returned set)
  /-- What was raised is a failure of the expansions. -/
  | raised {f : Failure} {depth : ℕ} : (depth, f) ∈ Expansion.failuresOf 0 (source.expansions addresses) →
      Fits source addresses (.raised f)

theorem resolve_of_leaves (hu : source.Unfolds addresses us (source.expansions addresses))
    {leaves : List (String × Schema)} (hl : Unfolding.Leaves us leaves) :
    source.resolve addresses = .ok (firstOfEach leaves) := by
  obtain ⟨hs, hf⟩ := hu.schemasOf_eq hl
  unfold resolve
  dsimp only
  rw [hf 0, hs]
  rfl

theorem Step.fits {state state' : ResolutionState} (h : source.Step state state')
    (hf : source.Fits addresses state) : source.Fits addresses state' := by
  cases h with
  | answer ha =>
    obtain ⟨hu⟩ := hf
    exact .running (ha.unfolds hu)
  | «raise» hm =>
    obtain ⟨hu⟩ := hf
    obtain ⟨d, hd⟩ := hu.mem_failuresOf hm 0
    exact .raised hd
  | «return» hl =>
    obtain ⟨hu⟩ := hf
    exact .returned (resolve_of_leaves hu hl)

theorem Comes.fits {state : ResolutionState} (h : source.Comes addresses state) :
    source.Fits addresses state := by
  induction h with
  | refl => exact .running unfolds_begun
  | tail _ hs ih => exact hs.fits ih

/-- A run that is not over can go on. -/
theorem Comes.exists_step (h : source.Comes addresses (.running us)) :
    ∃ state, source.Step (.running us) state := by
  obtain ⟨hu⟩ := h.fits
  by_cases ha : ∃ us', source.Answered us us'
  · obtain ⟨us', ha⟩ := ha
    exact ⟨_, .answer ha⟩
  · by_cases hf : ∃ f, Unfolding.Fails f us
    · obtain ⟨f, hf⟩ := hf
      exact ⟨_, .raise hf⟩
    · obtain ⟨leaves, hl⟩ := hu.exists_leaves (fun us' h => ha ⟨us', h⟩) fun f h => hf ⟨f, h⟩
      exact ⟨_, .return hl⟩

/-- Some run answers all fetches. -/
theorem exists_comes_settled (source : Source) (addresses : List String) : ∃ us, source.Comes addresses (.running us) ∧
    ∀ us', ¬ source.Answered us us' := by
  have hb : Acc (flip source.Answered) (addresses.map (.pending [])) := acc_begun
  obtain ⟨us, hr, hs⟩ := exists_settled hb
  exact ⟨us, hr.lift _ fun _ _ h => .answer h, hs⟩

/-- The sets that runs hand over are what the addresses resolve to. -/
theorem comes_returned_iff {set : Table Schema} :
    source.Comes addresses (.returned set) ↔ source.resolve addresses = .ok set := by
  constructor
  · intro h
    cases h.fits with
    | returned hr => exact hr
  · intro hr
    obtain ⟨us, hc, hs⟩ := exists_comes_settled source addresses
    obtain ⟨hu⟩ := hc.fits
    have hf : ∀ f, ¬ Unfolding.Fails f us := by
      intro f hf
      obtain ⟨d, hd⟩ := hu.mem_failuresOf hf 0
      rw [failuresOf_of_resolve hr] at hd
      cases hd
    obtain ⟨leaves, hl⟩ := hu.exists_leaves hs hf
    cases (resolve_of_leaves hu hl).symm.trans hr
    exact hc.tail (.return hl)

/-- The failures that runs raise are those of the expansions. -/
theorem comes_raised_iff : source.Comes addresses (.raised f) ↔
    ∃ depth, (depth, f) ∈ Expansion.failuresOf 0 (source.expansions addresses) := by
  constructor
  · intro h
    cases h.fits with
    | raised hd => exact ⟨_, hd⟩
  · rintro ⟨d, hd⟩
    obtain ⟨us, hc, hs⟩ := exists_comes_settled source addresses
    obtain ⟨hu⟩ := hc.fits
    exact hc.tail (.raise (hu.fails_of_mem hs hd))

/-! ### Why a resolution fails -/

/-- The reasons for which addresses cannot be resolved. -/
inductive Blocks (source : Source) (addresses : List String) : Failure → Prop
  /-- A way meets an alias again. -/
  | cycle {chain : List String} {a : String} : source.Way addresses chain a → a ∈ chain →
      Blocks source addresses (.aliasCycle (chain ++ [a]))
  /-- An address cannot be fetched. -/
  | fetch {a : String} {f : Failure} : source.Reachable addresses a → source.fetch a = .error f →
      Blocks source addresses f
  /-- An address holds a document. -/
  | document {a : String} {d : Document} : source.Reachable addresses a → source.fetch a = .ok (.document d) →
      Blocks source addresses (.unexpectedResource a "schema or alias" "document")

theorem Way.blocks_of_mem (h : source.Way addresses chain a) {steps depth d : ℕ}
    (hs : source.addresses.length < chain.length + steps)
    (hm : (d, f) ∈ (expand source.fetch steps chain a).failures depth) : source.Blocks addresses f := by
  induction steps generalizing chain a depth with
  | zero => exact absurd h.length_le (by omega)
  | succ steps ih =>
    rw [expand] at hm
    by_cases hc : a ∈ chain
    · rw [if_pos hc, Expansion.failures] at hm
      cases List.mem_singleton.1 hm
      exact .cycle h hc
    · rw [if_neg hc] at hm
      cases hf : source.fetch a with
      | error f =>
        rw [hf] at hm
        cases List.mem_singleton.1 hm
        exact .fetch h.reachable hf
      | ok r =>
        rw [hf] at hm
        cases r with
        | schema s => cases hm
        | document doc =>
          cases List.mem_singleton.1 hm
          exact .document h.reachable hf
        | «alias» al =>
          obtain ⟨e, he, hm⟩ := Expansion.mem_failuresOf.1 hm
          obtain ⟨b, hb, rfl⟩ := List.mem_map.1 he
          exact ih (h.step hc ⟨al, hf, hb⟩) (by rw [List.length_append, List.length_singleton]; omega) hm

/-- What a run raises is a reason for which the addresses cannot be resolved. -/
theorem Comes.blocks (h : source.Comes addresses (.raised f)) : source.Blocks addresses f := by
  obtain ⟨d, hd⟩ := comes_raised_iff.1 h
  obtain ⟨e, he, hm⟩ := Expansion.mem_failuresOf.1 hd
  obtain ⟨a, ha, rfl⟩ := List.mem_map.1 he
  exact (Way.start ha).blocks_of_mem (Nat.lt_of_lt_of_le (Nat.lt_succ_self _) (Nat.le_add_left _ _)) hm

/-! ### The contract of resolution -/

/-- What is asked of the resolution of a list of addresses. -/
structure ResolvesExactly (source : Source) (addresses : List String) : Prop where
  /-- There is a result exactly where all that the addresses lead to can be resolved and nothing
  leads back to itself. -/
  result : (∃ set, source.resolve addresses = .ok set) ↔ source.Expandable addresses
  /-- The result pairs each schema that the addresses lead to with its address, and nothing else. -/
  entries : ∀ set, source.resolve addresses = .ok set → ∀ a s,
    (a, s) ∈ set.entries ↔ source.Reachable addresses a ∧ source.fetch a = .ok (.schema s)
  /-- Each address stands once. -/
  once : ∀ set, source.resolve addresses = .ok set → set.keys.Nodup
  /-- It stands where it is met first. -/
  order : ∀ set, source.resolve addresses = .ok set →
    ∃ leaves, source.Expands addresses leaves ∧ set.keys = leaves.eraseDups
  /-- No run goes on for ever. -/
  ends : Acc (flip source.Step) (begun addresses)
  /-- A run that has not handed over or raised anything can go on. -/
  goesOn : ∀ us, source.Comes addresses (.running us) → ∃ state, source.Step (.running us) state
  /-- In whatever order the fetches are answered, a run hands over the result and nothing else. -/
  returned : ∀ set, source.Comes addresses (.returned set) ↔ source.resolve addresses = .ok set
  /-- A run raises a failure exactly where there is no result. -/
  raised : (∃ f, source.Comes addresses (.raised f)) ↔ ∃ f, source.resolve addresses = .error f
  /-- What is raised has a reason; only a way that meets an alias again is a cycle. -/
  reason : ∀ f, source.Comes addresses (.raised f) → source.Blocks addresses f

/-- **Resolution is exact and ends.** -/
theorem resolve_exact (source : Source) (addresses : List String) : source.ResolvesExactly addresses where
  result := exists_resolve_iff
  entries _ h _ _ := mem_entries_of_resolve_iff h
  once set _ := set.nodup
  order _ h := keys_of_resolve h
  ends := acc_running acc_begun
  goesOn _ h := h.exists_step
  returned _ := comes_returned_iff
  raised := by
    constructor
    · rintro ⟨f, h⟩
      obtain ⟨d, hd⟩ := comes_raised_iff.1 h
      cases hr : source.resolve addresses with
      | error f => exact ⟨f, rfl⟩
      | ok set =>
        rw [failuresOf_of_resolve hr] at hd
        cases hd
    · rintro ⟨f, h⟩
      exact ⟨f, comes_raised_iff.2 (mem_failuresOf_of_resolve h)⟩
  reason _ h := h.blocks

end Source

end ContentGraph
