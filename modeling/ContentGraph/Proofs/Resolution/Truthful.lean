import ContentGraph.Proofs.Resolution.Concurrency
import Mathlib.Data.List.Chain

/-!
# What a failed resolution says

A failure of a resolution names an address, or a chain of them. What it says of them is the case,
whichever of the failures that were met was raised (`Source.Comes.justifies`): the named address is
one that the given addresses lead to, and its fetch failed, gave nothing, gave what is no resource,
or gave a document. The chain of a cycle is a way that the store really holds, from one of the given
addresses back to an alias on it (`Source.Returns`).
-/

namespace ContentGraph

/-! ### Chains of aliases -/

namespace Source

/-- A chain of addresses leads from one of some addresses through aliases back to itself. -/
structure Returns (source : Source) (addresses chain : List String) : Prop where
  /-- It starts at one of the addresses. -/
  starts : ∃ a ∈ addresses, chain.head? = some a
  /-- Each address is named by the alias before it. -/
  named : chain.IsChain source.Names
  /-- All but the last hold aliases. -/
  aliases : ∀ a ∈ chain.dropLast, ∃ al, source.fetch a = .ok (.alias al)
  /-- All but the last are different. -/
  distinct : chain.dropLast.Nodup
  /-- The last is one of those before it. -/
  returns : ∃ a ∈ chain.dropLast, chain.getLast? = some a

variable {source : Source} {addresses chain : List String} {a : String}

namespace Way

theorem starts (h : source.Way addresses chain a) : ∃ b ∈ addresses, (chain ++ [a]).head? = some b := by
  induction h with
  | start ha => exact ⟨_, ha, rfl⟩
  | step _ _ _ ih =>
    obtain ⟨b, hb, hh⟩ := ih
    exact ⟨b, hb, by rw [List.head?_append, hh, Option.some_or]⟩

theorem isChain (h : source.Way addresses chain a) : (chain ++ [a]).IsChain source.Names := by
  induction h with
  | start _ => exact .singleton _
  | step _ _ hn ih =>
    refine ih.append (.singleton _) fun x hx y hy => ?_
    rw [List.getLast?_concat, Option.mem_some_iff] at hx
    rw [List.head?_singleton, Option.mem_some_iff] at hy
    rwa [← hx, ← hy]

theorem aliases (h : source.Way addresses chain a) :
    ∀ b ∈ chain, ∃ al, source.fetch b = .ok (.alias al) := by
  induction h with
  | start _ => simp
  | step _ _ hn ih =>
    intro b hb
    rcases List.mem_append.1 hb with hb | hb
    · exact ih b hb
    · cases List.mem_singleton.1 hb
      obtain ⟨al, hal, -⟩ := hn
      exact ⟨al, hal⟩

/-- A way that meets an alias again is a chain that returns. -/
theorem returns (h : source.Way addresses chain a) (hm : a ∈ chain) :
    source.Returns addresses (chain ++ [a]) where
  starts := h.starts
  named := h.isChain
  aliases := by
    rw [List.dropLast_concat]
    exact h.aliases
  distinct := by
    rw [List.dropLast_concat]
    exact h.nodup
  returns := ⟨a, by rwa [List.dropLast_concat], List.getLast?_concat⟩

end Way

end Source

/-! ### Fetches that fail -/

namespace Gateway

/-- A fetch from an address gives nothing that could be read, for a reason. -/
inductive Unfetched (g : Gateway) (address : String) : String → Prop
  /-- The fetch fails with a message. -/
  | failed {message : String} : g.fetchFaults.get? address = some (.unknown message) →
      Unfetched g address message
  /-- The fetch gives nothing. -/
  | gaveNothing : g.fetchFaults.get? address = some .nothing → Unfetched g address nothingFetched
  /-- Nothing is stored at the address. -/
  | missing : g.fetchFaults.get? address = none → g.store.contents.get? address = none →
      Unfetched g address (Store.missing address)
  /-- What is stored at the address says that there is nothing. -/
  | null {text : String} : g.fetchFaults.get? address = none →
      g.store.contents.get? address = some text → Json.parse? text = some .null →
      Unfetched g address nothingFetched

/-- What is stored at an address is no resource, for some issues. -/
inductive HoldsMalformed (g : Gateway) (address : String) : List Issue → Prop
  /-- It is no value at all. -/
  | text {text : String} : g.fetchFaults.get? address = none →
      g.store.contents.get? address = some text → Json.parse? text = none → HoldsMalformed g address []
  /-- It is a value that cannot be read as a resource. -/
  | value {text : String} {v : Json} {first : Issue} {more : List Issue} :
      g.fetchFaults.get? address = none → g.store.contents.get? address = some text →
      Json.parse? text = some v → Resource.ofJson v = .refused first more →
      HoldsMalformed g address (first :: more)

variable {g : Gateway} {addresses : List String} {address : String} {f : Failure}

/-- The ways in which a fetch fails. -/
theorem fetch_eq_error (h : g.fetch address = .error f) :
    (∃ reason, f = .fetchFailed address reason ∧ g.Unfetched address reason) ∨
      (∃ issues, f = .malformed address issues ∧ g.HoldsMalformed address issues) ∨
      ∃ message, f = .raised message ∧ g.fetchFaults.get? address = some (.own message) := by
  unfold fetch at h
  split at h
  · next hf =>
    cases h
    exact .inl ⟨_, rfl, .failed hf⟩
  · next hf =>
    cases h
    exact .inr (.inr ⟨_, rfl, hf⟩)
  · next hf =>
    cases h
    exact .inl ⟨_, rfl, .gaveNothing hf⟩
  · next hf =>
    split at h
    · next hc =>
      cases h
      exact .inl ⟨_, rfl, .missing hf hc⟩
    · next hc =>
      split at h
      · next hp =>
        cases h
        exact .inr (.inl ⟨_, rfl, .text hf hc hp⟩)
      · next hp =>
        cases h
        exact .inl ⟨_, rfl, .null hf hc hp⟩
      · next hp =>
        split at h
        · cases h
        · next hr =>
          cases h
          exact .inr (.inl ⟨_, rfl, .value hf hc hp hr⟩)

/-! ### Failures of a resolution -/

/-- What a failure says of the addresses that some addresses lead to is the case. -/
def Justifies (g : Gateway) (addresses : List String) : Failure → Prop
  | .fetchFailed a reason => g.source.Reachable addresses a ∧ g.Unfetched a reason
  | .malformed a issues => g.source.Reachable addresses a ∧ g.HoldsMalformed a issues
  | .unexpectedResource a expected actual =>
    g.source.Reachable addresses a ∧ (∃ d, g.fetch a = .ok (.document d)) ∧
      expected = "schema or alias" ∧ actual = "document"
  | .aliasCycle chain => g.source.Returns addresses chain
  | .raised message => ∃ a, g.source.Reachable addresses a ∧ g.fetchFaults.get? a = some (.own message)
  -- no other failure is one of resolution
  | _ => False

theorem justifies_of_blocks (h : g.source.Blocks addresses f) : g.Justifies addresses f := by
  cases h with
  | cycle hw hm => exact hw.returns hm
  | @fetch a _ hr hf =>
    rcases fetch_eq_error hf with ⟨reason, rfl, hu⟩ | ⟨issues, rfl, hm⟩ | ⟨message, rfl, ho⟩
    · exact ⟨hr, hu⟩
    · exact ⟨hr, hm⟩
    · exact ⟨a, hr, ho⟩
  | document hr hd => exact ⟨hr, ⟨_, hd⟩, rfl, rfl⟩

end Gateway

/-- The failure that a resolution gives up with, one of those that can be raised, is justified. -/
theorem Source.justified_of_resolve {g : Gateway} {addresses : List String} {f : Failure}
    (h : g.source.resolve addresses = .error f) : g.Justifies addresses f :=
  Gateway.justifies_of_blocks (comes_raised_iff.2 (mem_failuresOf_of_resolve h)).blocks

/-- **What a resolution raises is justified**, in whatever order the fetches are answered and
whichever of the failures that were met is raised. -/
theorem Source.Comes.justifies {g : Gateway} {addresses : List String} {f : Failure}
    (h : g.source.Comes addresses (.raised f)) : g.Justifies addresses f :=
  Gateway.justifies_of_blocks h.blocks

/-- A team of staff, which names the team again, and of guests, who cannot be fetched. -/
def loopGateway : Gateway where
  store := ((Store.empty "omg://").putRaw "team" (.object [("kind", .text "alias"), ("name", .text "Team"),
      ("schemas", .texts ["staff", "guests"])])).putRaw
    "staff" (.object [("kind", .text "alias"), ("name", .text "Staff"), ("schemas", .texts ["team"])])
  fetchFaults := .ofList [("guests", .unknown "connection lost")]
  storeFault := none

/-- Either of two failures can be raised for the team, and each is justified. -/
theorem Source.Comes.justifies_loop :
    (loopGateway.source.Comes ["team"] (.raised (.aliasCycle ["team", "staff", "team"])) ∧
      loopGateway.Justifies ["team"] (.aliasCycle ["team", "staff", "team"])) ∧
    loopGateway.source.Comes ["team"] (.raised (.fetchFailed "guests" "connection lost")) ∧
      loopGateway.Justifies ["team"] (.fetchFailed "guests" "connection lost") := by
  have hcycle : ((Expansion.failuresOf 0 (loopGateway.source.expansions ["team"])).any fun
      | (_, .aliasCycle chain) => chain = ["team", "staff", "team"]
      | _ => false) = true := by
    decide +kernel
  have hfetch : ((Expansion.failuresOf 0 (loopGateway.source.expansions ["team"])).any fun
      | (_, .fetchFailed address reason) => address = "guests" && reason = "connection lost"
      | _ => false) = true := by
    decide +kernel
  have hc : loopGateway.source.Comes ["team"] (.raised (.aliasCycle ["team", "staff", "team"])) := by
    obtain ⟨df, hm, hp⟩ := List.any_eq_true.1 hcycle
    split at hp
    · obtain rfl := of_decide_eq_true hp
      exact comes_raised_iff.2 ⟨_, hm⟩
    · cases hp
  have hf : loopGateway.source.Comes ["team"] (.raised (.fetchFailed "guests" "connection lost")) := by
    obtain ⟨df, hm, hp⟩ := List.any_eq_true.1 hfetch
    split at hp
    · obtain ⟨rfl, rfl⟩ : _ ∧ _ := by simpa using hp
      exact comes_raised_iff.2 ⟨_, hm⟩
    · cases hp
  exact ⟨⟨hc, hc.justifies⟩, hf, hf.justifies⟩

end ContentGraph
