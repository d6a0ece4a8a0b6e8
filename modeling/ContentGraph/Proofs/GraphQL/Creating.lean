import ContentGraph.Proofs.Document.Refusal
import ContentGraph.Proofs.Document.Rewriting
import ContentGraph.Proofs.Document.RoundTrip
import ContentGraph.Proofs.GraphQL.CreationRequests

/-!
# Creating documents by request

A request that creates a document from the value of a variable does what `createDocument` does with
that value: the store is left behind the same, the address is told exactly where there is one, and a
failure is told where there is none (`serve_createDocument`). An integer that is no 64-bit number is an
exception, as it may be refused before anything is created (`not_createdAlike_peers`).

The request is refused, or the document is created from what the value stands for at the input type of
the root, with the graph of the surface in place of one compiled now. What is created depends on the
normal form of a payload alone, which is the same for both (`validatePayload_coerced`), and a payload
that is accepted stands for something (`exists_coerced_payload`).
-/

namespace ContentGraph

/-! ### Payloads with one normal form -/

section

variable {s : Settings} {addresses : List String} {validator validator' : Option TypeGraph} {g : Gateway}
  {graph : TypeGraph} {p p' : Json}

theorem validatorFor_eq (hg : (validatorFor s addresses validator (.ofGateway g)).1 = .ok graph) :
    validatorFor s addresses validator (.ofGateway g) = (.ok graph, .ofGateway g) :=
  Prod.ext hg (snd_validatorFor s addresses validator g)

theorem createDocument_of_refused {f : Failure}
    (hg : (validatorFor s addresses validator (.ofGateway g)).1 = .ok graph)
    (h : graph.validatePayload p = .error f) :
    createDocument s p addresses validator (.ofGateway g) = (.error (.failure f), .ofGateway g) := by
  simp only [createDocument, materialize, validatorFor_eq hg, h]

/-- Payloads with one normal form are created alike. -/
theorem createDocument_congr {v : Json}
    (hg : (validatorFor s addresses validator (.ofGateway g)).1 = .ok graph)
    (hg' : (validatorFor s addresses validator' (.ofGateway g)).1 = .ok graph)
    (h : graph.validatePayload p = .ok v) (h' : graph.validatePayload p' = .ok v) :
    createDocument s p addresses validator (.ofGateway g)
      = createDocument s p' addresses validator' (.ofGateway g) := by
  simp only [createDocument, materialize, validatorFor_eq hg, validatorFor_eq hg', h, h']

/-- A document is created from a payload that is accepted, where the store takes every document. -/
theorem exists_createDocument {v : Json} (hsound : g.storeFault = none)
    (hg : g.source.compile s.hashLength.digits addresses = .ok graph) (hn : graph.DistinctNames)
    (hkeys : graph.NamesKeys) (h : graph.validatePayload p = .ok v) :
    ∃ address, (createDocument s p addresses none (.ofGateway g)).1 = .ok address := by
  have hplan := graph.buildable_ofPayload (Source.closed_of_compile hg) hn hkeys h addresses
  obtain ⟨d, w, calls, hwrite, hl⟩ := Work.exists_write s.version hplan hsound
  obtain ⟨-, address, ha⟩ := Gateway.save_of_sound (hl.not_failed hsound).1 (.document d)
  refine ⟨address, ?_⟩
  have hgraph : (validatorFor s addresses none (.ofGateway g)).1 = .ok graph := hg
  have hm : materialize s p addresses none (.ofGateway g) = (.ok d, w) := by
    rw [← hwrite]
    simp only [materialize, validatorFor_eq hgraph, h]
  rw [createDocument, hm]
  show Except.ofFailure (w.gateway.save (.document d)).1 = _
  rw [ha]
  rfl

end

namespace GraphQL

open Payload (givesLists membersGiveLists itemsGiveLists)

/-! ### Replies -/

/-- A reply tells an address, and of no problem. -/
def Reply.TellsAddress (reply : Reply) (call key : FieldCall) (address : String) : Prop :=
  ∃ a, reply = .answered a ∧ a.problems = [] ∧
    a.value = .object [(call.response, .object [(key.response, .text address)])]

/-- A reply tells of a failure, and no address. -/
def Reply.TellsFailure (reply : Reply) (call : FieldCall) : Prop :=
  (∃ stage, reply = .refused stage) ∨
    ∃ a, reply = .answered a ∧ a.problems ≠ [] ∧ a.value = .object [(call.response, .null)]

/-- A document is created by request as it is without one. -/
structure CreatedAlike (call key : FieldCall) (served : Reply × Work) (plain : Except Fault String × Work) :
    Prop where
  /-- An address is told exactly where there is one, and it is that address. -/
  address : ∀ address, served.1.TellsAddress call key address ↔ plain.1 = .ok address
  /-- A failure is told where there is one. -/
  failure : ∀ fault, plain.1 = .error fault → served.1.TellsFailure call
  /-- The store is left behind the same. -/
  work : served.2 = plain.2

section

variable {call key : FieldCall} {address : String}

theorem tellsAddress_createdAnswer {outcome : Except Fault String} :
    (Reply.answered (createdAnswer call key outcome)).TellsAddress call key address ↔ outcome = .ok address := by
  constructor
  · rintro ⟨a, he, -, hv⟩
    cases he
    cases outcome with
    | ok other =>
      simp only [createdAnswer, Answer.ofFields, Answer.ofValue, List.map_cons, List.map_nil, Json.object.injEq,
        List.cons.injEq, Prod.mk.injEq, Json.text.injEq] at hv
      rw [hv.1.2.1.2]
    | error fault =>
      simp [createdAnswer, Answer.ofFields, Answer.failed] at hv
  · rintro rfl
    exact ⟨_, rfl, rfl, rfl⟩

theorem tellsFailure_createdAnswer (fault : Fault) :
    (Reply.answered (createdAnswer call key (.error fault))).TellsFailure call :=
  .inr ⟨_, rfl, List.cons_ne_nil _ _, rfl⟩

theorem Reply.TellsFailure.not_tellsAddress {reply : Reply} (h : reply.TellsFailure call) :
    ¬ reply.TellsAddress call key address := by
  rintro ⟨a, rfl, hp, -⟩
  rcases h with ⟨stage, he⟩ | ⟨b, he, hb, -⟩
  · cases he
  · cases he
    exact hb hp

/-- Failures are alike where the store is left behind the same. -/
theorem createdAlike_of_failure {reply : Reply} (h : reply.TellsFailure call) (fault : Fault) (w : Work) :
    CreatedAlike call key (reply, w) (.error fault, w) where
  address _ := ⟨fun ha => absurd ha h.not_tellsAddress, fun ha => nomatch ha⟩
  failure _ _ := h
  work := rfl

/-- An answer with the outcome of a creation is like it. -/
theorem createdAlike_createdAnswer (plain : Except Fault String × Work) :
    CreatedAlike call key (.answered (createdAnswer call key plain.1), plain.2) plain where
  address _ := tellsAddress_createdAnswer
  failure fault h := by
    dsimp only
    rw [h]
    exact tellsFailure_createdAnswer fault
  work := rfl

end

/-! ### Peers -/

/-- A node whose peer has a mark. -/
def markedPayload (mark : Int) : Json :=
  .object [("peer", .list [.object [("mark", .list [.integer mark]), ("name", .text "Bo")]]), ("name", .text "Al")]

/-- A mark that is no 64-bit number, though one is nearest to it. -/
def inexactMark : Int := 2 ^ 53 + 1

/-- The surface of peers is served, and the second mark cannot be given on it. -/
structure ServesPeers (graph : TypeGraph) : Prop where
  /-- The graph is compiled. -/
  compiled : (Gateway.ofStore peerStore).source.compile Settings.default.hashLength.digits ["p"] = .ok graph
  /-- No two types have one name. -/
  distinctNames : graph.DistinctNames
  /-- No key is empty. -/
  namesKeys : graph.NamesKeys
  /-- There is a surface. -/
  built : Surface.build (Gateway.ofStore peerStore).source .default ["p"] = .ok (Surface.ofGraph graph)
  /-- It takes requests. -/
  notReserved : (Surface.ofGraph graph).hasReservedName = false
  /-- Marks are given in lists. -/
  givesLists : ∀ mark ∈ [3, inexactMark], graph.givesLists (markedPayload mark) = true
  /-- A mark that is no number is accepted. -/
  accepted : ∃ v, graph.validatePayload (markedPayload inexactMark) = .ok v
  /-- It cannot be given. -/
  refused : coerce? (Surface.ofGraph graph) (markedPayload inexactMark) (.nonNull (.named rootInputName)) = none

theorem exists_servesPeers : ∃ graph, ServesPeers graph := by
  have hrun : ((Gateway.ofStore peerStore).source.compile Settings.default.hashLength.digits
      ["p"]).toOption.any (fun graph => decide graph.DistinctNames && decide graph.NamesKeys &&
        graph.checkFieldNames.isOk && !(Surface.ofGraph graph).hasReservedName &&
        ([3, inexactMark].all fun mark => graph.givesLists (markedPayload mark)) &&
        ((graph.validatePayload (markedPayload inexactMark)).toOption.any fun _ => true) &&
        (coerce? (Surface.ofGraph graph) (markedPayload inexactMark)
          (.nonNull (.named rootInputName))).isNone) = true := by
    decide +kernel
  obtain ⟨graph, hg, hrun⟩ := exists_ok_of_any hrun
  simp only [Bool.and_eq_true, decide_eq_true_eq, Bool.not_eq_true', List.all_eq_true,
    Option.isNone_iff_eq_none] at hrun
  obtain ⟨⟨⟨⟨⟨⟨hd, hkeys⟩, hnames⟩, hr⟩, hlists⟩, hvalid⟩, hc⟩ := hrun
  obtain ⟨v, hv, -⟩ := exists_ok_of_any hvalid
  exact ⟨graph, hg, hd, hkeys, build_eq_ofGraph (by decide) hg hnames, hr, hlists, ⟨v, hv⟩, hc⟩

theorem ServesPeers.creates {graph : TypeGraph} (h : ServesPeers graph) (doc : Json) :
    (createInquiry doc).Creates (Surface.ofGraph graph) ⟨[.operation createOperation]⟩ createOperation
      createCall keyCall "doc" doc := creates_createInquiry (Source.titled_of_compile h.compiled) doc

/-! ### Creation by request -/

section

variable {g : Gateway} {settings : Settings} {addresses : List String} {graph : TypeGraph}
  {surface : Surface} {i : Inquiry} {r : Request} {o : Operation} {call key : FieldCall} {name : String}
  {doc : Json}

/-- **A document is created by request as it is without one**: the same address is told, or a failure,
and the same is stored. Only a value with an integer that is no 64-bit number may be refused instead, and
then nothing is stored. -/
theorem serve_createDocument (hne : addresses ≠ [])
    (hg : g.source.compile settings.hashLength.digits addresses = .ok graph) (hd : graph.DistinctNames)
    (hs : Surface.build g.source settings addresses = .ok surface) (hr : surface.hasReservedName = false)
    (hi : i.Creates surface r o call key name doc) (htakes : i.Takes doc)
    (hfinite : doc.hasFiniteNumbers = true) (hlists : graph.givesLists doc = true) :
    CreatedAlike call key (i.serve settings addresses (.ofGateway g))
        (createDocument settings doc addresses none (.ofGateway g)) ∨
      i.serve settings addresses (.ofGateway g) = (.refused .checking, .ofGateway g) ∧
        doc.hasExactIntegers = false := by
  have hsurface := eq_ofGraph_of_build hne hg hs
  have ht := Source.titled_of_compile hg
  have hc := Source.closed_of_compile hg
  rw [hi.serve_eq hs hr htakes]
  subst hsurface
  have hplain : (validatorFor settings addresses none (.ofGateway g)).1 = .ok graph := hg
  have hserved : (validatorFor settings addresses (Surface.ofGraph graph).graph (.ofGateway g)).1 = .ok graph := rfl
  cases hu : coerce? (Surface.ofGraph graph) doc (.nonNull (.named rootInputName)) with
  | none =>
    cases hexact : doc.hasExactIntegers with
    | false => exact .inr ⟨rfl, rfl⟩
    | true =>
      -- nothing that is accepted is refused here
      cases hv : graph.validatePayload doc with
      | ok v =>
        obtain ⟨u, hu'⟩ := exists_coerced_payload ht hd hc hfinite hexact hv
        cases hu.symm.trans hu'
      | error f =>
        rw [createDocument_of_refused hplain hv]
        exact .inl (createdAlike_of_failure (.inl ⟨_, rfl⟩) _ _)
  | some u =>
    have hiff := fun v => validatePayload_coerced (w := v) ht hd hc hlists hu
    dsimp only
    cases hv : graph.validatePayload doc with
    | ok v =>
      rw [createDocument_congr hplain hserved hv ((hiff v).1 hv)]
      exact .inl (createdAlike_createdAnswer _)
    | error f =>
      cases hvu : graph.validatePayload u with
      | ok v => cases hv.symm.trans ((hiff v).2 hvu)
      | error f' =>
        rw [createDocument_of_refused hplain hv, createDocument_of_refused hserved hvu]
        exact .inl (createdAlike_of_failure (tellsFailure_createdAnswer _) _ _)

end

theorem serve_createDocument_peers : ∃ graph surface,
    (Gateway.ofStore peerStore).source.compile Settings.default.hashLength.digits ["p"] = .ok graph ∧
    graph.DistinctNames ∧
    Surface.build (Gateway.ofStore peerStore).source .default ["p"] = .ok surface ∧
    surface.hasReservedName = false ∧
    (createInquiry (markedPayload 3)).Creates surface ⟨[.operation createOperation]⟩ createOperation createCall
      keyCall "doc" (markedPayload 3) ∧
    (createInquiry (markedPayload 3)).Takes (markedPayload 3) ∧
    (markedPayload 3).hasFiniteNumbers = true ∧ graph.givesLists (markedPayload 3) = true ∧
    CreatedAlike createCall keyCall
      ((createInquiry (markedPayload 3)).serve .default ["p"] (.ofGateway (.ofStore peerStore)))
      (createDocument .default (markedPayload 3) ["p"] none (.ofGateway (.ofStore peerStore))) := by
  obtain ⟨graph, h⟩ := exists_servesPeers
  have hi := h.creates (markedPayload 3)
  have htakes := Inquiry.takes_of_eq_none (i := createInquiry (markedPayload 3)) rfl (markedPayload 3)
  have hfinite : (markedPayload 3).hasFiniteNumbers = true := by decide +kernel
  have hlists := h.givesLists 3 List.mem_cons_self
  refine ⟨graph, _, h.compiled, h.distinctNames, h.built, h.notReserved, hi, htakes, hfinite, hlists, ?_⟩
  refine (serve_createDocument (by decide) h.compiled h.distinctNames h.built h.notReserved hi htakes
    hfinite hlists).resolve_right ?_
  have hexact : (markedPayload 3).hasExactIntegers = true := by decide +kernel
  rintro ⟨-, hinexact⟩
  cases hexact.symm.trans hinexact

/-- A payload with an integer that is no 64-bit number is accepted, and refused where it is given. -/
theorem not_createdAlike_peers : ∃ graph surface,
    (Gateway.ofStore peerStore).source.compile Settings.default.hashLength.digits ["p"] = .ok graph ∧
    graph.DistinctNames ∧
    Surface.build (Gateway.ofStore peerStore).source .default ["p"] = .ok surface ∧
    surface.hasReservedName = false ∧
    (createInquiry (markedPayload inexactMark)).Creates surface ⟨[.operation createOperation]⟩ createOperation
      createCall keyCall "doc" (markedPayload inexactMark) ∧
    (createInquiry (markedPayload inexactMark)).Takes (markedPayload inexactMark) ∧
    (markedPayload inexactMark).hasFiniteNumbers = true ∧
    graph.givesLists (markedPayload inexactMark) = true ∧
    ∃ address, (createDocument .default (markedPayload inexactMark) ["p"] none
        (.ofGateway (.ofStore peerStore))).1 = .ok address ∧
      ¬ ((createInquiry (markedPayload inexactMark)).serve .default ["p"]
        (.ofGateway (.ofStore peerStore))).1.TellsAddress createCall keyCall address := by
  obtain ⟨graph, h⟩ := exists_servesPeers
  have hi := h.creates (markedPayload inexactMark)
  have htakes := Inquiry.takes_of_eq_none (i := createInquiry (markedPayload inexactMark)) rfl
    (markedPayload inexactMark)
  have hlists := h.givesLists inexactMark (by simp)
  obtain ⟨v, hv⟩ := h.accepted
  obtain ⟨address, ha⟩ := exists_createDocument rfl h.compiled h.distinctNames h.namesKeys hv
  refine ⟨graph, _, h.compiled, h.distinctNames, h.built, h.notReserved, hi, htakes, by decide +kernel, hlists,
    address, ha, ?_⟩
  rw [hi.serve_eq h.built h.notReserved htakes, h.refused]
  exact Reply.TellsFailure.not_tellsAddress (.inl ⟨_, rfl⟩)

end GraphQL

end ContentGraph
