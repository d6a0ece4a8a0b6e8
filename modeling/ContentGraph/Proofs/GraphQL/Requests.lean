import ContentGraph.GraphQL.Service
import ContentGraph.Proofs.GraphQL.Selections

/-!
# Requests that are served

What follows from a surface that is built and from a request that is valid on it: the surface is that
of a graph, and what the operations of the request ask for fits it.
-/

namespace ContentGraph.GraphQL

/-- A surface for some addresses is that of the graph they compile to. -/
theorem eq_ofGraph_of_build {source : Source} {settings : Settings} {addresses : List String}
    {graph : TypeGraph} {surface : Surface} (hne : addresses ≠ [])
    (hg : source.compile settings.hashLength.digits addresses = .ok graph)
    (hs : Surface.build source settings addresses = .ok surface) : surface = Surface.ofGraph graph := by
  rw [Surface.build, if_neg hne, hg] at hs
  change (graph.checkFieldNames >>= fun _ => Except.ok (Surface.ofGraph graph)) = .ok surface at hs
  cases hn : graph.checkFieldNames with
  | error e =>
    rw [hn] at hs
    cases hs
  | ok u =>
    rw [hn] at hs
    cases hs
    rfl

/-- Where all keys can be names of fields, there is a surface. -/
theorem build_eq_ofGraph {source : Source} {settings : Settings} {addresses : List String}
    {graph : TypeGraph} (hne : addresses ≠ [])
    (hg : source.compile settings.hashLength.digits addresses = .ok graph)
    (hn : graph.checkFieldNames.isOk = true) :
    Surface.build source settings addresses = .ok (Surface.ofGraph graph) := by
  rw [Surface.build, if_neg hne, hg]
  change (graph.checkFieldNames >>= fun _ => Except.ok (Surface.ofGraph graph)) = _
  cases hc : graph.checkFieldNames with
  | error e =>
    rw [hc] at hn
    cases hn
  | ok u => rfl

theorem whileServing_ofGateway (settings : Settings) (addresses : List String) (g : Gateway) :
    (Work.ofGateway g).whileServing settings addresses = .ofGateway g := by
  unfold Work.whileServing
  split <;> rfl

/-- Where there is a surface, a request is checked on it and then answered. -/
theorem Inquiry.serve_ofGateway {i : Inquiry} {g : Gateway} {settings : Settings} {addresses : List String}
    {surface : Surface} (hs : Surface.build g.source settings addresses = .ok surface) :
    i.serve settings addresses (.ofGateway g) =
      match i.check surface with
      | .error stage => (.refused stage, .ofGateway g)
      | .ok (kind, values, asked) =>
        match answer? surface settings addresses values kind asked (.ofGateway g) with
        | (some a, w) => (.answered a, w)
        | (none, w) => (.refused .checking, w) := by
  have hbuilt : Surface.build (Work.ofGateway g).gateway.source settings addresses = .ok surface := hs
  unfold Inquiry.serve
  rw [whileServing_ofGateway]
  generalize Surface.build (Work.ofGateway g).gateway.source settings addresses = built at hbuilt ⊢
  subst hbuilt
  rfl

theorem Request.mem_operations {r : Request} {name? : Option String} {o : Operation}
    (h : r.operation? name? = some o) : o ∈ r.operations := by
  unfold Request.operation? at h
  split at h
  · exact List.mem_of_find?_eq_some h
  · split at h
    · next ops hops =>
      cases h
      rw [hops]
      exact List.mem_cons_self
    · cases h

theorem Request.mem_selections {r : Request} {o : Operation} (h : o ∈ r.operations) :
    o.selections ∈ r.selections := by
  obtain ⟨part, hp, ho⟩ := List.mem_filterMap.1 h
  refine List.mem_map.2 ⟨part, hp, ?_⟩
  cases part with
  | operation o' =>
    cases ho
    rfl
  | fragment f => cases ho
  | type => cases ho

end ContentGraph.GraphQL
