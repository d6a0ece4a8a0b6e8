import ContentGraph.Proofs.TypeGraph.Reachable

/-!
# Walking through a type graph

A walk keeps a stack of nodes and the nodes that it has seen. It takes the topmost node from the stack;
one that was seen before is dropped, and from a new one it goes on to the nodes that this one leads to,
which are put on the stack, seen or not. So a node may stand on the stack many times, and the stack may
grow while the walk goes on.

A walk ends, since there are only so many nodes to be new. It sees what a search finds, in the same order,
and takes one step for each node that was ever put on the stack (`Unwalked.walk`). The search itself looks
at the first pending node that is left (`search_eq_cons`); that what is not left may as well not be
pending is `search_congr`.

The main statement is `TypeGraph.reachable_walked`: the types that are reached from a root are those
that the walk sees, the root first, each once, all that node fields lead to and no others, whatever order
the fields are in.
-/

namespace ContentGraph

/-! ### Searches and walks -/

/-- A walk with some nodes seen and some on the stack, the topmost first, ends after a number of steps and
has then seen others as well. -/
inductive Walk (next : String → List String) : List String → List String → ℕ → List String → Prop where
  /-- The stack is empty. -/
  | done {seen : List String} : Walk next seen [] 0 seen
  /-- The topmost node was seen before. -/
  | known {seen stack found : List String} {i : String} {n : ℕ} (hi : i ∈ seen)
      (h : Walk next seen stack n found) : Walk next seen (i :: stack) (n + 1) found
  /-- The topmost node is new, and what it leads to is put on the stack. -/
  | new {seen stack found : List String} {i : String} {n : ℕ} (hi : i ∉ seen)
      (h : Walk next (seen ++ [i]) (next i ++ stack) n found) : Walk next seen (i :: stack) (n + 1) found

section

variable {next next' : String → List String} {remaining pending pending' seen stack found : List String}
  {i : String} {n : ℕ}

/-- A walk ends in one way only. -/
theorem Walk.unique {n' : ℕ} {found' : List String} (h : Walk next seen stack n found)
    (h' : Walk next seen stack n' found') : n = n' ∧ found = found' := by
  induction h generalizing n' found' with
  | done =>
    cases h'
    exact ⟨rfl, rfl⟩
  | known hi _ ih =>
    cases h' with
    | known _ h' =>
      obtain ⟨rfl, rfl⟩ := ih h'
      exact ⟨rfl, rfl⟩
    | new hi' _ => exact absurd hi hi'
  | new hi _ ih =>
    cases h' with
    | known hi' _ => exact absurd hi' hi
    | new _ h' =>
      obtain ⟨rfl, rfl⟩ := ih h'
      exact ⟨rfl, rfl⟩

theorem filter_contains_of_subset {as bs rest rest' : List String} (hs : rest' ⊆ rest)
    (h : as.filter rest.contains = bs.filter rest.contains) :
    as.filter rest'.contains = bs.filter rest'.contains := by
  have hboth : ∀ cs : List String,
      cs.filter rest'.contains = (cs.filter rest.contains).filter rest'.contains := by
    intro cs
    rw [List.filter_filter]
    refine List.filter_congr fun c _ => ?_
    by_cases hc : c ∈ rest'
    · simp [hc, hs hc]
    · simp [hc]
  rw [hboth as, hboth bs, h]

/-- A search depends only on what is left of that which is pending and of that which nodes lead to. -/
theorem search_congr (hp : pending.filter remaining.contains = pending'.filter remaining.contains)
    (hnext : ∀ i, (next i).filter remaining.contains = (next' i).filter remaining.contains) :
    search next remaining pending = search next' remaining pending' := by
  have hsame : pending.find? remaining.contains = pending'.find? remaining.contains := by
    rw [← List.head?_filter, ← List.head?_filter, hp]
  induction remaining, pending using search.induct next generalizing pending' with
  | case1 remaining pending hf => rw [search_eq_nil hf, search_eq_nil (hsame.symm.trans hf)]
  | case2 remaining pending found hf ih =>
    rw [search_eq_cons hf, search_eq_cons (hsame.symm.trans hf)]
    have hsub : remaining.erase found ⊆ remaining := List.erase_subset
    have hp' : (next found ++ pending).filter (remaining.erase found).contains
        = (next' found ++ pending').filter (remaining.erase found).contains := by
      refine filter_contains_of_subset hsub ?_
      rw [List.filter_append, List.filter_append, hp, hnext]
    refine congrArg (found :: ·) (ih hp' (fun i => filter_contains_of_subset hsub (hnext i)) ?_)
    rw [← List.head?_filter, ← List.head?_filter, hp']

/-- A node that is not left may as well not be pending. -/
theorem search_drop (h : i ∉ remaining) (before after : List String) :
    search next remaining (before ++ i :: after) = search next remaining (before ++ after) := by
  refine search_congr ?_ fun _ => rfl
  simp [List.filter_append, h]

/-- What a walk has not seen yet: all that it can come to are nodes that it has seen or that are left. -/
structure Unwalked (next : String → List String) (remaining seen stack : List String) : Prop where
  /-- No node is left twice. -/
  nodup : remaining.Nodup
  /-- No node that is left was seen. -/
  new : ∀ i ∈ remaining, i ∉ seen
  /-- What is on the stack was seen or is left. -/
  stack : ∀ i ∈ stack, i ∈ seen ∨ i ∈ remaining
  /-- So is what the nodes lead to that are left. -/
  next : ∀ i ∈ remaining, ∀ j ∈ next i, j ∈ seen ∨ j ∈ remaining

namespace Unwalked

variable {rest : List String}

theorem known (h : Unwalked next remaining seen (i :: rest)) : Unwalked next remaining seen rest :=
  ⟨h.nodup, h.new, fun j hj => h.stack j (List.mem_cons_of_mem i hj), h.next⟩

/-- The step to a new node sees it and leaves the others. -/
theorem step (h : Unwalked next remaining seen (i :: rest)) (hi : i ∈ remaining) :
    Unwalked next (remaining.erase i) (seen ++ [i]) (next i ++ rest) := by
  have hkeep : ∀ j, j ∈ seen ∨ j ∈ remaining → j ∈ seen ++ [i] ∨ j ∈ remaining.erase i := by
    intro j hj
    by_cases he : j = i
    · simp [he]
    · simpa [he, List.mem_erase_of_ne] using hj
  refine ⟨h.nodup.erase i, fun j hj => ?_, fun j hj => ?_, fun k hk j hj => ?_⟩
  · have hne : j ≠ i := fun he => h.nodup.not_mem_erase (he ▸ hj)
    simp [h.new j (List.mem_of_mem_erase hj), hne]
  · rcases List.mem_append.1 hj with hj | hj
    · exact hkeep j (h.next i hi j hj)
    · exact hkeep j (h.stack j (List.mem_cons_of_mem i hj))
  · exact hkeep j (h.next k (List.mem_of_mem_erase hk) j hj)

/-- **A walk ends and sees what a search finds**, in one step for each node that is ever on the stack.
Each step leaves fewer nodes, or as many with fewer on the stack. -/
theorem walk (h : Unwalked next remaining seen stack) :
    Walk next seen stack (stack.length + ((search next remaining stack).flatMap next).length)
      (seen ++ search next remaining stack) := by
  induction hm : remaining.length using Nat.strongRecOn generalizing remaining seen stack with
  | _ m ih =>
    induction stack with
    | nil =>
      rw [search_eq_nil rfl, List.append_nil]
      exact .done
    | cons i rest ihrest =>
      rcases h.stack i List.mem_cons_self with hi | hi
      · -- a node that was seen before is not left
        have hleft : i ∉ remaining := fun hr => h.new i hr hi
        have hsearch : search next remaining (i :: rest) = search next remaining rest :=
          search_drop hleft [] rest
        rw [hsearch, List.length_cons, Nat.add_right_comm]
        exact .known hi (ihrest h.known)
      · have hf : (i :: rest).find? remaining.contains = some i := by
          simp [hi]
        have hsearch : search next remaining (i :: rest)
            = i :: search next (remaining.erase i) (next i ++ rest) := by
          rw [search_eq_cons hf, search_drop h.nodup.not_mem_erase]
        have hsteps : (i :: rest).length + ((search next remaining (i :: rest)).flatMap next).length
            = (next i ++ rest).length
              + ((search next (remaining.erase i) (next i ++ rest)).flatMap next).length + 1 := by
          rw [hsearch]
          simp only [List.length_cons, List.length_append, List.flatMap_cons]
          omega
        have hless : (remaining.erase i).length < m := hm ▸ length_erase_lt_of_find? hf
        rw [hsteps, hsearch, List.append_cons seen]
        exact .new (h.new i hi) (ih _ hless (h.step hi) rfl)

end Unwalked

end

/-! ### Walks from the root of a graph -/

namespace Catalogue

variable {types types' : Catalogue} {root i j : String}

/-- The types that the node fields of a type lead to, the last field first. -/
def nodes (types : Catalogue) (i : String) : List String :=
  ((types.get? i).elim [] fun t => t.fields.values.reverse.filterMap Field.target?).filter types.contains

theorem nodes_eq (types : Catalogue) (i : String) : types.nodes i = (types.next i).filter types.contains := by
  unfold nodes next NodeType.targets
  cases types.get? i with
  | none => rfl
  | some t => rw [Option.elim_some, List.filterMap_reverse]

/-- What the nodes of a type are is told by its fields, as what it leads to is. -/
theorem mem_nodes_iff : j ∈ types.nodes i ↔ types.Edge i j ∧ j ∈ types.keys := by
  rw [nodes_eq, List.mem_filter, Table.contains_iff, mem_next_iff]

theorem reachable_eq (types : Catalogue) (root : String) :
    types.reachable root = search types.nodes types.keys [root] := by
  refine search_congr rfl fun i => ?_
  rw [nodes_eq, List.filter_filter]
  refine List.filter_congr fun j _ => ?_
  by_cases hj : j ∈ types.keys
  · simp [hj, Table.contains_iff]
  · simp [hj]

theorem walk_reachable (hr : root ∈ types.keys) :
    Walk types.nodes [] [root] (1 + ((types.reachable root).flatMap types.nodes).length)
      (types.reachable root) := by
  have hunwalked : Unwalked types.nodes types.keys [] [root] :=
    ⟨types.nodup, fun _ _ => List.not_mem_nil, fun i hi => .inr (List.mem_singleton.1 hi ▸ hr),
      fun _ _ j hj => .inr (mem_nodes_iff.1 hj).2⟩
  rw [reachable_eq]
  exact hunwalked.walk

theorem head?_reachable (hr : root ∈ types.keys) : (types.reachable root).head? = some root := by
  have hf : [root].find? types.keys.contains = some root := by
    simp [hr]
  rw [reachable, search_eq_cons hf]
  rfl

theorem keys_reachableTypes (types : Catalogue) (root : String) :
    (types.reachableTypes root).map Prod.fst = types.reachable root := by
  have hlisted : ∀ is : List String, (∀ i ∈ is, ∃ t, types.get? i = some t) →
      (is.filterMap fun i => (types.get? i).map fun t => (i, t)).map Prod.fst = is := by
    intro is h
    induction is with
    | nil => rfl
    | cons i rest ih =>
      obtain ⟨⟨t, ht⟩, hrest⟩ := List.forall_mem_cons.1 h
      simp only [List.filterMap_cons, ht, Option.map_some, List.map_cons, ih hrest]
  exact hlisted _ fun i hi => Table.mem_keys_iff.1 (mem_of_mem_search hi)

theorem mem_reachable_iff :
    i ∈ types.reachable root ↔ types.Reaches root i ∧ ∃ t, types.get? i = some t := by
  rw [← keys_reachableTypes, List.mem_map]
  constructor
  · rintro ⟨⟨_, t⟩, hm, rfl⟩
    obtain ⟨hr, ht⟩ := mem_reachableTypes.1 hm
    exact ⟨hr, t, ht⟩
  · rintro ⟨hr, t, ht⟩
    exact ⟨(i, t), mem_reachableTypes.2 ⟨hr, ht⟩, rfl⟩

theorem nodup_reachable (types : Catalogue) (root : String) : (types.reachable root).Nodup :=
  nodup_search types.nodup

end Catalogue

/-- Types with one name, the same addresses and the same fields, in any order. -/
structure NodeType.SameFields (t u : NodeType) : Prop where
  /-- The names. -/
  name : t.name = u.name
  /-- The addresses. -/
  addresses : t.addresses = u.addresses
  /-- The fields. -/
  fields : t.fields.entries.Perm u.fields.entries

namespace Catalogue

variable {types types' : Catalogue} {root i j : String}

/-- Catalogues with the same types, up to the order of fields. -/
def SameFields (types types' : Catalogue) : Prop :=
  ∀ i, Option.Rel NodeType.SameFields (types.get? i) (types'.get? i)

theorem SameFields.next_perm (h : types.SameFields types') (i : String) :
    (types.next i).Perm (types'.next i) := by
  have hi := h i
  unfold next
  generalize types.get? i = t?, types'.get? i = u? at hi ⊢
  cases hi with
  | none => exact .nil
  | @some t u hs =>
    have htargets : t.targets.Perm u.targets := (hs.fields.map Prod.snd).filterMap Field.target?
    exact (List.reverse_perm _).trans (htargets.trans (List.reverse_perm _).symm)

theorem SameFields.reaches_iff (h : types.SameFields types') :
    types.Reaches root i ↔ types'.Reaches root i := by
  have hedge : types.Edge = types'.Edge := by
    funext i j
    rw [← mem_next_iff, ← mem_next_iff, (h.next_perm i).mem_iff]
  rw [Reaches, Reaches, hedge]

theorem SameFields.reachable_perm (h : types.SameFields types') (root : String) :
    (types.reachable root).Perm (types'.reachable root) := by
  refine (List.perm_ext_iff_of_nodup (nodup_reachable types root) (nodup_reachable types' root)).2 fun i => ?_
  have hthere : (∃ t, types.get? i = some t) ↔ ∃ t, types'.get? i = some t := by
    have hi := h i
    generalize types.get? i = t?, types'.get? i = u? at hi ⊢
    cases hi <;> simp
  rw [mem_reachable_iff, mem_reachable_iff, h.reaches_iff, hthere]

end Catalogue

namespace TypeGraph

/-- What is listed as the types that the root of a graph leads to. -/
structure ReachableWalked (g : TypeGraph) : Prop where
  /-- A walk from the root ends, in one way only: it has seen the listed types in the order of the list,
  in one step for the root and one for each node field of these types. -/
  walk : ∀ n found, Walk g.types.nodes [] [g.root] n found ↔
    found = g.reachable.map Prod.fst ∧ n = 1 + ((g.reachable.map Prod.fst).flatMap g.types.nodes).length
  /-- The root stands first. -/
  first : g.reachable.head? = some (g.root, g.rootType)
  /-- What is listed is what node fields lead to from the root on. -/
  mem : ∀ i t, (i, t) ∈ g.reachable ↔ g.types.Reaches g.root i ∧ g.types.get? i = some t
  /-- No type stands twice. -/
  once : (g.reachable.map Prod.fst).Nodup
  /-- In whatever order fields stand, the same types are listed. -/
  anyOrder : ∀ g' : TypeGraph, g'.root = g.root → g.types.SameFields g'.types →
    (g.reachable.map Prod.fst).Perm (g'.reachable.map Prod.fst)

/-- **The listed types are those that a walk from the root sees**: all that it leads to, and no others. -/
theorem reachable_walked (g : TypeGraph) : g.ReachableWalked := by
  have hroot : g.root ∈ g.types.keys := Table.mem_keys_iff.2 ⟨g.rootType, g.root_mem⟩
  have hkeys : g.reachable.map Prod.fst = g.types.reachable g.root := Catalogue.keys_reachableTypes _ _
  refine ⟨fun n found => ?_, ?_, fun i t => Catalogue.mem_reachableTypes, ?_, fun g' hr hs => ?_⟩
  · rw [hkeys]
    have hwalk := Catalogue.walk_reachable hroot
    constructor
    · intro h
      obtain ⟨hn, hfound⟩ := h.unique hwalk
      exact ⟨hfound, hn⟩
    · rintro ⟨rfl, rfl⟩
      exact hwalk
  · have hhead : (g.reachable.map Prod.fst).head? = some g.root := by
      rw [hkeys]
      exact Catalogue.head?_reachable hroot
    rw [List.head?_map] at hhead
    obtain ⟨⟨i, t⟩, he, rfl⟩ := Option.map_eq_some_iff.1 hhead
    have ht := (Catalogue.mem_reachableTypes.1 (List.mem_of_head? he)).2
    rw [he, ← Option.some.inj (ht.symm.trans g.root_mem)]
  · rw [hkeys]
    exact Catalogue.nodup_reachable g.types g.root
  · rw [hkeys, show g'.reachable.map Prod.fst = g'.types.reachable g'.root from
      Catalogue.keys_reachableTypes _ _, hr]
    exact hs.reachable_perm g.root

end TypeGraph

end ContentGraph
