import ContentGraph.Proofs.Resolution.Acyclic

/-!
# The order of a resolved set

Following a list of addresses from left to right, each alias to its end before the next address,
meets schemas in an order of its own (`Source.Expands`). A resolved set holds these schemas, each
where it is met first (`Source.keys_of_resolve`); they are the schemas that the list leads to
(`Source.mem_entries_of_resolve_iff`).
-/

namespace ContentGraph

/-! ### The first pair of each key -/

theorem keys_foldl_firstOfEach {α : Type} (es : List (String × α)) (t : Table α) :
    (es.foldl (fun t e => if t.contains e.1 then t else t.insert e.1 e.2) t).keys
      = t.keys ++ ((es.map Prod.fst).filter fun key => decide (key ∉ t.keys)).eraseDups := by
  induction es generalizing t with
  | nil => simp [List.eraseDups]
  | cons e rest ih =>
    rw [List.foldl_cons, ih, List.map_cons]
    by_cases hk : e.1 ∈ t.keys
    · rw [if_pos (Table.contains_iff.2 hk), List.filter_cons_of_neg (by simpa using hk)]
    · have hc : ¬ t.contains e.1 = true := fun h => hk (Table.contains_iff.1 h)
      rw [if_neg hc, Table.keys_insert, if_neg hk, List.filter_cons_of_pos (by simpa using hk),
        List.eraseDups_cons, List.append_assoc, List.singleton_append, List.filter_filter]
      congr 3
      refine List.filter_congr fun key _ => ?_
      by_cases hk' : key = e.1 <;> simp [hk']

/-- The keys of the first pairs stand where they stand first. -/
theorem keys_firstOfEach {α : Type} (es : List (String × α)) :
    (firstOfEach es).keys = (es.map Prod.fst).eraseDups := by
  rw [firstOfEach, keys_foldl_firstOfEach]
  simp [Table.keys, Table.empty]

namespace Source

/-- The schemas that a list of addresses meets, followed from left to right and each alias to its
end. -/
inductive Expands (source : Source) : List String → List String → Prop
  /-- No address meets nothing. -/
  | nil : Expands source [] []
  /-- A schema is met itself. -/
  | schema {a : String} {s : Schema} {rest leaves : List String} : source.fetch a = .ok (.schema s) →
      Expands source rest leaves → Expands source (a :: rest) (a :: leaves)
  /-- An alias meets what its names meet. -/
  | «alias» {a : String} {al : Alias} {below rest leaves : List String} :
      source.fetch a = .ok (.alias al) → Expands source al.schemas below →
      Expands source rest leaves → Expands source (a :: rest) (below ++ leaves)

variable {source : Source} {addresses chain leaves : List String} {a b : String} {steps : ℕ}

/-! ### Leaves of expansions -/

theorem schemas_expand_schema {s : Schema} (hm : a ∉ chain) (hf : source.fetch a = .ok (.schema s)) :
    (expand source.fetch (steps + 1) chain a).schemas = [(a, s)] := by
  rw [expand, if_neg hm, hf]
  rfl

theorem schemas_expand_alias {al : Alias} (hm : a ∉ chain) (hf : source.fetch a = .ok (.alias al)) :
    (expand source.fetch (steps + 1) chain a).schemas
      = al.schemas.flatMap fun b => (expand source.fetch steps (chain ++ [a]) b).schemas := by
  rw [expand, if_neg hm, hf]
  simp only [Expansion.schemas, Expansion.schemasOf_eq, List.flatMap_map]

/-- Expansions that do not fail meet the schemas at their leaves. -/
theorem expands_of_failures {depth : ℕ}
    (h : ∀ a ∈ addresses, (expand source.fetch steps chain a).failures depth = []) :
    source.Expands addresses
      ((addresses.flatMap fun a => (expand source.fetch steps chain a).schemas).map Prod.fst) := by
  induction steps generalizing chain addresses depth with
  | zero =>
    cases addresses with
    | nil => exact .nil
    | cons a rest => exact absurd (h a List.mem_cons_self) (by simp [expand, Expansion.failures])
  | succ steps ihSteps =>
    induction addresses with
    | nil => exact .nil
    | cons a rest ihRest =>
      obtain ⟨hm, hd, hn⟩ := failures_expand_succ.1 (h a List.mem_cons_self)
      have hrest := ihRest fun b hb => h b (List.mem_cons_of_mem _ hb)
      rw [List.flatMap_cons, List.map_append]
      rcases hd with ⟨s, hf⟩ | ⟨al, hf⟩
      · rw [schemas_expand_schema hm hf]
        exact .schema hf hrest
      · rw [schemas_expand_alias hm hf]
        exact .alias hf (ihSteps fun b hb => hn b ⟨al, hf, hb⟩) hrest

/-! ### What is met -/

theorem not_reachable_nil : ¬ source.Reachable [] b := by
  rintro ⟨_, h, -⟩
  cases h

theorem reachable_cons_iff {rest : List String} : source.Reachable (a :: rest) b ↔
    (b = a ∨ ∃ c, source.Names a c ∧ Relation.ReflTransGen source.Names c b) ∨
      source.Reachable rest b := by
  unfold Reachable
  rw [List.exists_mem_cons_iff, Relation.ReflTransGen.cases_head_iff, eq_comm]

theorem Expands.mem_iff (h : source.Expands addresses leaves) :
    b ∈ leaves ↔ source.Reachable addresses b ∧ ∃ s, source.fetch b = .ok (.schema s) := by
  induction h with
  | nil => simp [not_reachable_nil]
  | @schema a s rest leaves hf _ ih =>
    have hn : ∀ c, ¬ source.Names a c := by
      rintro c ⟨al, ha, -⟩
      cases ha.symm.trans hf
    rw [reachable_cons_iff, List.mem_cons, ih]
    constructor
    · rintro (rfl | ⟨hr, hs⟩)
      · exact ⟨.inl (.inl rfl), s, hf⟩
      · exact ⟨.inr hr, hs⟩
    · rintro ⟨(rfl | ⟨c, hc, -⟩) | hr, hs⟩
      · exact .inl rfl
      · exact absurd hc (hn c)
      · exact .inr ⟨hr, hs⟩
  | @«alias» a al below rest leaves hf _ _ ihBelow ihRest =>
    rw [reachable_cons_iff, List.mem_append, ihBelow, ihRest]
    constructor
    · rintro (⟨⟨c, hc, hr⟩, hs⟩ | ⟨hr, hs⟩)
      · exact ⟨.inl (.inr ⟨c, ⟨al, hf, hc⟩, hr⟩), hs⟩
      · exact ⟨.inr hr, hs⟩
    · rintro ⟨(rfl | ⟨c, ⟨al', hf', hc⟩, hr⟩) | hr, s, hs⟩
      · cases hs.symm.trans hf
      · cases hf'.symm.trans hf
        exact .inl ⟨⟨c, hc, hr⟩, s, hs⟩
      · exact .inr ⟨hr, s, hs⟩

/-- A list of addresses meets its schemas in one order only. -/
theorem Expands.unique {leaves' : List String} (h : source.Expands addresses leaves)
    (h' : source.Expands addresses leaves') : leaves = leaves' := by
  induction h generalizing leaves' with
  | nil =>
    cases h'
    rfl
  | schema hf _ ih =>
    cases h' with
    | schema _ hr => rw [ih hr]
    | «alias» hf' _ _ => cases hf'.symm.trans hf
  | «alias» hf _ _ ihBelow ihRest =>
    cases h' with
    | schema hf' _ => cases hf'.symm.trans hf
    | «alias» hf' hb hr =>
      cases hf'.symm.trans hf
      rw [ihBelow hb, ihRest hr]

/-! ### Resolved sets -/

variable {set : Table Schema}

/-- A resolved set holds its schemas in the order in which they are met first. -/
theorem keys_of_resolve (h : source.resolve addresses = .ok set) :
    ∃ leaves, source.Expands addresses leaves ∧ set.keys = leaves.eraseDups := by
  obtain ⟨hf, rfl⟩ := resolve_eq_ok_iff.1 h
  exact ⟨_, expands_of_failures hf, keys_firstOfEach _⟩

/-- A resolved set holds the schemas that its addresses lead to. -/
theorem mem_entries_of_resolve_iff (h : source.resolve addresses = .ok set) {s : Schema} :
    (a, s) ∈ set.entries ↔ source.Reachable addresses a ∧ source.fetch a = .ok (.schema s) := by
  obtain ⟨leaves, hl, hk⟩ := keys_of_resolve h
  have hmem : a ∈ set.keys ↔ source.Reachable addresses a ∧ ∃ s, source.fetch a = .ok (.schema s) := by
    rw [hk, List.mem_eraseDups, hl.mem_iff]
  constructor
  · intro hm
    exact ⟨(hmem.1 (List.mem_map_of_mem hm)).1, fetch_of_resolve h hm⟩
  · rintro ⟨hr, hs⟩
    obtain ⟨⟨_, s'⟩, hm, rfl⟩ := List.mem_map.1 (hmem.2 ⟨hr, s, hs⟩)
    cases hs.symm.trans (fetch_of_resolve h hm)
    exact hm

end Source

end ContentGraph
