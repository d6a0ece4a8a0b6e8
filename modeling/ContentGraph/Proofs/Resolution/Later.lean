import ContentGraph.Proofs.Resolution.Concurrency

/-!
# Resolution at a later moment

A store grows: at a later moment it holds what it held before, and maybe more. What addresses
resolved to they still resolve to then (`Source.Keeps.resolve`). The addresses that a resolved list
leads to are all held, so that nothing that is new can stand on the way. So it does not matter at which
moments the fetches of a resolution are answered (`Source.Answered.of_later`).
-/

namespace ContentGraph.Source

variable {source later : Source} {addresses leaves : List String} {a b : String} {set : Table Schema}

/-- What could be fetched from a source can be fetched from a later one. -/
def Keeps (source later : Source) : Prop := ∀ a r, source.fetch a = .ok r → later.fetch a = .ok r

theorem Keeps.refl (source : Source) : source.Keeps source := fun _ _ h => h

/-! ### Lists that are followed to their ends -/

/-- Where all schemas of a list are met, no address that it leads to leads back to itself. -/
theorem Expands.acc (h : source.Expands addresses leaves) :
    ∀ a ∈ addresses, Acc (flip source.Names) a := by
  induction h with
  | nil => simp
  | @schema a s rest leaves hf _ ih =>
    refine List.forall_mem_cons.2 ⟨⟨_, fun b hb => ?_⟩, ih⟩
    obtain ⟨al, ha, -⟩ := hb
    cases ha.symm.trans hf
  | @«alias» a al below rest leaves hf _ _ ihBelow ihRest =>
    refine List.forall_mem_cons.2 ⟨⟨_, fun b hb => ?_⟩, ihRest⟩
    obtain ⟨al', ha, hb⟩ := hb
    cases ha.symm.trans hf
    exact ihBelow b hb

theorem Expands.declares (h : source.Expands addresses leaves) (hr : source.Reachable addresses b) :
    source.Declares b := by
  induction h with
  | nil => exact absurd hr not_reachable_nil
  | @schema a s rest leaves hf _ ih =>
    rcases reachable_cons_iff.1 hr with (rfl | ⟨c, ⟨al, ha, -⟩, -⟩) | hr
    · exact .inl ⟨s, hf⟩
    · cases ha.symm.trans hf
    · exact ih hr
  | @«alias» a al below rest leaves hf _ _ ihBelow ihRest =>
    rcases reachable_cons_iff.1 hr with (rfl | ⟨c, ⟨al', ha, hc⟩, hr⟩) | hr
    · exact .inr ⟨al, hf⟩
    · cases ha.symm.trans hf
      exact ihBelow ⟨c, hc, hr⟩
    · exact ihRest hr

theorem not_transGen_of_acc (h : Acc (flip source.Names) a) : ¬ Relation.TransGen source.Names a a := by
  replace h := h.transGen
  induction h with
  | intro a _ ih => exact fun ht => ih a (Relation.transGen_swap.2 ht) ht

/-- A list all of whose schemas are met can be expanded. -/
theorem Expands.expandable (h : source.Expands addresses leaves) : source.Expandable addresses := by
  refine ⟨fun b hr => h.declares hr, ?_⟩
  rintro b ⟨a, ha, hr⟩
  have hacc : Acc (flip source.Names) b := by
    induction hr with
    | refl => exact h.acc a ha
    | tail _ hn ih => exact ih.inv hn
  exact not_transGen_of_acc hacc

/-- The address of a schema resolves to the schema. -/
theorem resolve_schema {s : Schema} (h : source.fetch a = .ok (.schema s)) :
    ∃ set, source.resolve [a] = .ok set ∧ set.entries = [(a, s)] := by
  have hexpands : source.Expands [a] [a] := .schema h .nil
  obtain ⟨set, hr⟩ := exists_resolve_iff.2 hexpands.expandable
  obtain ⟨leaves, hl, hkeys⟩ := keys_of_resolve hr
  obtain rfl := hexpands.unique hl
  refine ⟨set, hr, Table.eq_of_find (by simp) hkeys fun key s' s'' hs' hs'' => ?_⟩
  have hf := fetch_of_resolve hr (Table.mem_of_find hs'')
  cases List.mem_singleton.1 (Table.mem_of_find hs')
  cases h.symm.trans hf
  rfl

/-! ### What is kept -/

theorem Expands.mono (hk : source.Keeps later) (h : source.Expands addresses leaves) :
    later.Expands addresses leaves := by
  induction h with
  | nil => exact .nil
  | schema hf _ ih => exact .schema (hk _ _ hf) ih
  | «alias» hf _ _ ihBelow ihRest => exact .alias (hk _ _ hf) ihBelow ihRest

/-- **What addresses resolve to they resolve to at a later moment.** -/
theorem Keeps.resolve (hk : source.Keeps later) (h : source.resolve addresses = .ok set) :
    later.resolve addresses = .ok set := by
  obtain ⟨leaves, hl, hkeys⟩ := keys_of_resolve h
  have hlater := hl.mono hk
  obtain ⟨set', h'⟩ := exists_resolve_iff.2 hlater.expandable
  obtain ⟨leaves', hl', hkeys'⟩ := keys_of_resolve h'
  cases hlater.unique hl'
  have hentries : set'.entries = set.entries := by
    refine Table.eq_of_find set.nodup (hkeys'.trans hkeys.symm) fun a s s' hs hs' => ?_
    have hf := hk a _ (fetch_of_resolve h (Table.mem_of_find hs))
    cases hf.symm.trans (fetch_of_resolve h' (Table.mem_of_find hs'))
    rfl
  rw [h']
  cases set
  cases set'
  cases hentries
  rfl

/-! ### Fetches that are answered later -/

variable {chain : List String} {us us' : List Unfolding} {es : List Expansion}

/-- A fetch on the way from addresses that resolve is answered at a later moment as at the first. -/
theorem Way.answer_later (h : source.Way addresses chain a) (hr : source.resolve addresses = .ok set)
    (hk : source.Keeps later) : later.answer chain a = source.answer chain a := by
  have hfetch : ∃ r, source.fetch a = .ok r := by
    obtain ⟨hdeclares, -⟩ := exists_resolve_iff.1 ⟨set, hr⟩
    rcases hdeclares a h.reachable with ⟨s, hs⟩ | ⟨al, hal⟩
    · exact ⟨_, hs⟩
    · exact ⟨_, hal⟩
  obtain ⟨r, hf⟩ := hfetch
  unfold answer
  rw [hf, hk a r hf]

theorem Answered.of_later (h : later.Answered us us') (hk : source.Keeps later)
    (hr : source.resolve addresses = .ok set) (hu : source.Unfolds addresses us es) :
    source.Answered us us' := by
  induction h generalizing es with
  | here =>
    cases hu with
    | pending hw _ =>
      rw [hw.answer_later hr hk]
      exact .here
  | inside _ ih =>
    cases hu with
    | «alias» hp _ => exact .inside (ih hp)
  | later _ ih =>
    cases hu with
    | pending _ hrest | schema hrest | «alias» _ hrest | failed hrest => exact .later (ih hrest)

/-- A fetch that is open can be answered at any moment. -/
theorem Answered.exists_later (h : source.Answered us us') (later : Source) :
    ∃ us'', later.Answered us us'' := by
  induction h with
  | here => exact ⟨_, .here⟩
  | inside _ ih =>
    obtain ⟨parts, hp⟩ := ih
    exact ⟨_, .inside hp⟩
  | later _ ih =>
    obtain ⟨rest, hrest⟩ := ih
    exact ⟨_, .later hrest⟩

end ContentGraph.Source
