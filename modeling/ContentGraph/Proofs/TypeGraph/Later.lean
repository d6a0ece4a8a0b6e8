import ContentGraph.Proofs.Resolution.Later
import ContentGraph.Proofs.TypeGraph.Closed
import ContentGraph.Proofs.TypeGraph.Isomorphism

/-!
# Compilation of declared schemas at a later moment

A field of a compiled graph declares schemas and leads to a type. The schemas can be compiled on
their own, at any later moment at which the source still holds what it held, and give that type, up
to the order of its fields and the schemas that these declare (`Source.exists_compile_later`).

What is well defined stays so: a set of schemas leads to the same sets as before
(`Reached.of_later`), and what could be merged can be merged.
-/

namespace ContentGraph

open Compilation (definitions)

variable {source later : Source} {hashLength : Int} {types : Catalogue} {set set' root : Table Schema}
  {addresses schemas : List String} {t : NodeType}

section

variable (hk : source.Keeps later)
include hk

theorem Mergeable.keeps (h : Mergeable source set) : Mergeable later set := by
  refine ⟨h.nonempty, h.named, fun address key multiple schemas hd => ?_, fun a b key d e hd he => ?_⟩
  · obtain ⟨set', hr⟩ := h.resolved hd
    exact ⟨set', hk.resolve hr⟩
  · have hagrees := h.agree hd he
    cases d with
    | value k m =>
      cases e with
      | value k' m' => exact hagrees
      | node m' ss' => exact hagrees.elim
    | node m ss =>
      cases e with
      | value k' m' => exact hagrees.elim
      | node m' ss' =>
        obtain ⟨hm, set, set', hr, hr', hsame⟩ := hagrees
        exact ⟨hm, set, set', hk.resolve hr, hk.resolve hr', hsame⟩

/-- The definitions of a set that can be merged resolve to what they resolved to. -/
theorem Mergeable.resolve_of_later (h : Mergeable source set) {address key : String} {multiple : Bool}
    (hd : (address, key, .node multiple schemas) ∈ definitions set)
    (hr : later.resolve schemas = .ok set') : source.resolve schemas = .ok set' := by
  obtain ⟨next, hnext⟩ := h.resolved hd
  cases (hk.resolve hnext).symm.trans hr
  exact hnext

theorem Leads.of_later (hm : Mergeable source set) (h : Leads later set set') : Leads source set set' := by
  obtain ⟨address, key, multiple, schemas, hd, hr⟩ := h
  exact ⟨address, key, multiple, schemas, hd, hm.resolve_of_later hk hd hr⟩

theorem Merged.of_later (hm : Mergeable source set) (h : Merged later hashLength types set t) :
    Merged source hashLength types set t := by
  refine ⟨h.name_eq, h.addresses_eq, h.keys, fun address s key d he hdef => ?_⟩
  obtain ⟨f, hf, hkind, hmultiple, htarget⟩ := h.fields he hdef
  refine ⟨f, hf, hkind, hmultiple, fun multiple schemas hd => ?_⟩
  obtain ⟨next, u, hr, hrest⟩ := htarget multiple schemas hd
  subst hd
  have hmem := mem_definitions.2 ⟨s, he, Table.get?_eq_some_iff.1 hdef⟩
  exact ⟨next, u, hm.resolve_of_later hk hmem hr, hrest⟩

variable (hw : WellDefined source addresses) (hroot : Reached source [addresses] root)
  (hr : source.resolve schemas = .ok root)
include hw hroot hr

/-- What schemas lead to later they led to before. -/
theorem Reached.of_later (h : Reached later [schemas] set) : Reached source [addresses] set := by
  induction h with
  | root ha hr' =>
    cases List.mem_singleton.1 ha
    cases (hk.resolve hr).symm.trans hr'
    exact hroot
  | step _ hl ih => exact ih.step (hl.of_later hk (hw.mergeable ih))

/-- The schemas are well defined at a later moment. -/
theorem Source.Keeps.wellDefined : WellDefined later schemas :=
  ⟨⟨root, hk.resolve hr⟩, fun _ h => (hw.mergeable (.of_later hk hw hroot hr h)).keeps hk⟩

end

/-- **Schemas that resolve to a set whose type was compiled are compiled to that type on their own**,
at any later moment. -/
theorem Source.exists_compile_later (hs : Separated (Reached source [addresses])) (hk : source.Keeps later)
    {g : TypeGraph} (hg : source.compile hashLength addresses = .ok g)
    (hset : Reached source [addresses] set) (hr : source.resolve schemas = .ok set)
    (ht : (identityOf set, t) ∈ g.reachable) :
    ∃ g', later.compile hashLength schemas = .ok g' ∧ g'.rootType.Alike t := by
  have hw := (compile_ok_iff hs hashLength).1 ⟨g, hg⟩
  have hback : ∀ s, Reached later [schemas] s → Reached source [addresses] s :=
    fun _ h => .of_later hk hw hset hr h
  have hs' : Separated (Reached later [schemas]) := hs.mono hback
  obtain ⟨g', hg'⟩ := (compile_ok_iff hs' hashLength).2 (hk.wellDefined hw hset hr)
  obtain ⟨first, hfirst, hi, hm⟩ := (represents_of_compile hs hg).merged ht
  have hrep := represents_of_compile hs' hg'
  obtain ⟨second, hsecond, hi', hm'⟩ := hrep.merged (Catalogue.mem_reachableTypes.2 ⟨.refl, g'.root_mem⟩)
  obtain ⟨set', hr', hroot⟩ := hrep.root_eq
  cases (hk.resolve hr).symm.trans hr'
  have hsame : SameAddresses second first :=
    hs (hback second hsecond) hfirst (hi'.symm.trans (hroot.trans hi))
  have hm'' := hm'.of_later hk (hw.mergeable (hback second hsecond))
  exact ⟨g', hg', hm''.alike hs.family (hback second hsecond) hfirst hsame hm⟩

end ContentGraph
