import ContentGraph.Proofs.TypeGraph.Correctness

/-!
# Types that fields lead to

A field gets the type it leads to before it is added to its own type, and no type is ever taken
out. So in every catalogue that a compilation leaves behind, also where it fails, each node field
leads to a type that is there, and that is the type of what the schemas resolve to that the field
declares (`Catalogue.Declared`). This holds whether or not identities of types collide.

The set that declared schemas resolve to is one that the list of addresses leads to. It is kept with
the property, as one of a class of sets that is closed under what sets lead to.
-/

namespace ContentGraph

open Compilation (exec withField blank definitions addDefinition compileField resolving resolvesTo)

/-- Every field of a type leads to a type that is there. -/
def Catalogue.Closed (types : Catalogue) : Prop :=
  ∀ i t, types.get? i = some t → ∀ key f, t.fields.get? key = some f →
    ∀ target, f.target? = some target → target ∈ types.keys

section

variable (source : Source) (R : Table Schema → Prop)

/-- A node field leads to a type that is there, the one of what its schemas resolve to. -/
def Field.Declared (types : Catalogue) (f : Field) : Prop :=
  ∀ schemas target, f.shape = .node schemas target → target ∈ types.keys ∧
    ∃ set, R set ∧ source.resolve schemas = .ok set ∧ target = identityOf set

/-- Every node field of a type leads to the type of what its schemas resolve to. -/
def Catalogue.Declared (types : Catalogue) : Prop :=
  ∀ i t, types.get? i = some t → ∀ key f, t.fields.get? key = some f → f.Declared source R types

/-- What a part of a compilation makes of a catalogue: it keeps the types, and their fields lead to
the types of what they declare. -/
structure Catalogue.Grows (types types' : Catalogue) : Prop where
  /-- No type is taken out. -/
  keys : ∀ i ∈ types.keys, i ∈ types'.keys
  /-- Fields lead to the types of what they declare. -/
  declared : types.Declared source R → types'.Declared source R

/-- A way to compile sets of a class that gives their types. -/
def Compilation.Settles (compileSet : Table Schema → Compilation Id String) : Prop :=
  ∀ set types, R set → types.Grows source R (exec (compileSet set) types).2 ∧
    ∀ i, (exec (compileSet set) types).1 = .ok i →
      i = identityOf set ∧ i ∈ (exec (compileSet set) types).2.keys

end

variable {source : Source} {R : Table Schema → Prop} {types types' types'' : Catalogue}

theorem Field.Declared.mono {f : Field} (hk : ∀ i ∈ types.keys, i ∈ types'.keys)
    (h : f.Declared source R types) : f.Declared source R types' :=
  fun schemas target hs => ⟨hk target (h schemas target hs).1, (h schemas target hs).2⟩

namespace Catalogue

theorem Grows.refl (types : Catalogue) : types.Grows source R types := ⟨fun _ h => h, id⟩

theorem Grows.trans (h : Grows source R types types') (h' : Grows source R types' types'') :
    Grows source R types types'' :=
  ⟨fun i hi => h'.keys i (h.keys i hi), fun hc => h'.declared (h.declared hc)⟩

theorem Declared.closed (h : types.Declared source R) : types.Closed := by
  rintro i t ht key ⟨shape, multiple⟩ hf target htarget
  cases shape with
  | value kind => cases htarget
  | node schemas other =>
    cases htarget
    exact (h i t ht key _ hf schemas target rfl).1

theorem declared_empty : Declared source R .empty := by
  intro i t ht
  cases ht

/-- A type without fields leads nowhere. -/
theorem grows_insert_blank (types : Catalogue) (hashLength : Int) (i : String) (set : Table Schema) :
    types.Grows source R (types.insert i (blank hashLength set)) := by
  have hkeys : ∀ j ∈ types.keys, j ∈ (types.insert i (blank hashLength set)).keys := by
    intro j hj
    rw [Table.keys_insert]
    split
    · exact hj
    · exact List.mem_append_left _ hj
  refine ⟨hkeys, fun hc j t ht key f hf => ?_⟩
  by_cases he : j = i
  · subst he
    rw [Table.get?_insert_self] at ht
    cases ht
    cases hf
  · rw [Table.get?_insert_of_ne he] at ht
    exact (hc j t ht key f hf).mono hkeys

theorem grows_withField {i key : String} {f : Field} (hf : f.Declared source R types) :
    types.Grows source R (withField i key f types) := by
  have hkeys : ∀ j ∈ types.keys, j ∈ (withField i key f types).keys := by
    intro j hj
    rwa [keys_withField]
  refine ⟨hkeys, fun hc j t ht key' f' hf' => ?_⟩
  by_cases he : j = i
  · subst he
    cases hu : types.get? j with
    | none =>
      rw [withField, hu] at ht
      exact (hc j t ht key' f' hf').mono hkeys
    | some u =>
      rw [get?_withField_self hu] at ht
      cases ht
      by_cases hk : key' = key
      · subst hk
        rw [Table.get?_insert_self] at hf'
        cases hf'
        exact hf.mono hkeys
      · rw [Table.get?_insert_of_ne hk] at hf'
        exact (hc j u hu key' f' hf').mono hkeys
  · rw [get?_withField_of_ne he] at ht
    exact (hc j t ht key' f' hf').mono hkeys

end Catalogue

namespace Compilation

open Catalogue (Grows)

variable {compileSet : Table Schema → Compilation Id String}

/-- The field of a definition leads to the type of what the definition resolves to. -/
theorem Settles.compileField (hc : Settles source R compileSet) (key : String) (d : Definition)
    (hd : ∀ multiple schemas set, d = .node multiple schemas → source.resolve schemas = .ok set → R set)
    (types : Catalogue) :
    types.Grows source R (exec (compileField (resolving source) compileSet key d) types).2 ∧
      ∀ f, (exec (compileField (resolving source) compileSet key d) types).1 = .ok f →
        f.Declared source R (exec (compileField (resolving source) compileSet key d) types).2 := by
  cases d with
  | value kind multiple =>
    rw [exec_compileField_value]
    refine ⟨.refl _, fun f hf schemas target hs => ?_⟩
    cases hf
    cases hs
  | node multiple schemas =>
    rw [exec_compileField_node]
    split
    · exact ⟨.refl _, fun f hf => by cases hf⟩
    · split
      · exact ⟨.refl _, fun f hf => by cases hf⟩
      · next set hr =>
        have hset := hd multiple schemas set rfl hr
        obtain ⟨hgrows, hmem⟩ := hc set types hset
        generalize exec (compileSet set) types = result at hgrows hmem
        obtain ⟨r, types'⟩ := result
        cases r with
        | error e => exact ⟨hgrows, fun f hf => by cases hf⟩
        | ok i =>
          obtain ⟨hi, hkey⟩ := hmem i rfl
          refine ⟨hgrows, fun f hf schemas' target hs => ?_⟩
          cases hf
          cases hs
          exact ⟨hkey, set, hset, hr, hi⟩

/-- Comparing a definition with a field leaves the catalogue as it is. -/
theorem snd_exec_resolvesTo (source : Source) (f : Field) (d : Definition) (types : Catalogue) :
    (exec (resolvesTo (resolving source) f d) types).2 = types := by
  rw [exec_resolvesTo]
  split
  · split
    · rfl
    · split <;> rfl
  · rfl

/-- A later definition of a key is compared, and the catalogue stays as it is. -/
theorem snd_exec_addDefinition_later {identity address key : String} {owned : String × Definition}
    {owners : Table (String × Definition)} {d : Definition} {types : Catalogue}
    (ho : owners.get? key = some owned) :
    (exec (addDefinition (resolving source) compileSet identity owners (address, key, d)) types).2
      = types := by
  obtain ⟨owner, existing⟩ := owned
  by_cases he : existing.equivalent d = true
  · rw [exec_addDefinition_equivalent ho he]
  · cases hf : (types.get? identity).bind fun t => t.fields.get? key with
    | some f =>
      obtain ⟨t, ht, hf⟩ := Option.bind_eq_some_iff.1 hf
      rw [exec_addDefinition_other ho he ht hf]
      have hsame := snd_exec_resolvesTo source f d types
      generalize exec (resolvesTo (resolving source) f d) types = result at hsame
      obtain ⟨r, types'⟩ := result
      cases hsame
      rcases r with e | ⟨_ | _⟩ <;> rfl
    | none =>
      unfold Compilation.addDefinition
      dsimp only
      rw [ho]
      dsimp only
      rw [if_neg he, exec_bind, exec_typeAt, follow_ok, hf]
      rfl

section

variable (hR : ∀ set set', R set → Leads source set set' → R set') {set : Table Schema} (hset : R set)
include hR hset

theorem Settles.addDefinition (hc : Settles source R compileSet) (identity : String)
    (owners : Table (String × Definition)) {entry : String × String × Definition}
    (he : entry ∈ definitions set) (types : Catalogue) :
    types.Grows source R (exec (addDefinition (resolving source) compileSet identity owners entry) types).2 := by
  obtain ⟨address, key, d⟩ := entry
  cases ho : owners.get? key with
  | none =>
    have hd : ∀ multiple schemas set', d = .node multiple schemas → source.resolve schemas = .ok set' →
        R set' := by
      rintro multiple schemas set' rfl hr
      exact hR set set' hset ⟨address, key, multiple, schemas, he, hr⟩
    rw [exec_addDefinition_first ho]
    obtain ⟨hgrows, hmem⟩ := hc.compileField key d hd types
    generalize exec (Compilation.compileField (resolving source) compileSet key d) types = result
      at hgrows hmem
    obtain ⟨r, types'⟩ := result
    cases r with
    | error e => exact hgrows
    | ok f => exact hgrows.trans (Catalogue.grows_withField (hmem f rfl))
  | some owned =>
    rw [snd_exec_addDefinition_later ho]
    exact .refl _

theorem Settles.addDefinitions (hc : Settles source R compileSet) (identity : String) :
    ∀ (entries : List (String × String × Definition)) (owners : Table (String × Definition))
      (types : Catalogue), (∀ e ∈ entries, e ∈ definitions set) →
      types.Grows source R (exec (entries.foldlM
        (Compilation.addDefinition (resolving source) compileSet identity) owners) types).2
  | [], _, _, _ => .refl _
  | entry :: rest, owners, types, he => by
    obtain ⟨hentry, hothers⟩ := List.forall_mem_cons.1 he
    rw [List.foldlM_cons, exec_bind]
    have hfirst := hc.addDefinition hR hset identity owners hentry types
    generalize exec (Compilation.addDefinition (resolving source) compileSet identity owners entry) types
      = result at hfirst
    obtain ⟨r, types'⟩ := result
    cases r with
    | error e => exact hfirst
    | ok owners' => exact hfirst.trans (hc.addDefinitions identity rest owners' types' hothers)

end

/-- **Compiling a set gives its type, in a catalogue whose fields lead to the types of what they
declare.** -/
theorem settles_compileSet (hR : ∀ set set', R set → Leads source set set' → R set')
    (hashLength : Int) : ∀ steps,
    Settles source R (Compilation.compileSet (resolving source) hashLength steps)
  | 0 => fun _ _ _ => ⟨.refl _, fun _ h => by cases h⟩
  | steps + 1 => by
    intro set types hset
    have hc := settles_compileSet hR hashLength steps
    by_cases hk : typeIdentity set.sorted.keys ∈ types.keys
    · rw [exec_compileSet_known hk]
      refine ⟨.refl _, fun i hi => ?_⟩
      cases hi
      exact ⟨identityOf_eq set, hk⟩
    · rw [exec_compileSet_new hk]
      have hblank : types.Grows source R _ := Catalogue.grows_insert_blank types hashLength
        (typeIdentity set.sorted.keys) set
      have hfields := hc.addDefinitions hR hset (typeIdentity set.sorted.keys) (definitions set)
        .empty (types.insert (typeIdentity set.sorted.keys) (blank hashLength set)) fun _ he => he
      generalize exec (List.foldlM _ _ _) _ = result at hfields
      obtain ⟨r, types'⟩ := result
      cases r with
      | error e => exact ⟨hblank.trans hfields, fun i h => by cases h⟩
      | ok owners =>
        dsimp only
        split
        · exact ⟨hblank.trans hfields, fun i h => by cases h⟩
        · refine ⟨hblank.trans hfields, fun i hi => ?_⟩
          cases hi
          refine ⟨identityOf_eq set, hfields.keys _ ?_⟩
          rw [Table.keys_insert, if_neg hk]
          exact List.mem_append_right _ List.mem_cons_self

end Compilation

section

variable {hashLength : Int} {addresses : List String}

/-- Compiling a list of addresses settles what it resolves to. -/
theorem Catalogue.settles_compile : Grows source (Reached source [addresses]) .empty
      (Catalogue.compile .empty source hashLength addresses).2 ∧
    ∀ root, (Catalogue.compile .empty source hashLength addresses).1 = .ok root →
      root ∈ (Catalogue.compile .empty source hashLength addresses).2.keys := by
  rw [Catalogue.compile_eq]
  cases hr : source.resolve addresses with
  | error e => exact ⟨.refl _, fun root h => by cases h⟩
  | ok set =>
    have hroot : Reached source [addresses] set := .root List.mem_cons_self hr
    have hsettles := Compilation.settles_compileSet (R := Reached source [addresses])
      (fun _ _ hs hl => hs.step hl) hashLength (source.nodeDefinitions + 2)
    obtain ⟨hgrows, hmem⟩ := hsettles set .empty hroot
    exact ⟨hgrows, fun root h => (hmem root h).2⟩

/-- **Every node field of the types that a compilation leaves behind leads to the type of what its schemas
resolve to**, a set that the addresses lead to. -/
theorem Catalogue.declared_compile :
    (Catalogue.compile .empty source hashLength addresses).2.Declared source (Reached source [addresses]) :=
  settles_compile.1.declared declared_empty

theorem Source.declared_of_compile {g : TypeGraph} (h : source.compile hashLength addresses = .ok g) :
    g.types.Declared source (Reached source [addresses]) := by
  have hd : (Catalogue.compile .empty source hashLength addresses).2.Declared source
      (Reached source [addresses]) := Catalogue.declared_compile
  rwa [Source.compile_eq_ok_iff.1 h] at hd

/-- Every field of a compiled graph leads to one of its types. -/
theorem Source.closed_of_compile {g : TypeGraph} (h : source.compile hashLength addresses = .ok g) :
    g.types.Closed := (declared_of_compile h).closed

end

end ContentGraph
