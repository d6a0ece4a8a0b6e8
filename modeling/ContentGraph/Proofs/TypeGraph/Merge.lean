import ContentGraph.Proofs.Resolution
import ContentGraph.Proofs.Sorting
import ContentGraph.Proofs.TypeGraph.Execution
import Mathlib.Logic.Relation

/-!
# Sets of schemas that can be merged

What a compilation means, without a catalogue. Lists of addresses lead to resolved sets of
schemas (`Reached`). A set can be merged (`Mergeable`) if it has a definition, its node definitions
name schemas that can be resolved, and its definitions of one key agree; a list is well defined
(`WellDefined`) if all sets that it leads to can be merged. The type of a set (`Describes`) has a
field for each key, and the field fits every definition of the key. It is that of the first
definition, in the order in which the schemas were merged (`mergedFields`).

Types are found by the identities of sets, so that sets with one identity must have the same
addresses. A `Family` is a class of sets of one source where this holds and that has all sets its
node definitions resolve to. Whether it holds of what is reached can be evaluated
(`Source.Separates.separated`).
-/

namespace ContentGraph

open Compilation (definitions blank)

/-- The identity of the type of a set. -/
def identityOf (set : Table Schema) : String := typeIdentity set.keys

theorem identityOf_eq (set : Table Schema) : typeIdentity set.sorted.keys = identityOf set :=
  typeIdentity_congr fun _ => Table.mem_keys_sorted

theorem mem_definitions {set : Table Schema} {address key : String} {d : Definition} :
    (address, key, d) ∈ definitions set ↔
      ∃ s, (address, s) ∈ set.entries ∧ (key, d) ∈ s.elements.entries := by
  unfold definitions
  constructor
  · intro h
    obtain ⟨⟨a, s⟩, hs, hm⟩ := List.mem_flatMap.1 h
    obtain ⟨⟨k, e⟩, he, hk⟩ := List.mem_map.1 hm
    cases hk
    exact ⟨s, hs, he⟩
  · rintro ⟨s, hs, hm⟩
    exact List.mem_flatMap.2 ⟨_, hs, List.mem_map.2 ⟨_, hm, rfl⟩⟩

/-- Two sets have the same addresses. -/
def SameAddresses (set set' : Table Schema) : Prop := ∀ a, a ∈ set.keys ↔ a ∈ set'.keys

theorem SameAddresses.symm {set set' : Table Schema} (h : SameAddresses set set') :
    SameAddresses set' set := fun a => (h a).symm

theorem SameAddresses.trans {set set' set'' : Table Schema} (h : SameAddresses set set')
    (h' : SameAddresses set' set'') : SameAddresses set set'' := fun a => (h a).trans (h' a)

theorem SameAddresses.of_sorted {set set' : Table Schema} (h : set.sorted.keys = set'.sorted.keys) :
    SameAddresses set set' := by
  intro a
  rw [← Table.mem_keys_sorted, h, Table.mem_keys_sorted]

theorem SameAddresses.identityOf_eq {set set' : Table Schema} (h : SameAddresses set set') :
    identityOf set = identityOf set' := typeIdentity_congr h

section

variable (source : Source)

/-- A set leads to what one of its node definitions resolves to. -/
def Leads (set set' : Table Schema) : Prop :=
  ∃ address key multiple schemas, (address, key, .node multiple schemas) ∈ definitions set ∧
    source.resolve schemas = .ok set'

/-- The resolved sets that some lists of addresses lead to. -/
inductive Reached (lists : List (List String)) : Table Schema → Prop
  /-- What a list itself resolves to. -/
  | root {addresses : List String} {set : Table Schema} : addresses ∈ lists →
      source.resolve addresses = .ok set → Reached lists set
  /-- What a reached set leads to. -/
  | step {set set' : Table Schema} : Reached lists set → Leads source set set' → Reached lists set'

/-- Two definitions agree on kind, multiplicity and what their schemas resolve to. -/
def Definition.Agrees : Definition → Definition → Prop
  | .value k m, .value k' m' => k = k' ∧ m = m'
  | .node m ss, .node m' ss' => m = m' ∧ ∃ set set', source.resolve ss = .ok set ∧
      source.resolve ss' = .ok set' ∧ SameAddresses set set'
  | _, _ => False

/-- The schemas of a set can be merged. -/
structure Mergeable (set : Table Schema) : Prop where
  /-- There is a definition. -/
  nonempty : definitions set ≠ []
  /-- Every node definition names a schema. -/
  named : ∀ ⦃address key multiple schemas⦄,
    (address, key, .node multiple schemas) ∈ definitions set → schemas ≠ []
  /-- What a node definition names can be resolved. -/
  resolved : ∀ ⦃address key multiple schemas⦄,
    (address, key, .node multiple schemas) ∈ definitions set → ∃ set', source.resolve schemas = .ok set'
  /-- The definitions of one key agree. -/
  agree : ∀ ⦃a b key d e⦄, (a, key, d) ∈ definitions set → (b, key, e) ∈ definitions set →
    d.Agrees source e

/-- The schemas that a list of addresses stands for are there, and so are all that they lead to, and
every set of them can be merged. -/
structure WellDefined (addresses : List String) : Prop where
  /-- The list can be resolved. -/
  resolved : ∃ set, source.resolve addresses = .ok set
  /-- All sets can be merged. -/
  mergeable : ∀ ⦃set⦄, Reached source [addresses] set → Mergeable source set

/-- Sets of a class that have different addresses have different identities. -/
def Separated (R : Table Schema → Prop) : Prop :=
  ∀ ⦃set set'⦄, R set → R set' → identityOf set = identityOf set' → SameAddresses set set'

/-- A class of resolved sets that is closed under what sets lead to and in which identities
separate addresses. -/
structure Family (R : Table Schema → Prop) : Prop where
  /-- Every set was resolved. -/
  resolved : ∀ ⦃set⦄, R set → ∃ addresses, source.resolve addresses = .ok set
  /-- What a set leads to belongs to the class. -/
  closed : ∀ ⦃set set'⦄, R set → Leads source set set' → R set'
  /-- Sets with one identity have the same addresses. -/
  separated : Separated R

/-- A field has the kind and multiplicity of a definition and leads to the type of what the
definition resolves to. -/
structure Field.Fits (types : Catalogue) (f : Field) (d : Definition) : Prop where
  /-- The kind. -/
  kind_eq : f.kind = d.kind
  /-- Whether it may repeat. -/
  multiple_eq : f.multiple = d.multiple
  /-- The type it leads to. -/
  target : ∀ ⦃multiple schemas⦄, d = .node multiple schemas → schemas ≠ [] ∧ ∃ set,
    source.resolve schemas = .ok set ∧ f.target? = some (identityOf set) ∧ identityOf set ∈ types.keys

/-- The field of a definition, which leads to the type of what the definition resolves to. -/
def Definition.field : Definition → Field
  | .value kind multiple => ⟨.value kind, multiple⟩
  | .node multiple schemas =>
    ⟨.node schemas ((source.resolve schemas).toOption.elim "" identityOf), multiple⟩

/-- The fields of definitions: of those with one key the first counts. -/
def mergedFields (entries : List (String × String × Definition)) : Table Field :=
  firstOfEach (entries.map fun e => (e.2.1, e.2.2.field source))

/-- A type is that of a set: its fields are the keys of the set, and each fits all definitions
of its key. -/
structure Describes (types : Catalogue) (set : Table Schema) (t : NodeType) : Prop where
  /-- There is a field. -/
  nonempty : t.fields.entries ≠ []
  /-- Every field is a key of the set. -/
  keys : ∀ key ∈ t.fields.keys, ∃ address d, (address, key, d) ∈ definitions set
  /-- Every definition has a field that fits it. -/
  fields : ∀ ⦃address key d⦄, (address, key, d) ∈ definitions set →
    ∃ f, t.fields.get? key = some f ∧ f.Fits source types d
  /-- The schemas of the set were merged in some order. -/
  merged : ∃ order : Table Schema, order.entries.Perm set.entries ∧
    t.fields = mergedFields source (definitions order)

end

variable {source : Source} {R : Table Schema → Prop} {types types' : Catalogue}
  {set set' : Table Schema}

/-! ### Sets with the same addresses -/

theorem mem_entries_iff_of_resolve {addresses : List String} (h : source.resolve addresses = .ok set)
    {a : String} {s : Schema} :
    (a, s) ∈ set.entries ↔ a ∈ set.keys ∧ source.fetch a = .ok (.schema s) := by
  constructor
  · intro hm
    exact ⟨List.mem_map.2 ⟨_, hm, rfl⟩, Source.fetch_of_resolve h hm⟩
  · rintro ⟨hk, hf⟩
    obtain ⟨⟨a', s'⟩, hm, rfl⟩ := List.mem_map.1 hk
    have hs := Source.fetch_of_resolve h hm
    rw [hf] at hs
    cases hs
    exact hm

theorem SameAddresses.entries {as bs : List String} (h : SameAddresses set set')
    (hr : source.resolve as = .ok set) (hr' : source.resolve bs = .ok set') (e : String × Schema) :
    e ∈ set.entries ↔ e ∈ set'.entries := by
  obtain ⟨a, s⟩ := e
  rw [mem_entries_iff_of_resolve hr, mem_entries_iff_of_resolve hr', h a]

/-! ### Reached sets -/

theorem Reached.mono {lists lists' : List (List String)} (hl : ∀ addresses ∈ lists, addresses ∈ lists')
    (h : Reached source lists set) : Reached source lists' set := by
  induction h with
  | root ha hr => exact .root (hl _ ha) hr
  | step _ hs ih => exact .step ih hs

theorem Reached.exists_list {lists : List (List String)} (h : Reached source lists set) :
    ∃ addresses ∈ lists, Reached source [addresses] set := by
  induction h with
  | root ha hr => exact ⟨_, ha, .root List.mem_cons_self hr⟩
  | step _ hl ih =>
    obtain ⟨addresses, ha, hs⟩ := ih
    exact ⟨addresses, ha, hs.step hl⟩

theorem Reached.resolved {lists : List (List String)} (h : Reached source lists set) :
    ∃ addresses, source.resolve addresses = .ok set := by
  cases h with
  | root _ hr => exact ⟨_, hr⟩
  | step _ hs =>
    obtain ⟨-, -, -, schemas, -, hr⟩ := hs
    exact ⟨schemas, hr⟩

/-- The lists of schemas that the node definitions of a source name. -/
def Source.declarations (source : Source) : List (List String) :=
  (source.addresses.flatMap fun address =>
    match source.fetch address with
    | .ok (.schema s) => s.elements.values.filter fun d => d.kind = .node
    | _ => []).filterMap fun d =>
      match d with
      | .node _ schemas => some schemas
      | .value _ _ => none

/-- What a set leads to is what a list of the source resolves to. -/
theorem Leads.declared {addresses : List String} (hl : Leads source set set')
    (hr : source.resolve addresses = .ok set) :
    ∃ schemas ∈ source.declarations, source.resolve schemas = .ok set' := by
  obtain ⟨address, key, multiple, schemas, hm, hs⟩ := hl
  obtain ⟨s, hmem, hd⟩ := mem_definitions.1 hm
  have hf := Source.fetch_of_resolve hr hmem
  have ha : address ∈ source.addresses := by
    by_contra hn
    obtain ⟨e, he⟩ := source.error_of_not_mem address hn
    rw [he] at hf
    cases hf
  refine ⟨schemas, List.mem_filterMap.2 ⟨.node multiple schemas, ?_, rfl⟩, hs⟩
  refine List.mem_flatMap.2 ⟨address, ha, ?_⟩
  rw [hf]
  exact List.mem_filter.2 ⟨List.mem_map.2 ⟨_, hd, rfl⟩, rfl⟩

/-- What lists of addresses and the node definitions of a source resolve to. -/
def Source.candidates (source : Source) (lists : List (List String)) : List (Table Schema) :=
  (lists ++ source.declarations).filterMap fun addresses => (source.resolve addresses).toOption

theorem Reached.mem_candidates {lists : List (List String)} (h : Reached source lists set) :
    set ∈ source.candidates lists := by
  have hlist : ∃ addresses ∈ lists ++ source.declarations, source.resolve addresses = .ok set := by
    cases h with
    | root ha hr => exact ⟨_, List.mem_append_left _ ha, hr⟩
    | step hs hl =>
      obtain ⟨addresses, hr⟩ := hs.resolved
      obtain ⟨schemas, hm, hr'⟩ := hl.declared hr
      exact ⟨schemas, List.mem_append_right _ hm, hr'⟩
  obtain ⟨addresses, ha, hr⟩ := hlist
  refine List.mem_filterMap.2 ⟨addresses, ha, ?_⟩
  rw [hr]
  rfl

/-- Of the sets that can be reached, those with different addresses have different identities. -/
def Source.Separates (source : Source) (lists : List (List String)) : Prop :=
  ∀ set ∈ source.candidates lists, ∀ set' ∈ source.candidates lists,
    set.sorted.keys = set'.sorted.keys ∨ identityOf set ≠ identityOf set'

instance (source : Source) (lists : List (List String)) : Decidable (source.Separates lists) :=
  inferInstanceAs (Decidable (∀ set ∈ source.candidates lists, ∀ set' ∈ source.candidates lists,
    set.sorted.keys = set'.sorted.keys ∨ identityOf set ≠ identityOf set'))

theorem Source.Separates.separated {lists : List (List String)} (h : source.Separates lists) :
    Separated (Reached source lists) := by
  intro set set' hs hs' hi
  exact .of_sorted ((h set hs.mem_candidates set' hs'.mem_candidates).resolve_right fun hne => hne hi)

theorem Separated.mono {R' : Table Schema → Prop} (h : Separated R') (hR : ∀ set, R set → R' set) :
    Separated R := fun _ _ hs hs' => h (hR _ hs) (hR _ hs')

theorem Separated.family {lists : List (List String)} (h : Separated (Reached source lists)) :
    Family source (Reached source lists) := ⟨fun _ hs => hs.resolved, fun _ _ hs hl => hs.step hl, h⟩

namespace Family

variable (hR : Family source R)
include hR

theorem entries_iff (h : R set) (h' : R set') (hs : SameAddresses set set') (e : String × Schema) :
    e ∈ set.entries ↔ e ∈ set'.entries := by
  obtain ⟨as, ha⟩ := hR.resolved h
  obtain ⟨bs, hb⟩ := hR.resolved h'
  exact hs.entries ha hb e

theorem definitions_iff (h : R set) (h' : R set') (hs : SameAddresses set set')
    (e : String × String × Definition) : e ∈ definitions set ↔ e ∈ definitions set' := by
  obtain ⟨address, key, d⟩ := e
  rw [mem_definitions, mem_definitions]
  exact exists_congr fun s => and_congr_left' (hR.entries_iff h h' hs _)

theorem sorted_eq (h : R set) (h' : R set') (hs : SameAddresses set set') : set.sorted = set'.sorted :=
  Table.sorted_congr (hR.entries_iff h h' hs)

theorem blank_eq (h : R set) (h' : R set') (hs : SameAddresses set set') (hashLength : Int) :
    blank hashLength set = blank hashLength set' := by
  unfold blank
  rw [hR.sorted_eq h h' hs]

theorem leads_congr (h : R set) (h' : R set') (hs : SameAddresses set set') {next : Table Schema}
    (hl : Leads source set next) : Leads source set' next := by
  obtain ⟨address, key, multiple, schemas, hm, hn⟩ := hl
  exact ⟨address, key, multiple, schemas, (hR.definitions_iff h h' hs _).1 hm, hn⟩

theorem mergeable_congr (h : R set) (h' : R set') (hs : SameAddresses set set')
    (hm : Mergeable source set) : Mergeable source set' := by
  have hd := fun e => (hR.definitions_iff h h' hs e).2
  refine ⟨fun hn => hm.nonempty ?_, fun _ _ _ _ he => hm.named (hd _ he),
    fun _ _ _ _ he => hm.resolved (hd _ he), fun _ _ _ _ _ he he' => hm.agree (hd _ he) (hd _ he')⟩
  refine List.eq_nil_iff_forall_not_mem.2 fun e he => ?_
  rw [hR.definitions_iff h h' hs, hn] at he
  cases he

theorem describes_congr (h : R set) (h' : R set') (hs : SameAddresses set set') {t : NodeType}
    (hd : Describes source types set t) : Describes source types set' t := by
  refine ⟨hd.nonempty, fun key hk => ?_,
    fun _ _ _ he => hd.fields ((hR.definitions_iff h h' hs _).2 he), ?_⟩
  · obtain ⟨address, d, hm⟩ := hd.keys key hk
    exact ⟨address, d, (hR.definitions_iff h h' hs _).1 hm⟩
  · obtain ⟨order, hperm, hfields⟩ := hd.merged
    exact ⟨order, hperm.trans (Table.perm_of_mem_iff (hR.entries_iff h h' hs)), hfields⟩

/-- A set whose type is compiled can be merged. -/
theorem mergeable_of_describes (h : R set) {t : NodeType} (hd : Describes source types set t) :
    Mergeable source set := by
  refine ⟨fun hn => ?_, fun address key multiple schemas he => ?_, fun address key multiple schemas he => ?_,
    fun a b key d e hd1 he => ?_⟩
  · obtain ⟨key, hk⟩ := List.exists_mem_of_ne_nil _ fun hk => hd.nonempty (List.map_eq_nil_iff.1 hk)
    obtain ⟨address, d, hm⟩ := hd.keys key hk
    rw [hn] at hm
    cases hm
  · obtain ⟨f, -, hf⟩ := hd.fields he
    exact (hf.target rfl).1
  · obtain ⟨f, -, hf⟩ := hd.fields he
    obtain ⟨-, set', hs, -⟩ := hf.target rfl
    exact ⟨set', hs⟩
  · obtain ⟨f, hf, hfit⟩ := hd.fields hd1
    obtain ⟨f', hf', hfit'⟩ := hd.fields he
    cases hf.symm.trans hf'
    have hk := hfit.kind_eq.symm.trans hfit'.kind_eq
    have hm := hfit.multiple_eq.symm.trans hfit'.multiple_eq
    cases d with
    | value k m =>
      cases e with
      | value k' m' => exact ⟨Kind.value.inj hk, hm⟩
      | node m' ss' => cases hk
    | node m ss =>
      cases e with
      | value k' m' => cases hk
      | node m' ss' =>
        obtain ⟨-, s, hs, ht, -⟩ := hfit.target rfl
        obtain ⟨-, s', hs', ht', -⟩ := hfit'.target rfl
        have hi := Option.some.inj (ht.symm.trans ht')
        have hleads : Leads source set s := ⟨_, _, _, _, hd1, hs⟩
        have hleads' : Leads source set s' := ⟨_, _, _, _, he, hs'⟩
        exact ⟨hm, s, s', hs, hs', hR.separated (hR.closed h hleads) (hR.closed h hleads') hi⟩

end Family

end ContentGraph
