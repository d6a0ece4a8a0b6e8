import ContentGraph.Proofs.Resolution.Concurrency
import ContentGraph.Proofs.TypeGraph.Calling
import ContentGraph.Proofs.TypeGraph.Naming
import Mathlib.Data.Set.Finite.List

/-!
# Bounds of a compilation

A compilation into an empty catalogue ends, and says so itself: `Catalogue.compile` gives the outcome of
the one run that the computation by calls has (`Source.compilesWithin`). A schema may lead back to
itself. What ends the run is that a type is begun before its fields are compiled: each call that goes
deeper takes an identity that some node definition of the source leads to and that no type had yet.

A run accounts for the types that it begins (`Calling.Account`): they are the types that the catalogue
gets, in order, and each of them is the type of what a node definition resolves to, one of a schema that
was resolved before. So there are at most as many types as such node definitions, and the root.
-/

namespace ContentGraph

open Compilation (exec definitions blank)

/-- The number of node definitions in the schemas of a set. -/
def nodeDefinitionsIn (set : Table Schema) : ℕ :=
  ((definitions set).filter fun d => d.2.2.kind = .node).length

namespace Calling

/-- The identities of the types that are begun, in order. A call begins the type of its set unless the
catalogue has it. -/
def begun (events : List Event) : List String :=
  events.filterMap fun
    | .called set types => if identityOf set ∈ types.keys then none else some (identityOf set)
    | .resolved _ _ => none

/-- The schemas that lists of addresses are resolved to, in order. -/
def met (events : List Event) : List (String × Schema) :=
  events.flatMap fun
    | .resolved _ (.ok set) => set.entries
    | _ => []

/-- The schemas that lists of addresses are resolved to, each once. -/
def schemasMet (events : List Event) : Table Schema := firstOfEach (met events)

section

variable (source : Source)

/-- An identity is that of what a node definition of some schemas resolves to. -/
def Declared (entries : List (String × Schema)) (i : String) : Prop :=
  ∃ address s key multiple schemas set, (address, s) ∈ entries ∧
    (key, .node multiple schemas) ∈ s.elements.entries ∧ source.resolve schemas = .ok set ∧
    i = identityOf set

/-- What happened accounts for the types that a catalogue got: they were begun, each for a reason or for
a node definition of a schema that was met. -/
structure Account (Q : String → Prop) (types types' : Catalogue) (events : List Event) : Prop where
  /-- The types that were begun are the new ones. -/
  keys : types'.keys = types.keys ++ begun events
  /-- Each was begun for a reason or for a node definition. -/
  reason : ∀ i ∈ begun events, Q i ∨ Declared source (met events) i

/-- A computation by calls has a run that comes to what a compilation gives, and what happens in it
accounts for the types that the catalogue gets. -/
def Ends {α : Type} (hashLength : Int) (Q : String → Prop) (types : Catalogue) (x : Compilation Id α)
    (y : Compilation Calling α) : Prop :=
  ∃ events, Runs source hashLength (y.run.run types) events (exec x types) ∧
    Account source Q types (exec x types).2 events

end

variable {source : Source} {hashLength : Int} {Q Q' : String → Prop} {types types' types'' : Catalogue}
  {events events' : List Event} {entries entries' : List (String × Schema)} {i : String}

theorem begun_append (events events' : List Event) : begun (events ++ events') = begun events ++ begun events' :=
  List.filterMap_append

theorem met_append (events events' : List Event) : met (events ++ events') = met events ++ met events' :=
  List.flatMap_append

theorem Declared.mono (h : Declared source entries i) (hsub : entries ⊆ entries') :
    Declared source entries' i := by
  obtain ⟨address, s, key, multiple, schemas, set, hs, hd, hr⟩ := h
  exact ⟨address, s, key, multiple, schemas, set, hsub hs, hd, hr⟩

namespace Account

theorem of_keys (h : types'.keys = types.keys) : Account source Q types types' [] := by
  refine ⟨?_, fun i hi => ?_⟩
  · rw [h]
    exact (List.append_nil _).symm
  · cases hi

theorem trans (h : Account source Q types types' events) (h' : Account source Q types' types'' events') :
    Account source Q types types'' (events ++ events') := by
  refine ⟨?_, fun i hi => ?_⟩
  · rw [h'.keys, h.keys, begun_append, List.append_assoc]
  · rw [begun_append] at hi
    rw [met_append]
    rcases List.mem_append.1 hi with hi | hi
    · exact (h.reason i hi).imp_right fun hd => hd.mono (List.subset_append_left _ _)
    · exact (h'.reason i hi).imp_right fun hd => hd.mono (List.subset_append_right _ _)

theorem subset (h : Account source Q types types' events) : types.keys ⊆ types'.keys := by
  rw [h.keys]
  exact List.subset_append_left _ _

end Account

/-! ### Calls -/

section

variable {compileSet : Table Schema → Compilation Id String} {set : Table Schema}

theorem exec_compileWith_known (h : identityOf set ∈ types.keys) :
    exec (Compilation.compileWith (Compilation.resolving source) hashLength compileSet set) types
      = (.ok (identityOf set), types) := by
  rw [← identityOf_eq] at h ⊢
  unfold Compilation.compileWith
  dsimp only
  rw [Compilation.exec_bind, Compilation.exec_get, Compilation.follow_ok, if_pos (Table.contains_iff.2 h)]
  rfl

theorem exec_compileWith_new (h : identityOf set ∉ types.keys) :
    exec (Compilation.compileWith (Compilation.resolving source) hashLength compileSet set) types
      = exec (Compilation.mergeWith (Compilation.resolving source) hashLength compileSet set)
        (types.insert (identityOf set) (blank hashLength set)) := by
  rw [← identityOf_eq] at h ⊢
  unfold Compilation.compileWith
  dsimp only
  rw [Compilation.exec_bind, Compilation.exec_get, Compilation.follow_ok,
    if_neg (fun hc => h (Table.contains_iff.1 hc)), Compilation.exec_bind, Compilation.exec_modify,
    Compilation.follow_ok]
  rfl

theorem ofSet_eq (hashLength : Int) (set : Table Schema) (types : Catalogue) : ofSet hashLength set types =
    if types.contains (typeIdentity set.sorted.keys) then .done (.ok (typeIdentity set.sorted.keys), types)
    else (Compilation.mergeWith resolving hashLength nested set).run.run
      (types.insert (typeIdentity set.sorted.keys) (blank hashLength set)) := by
  show (ite (types.contains (typeIdentity set.sorted.keys) = true) _ _ :
    Compilation Calling String).run.run types = _
  split <;> rfl

theorem ofSet_known (h : identityOf set ∈ types.keys) :
    ofSet hashLength set types = .done (.ok (identityOf set), types) := by
  rw [← identityOf_eq] at h ⊢
  rw [ofSet_eq, if_pos (Table.contains_iff.2 h)]

theorem ofSet_new (h : identityOf set ∉ types.keys) : ofSet hashLength set types =
    (Compilation.mergeWith resolving hashLength nested set).run.run
      (types.insert (identityOf set) (blank hashLength set)) := by
  rw [← identityOf_eq] at h ⊢
  rw [ofSet_eq, if_neg (fun hc => h (Table.contains_iff.1 hc))]

end

/-! ### Parts of a compilation -/

namespace Ends

variable {α β : Type}

theorem pure (a : α) : Ends source hashLength Q types (pure a) (pure a) := ⟨[], .done _, .of_keys rfl⟩

theorem throw (f : Failure) :
    Ends source hashLength Q types (throw f : Compilation Id α) (throw f : Compilation Calling α) :=
  ⟨[], .done _, .of_keys rfl⟩

theorem typeAt (identity : String) :
    Ends source hashLength Q types (Compilation.typeAt identity) (Compilation.typeAt identity) :=
  ⟨[], .done _, .of_keys rfl⟩

theorem addField (identity key : String) (f : Field) : Ends source hashLength Q types
    (Compilation.addField identity key f) (Compilation.addField identity key f) :=
  ⟨[], .done _, .of_keys (keys_withField identity key f types)⟩

theorem mono {x : Compilation Id α} {y : Compilation Calling α} (h : Ends source hashLength Q types x y)
    (hq : ∀ i, Q i → Q' i) : Ends source hashLength Q' types x y := by
  obtain ⟨events, hruns, haccount⟩ := h
  exact ⟨events, hruns, haccount.keys, fun i hi => (haccount.reason i hi).imp_left (hq i)⟩

theorem bind {x : Compilation Id α} {y : Compilation Calling α} {f : α → Compilation Id β}
    {k : α → Compilation Calling β} (h : Ends source hashLength Q types x y)
    (hk : ∀ a types', types.keys ⊆ types'.keys → Ends source hashLength Q types' (f a) (k a)) :
    Ends source hashLength Q types (x >>= f) (y >>= k) := by
  obtain ⟨events, hruns, haccount⟩ := h
  unfold Ends
  rw [Compilation.exec_bind, ExceptT.run_bind, StateT.run_bind]
  cases hx : exec x types with
  | mk outcome types' =>
    rw [hx] at hruns haccount
    cases outcome with
    | error e => exact ⟨events ++ [], hruns.bind (.done _), haccount.trans (.of_keys rfl)⟩
    | ok a =>
      obtain ⟨events', hruns', haccount'⟩ := hk a types' haccount.subset
      exact ⟨events ++ events', hruns.bind hruns', haccount.trans haccount'⟩

/-- A list is resolved, and its schemas are a reason for what is begun after it. -/
theorem resolving_bind {addresses : List String} {f : Table Schema → Compilation Id α}
    {k : Table Schema → Compilation Calling α}
    (h : ∀ set, source.resolve addresses = .ok set →
      Ends source hashLength (fun i => Q i ∨ Declared source set.entries i) types (f set) (k set)) :
    Ends source hashLength Q types (Compilation.resolving source addresses >>= f)
      (resolving addresses >>= k) := by
  unfold Ends
  rw [Compilation.exec_bind, Compilation.exec_resolving]
  cases hr : source.resolve addresses with
  | error e =>
    refine ⟨[.resolved addresses (source.resolve addresses)], .resolve ?_, ⟨(List.append_nil _).symm, ?_⟩⟩
    · rw [hr]
      exact .done _
    · intro i hi
      cases hi
  | ok set =>
    obtain ⟨events, hruns, haccount⟩ := h set hr
    refine ⟨.resolved addresses (source.resolve addresses) :: events, .resolve ?_, haccount.keys, ?_⟩
    · rw [hr]
      exact hruns
    · intro i hi
      have hmet : met (.resolved addresses (source.resolve addresses) :: events) = set.entries ++ met events := by
        rw [met, List.flatMap_cons, hr]
        rfl
      rw [hmet]
      rcases haccount.reason i hi with (hq | hd) | hd
      · exact .inl hq
      · exact .inr (hd.mono (List.subset_append_left _ _))
      · exact .inr (hd.mono (List.subset_append_right _ _))

theorem foldlM {σ : Type} {known : List String} {f : β → σ → Compilation Id β}
    {k : β → σ → Compilation Calling β} {es : List σ}
    (h : ∀ b, ∀ e ∈ es, ∀ types, known ⊆ types.keys → Ends source hashLength Q types (f b e) (k b e))
    (hknown : known ⊆ types.keys) (b : β) :
    Ends source hashLength Q types (es.foldlM f b) (es.foldlM k b) := by
  induction es generalizing b types with
  | nil => exact pure b
  | cons e es ih =>
    refine (h b e List.mem_cons_self types hknown).bind fun b' types' hsub => ?_
    exact ih (fun b x hx => h b x (List.mem_cons_of_mem _ hx)) (List.Subset.trans hknown hsub) b'

theorem resolvesTo (f : Field) (d : Definition) : Ends source hashLength Q types
    (Compilation.resolvesTo (Compilation.resolving source) f d) (Compilation.resolvesTo resolving f d) := by
  unfold Compilation.resolvesTo
  split
  · split
    · exact pure _
    · exact resolving_bind fun set _ => pure _
  · exact pure _

section

variable {compileSet : Table Schema → Compilation Id String} {set : Table Schema} {known : List String}
  (hnested : ∀ next types, Leads source set next → known ⊆ types.keys →
    Ends source hashLength (fun i => i = identityOf next ∨ Declared source next.entries i) types
      (compileSet next) (nested next))
include hnested

/-- The field of a node definition begins the type of what the definition resolves to. -/
theorem compileField {address key : String} {d : Definition} (he : (address, key, d) ∈ definitions set)
    (hknown : known ⊆ types.keys) : Ends source hashLength (Declared source set.entries) types
      (Compilation.compileField (Compilation.resolving source) compileSet key d)
      (Compilation.compileField resolving nested key d) := by
  cases d with
  | value kind multiple => exact pure _
  | node multiple schemas =>
    have hrest : ∀ types' : Catalogue, known ⊆ types'.keys → ∀ next, source.resolve schemas = .ok next →
        Ends source hashLength (fun i => Declared source set.entries i ∨ Declared source next.entries i) types'
          (compileSet next >>= fun target => (Pure.pure ⟨.node schemas target, multiple⟩ : Compilation Id Field))
          (nested next >>= fun target => Pure.pure ⟨.node schemas target, multiple⟩) := by
      intro types' hknown' next hr
      have hcall := hnested next types' ⟨address, key, multiple, schemas, he, hr⟩ hknown'
      refine (hcall.mono fun i hi => hi.imp_left ?_).bind fun target _ _ => pure _
      rintro rfl
      obtain ⟨s, hs, hd⟩ := mem_definitions.1 he
      exact ⟨address, s, key, multiple, schemas, next, hs, hd, hr, rfl⟩
    unfold Compilation.compileField
    dsimp only
    split
    · exact (throw _).bind fun _ types' hsub => resolving_bind (hrest types' (List.Subset.trans hknown hsub))
    · exact resolving_bind (hrest types hknown)

/-- One more definition is merged. -/
theorem addDefinition (identity : String) (owners : Table (String × Definition))
    {entry : String × String × Definition} (he : entry ∈ definitions set) (hknown : known ⊆ types.keys) :
    Ends source hashLength (Declared source set.entries) types
      (Compilation.addDefinition (Compilation.resolving source) compileSet identity owners entry)
      (Compilation.addDefinition resolving nested identity owners entry) := by
  obtain ⟨address, key, d⟩ := entry
  unfold Compilation.addDefinition
  dsimp only
  split
  · exact (compileField hnested he hknown).bind fun f _ _ => (addField identity key f).bind fun _ _ _ => pure _
  · split
    · exact pure _
    · refine (typeAt identity).bind fun t? _ _ => ?_
      split
      · next f _ =>
        refine (resolvesTo f d).bind fun agrees _ _ => ?_
        split
        · exact pure _
        · exact throw _
      · refine (pure false).bind fun agrees _ _ => ?_
        split
        · exact pure _
        · exact throw _

/-- The schemas of a set are merged. -/
theorem mergeWith (hknown : known ⊆ types.keys) : Ends source hashLength (Declared source set.entries) types
    (Compilation.mergeWith (Compilation.resolving source) hashLength compileSet set)
    (Compilation.mergeWith resolving hashLength nested set) := by
  unfold Compilation.mergeWith
  refine (foldlM (fun owners entry he _ hk => addDefinition hnested _ owners he hk) hknown _).bind
    fun _ _ _ => (typeAt _).bind fun t? _ _ => ?_
  split
  · exact (throw _).bind fun _ _ _ => pure _
  · exact (pure _).bind fun _ _ _ => pure _

/-- A call that begins the type of its set and merges the schemas. -/
theorem compileWith_new (hi : identityOf set ∉ types.keys) (hknown : known ⊆ identityOf set :: types.keys) :
    Ends source hashLength (fun i => i = identityOf set ∨ Declared source set.entries i) types
      (Compilation.compileWith (Compilation.resolving source) hashLength compileSet set) (nested set) := by
  have hkeys : (types.insert (identityOf set) (blank hashLength set)).keys = types.keys ++ [identityOf set] := by
    rw [Table.keys_insert, if_neg hi]
  have hsub : known ⊆ (types.insert (identityOf set) (blank hashLength set)).keys := by
    intro i h
    rw [hkeys]
    simpa [or_comm] using hknown h
  have hmerge : Ends source hashLength (Declared source set.entries)
      (types.insert (identityOf set) (blank hashLength set))
      (Compilation.mergeWith (Compilation.resolving source) hashLength compileSet set)
      (Compilation.mergeWith resolving hashLength nested set) := mergeWith hnested hsub
  obtain ⟨events, hruns, haccount⟩ := hmerge
  have hbegun : begun (.called set types :: (events ++ [])) = identityOf set :: begun events := by
    simp [begun, hi]
  have hmet : met (.called set types :: (events ++ [])) = met events := by
    simp [met]
  unfold Ends
  rw [exec_compileWith_new hi]
  refine ⟨.called set types :: (events ++ []), .compile ?_ (.done _), ?_, fun i h => ?_⟩
  · rw [ofSet_new hi]
    exact hruns
  · rw [haccount.keys, hkeys, hbegun, List.append_assoc, List.singleton_append]
  · rw [hbegun] at h
    rw [hmet]
    rcases List.mem_cons.1 h with rfl | h
    · exact .inl (.inl rfl)
    · exact (haccount.reason i h).imp_left .inr

omit hnested in
/-- A call that finds the type of its set. -/
theorem compileWith_known (hi : identityOf set ∈ types.keys) : Ends source hashLength Q types
    (Compilation.compileWith (Compilation.resolving source) hashLength compileSet set) (nested set) := by
  have hbegun : begun [.called set types] = [] := by
    simp [begun, hi]
  unfold Ends
  rw [exec_compileWith_known hi]
  refine ⟨.called set types :: ([] ++ []), .compile ?_ (.done _), ?_, fun i h => ?_⟩
  · rw [ofSet_known hi]
    exact .done _
  · exact (List.append_nil _).symm.trans (congrArg _ hbegun.symm)
  · rw [List.append_nil, hbegun] at h
    cases h

end

/-- **Compiling a set ends** where there are steps for all types that can still be begun, by induction on
the steps: a call that begins a type leaves one of them less. -/
theorem compileSet (hashLength : Int) (steps : ℕ) {addresses : List String} {set : Table Schema}
    (hr : source.resolve addresses = .ok set) (he : Enough source steps set types) :
    Ends source hashLength (fun i => i = identityOf set ∨ Declared source set.entries i) types
      (Compilation.compileSet (Compilation.resolving source) hashLength steps set) (nested set) := by
  induction steps generalizing addresses set types with
  | zero => rcases he with he | he <;> omega
  | succ steps ih =>
    rw [Compilation.compileSet_succ]
    by_cases hi : identityOf set ∈ types.keys
    · exact compileWith_known hi
    · have hroom : room source (identityOf set :: types.keys) + 1 ≤ steps := by
        rcases he with he | he
        · omega
        · exact absurd he.1 hi
      refine compileWith_new (fun next types' hl hknown => ?_) hi (List.Subset.refl _)
      obtain ⟨-, -, -, schemas, -, hnext⟩ := id hl
      exact ih hnext (hl.enough hr hroom fun i hm => hknown hm)

/-- Compiling a list of addresses into an empty catalogue ends. -/
theorem compile (source : Source) (hashLength : Int) (addresses : List String) :
    Ends source hashLength (fun i => ∃ set, source.resolve addresses = .ok set ∧ i = identityOf set) .empty
      (Compilation.compile (Compilation.resolving source) hashLength (source.nodeDefinitions + 2) addresses)
      (resolving addresses >>= nested) := by
  refine resolving_bind fun set hr => ?_
  have hroom := room_le_nodeDefinitions source (identityOf set :: Table.keys (.empty : Catalogue))
  refine (compileSet hashLength _ hr (.inl (by omega))).mono fun i hi => hi.imp_left ?_
  rintro rfl
  exact ⟨set, hr, rfl⟩

end Ends

/-! ### What is begun, counted -/

/-- A schema that was met is the one that the source holds. -/
theorem Runs.fetch_of_met {α : Type} {x : Calling α} {a : α} (h : Runs source hashLength x events a)
    {address : String} {s : Schema} (hm : (address, s) ∈ met events) :
    source.fetch address = .ok (.schema s) := by
  obtain ⟨event, he, hs⟩ := List.mem_flatMap.1 hm
  rcases event with ⟨addresses, _ | set⟩ | ⟨set, types⟩
  · cases hs
  · exact Source.fetch_of_resolve (h.eq_resolve he).symm hs
  · cases hs

/-- The identities that the node definitions in the schemas of a set lead to. -/
def declaredIn (source : Source) (set : Table Schema) : List String :=
  ((definitions set).filter fun d => d.2.2.kind = .node).filterMap fun d =>
    match d.2.2 with
    | .node _ schemas => (source.resolve schemas).toOption.map identityOf
    | .value _ _ => none

theorem length_declaredIn_le (source : Source) (set : Table Schema) :
    (declaredIn source set).length ≤ nodeDefinitionsIn set := List.length_filterMap_le _ _

/-- Each schema that was met is one of those that are met once. -/
theorem Runs.mem_declaredIn {α : Type} {x : Calling α} {a : α} (h : Runs source hashLength x events a)
    (hd : Declared source (met events) i) : i ∈ declaredIn source (schemasMet events) := by
  obtain ⟨address, s, key, multiple, schemas, set, hs, hk, hr, rfl⟩ := hd
  have hkey : address ∈ (schemasMet events).keys := mem_keys_firstOfEach.2 (List.mem_map_of_mem hs)
  obtain ⟨⟨_, s'⟩, hs', rfl⟩ := List.mem_map.1 hkey
  have hsame : s' = s := by
    have hf := h.fetch_of_met (mem_of_mem_firstOfEach hs')
    rw [h.fetch_of_met hs] at hf
    cases hf
    rfl
  subst hsame
  have hd : (_, key, Definition.node multiple schemas) ∈ definitions (schemasMet events) :=
    mem_definitions.2 ⟨s', hs', hk⟩
  refine List.mem_filterMap.2 ⟨_, List.mem_filter.2 ⟨hd, rfl⟩, ?_⟩
  dsimp only
  rw [hr]
  rfl

/-- Where all types that are begun are the root or declared, the definitions that declare them bound
their number. -/
theorem Runs.length_begun_le {α : Type} {x : Calling α} {a : α} (h : Runs source hashLength x events a)
    (hn : (begun events).Nodup) {addresses : List String}
    (hreason : ∀ i ∈ begun events, (∃ set, source.resolve addresses = .ok set ∧ i = identityOf set) ∨
      Declared source (met events) i) :
    (begun events).length ≤ nodeDefinitionsIn (schemasMet events) + 1 := by
  have hsub : begun events ⊆
      ((source.resolve addresses).toOption.map identityOf).toList ++ declaredIn source (schemasMet events) := by
    intro i hi
    rw [List.mem_append]
    rcases hreason i hi with ⟨set, hr, rfl⟩ | hd
    · rw [hr]
      exact .inl List.mem_cons_self
    · exact .inr (h.mem_declaredIn hd)
  have hlength := (List.subperm_of_subset hn hsub).length_le
  have hroot := Option.length_toList_le (o := (source.resolve addresses).toOption.map identityOf)
  have hdeclared := length_declaredIn_le source (schemasMet events)
  rw [List.length_append] at hlength
  omega

end Calling

/-- Where all fields lead to types that are there, a type that is there reaches no others. -/
theorem Catalogue.Closed.mem_keys {types : Catalogue} (h : types.Closed) {root i : String}
    (hroot : root ∈ types.keys) (hr : types.Reaches root i) : i ∈ types.keys := by
  induction hr with
  | refl => exact hroot
  | tail _ hj _ =>
    obtain ⟨t, key, f, ht, hf, htarget⟩ := hj
    exact h _ t ht key f hf _ htarget

open Calling (Runs begun schemasMet)

/-- What is asked of the compilation of a list of addresses into an empty catalogue: of what happens in
it, of its outcome and of the types that it leaves behind. -/
structure Source.CompilesWithin (source : Source) (hashLength : Int) (addresses : List String)
    (events : List Calling.Event) (outcome : Except Failure String) (types : Catalogue) : Prop where
  /-- The computation by calls ends with the outcome and the types. -/
  ends : Runs source hashLength (Calling.ofAddresses addresses) events (outcome, types)
  /-- It has no other run. -/
  only : ∀ events' result, Runs source hashLength (Calling.ofAddresses addresses) events' result →
    events' = events ∧ result = (outcome, types)
  /-- In whatever order fetches are answered, the resolution of a list ends, with what the run has where
  that is a set of schemas. -/
  resolved : ∀ schemas resolution, .resolved schemas resolution ∈ events →
    Acc (flip source.Step) (Source.begun schemas) ∧
      ∀ set, source.Comes schemas (.returned set) ↔ resolution = .ok set
  /-- The types are those that were begun, in order. -/
  begun : types.keys = Calling.begun events
  /-- No identity is begun twice. -/
  once : (Calling.begun events).Nodup
  /-- A type has the identity of its addresses. -/
  identity : ∀ i t, types.get? i = some t → i = typeIdentity t.addresses
  /-- There are at most as many types as node definitions in the schemas that were met, and one more. -/
  bounded : types.size ≤ nodeDefinitionsIn (schemasMet events) + 1
  /-- What the root reaches are types that are there. -/
  cached : ∀ root, outcome = .ok root → ∀ i, types.Reaches root i → ∃ t, types.get? i = some t
  /-- The root reaches finitely many types. -/
  finite : ∀ root, outcome = .ok root → {i | types.Reaches root i}.Finite

/-- **A compilation ends with a bounded graph of types**, whatever the source holds. -/
theorem Source.compilesWithin (source : Source) (hashLength : Int) (addresses : List String) :
    ∃ events, source.CompilesWithin hashLength addresses events
      (Catalogue.compile .empty source hashLength addresses).1
      (Catalogue.compile .empty source hashLength addresses).2 := by
  obtain ⟨events, hruns, haccount⟩ := Calling.Ends.compile source hashLength addresses
  have hroot : ∀ root, (Catalogue.compile .empty source hashLength addresses).1 = .ok root →
      root ∈ (Catalogue.compile .empty source hashLength addresses).2.keys := Catalogue.settles_compile.2
  have hclosed : (Catalogue.compile .empty source hashLength addresses).2.Closed :=
    Catalogue.declared_compile.closed
  have hidentity : ∀ i t, (Catalogue.compile .empty source hashLength addresses).2.get? i = some t →
      i = typeIdentity t.addresses := fun i t ht =>
    Catalogue.type_induction (Q := fun i t => i = typeIdentity t.addresses) (fun set _ => rfl)
      (fun i t fields h => h) ht
  change Runs source hashLength _ events (Catalogue.compile .empty source hashLength addresses) at hruns
  change Calling.Account source _ .empty (Catalogue.compile .empty source hashLength addresses).2 events
    at haccount
  generalize Catalogue.compile .empty source hashLength addresses = result at *
  obtain ⟨outcome, types⟩ := result
  have hkeys : types.keys = Calling.begun events := haccount.keys
  have hnodup : (Calling.begun events).Nodup := hkeys ▸ types.nodup
  have hcached : ∀ root, outcome = .ok root → ∀ i, types.Reaches root i → i ∈ types.keys :=
    fun root h i hi => hclosed.mem_keys (hroot root h) hi
  refine ⟨events, hruns, fun events' result h => ?_, fun schemas resolution he => ⟨?_, fun set => ?_⟩, hkeys,
    hnodup, hidentity, ?_, fun root h i hi => Table.mem_keys_iff.1 (hcached root h i hi), fun root h => ?_⟩
  · obtain ⟨rfl, rfl⟩ := h.unique hruns
    exact ⟨rfl, rfl⟩
  · exact Source.acc_running Source.acc_begun
  · rw [hruns.eq_resolve he]
    exact Source.comes_returned_iff
  · have hsize : types.size = (Calling.begun events).length := by
      rw [← hkeys, Table.keys, List.length_map, Table.size]
    rw [hsize]
    exact hruns.length_begun_le hnodup haccount.reason
  · exact types.keys.finite_toSet.subset (hcached root h)

end ContentGraph
