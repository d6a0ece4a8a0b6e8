import ContentGraph.Proofs.TypeGraph.Closed

/-!
# Compilation by calls

`Compilation.compileSet` counts the calls that lie in each other and would give up if they got too
many. Here compilation is said without a count. A `Calling` is a computation that stops where it
resolves a list of addresses and where it compiles a set, and goes on with what comes of that; the
body of a compilation is written once for both (`Compilation.compileWith`). `Calling.Runs` follows a
computation through all its calls to its end, and keeps what happened. A computation that calls itself
for ever has no run.
-/

namespace ContentGraph

/-- The schemas of a set are merged into its type, which was begun. -/
def Compilation.mergeWith {m : Type → Type} [Monad m] (resolve : Resolving m) (hashLength : Int)
    (compileSet : Table Schema → Compilation m String) (set : Table Schema) : Compilation m String := do
  let addresses := set.sorted.keys
  let identity := typeIdentity addresses
  let name := typeName (set.sorted.values.map Schema.name) identity hashLength
  let _ ← (definitions set).foldlM (addDefinition resolve compileSet identity) .empty
  let t? ← typeAt identity
  if (t?.map fun t => t.fields.entries.isEmpty).getD true then throw (.noFields name addresses)
  return identity

/-- One call of a compilation: the type of a set is begun and merged unless the catalogue has it.
`compileSet` compiles what the node definitions of the set lead to. -/
def Compilation.compileWith {m : Type → Type} [Monad m] (resolve : Resolving m) (hashLength : Int)
    (compileSet : Table Schema → Compilation m String) (set : Table Schema) : Compilation m String := do
  let addresses := set.sorted.keys
  let identity := typeIdentity addresses
  if (← get).contains identity then return identity
  let name := typeName (set.sorted.values.map Schema.name) identity hashLength
  modify fun types => types.insert identity ⟨name, addresses, .empty⟩
  mergeWith resolve hashLength compileSet set

theorem Compilation.compileSet_succ {m : Type → Type} [Monad m] (resolve : Resolving m)
    (hashLength : Int) (steps : ℕ) (set : Table Schema) :
    compileSet resolve hashLength (steps + 1) set
      = compileWith resolve hashLength (compileSet resolve hashLength steps) set := rfl

/-- A computation that stops where it resolves a list of addresses and where it compiles a set. -/
inductive Calling (α : Type) where
  /-- It is over. -/
  | done (a : α)
  /-- It resolves a list of addresses. -/
  | resolve (addresses : List String) (next : Except Failure (Table Schema) → Calling α)
  /-- It compiles a set into a catalogue. -/
  | compile (set : Table Schema) (types : Catalogue) (next : Except Failure String × Catalogue → Calling α)

namespace Calling

variable {α β : Type}

/-- What is done after a computation. -/
def andThen : Calling α → (α → Calling β) → Calling β
  | .done a, k => k a
  | .resolve addresses next, k => .resolve addresses fun outcome => (next outcome).andThen k
  | .compile set types next, k => .compile set types fun outcome => (next outcome).andThen k

instance : Monad Calling where
  pure := .done
  bind := andThen

/-- A list of addresses is resolved by a stop. -/
def resolving : Compilation.Resolving Calling := fun addresses =>
  ExceptT.mk fun types => .resolve addresses fun outcome => .done (outcome, types)

/-- A set is compiled by a stop. -/
def nested (set : Table Schema) : Compilation Calling String :=
  ExceptT.mk fun types => .compile set types .done

/-- What a call does: the body of a compilation, with a stop for each call that lies in it. -/
def ofSet (hashLength : Int) (set : Table Schema) (types : Catalogue) :
    Calling (Except Failure String × Catalogue) :=
  (Compilation.compileWith resolving hashLength nested set).run.run types

/-- Compilation of a list of addresses into an empty catalogue. -/
def ofAddresses (addresses : List String) : Calling (Except Failure String × Catalogue) :=
  (resolving addresses >>= nested).run.run .empty

/-- What happens in a run. -/
inductive Event where
  /-- A list of addresses was resolved. -/
  | resolved (addresses : List String) (outcome : Except Failure (Table Schema))
  /-- Compilation of a set into a catalogue was called. -/
  | called (set : Table Schema) (types : Catalogue)

/-- A run of a computation to its end, with what happens in it. Lists are resolved by the source, and
each call is run. -/
inductive Runs (source : Source) (hashLength : Int) : {α : Type} → Calling α → List Event → α → Prop
  /-- It is over. -/
  | done {α : Type} (a : α) : Runs source hashLength (.done a) [] a
  /-- A list is resolved. -/
  | resolve {α : Type} {addresses : List String} {next : Except Failure (Table Schema) → Calling α}
      {events : List Event} {a : α} :
      Runs source hashLength (next (source.resolve addresses)) events a →
      Runs source hashLength (.resolve addresses next)
        (.resolved addresses (source.resolve addresses) :: events) a
  /-- A call is run. -/
  | compile {α : Type} {set : Table Schema} {types : Catalogue}
      {next : Except Failure String × Catalogue → Calling α} {inner events : List Event}
      {outcome : Except Failure String × Catalogue} {a : α} :
      Runs source hashLength (ofSet hashLength set types) inner outcome →
      Runs source hashLength (next outcome) events a →
      Runs source hashLength (.compile set types next) (.called set types :: (inner ++ events)) a

namespace Runs

variable {source : Source} {hashLength : Int} {x : Calling α} {k : α → Calling β}
  {events events' : List Event} {a a' : α} {b : β}

theorem bind (h : Runs source hashLength x events a) (hk : Runs source hashLength (k a) events' b) :
    Runs source hashLength (x >>= k) (events ++ events') b := by
  show Runs source hashLength (x.andThen k) _ b
  induction h with
  | done a => exact hk
  | resolve _ ih => exact .resolve (ih hk)
  | compile hcall _ _ ih =>
    rw [List.cons_append, List.append_assoc]
    exact .compile hcall (ih hk)

/-- A computation has no other run. -/
theorem unique (h : Runs source hashLength x events a) (h' : Runs source hashLength x events' a') :
    events = events' ∧ a = a' := by
  induction h generalizing events' with
  | done a =>
    cases h'
    exact ⟨rfl, rfl⟩
  | resolve _ ih =>
    cases h' with
    | resolve hrest =>
      obtain ⟨rfl, rfl⟩ := ih hrest
      exact ⟨rfl, rfl⟩
  | compile _ _ ihcall ihrest =>
    cases h' with
    | compile hcall hrest =>
      obtain ⟨rfl, rfl⟩ := ihcall hcall
      obtain ⟨rfl, rfl⟩ := ihrest hrest
      exact ⟨rfl, rfl⟩

/-- What was resolved in a run is what the source gives. -/
theorem eq_resolve (h : Runs source hashLength x events a) {addresses : List String}
    {outcome : Except Failure (Table Schema)} (he : .resolved addresses outcome ∈ events) :
    outcome = source.resolve addresses := by
  induction h with
  | done a => cases he
  | resolve _ ih =>
    rcases List.mem_cons.1 he with he | he
    · cases he
      rfl
    · exact ih he
  | compile _ _ ihcall ihrest =>
    rcases List.mem_cons.1 he with he | he
    · cases he
    · rcases List.mem_append.1 he with he | he
      · exact ihcall he
      · exact ihrest he

end Runs

end Calling

end ContentGraph
