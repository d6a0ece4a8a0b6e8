import ContentGraph.Resolution
import ContentGraph.TypeGraph.Basic
import ContentGraph.TypeGraph.Naming

/-!
# Compilation

The schemas that a list of addresses stands for are merged into one type: the union of their
keys, where a key that two schemas define must have one shape. A node definition compiles
the schemas it names. A type enters the catalogue before its fields are compiled, so that a
schema that leads back to itself finds its type there. The catalogue is kept when a
compilation fails.

Compilation does not depend on how lists of addresses are resolved. `Catalogue.compile` takes
the schemas from a source, and `Catalogue.compileRounds` also adds up how long that takes.
-/

namespace ContentGraph

/-- A computation over the catalogue of types that may fail and keeps the catalogue. -/
abbrev Compilation (m : Type → Type) := ExceptT Failure (StateT Catalogue m)

namespace Compilation

variable {m : Type → Type} [Monad m]

/-- How the schemas that a list of addresses stands for are found. -/
abbrev Resolving (m : Type → Type) := List String → Compilation m (Table Schema)

/-- An outcome that does not depend on the catalogue. -/
def lift {α : Type} (x : Except Failure α) : Compilation m α :=
  match x with
  | .ok a => pure a
  | .error f => throw f

/-- The type with an identity, as far as it is compiled. -/
def typeAt (identity : String) : Compilation m (Option NodeType) := do return (← get).get? identity

/-- One more field of a type. -/
def addField (identity key : String) (field : Field) : Compilation m Unit :=
  modify fun types =>
    match types.get? identity with
    | some t => types.insert identity { t with fields := t.fields.insert key field }
    | none => types

/-- Whether a definition resolves to the same schemas as a compiled field does. -/
def resolvesTo (resolve : Resolving m) (field : Field) (definition : Definition) :
    Compilation m Bool :=
  match field.shape, definition with
  | .node _ target, .node multiple schemas =>
    if multiple ≠ field.multiple ∨ schemas = [] then return false
    else do
      let set ← resolve schemas
      return typeIdentity set.keys = target
  | _, _ => return false

/-- The field of a definition, where `compileSet` compiles the type of a set of schemas. -/
def compileField (resolve : Resolving m) (compileSet : Table Schema → Compilation m String)
    (key : String) : Definition → Compilation m Field
  | .value kind multiple => return ⟨.value kind, multiple⟩
  | .node multiple schemas => do
    if schemas = [] then throw (.noSchemas key)
    let set ← resolve schemas
    return ⟨.node schemas (← compileSet set), multiple⟩

/-- One more definition of the type with an identity. The first schema that defines a key
owns it; a later definition must agree with the owner's. -/
def addDefinition (resolve : Resolving m) (compileSet : Table Schema → Compilation m String)
    (identity : String) (owners : Table (String × Definition))
    (entry : String × String × Definition) :
    Compilation m (Table (String × Definition)) := do
  let (address, key, definition) := entry
  match owners.get? key with
  | none =>
    addField identity key (← compileField resolve compileSet key definition)
    return owners.insert key (address, definition)
  | some (owner, existing) =>
    if existing.equivalent definition then return owners
    let field? := (← typeAt identity).bind fun t => t.fields.get? key
    let agrees ← match field? with
      | some field => resolvesTo resolve field definition
      | none => pure false
    if agrees then return owners else throw (.conflict key owner address)

/-- The definitions of schemas in order, each with the address of its schema and its key. -/
def definitions (set : Table Schema) : List (String × String × Definition) :=
  set.entries.flatMap fun (address, s) => s.elements.entries.map fun (key, d) => (address, key, d)

/-- The identity of the type merged from a set of schemas, compiled unless the catalogue has
it. Every nested call begins a new type, so that `steps` bounds their depth. -/
def compileSet (resolve : Resolving m) (hashLength : Int) :
    Nat → Table Schema → Compilation m String
  | 0, set => throw (.noFields "" set.keys)
  | steps + 1, set => do
    let addresses := set.sorted.keys
    let identity := typeIdentity addresses
    if (← get).contains identity then return identity
    let name := typeName (set.sorted.values.map Schema.name) identity hashLength
    modify fun types => types.insert identity ⟨name, addresses, .empty⟩
    let _ ← (definitions set).foldlM
      (addDefinition resolve (compileSet resolve hashLength steps) identity) .empty
    let t? ← typeAt identity
    if (t?.map fun t => t.fields.entries.isEmpty).getD true then throw (.noFields name addresses)
    return identity

/-- The identity of the type of a list of addresses. -/
def compile (resolve : Resolving m) (hashLength : Int) (steps : Nat) (addresses : List String) :
    Compilation m String := do
  compileSet resolve hashLength steps (← resolve addresses)

end Compilation

/-- The number of node definitions among the schemas of a source. -/
def Source.nodeDefinitions (source : Source) : Nat :=
  (source.addresses.flatMap fun address =>
    match source.fetch address with
    | .ok (.schema s) => s.elements.values.filter fun d => d.kind = .node
    | _ => []).length

/-- The type of a list of addresses, compiled into a catalogue. -/
def Catalogue.compile (types : Catalogue) (source : Source) (hashLength : Int)
    (addresses : List String) : Except Failure String × Catalogue :=
  let resolve : Compilation.Resolving Id := fun addresses => .lift (source.resolve addresses)
  (Compilation.compile resolve hashLength (source.nodeDefinitions + 2) addresses).run.run types

/-- How many rounds it takes until a compilation has an outcome: those of all resolutions. -/
def Catalogue.compileRounds (types : Catalogue) (source : Source) (hashLength : Int)
    (addresses : List String) : Nat :=
  let resolve : Compilation.Resolving (StateM Nat) := fun addresses => do
    liftM (modify (· + source.resolveRounds addresses) : StateM Nat Unit)
    .lift (source.resolve addresses)
  let compiled := Compilation.compile resolve hashLength (source.nodeDefinitions + 2) addresses
  ((compiled.run.run types).run 0).2

/-- The graph of a list of addresses, compiled on its own. -/
def Source.compile (source : Source) (hashLength : Int) (addresses : List String) :
    Except Failure TypeGraph :=
  match Catalogue.compile .empty source hashLength addresses with
  | (.error f, _) => .error f
  | (.ok root, types) =>
    match h : types.get? root with
    | some t => .ok ⟨types, root, t, h⟩
    | none => .error (.noFields "" [])

/-- The name of the type that a node field of a type leads to. -/
def Field.target (types : Catalogue) (key : String) (f : Field) :
    Except Failure (String × NodeType) :=
  match f.target? with
  | none => .error (.notNodeField key f.kind)
  | some identity =>
    match types.get? identity with
    | some t => .ok (identity, t)
    | none => .error (.notNodeField key f.kind)

end ContentGraph
