import ContentGraph.TypeGraph.Compile
import ContentGraph.Proofs.Table

/-!
# Running a compilation

A compilation of one source is a function from catalogues to an outcome and a catalogue. Each part
of a compilation has one equation for that function, so that nothing else opens it.
-/

namespace ContentGraph.Compilation

variable {α β : Type}

/-- The outcome and the catalogue that a compilation gives from a catalogue. -/
def exec (x : Compilation Id α) (types : Catalogue) : Except Failure α × Catalogue := x.run.run types

@[simp] theorem exec_pure (a : α) (types : Catalogue) : exec (pure a) types = (.ok a, types) := rfl

@[simp] theorem exec_throw (f : Failure) (types : Catalogue) :
    exec (throw f : Compilation Id α) types = (.error f, types) := rfl

@[simp] theorem exec_get (types : Catalogue) : exec get types = (.ok types, types) := rfl

@[simp] theorem exec_modify (f : Catalogue → Catalogue) (types : Catalogue) :
    exec (modify f) types = (.ok (), f types) := rfl

@[simp] theorem exec_lift (x : Except Failure α) (types : Catalogue) : exec (lift x) types = (x, types) := by
  cases x <;> rfl

/-- What follows on an outcome: the rest from the catalogue so far, or the failure. -/
def follow (f : α → Compilation Id β) : Except Failure α × Catalogue → Except Failure β × Catalogue
  | (.ok a, types) => exec (f a) types
  | (.error e, types) => (.error e, types)

theorem exec_bind (x : Compilation Id α) (f : α → Compilation Id β) (types : Catalogue) :
    exec (x >>= f) types = follow f (exec x types) := by
  unfold exec
  rw [ExceptT.run_bind, StateT.run_bind]
  obtain ⟨r, types'⟩ := x.run.run types
  cases r <;> rfl

@[simp] theorem follow_ok (f : α → Compilation Id β) (a : α) (types : Catalogue) :
    follow f (.ok a, types) = exec (f a) types := rfl

@[simp] theorem follow_error (f : α → Compilation Id β) (e : Failure) (types : Catalogue) :
    follow f (.error e, types) = (.error e, types) := rfl

theorem exec_typeAt (identity : String) (types : Catalogue) :
    exec (typeAt identity) types = (.ok (types.get? identity), types) := rfl

/-- A catalogue with one more field of a type. -/
def withField (identity key : String) (f : Field) (types : Catalogue) : Catalogue :=
  match types.get? identity with
  | some t => types.insert identity { t with fields := t.fields.insert key f }
  | none => types

theorem exec_addField (identity key : String) (f : Field) (types : Catalogue) :
    exec (addField identity key f) types = (.ok (), withField identity key f types) := rfl

/-- How the lists of addresses of a source are resolved. -/
def resolving (source : Source) : Resolving Id := fun addresses => .lift (source.resolve addresses)

variable {source : Source} {compileSet : Table Schema → Compilation Id String}

theorem exec_resolving (addresses : List String) (types : Catalogue) :
    exec (resolving source addresses) types = (source.resolve addresses, types) := exec_lift _ _

/-! ### Fields -/

theorem exec_compileField_value (key : String) (kind : ValueKind) (multiple : Bool) (types : Catalogue) :
    exec (compileField (resolving source) compileSet key (.value kind multiple)) types
      = (.ok ⟨.value kind, multiple⟩, types) := rfl

theorem exec_compileField_node (key : String) (multiple : Bool) (schemas : List String)
    (types : Catalogue) :
    exec (compileField (resolving source) compileSet key (.node multiple schemas)) types =
      if schemas = [] then (.error (.noSchemas key), types)
      else
        match source.resolve schemas with
        | .error e => (.error e, types)
        | .ok set => follow (fun target => pure ⟨.node schemas target, multiple⟩)
          (exec (compileSet set) types) := by
  by_cases h : schemas = []
  · rw [if_pos h, h]
    rfl
  · have he : compileField (resolving source) compileSet key (.node multiple schemas)
        = resolving source schemas >>= fun set => compileSet set >>= fun target =>
          pure ⟨.node schemas target, multiple⟩ := by
      unfold compileField
      simp only [h, if_false]
    rw [if_neg h, he, exec_bind, exec_resolving]
    cases source.resolve schemas with
    | error e => rfl
    | ok set =>
      rw [follow_ok, exec_bind]

theorem exec_resolvesTo (f : Field) (d : Definition) (types : Catalogue) :
    exec (resolvesTo (resolving source) f d) types =
      match f.shape, d with
      | .node _ target, .node multiple schemas =>
        if multiple ≠ f.multiple ∨ schemas = [] then (.ok false, types)
        else
          match source.resolve schemas with
          | .error e => (.error e, types)
          | .ok set => (.ok (decide (typeIdentity set.keys = target)), types)
      | _, _ => (.ok false, types) := by
  obtain ⟨shape, multiple⟩ := f
  rcases shape with _ | ⟨declared, target⟩
  · rfl
  · rcases d with _ | ⟨multiple', schemas⟩
    · rfl
    · unfold resolvesTo
      dsimp only
      split
      · rfl
      · rw [exec_bind, exec_resolving]
        cases source.resolve schemas <;> rfl

/-! ### Definitions -/

section

variable {identity address key owner : String} {owners : Table (String × Definition)}
  {d existing : Definition} {types : Catalogue}

/-- The first definition of a key gives the type a field. -/
theorem exec_addDefinition_first (h : owners.get? key = none) :
    exec (addDefinition (resolving source) compileSet identity owners (address, key, d)) types =
      match exec (compileField (resolving source) compileSet key d) types with
      | (.ok f, types) => (.ok (owners.insert key (address, d)), withField identity key f types)
      | (.error e, types) => (.error e, types) := by
  unfold addDefinition
  dsimp only
  rw [h]
  dsimp only
  rw [exec_bind]
  obtain ⟨r, types'⟩ := exec (compileField (resolving source) compileSet key d) types
  cases r with
  | error e => rfl
  | ok f =>
    rw [follow_ok, exec_bind, exec_addField]
    rfl

/-- A later definition of one declared shape changes nothing. -/
theorem exec_addDefinition_equivalent (h : owners.get? key = some (owner, existing))
    (he : existing.equivalent d = true) :
    exec (addDefinition (resolving source) compileSet identity owners (address, key, d)) types
      = (.ok owners, types) := by
  unfold addDefinition
  dsimp only
  rw [h]
  dsimp only
  rw [if_pos he]
  rfl

/-- Any other later definition has to resolve as the field does. -/
theorem exec_addDefinition_other {t : NodeType} {f : Field} (h : owners.get? key = some (owner, existing))
    (he : ¬ existing.equivalent d = true) (ht : types.get? identity = some t)
    (hf : t.fields.get? key = some f) :
    exec (addDefinition (resolving source) compileSet identity owners (address, key, d)) types =
      match exec (resolvesTo (resolving source) f d) types with
      | (.ok true, types) => (.ok owners, types)
      | (.ok false, types) => (.error (.conflict key owner address), types)
      | (.error e, types) => (.error e, types) := by
  unfold addDefinition
  dsimp only
  rw [h]
  dsimp only
  rw [if_neg he, exec_bind, exec_typeAt, follow_ok, ht, Option.bind_some, hf]
  dsimp only
  rw [exec_bind]
  obtain ⟨r, types'⟩ := exec (resolvesTo (resolving source) f d) types
  rcases r with e | ⟨_ | _⟩ <;> rfl

end

/-! ### Sets -/

section

variable {hashLength : Int} {steps : ℕ} {set : Table Schema} {types : Catalogue}

/-- The type of a set before its fields are compiled. -/
def blank (hashLength : Int) (set : Table Schema) : NodeType :=
  ⟨typeName (set.sorted.values.map Schema.name) (typeIdentity set.sorted.keys) hashLength,
    set.sorted.keys, .empty⟩

theorem exec_compileSet_known (h : typeIdentity set.sorted.keys ∈ types.keys) :
    exec (Compilation.compileSet (resolving source) hashLength (steps + 1) set) types
      = (.ok (typeIdentity set.sorted.keys), types) := by
  unfold Compilation.compileSet
  dsimp only
  rw [exec_bind, exec_get, follow_ok, if_pos (Table.contains_iff.2 h)]
  rfl

theorem exec_compileSet_new (h : typeIdentity set.sorted.keys ∉ types.keys) :
    exec (Compilation.compileSet (resolving source) hashLength (steps + 1) set) types =
      match exec ((definitions set).foldlM (addDefinition (resolving source)
        (Compilation.compileSet (resolving source) hashLength steps) (typeIdentity set.sorted.keys))
        .empty) (types.insert (typeIdentity set.sorted.keys) (blank hashLength set)) with
      | (.error e, types) => (.error e, types)
      | (.ok _, types) =>
        if ((types.get? (typeIdentity set.sorted.keys)).map fun t => t.fields.entries.isEmpty).getD true then
          (.error (.noFields (blank hashLength set).name set.sorted.keys), types)
        else (.ok (typeIdentity set.sorted.keys), types) := by
  rw [Compilation.compileSet]
  dsimp only
  rw [exec_bind, exec_get, follow_ok, if_neg (fun hc => h (Table.contains_iff.1 hc)), exec_bind,
    exec_modify, follow_ok, exec_bind]
  unfold blank
  generalize exec (List.foldlM _ _ _) _ = result
  obtain ⟨r, types'⟩ := result
  cases r with
  | error e => rfl
  | ok owners =>
    rw [follow_ok, exec_bind, exec_typeAt, follow_ok]
    dsimp only
    split <;> rfl

end

end ContentGraph.Compilation
