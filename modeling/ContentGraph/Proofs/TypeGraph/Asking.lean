import ContentGraph.Proofs.TypeGraph.Correctness

/-!
# Compilation that asks

A compilation resolves lists of addresses, one after the other. Where others use the store at the same
time, each list is resolved at a moment of its own. `Asking` is a compilation that stops at each list
and goes on with what it resolves to, whoever says so. Answered by one source throughout, it gives what
the source compiles (`Source.answered_compiling`).
-/

namespace ContentGraph

/-- A computation that asks what lists of addresses resolve to. -/
inductive Asking (α : Type) where
  /-- It is over. -/
  | done (a : α)
  /-- It asks for a list of addresses, and goes on with its schemas. -/
  | ask (addresses : List String) (next : Table Schema → Asking α)

namespace Asking

variable {α β : Type}

/-- What is done after a computation. -/
def andThen : Asking α → (α → Asking β) → Asking β
  | .done a, k => k a
  | .ask addresses next, k => .ask addresses fun set => (next set).andThen k

instance : Monad Asking where
  pure := .done
  bind := andThen

/-- What comes of a computation where one source resolves all lists. -/
def answered (source : Source) : Asking α → Except Failure α
  | .done a => .ok a
  | .ask addresses next =>
    match source.resolve addresses with
    | .ok set => (next set).answered source
    | .error f => .error f

variable {source : Source}

theorem answered_bind {x : Asking α} {k : α → Asking β} {a : α} (h : x.answered source = .ok a) :
    (x >>= k).answered source = (k a).answered source := by
  show (x.andThen k).answered source = _
  induction x with
  | done b =>
    cases h
    rfl
  | ask addresses next ih =>
    rw [answered] at h
    rw [andThen, answered]
    cases hr : source.resolve addresses with
    | error f =>
      rw [hr] at h
      cases h
    | ok set =>
      rw [hr] at h
      exact ih set h

/-- What is asked for can be resolved where something comes of a computation. -/
theorem exists_resolve {addresses : List String} {next : Table Schema → Asking α} {a : α}
    (h : (ask addresses next).answered source = .ok a) :
    ∃ set, source.resolve addresses = .ok set ∧ (next set).answered source = .ok a := by
  rw [answered] at h
  cases hr : source.resolve addresses with
  | error f =>
    rw [hr] at h
    cases h
  | ok set =>
    rw [hr] at h
    exact ⟨set, rfl, h⟩

/-- How a compilation finds the schemas of a list of addresses: it asks. -/
def request : Compilation.Resolving Asking := fun addresses =>
  ExceptT.mk fun types => .ask addresses fun set => .done (.ok set, types)

end Asking

namespace Compilation

open Asking (request)

variable {α β : Type} {source : Source}

/-- What a compilation of one source gives, a compilation that asks gives too where it is answered by
that source. -/
def Mirrors (source : Source) (x : Compilation Id α) (y : Compilation Asking α) : Prop :=
  ∀ types a types', exec x types = (.ok a, types') →
    (y.run.run types).answered source = .ok (.ok a, types')

namespace Mirrors

theorem pure (a : α) : Mirrors source (pure a) (pure a) := by
  intro types b types' h
  cases h
  rfl

theorem throw (f : Failure) (y : Compilation Asking α) : Mirrors source (throw f) y := by
  intro types a types' h
  cases h

theorem bind {x : Compilation Id α} {y : Compilation Asking α} {f : α → Compilation Id β}
    {k : α → Compilation Asking β} (h : Mirrors source x y) (hk : ∀ a, Mirrors source (f a) (k a)) :
    Mirrors source (x >>= f) (y >>= k) := by
  intro types b types' he
  rw [exec_bind] at he
  cases hx : exec x types with
  | mk outcome middle =>
    rw [hx] at he
    cases outcome with
    | error e => cases he
    | ok a =>
      rw [ExceptT.run_bind, StateT.run_bind, Asking.answered_bind (h _ _ _ hx)]
      exact hk a _ _ _ he

theorem get : Mirrors source get get := by
  intro types a types' h
  cases h
  rfl

theorem modify (f : Catalogue → Catalogue) : Mirrors source (modify f) (modify f) := by
  intro types a types' h
  cases h
  rfl

theorem typeAt (identity : String) : Mirrors source (typeAt identity) (Compilation.typeAt identity) :=
  get.bind fun _ => pure _

theorem resolving (addresses : List String) :
    Mirrors source (Compilation.resolving source addresses) (request addresses) := by
  intro types set types' h
  rw [exec_resolving] at h
  obtain ⟨hr, rfl⟩ := Prod.mk.inj h
  show Asking.answered source (.ask addresses fun set => .done (Except.ok set, types)) = _
  rw [Asking.answered, hr]
  rfl

theorem foldlM {σ : Type} {f : β → σ → Compilation Id β} {k : β → σ → Compilation Asking β}
    (h : ∀ b e, Mirrors source (f b e) (k b e)) (es : List σ) (b : β) :
    Mirrors source (es.foldlM f b) (es.foldlM k b) := by
  induction es generalizing b with
  | nil => exact pure b
  | cons e es ih => exact (h b e).bind ih

theorem resolvesTo (f : Field) (d : Definition) :
    Mirrors source (resolvesTo (Compilation.resolving source) f d)
      (Compilation.resolvesTo request f d) := by
  unfold Compilation.resolvesTo
  split
  · split
    · exact pure _
    · exact (resolving _).bind fun _ => pure _
  · exact pure _

section

variable {compileSet : Table Schema → Compilation Id String}
  {compileSet' : Table Schema → Compilation Asking String}

theorem compileField (hc : ∀ set, Mirrors source (compileSet set) (compileSet' set)) (key : String)
    (d : Definition) : Mirrors source (compileField (Compilation.resolving source) compileSet key d)
      (Compilation.compileField request compileSet' key d) := by
  cases d with
  | value kind multiple => exact pure _
  | node multiple schemas =>
    unfold Compilation.compileField
    dsimp only
    split
    · exact (throw _ _).bind fun _ => (resolving _).bind fun set => (hc set).bind fun _ => pure _
    · exact (resolving _).bind fun set => (hc set).bind fun _ => pure _

theorem addDefinition (hc : ∀ set, Mirrors source (compileSet set) (compileSet' set)) (identity : String)
    (owners : Table (String × Definition)) (entry : String × String × Definition) :
    Mirrors source (addDefinition (Compilation.resolving source) compileSet identity owners entry)
      (Compilation.addDefinition request compileSet' identity owners entry) := by
  obtain ⟨address, key, d⟩ := entry
  unfold Compilation.addDefinition
  dsimp only
  split
  · exact (compileField hc key d).bind fun f => (modify _).bind fun _ => pure _
  · split
    · exact pure _
    · refine (typeAt identity).bind fun t? => ?_
      split
      · next f _ =>
        refine (resolvesTo f d).bind fun agrees => ?_
        split
        · exact pure _
        · exact throw _ _
      · refine (pure false).bind fun agrees => ?_
        split
        · exact pure _
        · exact throw _ _

end

theorem compileSet (hashLength : Int) (steps : ℕ) (set : Table Schema) :
    Mirrors source (Compilation.compileSet (Compilation.resolving source) hashLength steps set)
      (Compilation.compileSet request hashLength steps set) := by
  induction steps generalizing set with
  | zero => exact throw _ _
  | succ steps ih =>
    unfold Compilation.compileSet
    refine get.bind fun types => ?_
    split
    · exact pure _
    · refine (modify _).bind fun _ => (foldlM (addDefinition ih _) _ _).bind fun _ =>
        (typeAt _).bind fun t? => ?_
      split
      · exact (throw _ _).bind fun _ => pure _
      · exact (pure _).bind fun _ => pure _

theorem compile (hashLength : Int) (steps : ℕ) (addresses : List String) :
    Mirrors source (Compilation.compile (Compilation.resolving source) hashLength steps addresses)
      (Compilation.compile request hashLength steps addresses) :=
  (resolving addresses).bind fun set => compileSet hashLength steps set

end Mirrors

end Compilation

/-! ### Graphs -/

/-- The graph that a compilation came to. -/
def TypeGraph.ofCompiled : Except Failure String × Catalogue → Except Failure TypeGraph
  | (.error f, _) => .error f
  | (.ok root, types) =>
    match h : types.get? root with
    | some t => .ok ⟨types, root, t, h⟩
    | none => .error (.noFields "" [])

theorem TypeGraph.ofCompiled_self (g : TypeGraph) : ofCompiled (.ok g.root, g.types) = .ok g := by
  obtain ⟨types, root, t, ht⟩ := g
  rw [ofCompiled]
  split
  · next u hu =>
    cases ht.symm.trans hu
    rfl
  · next hu => cases ht.symm.trans hu

/-- The graph of a list of addresses, by asking what addresses resolve to. `steps` bounds how deep new
types lie in each other. -/
def Asking.compiling (hashLength : Int) (steps : ℕ) (addresses : List String) :
    Asking (Except Failure TypeGraph) :=
  (Compilation.compile request hashLength steps addresses).run.run .empty >>= fun compiled =>
    .done (TypeGraph.ofCompiled compiled)

/-- **Answered by one source throughout, asking gives what the source compiles.** -/
theorem Source.answered_compiling {source : Source} {hashLength : Int} {addresses : List String}
    {g : TypeGraph} (h : source.compile hashLength addresses = .ok g) :
    (Asking.compiling hashLength (source.nodeDefinitions + 2) addresses).answered source = .ok (.ok g) := by
  have hc := Source.compile_eq_ok_iff.1 h
  have hm := Compilation.Mirrors.compile hashLength (source.nodeDefinitions + 2) addresses _ _ _ hc
  rw [Asking.compiling, Asking.answered_bind hm, Asking.answered, TypeGraph.ofCompiled_self]

end ContentGraph
