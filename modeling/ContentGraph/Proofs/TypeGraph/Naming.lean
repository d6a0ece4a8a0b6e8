import ContentGraph.Proofs.TypeGraph.Closed
import ContentGraph.Settings.Basic
import ContentGraph.Text.Hex

/-!
# Names of compiled types

A compilation changes its catalogue in two ways only: a type without fields is begun, for a set that
the addresses lead to, and a type gets a field. What both of them keep holds of every catalogue that
is left behind (`Compilation.keeps_compileSet`), and what holds of a type when it is begun goes on
holding of it (`Catalogue.type_induction`). So every type keeps the name with which it was begun: one with
an underscore, and with a digit of its identity at the end (`Catalogue.Titled`). No other name of a
surface is of this form.

A name tells the letters and digits in the names of the type's schemas and the first digits of its
identity, and no more than that (`typeName_eq_iff`, `Source.namedAfter_of_compile`).
-/

namespace ContentGraph

open Compilation (exec withField blank definitions addDefinition compileField resolving)

variable (source : Source) {hashLength : Int} {R : Table Schema → Prop}

/-! ### What a compilation keeps -/

namespace Compilation

variable {P : Catalogue → Prop} {compileSet : Table Schema → Compilation Id String}

theorem keeps_compileField (hc : ∀ set types, R set → P types → P (exec (compileSet set) types).2)
    (key : String) (d : Definition)
    (hd : ∀ multiple schemas set, d = .node multiple schemas → source.resolve schemas = .ok set → R set)
    {types : Catalogue} (h : P types) :
    P (exec (compileField (resolving source) compileSet key d) types).2 := by
  cases d with
  | value kind multiple => exact h
  | node multiple schemas =>
    rw [exec_compileField_node]
    split
    · exact h
    · split
      · exact h
      · next set hr =>
        have hset := hc set types (hd multiple schemas set rfl hr) h
        generalize exec (compileSet set) types = result at hset
        obtain ⟨r, types'⟩ := result
        cases r <;> exact hset

variable (hR : ∀ set set', R set → Leads source set set' → R set')
  (hfield : ∀ types i key f, P types → P (withField i key f types))
include hR hfield

theorem keeps_addDefinition (hc : ∀ set types, R set → P types → P (exec (compileSet set) types).2)
    (identity : String) (owners : Table (String × Definition)) {entry : String × String × Definition}
    {set : Table Schema} (hset : R set) (he : entry ∈ definitions set) {types : Catalogue} (h : P types) :
    P (exec (addDefinition (resolving source) compileSet identity owners entry) types).2 := by
  obtain ⟨address, key, d⟩ := entry
  cases ho : owners.get? key with
  | none =>
    have hd : ∀ multiple schemas set', d = .node multiple schemas → source.resolve schemas = .ok set' →
        R set' := by
      rintro multiple schemas set' rfl hr
      exact hR set set' hset ⟨address, key, multiple, schemas, he, hr⟩
    rw [exec_addDefinition_first ho]
    have hf := keeps_compileField source hc key d hd h
    generalize exec (compileField (resolving source) compileSet key d) types = result at hf
    obtain ⟨r, types'⟩ := result
    cases r with
    | error e => exact hf
    | ok f => exact hfield types' identity key f hf
  | some owned =>
    rw [snd_exec_addDefinition_later ho]
    exact h

theorem keeps_addDefinitions (hc : ∀ set types, R set → P types → P (exec (compileSet set) types).2)
    (identity : String) {set : Table Schema} (hset : R set) (entries : List (String × String × Definition))
    (he : ∀ e ∈ entries, e ∈ definitions set) (owners : Table (String × Definition)) {types : Catalogue}
    (h : P types) :
    P (exec (entries.foldlM (addDefinition (resolving source) compileSet identity) owners) types).2 := by
  induction entries generalizing owners types with
  | nil => exact h
  | cons entry rest ih =>
    obtain ⟨hentry, hothers⟩ := List.forall_mem_cons.1 he
    rw [List.foldlM_cons, exec_bind]
    have hfirst := keeps_addDefinition source hR hfield hc identity owners hset hentry h
    generalize exec (addDefinition (resolving source) compileSet identity owners entry) types = result
      at hfirst
    obtain ⟨r, types'⟩ := result
    cases r with
    | error e => exact hfirst
    | ok owners' => exact ih hothers owners' hfirst

/-- **What beginning a type and adding a field keep, a compilation keeps**, also where it fails. -/
theorem keeps_compileSet
    (hblank : ∀ types set, R set → typeIdentity set.sorted.keys ∉ types.keys → P types →
      P (types.insert (typeIdentity set.sorted.keys) (blank hashLength set)))
    (steps : ℕ) {set : Table Schema} (hset : R set) {types : Catalogue} (h : P types) :
    P (exec (Compilation.compileSet (resolving source) hashLength steps set) types).2 := by
  induction steps generalizing set types with
  | zero => exact h
  | succ steps ih =>
    by_cases hk : typeIdentity set.sorted.keys ∈ types.keys
    · rw [exec_compileSet_known hk]
      exact h
    · rw [exec_compileSet_new hk]
      have hfields := keeps_addDefinitions source hR hfield (fun set types hs h => ih hs h)
        (typeIdentity set.sorted.keys) hset (definitions set) (fun _ he => he) .empty
        (hblank types set hset hk h)
      generalize exec (List.foldlM _ _ _) _ = result at hfields
      obtain ⟨r, types'⟩ := result
      cases r with
      | error e => exact hfields
      | ok owners =>
        dsimp only
        split <;> exact hfields

end Compilation

variable {source}

/-- What beginning a type and adding a field keep holds of the types that a compilation leaves behind,
also where it fails. A type is begun once, for a set that the addresses lead to. -/
theorem Catalogue.compile_induction {P : Catalogue → Prop} {addresses : List String} (hempty : P .empty)
    (hblank : ∀ types set, Reached source [addresses] set → typeIdentity set.sorted.keys ∉ types.keys →
      P types → P (types.insert (typeIdentity set.sorted.keys) (blank hashLength set)))
    (hfield : ∀ types i key f, P types → P (withField i key f types)) :
    P (Catalogue.compile .empty source hashLength addresses).2 := by
  rw [Catalogue.compile_eq]
  cases hr : source.resolve addresses with
  | error e => exact hempty
  | ok set =>
    have hroot : Reached source [addresses] set := .root List.mem_cons_self hr
    exact Compilation.keeps_compileSet source (fun _ _ hs hl => hs.step hl) hfield hblank
      (source.nodeDefinitions + 2) hroot hempty

/-- What holds of a type when it is begun, whatever fields it gets, holds of every type that a compilation
leaves behind. -/
theorem Catalogue.type_induction {Q : String → NodeType → Prop} {addresses : List String}
    (hblank : ∀ set, Reached source [addresses] set → Q (typeIdentity set.sorted.keys) (blank hashLength set))
    (hfields : ∀ i t fields, Q i t → Q i { t with fields := fields }) {i : String} {t : NodeType}
    (ht : (Catalogue.compile .empty source hashLength addresses).2.get? i = some t) : Q i t := by
  revert i t
  refine compile_induction (P := fun types => ∀ {i t}, types.get? i = some t → Q i t)
    (fun ht => by cases ht) (fun types set hset _ hq i t hi => ?_) fun types j key f hq i t hi => ?_
  · by_cases he : i = typeIdentity set.sorted.keys
    · subst he
      rw [Table.get?_insert_self] at hi
      cases hi
      exact hblank set hset
    · rw [Table.get?_insert_of_ne he] at hi
      exact hq hi
  · by_cases he : i = j
    · subst he
      cases hu : types.get? i with
      | none =>
        rw [withField, hu] at hi
        exact hq hi
      | some u =>
        rw [get?_withField_self hu] at hi
        cases hi
        exact hfields i u _ (hq hu)
    · rw [get?_withField_of_ne he] at hi
      exact hq hi

/-- What holds of a type when it is begun, whatever fields it gets, holds of every type of a compiled
graph. -/
theorem Source.type_induction {Q : String → NodeType → Prop} {addresses : List String} {g : TypeGraph}
    (h : source.compile hashLength addresses = .ok g)
    (hblank : ∀ set, Reached source [addresses] set → Q (typeIdentity set.sorted.keys) (blank hashLength set))
    (hfields : ∀ i t fields, Q i t → Q i { t with fields := fields }) {i : String} {t : NodeType}
    (ht : g.types.get? i = some t) : Q i t := by
  refine Catalogue.type_induction hblank hfields (i := i) ?_
  rw [Source.compile_eq_ok_iff.1 h]
  exact ht

/-! ### The form of names -/

/-- A text has an underscore, and a hexadecimal digit at its end. -/
def IsTitle (s : String) : Prop :=
  '_' ∈ s.toList ∧ ∃ c, s.toList.getLast? = some c ∧ (hexValue? c).isSome

/-- Every type has a name of that form. -/
def Catalogue.Titled (types : Catalogue) : Prop := ∀ i t, types.get? i = some t → IsTitle t.name

theorem exists_hexDigit_of_mem_hex {s : String} {c : Char} (h : c ∈ (Sha256.hex s).toList) :
    ∃ n < 16, c = hexDigit n := by
  rw [Sha256.hex, String.toList_ofList] at h
  obtain ⟨w, -, hc⟩ := List.mem_flatMap.1 h
  obtain ⟨shift, -, rfl⟩ := List.mem_map.1 hc
  exact ⟨_, Nat.mod_lt _ (by decide), rfl⟩

theorem hexValue?_of_mem_hex {s : String} {c : Char} (h : c ∈ (Sha256.hex s).toList) :
    (hexValue? c).isSome := by
  obtain ⟨n, hn, rfl⟩ := exists_hexDigit_of_mem_hex h
  rw [hexValue?_hexDigit hn]
  rfl

theorem length_hex (s : String) : (Sha256.hex s).toList.length = 64 := by
  rw [Sha256.hex, String.toList_ofList, List.length_flatMap]
  have hword : ∀ w, (Sha256.hexWord w).length = 8 := Sha256.length_hexWord
  simp [hword, Sha256.length_digest]

theorem length_typeIdentity (addresses : List String) : (typeIdentity addresses).toList.length = 64 :=
  length_hex _

/-- The part of a type's name that is made of names of schemas. -/
def readableNames (names : List String) : List Char := names.flatMap fun s => readable true s.toList

theorem toList_typeName (names : List String) (identity : String) (n : ℕ) :
    (typeName names identity n).toList
      = "Node".toList ++ readableNames names ++ '_' :: identity.toList.take n := by
  have htake : takeSigned n identity.toList = identity.toList.take n := by
    simp [takeSigned]
  rw [typeName, htake]
  exact String.toList_ofList

theorem isTitle_typeName (names : List String) (addresses : List String) (digits : HashLength) :
    IsTitle (typeName names (typeIdentity addresses) digits.digits) := by
  have hpos : 0 < digits.digits := Nat.lt_of_lt_of_le (by decide) digits.four_le
  have hne : (typeIdentity addresses).toList.take digits.digits ≠ [] := by
    rw [← List.length_pos_iff, List.length_take, length_typeIdentity]
    omega
  refine ⟨?_, ?_⟩
  · rw [toList_typeName]
    simp
  · refine ⟨((typeIdentity addresses).toList.take digits.digits).getLast hne, ?_, ?_⟩
    · rw [toList_typeName, List.getLast?_append_cons, List.getLast?_cons_of_ne_nil hne,
        List.getLast?_eq_getLast_of_ne_nil hne]
    · exact hexValue?_of_mem_hex (List.mem_of_mem_take (List.getLast_mem hne))

/-- **Every type of a compiled graph has a name with an underscore and with a digit at the end.** -/
theorem Source.titled_of_compile {digits : HashLength} {addresses : List String} {g : TypeGraph}
    (h : source.compile digits.digits addresses = .ok g) : g.types.Titled := fun _ _ ht =>
  type_induction (Q := fun _ t => IsTitle t.name) h (fun _ _ => isTitle_typeName _ _ digits)
    (fun _ _ _ hq => hq) ht

/-! ### Types with one name -/

/-- Two types have one name exactly where the names of their schemas give one readable part and their
identities begin with the same digits. -/
theorem typeName_eq_iff {names names' as bs : List String} (digits : HashLength) :
    typeName names (typeIdentity as) digits.digits = typeName names' (typeIdentity bs) digits.digits ↔
      readableNames names = readableNames names' ∧
      (typeIdentity as).toList.take digits.digits = (typeIdentity bs).toList.take digits.digits := by
  have hlength : ((typeIdentity as).toList.take digits.digits).length
      = ((typeIdentity bs).toList.take digits.digits).length := by
    rw [List.length_take, List.length_take, length_typeIdentity, length_typeIdentity]
  rw [← String.toList_inj, toList_typeName, toList_typeName]
  constructor
  · intro h
    -- the digits are as many on both sides
    obtain ⟨hreadable, hdigits⟩ := List.append_inj' h (by rw [List.length_cons, List.length_cons, hlength])
    exact ⟨List.append_cancel_left hreadable, (List.cons.inj hdigits).2⟩
  · rintro ⟨hreadable, hdigits⟩
    rw [hreadable, hdigits]

/-- The name of the schema at an address. -/
def Source.schemaName (source : Source) (address : String) : String :=
  match source.fetch address with
  | .ok (.schema s) => s.name
  | _ => ""

theorem Source.schemaNames_of_resolve {addresses : List String} {set : Table Schema}
    (h : source.resolve addresses = .ok set) :
    set.sorted.values.map Schema.name = set.sorted.keys.map source.schemaName := by
  rw [Table.values, Table.keys, List.map_map, List.map_map]
  refine List.map_congr_left fun e he => ?_
  have hf := fetch_of_resolve h (set.entries_sorted_perm.mem_iff.1 (show (e.1, e.2) ∈ _ from he))
  rw [Function.comp_apply, Function.comp_apply, schemaName, hf]

/-- A type is named after the schemas of its addresses and has their identity. -/
structure NodeType.NamedAfter (source : Source) (hashLength : Int) (i : String) (t : NodeType) : Prop where
  /-- The identity is that of the addresses. -/
  identity : i = typeIdentity t.addresses
  /-- The name is made of the names of the schemas and of the identity. -/
  name : t.name = typeName (t.addresses.map source.schemaName) i hashLength

/-- **Every type of a compiled graph is named after the schemas of its addresses.** -/
theorem Source.namedAfter_of_compile {addresses : List String} {g : TypeGraph}
    (h : source.compile hashLength addresses = .ok g) {i : String} {t : NodeType}
    (ht : g.types.get? i = some t) : t.NamedAfter source hashLength i := by
  refine type_induction h (fun set hset => ⟨rfl, ?_⟩) (fun i t fields hq => ⟨hq.identity, hq.name⟩) ht
  obtain ⟨schemas, hr⟩ := hset.resolved
  show typeName _ _ _ = _
  rw [schemaNames_of_resolve hr]
  rfl

end ContentGraph
