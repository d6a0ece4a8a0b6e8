import ContentGraph.Payload.Validator
import ContentGraph.Proofs.Checked
import ContentGraph.Proofs.Store.Contents
import ContentGraph.Proofs.TypeGraph.Naming

/-!
# What an identity tells apart

The identity of a set of addresses is the digest of one text, in which the sorted addresses stand
below each other. Reading that text back gives lines, and an address that has a line break in it
gives several of them. So two sets have one identity exactly where their addresses, cut at every line
break, are the same lines, and one of them has the type of the other exactly there (`toldByLines`).
Sets of addresses without line breaks are told apart, such as those that a store issues, and so are
the sets that a compilation of them meets (`Source.separated_of_oneLine`).

An address may be any text. Two addresses below each other are one address with a line break in it
(`typeIdentity_lineBreak`), and a schema that asks for both sets is compiled to a graph that has the
type of one of them in the place of the other (`sharesType_lineBreak`).
-/

namespace ContentGraph

open Compilation (exec resolvesTo resolving)

/-! ### The text of a set -/

/-- The text that the identity of a set of addresses is the digest of. -/
def identityText (addresses : List String) : String := "\n".intercalate (sortedSet addresses)

/-- The lines of a text. -/
def linesOf (s : String) : List (List Char) := s.toList.splitOn '\n'

/-- An address without a line break. -/
def OneLine (address : String) : Prop := '\n' ∉ address.toList

instance (address : String) : Decidable (OneLine address) :=
  inferInstanceAs (Decidable ('\n' ∉ address.toList))

/-- The lines of a set of addresses in order; those of no address are one empty line. -/
def identityLines (addresses : List String) : List (List Char) :=
  if sortedSet addresses = [] then [[]] else (sortedSet addresses).flatMap linesOf

theorem linesOf_injective {s t : String} (h : linesOf s = linesOf t) : s = t := by
  have hj := congrArg (List.intercalate ['\n']) h
  rw [linesOf, linesOf, List.intercalate_splitOn, List.intercalate_splitOn] at hj
  exact String.toList_inj.1 hj

theorem linesOf_of_oneLine {s : String} (h : OneLine s) : linesOf s = [s.toList] :=
  List.splitOn_eq_singleton h

/-- The lines of texts below each other are those of the texts. -/
theorem linesOf_intercalate {ss : List String} (h : ss ≠ []) :
    linesOf ("\n".intercalate ss) = ss.flatMap linesOf := by
  have hbreak : "\n".toList = ['\n'] := rfl
  rw [linesOf, String.toList_intercalate, hbreak]
  induction ss with
  | nil => exact absurd rfl h
  | cons s rest ih =>
    cases rest with
    | nil => simp [linesOf]
    | cons t rest =>
      rw [List.map_cons, List.map_cons, List.intercalate_cons_cons, ← List.map_cons, List.append_assoc,
        List.singleton_append, List.splitOn_append_cons_self, ih (List.cons_ne_nil _ _)]
      rfl

theorem linesOf_identityText (addresses : List String) :
    linesOf (identityText addresses) = identityLines addresses := by
  unfold identityText identityLines
  split
  · next h =>
    rw [h]
    rfl
  · next h => exact linesOf_intercalate h

/-! ### Sets with one identity -/

variable {as bs : List String}

theorem mem_sortedSet {a : String} : a ∈ sortedSet as ↔ a ∈ as := by
  rw [sortedSet, (sortBy_perm _ _).mem_iff, List.mem_eraseDups]

theorem sortedSet_eq_nil_iff : sortedSet as = [] ↔ as = [] := by
  simp only [List.eq_nil_iff_forall_not_mem, mem_sortedSet]

/-- The lines of addresses without line breaks are the addresses. -/
theorem identityLines_of_oneLine (h : ∀ a ∈ as, OneLine a) (hne : as ≠ []) :
    identityLines as = (sortedSet as).map String.toList := by
  have hlines : ∀ a ∈ sortedSet as, linesOf a = [a.toList] := fun a ha =>
    linesOf_of_oneLine (h a (mem_sortedSet.1 ha))
  rw [identityLines, if_neg (mt sortedSet_eq_nil_iff.1 hne), List.flatMap_congr hlines,
    ← List.map_eq_flatMap]

/-- Two sets have one identity exactly where they have the same lines. -/
theorem typeIdentity_eq_iff (hc : NoCollision [identityText as, identityText bs]) :
    typeIdentity as = typeIdentity bs ↔ identityLines as = identityLines bs := by
  rw [← linesOf_identityText, ← linesOf_identityText]
  constructor
  · intro h
    exact congrArg linesOf (hc (identityText as) (by simp) (identityText bs) (by simp) h)
  · intro h
    exact congrArg Sha256.hex (linesOf_injective h)

/-- Sets of addresses without line breaks have the same lines where they are the same. No address
has the lines of an empty address, so that either both sets have addresses or none has. -/
theorem mem_iff_of_identityLines (ha : ∀ a ∈ as, OneLine a) (hb : ∀ b ∈ bs, OneLine b)
    (hn : as = [] ↔ bs = []) (h : identityLines as = identityLines bs) : ∀ a, a ∈ as ↔ a ∈ bs := by
  intro a
  by_cases hne : as = []
  · rw [hne, hn.1 hne]
  · rw [identityLines_of_oneLine ha hne, identityLines_of_oneLine hb (mt hn.2 hne)] at h
    have hs := List.map_injective_iff.2 (fun _ _ => String.toList_inj.1) h
    rw [← mem_sortedSet, hs, mem_sortedSet]

/-! ### Types with one identity -/

/-- What the identities of two sets of addresses say of the sets. -/
structure ToldByLines (as bs : List String) : Prop where
  /-- The identities are equal exactly where the lines are. -/
  identity : typeIdentity as = typeIdentity bs ↔ identityLines as = identityLines bs
  /-- Neither order nor repetition counts. -/
  same : (∀ a, a ∈ as ↔ a ∈ bs) → typeIdentity as = typeIdentity bs
  /-- Without line breaks in the addresses, the identity says what the addresses are. -/
  members : (∀ a ∈ as, OneLine a) → (∀ b ∈ bs, OneLine b) → (as = [] ↔ bs = []) →
    typeIdentity as = typeIdentity bs → ∀ a, a ∈ as ↔ a ∈ bs
  /-- In a compiled graph, fields whose schemas resolve to the two sets lead to one type exactly
  where the lines are equal. -/
  shared : ∀ {source : Source} {hashLength : Int} {addresses : List String} {g : TypeGraph},
    source.compile hashLength addresses = .ok g → ∀ {i key t f} {j key' u f'},
    g.types.get? i = some t → t.fields.get? key = some f →
    g.types.get? j = some u → u.fields.get? key' = some f' →
    ∀ {schemas schemas' target target' set set'},
    f.shape = .node schemas target → f'.shape = .node schemas' target' →
    source.resolve schemas = .ok set → source.resolve schemas' = .ok set' →
    (∀ a, a ∈ set.keys ↔ a ∈ as) → (∀ a, a ∈ set'.keys ↔ a ∈ bs) →
    (target = target' ↔ identityLines as = identityLines bs)
  /-- A definition whose schemas resolve to the second set is taken for one that resolves as a
  field of the first set does exactly where the lines are equal. -/
  agrees : ∀ {source : Source} {f : Field} {schemas schemas' : List String} {set : Table Schema},
    f.shape = .node schemas (typeIdentity as) → schemas' ≠ [] → source.resolve schemas' = .ok set →
    (∀ a, a ∈ set.keys ↔ a ∈ bs) → ∀ types,
    exec (resolvesTo (resolving source) f (.node f.multiple schemas')) types
      = (.ok (decide (identityLines as = identityLines bs)), types)

/-- **The identity of a set of addresses tells its lines**, and nothing else of it: the type of one
set is handed out for another exactly where these are the same. -/
theorem toldByLines (hc : NoCollision [identityText as, identityText bs]) : ToldByLines as bs where
  identity := typeIdentity_eq_iff hc
  same := typeIdentity_congr
  members ha hb hn h := mem_iff_of_identityLines ha hb hn ((typeIdentity_eq_iff hc).1 h)
  shared := by
    intro source hashLength addresses g hg i key t f j key' u f' ht hf hu hf' schemas schemas' target
      target' set set' hs hs' hr hr' has hbs
    have hd := Source.declared_of_compile hg
    obtain ⟨-, _, -, hset, rfl⟩ := hd i t ht key f hf schemas target hs
    obtain ⟨-, _, -, hset', rfl⟩ := hd j u hu key' f' hf' schemas' target' hs'
    cases hset.symm.trans hr
    cases hset'.symm.trans hr'
    rw [identityOf, identityOf, typeIdentity_congr has, typeIdentity_congr hbs, typeIdentity_eq_iff hc]
  agrees := by
    intro source f schemas schemas' set hs hne hr hbs types
    rw [Compilation.exec_resolvesTo, hs]
    dsimp only
    rw [if_neg (by simp [hne]), hr]
    dsimp only
    rw [typeIdentity_congr hbs]
    simp only [eq_comm (a := typeIdentity bs), typeIdentity_eq_iff hc]

/-- Two addresses, and one whose lines they are. -/
theorem toldByLines_lineBreak :
    NoCollision [identityText ["b", "a"], identityText ["a\nb"]] ∧ ToldByLines ["b", "a"] ["a\nb"] ∧
      typeIdentity ["b", "a"] = typeIdentity ["a\nb"] ∧ ¬ ∀ a, a ∈ ["b", "a"] ↔ a ∈ ["a\nb"] := by
  have htexts : identityText ["b", "a"] = identityText ["a\nb"] := by
    decide +kernel
  have hc : NoCollision [identityText ["b", "a"], identityText ["a\nb"]] := by
    rw [htexts]
    intro s hs t ht _
    simp only [List.mem_pair, or_self] at hs ht
    rw [hs, ht]
  have h := toldByLines hc
  refine ⟨hc, h, h.identity.2 (by decide +kernel), fun hsame => ?_⟩
  exact absurd ((hsame "a").1 (by simp)) (by decide)

/-- Two addresses with a line break between them are one address that has the identity of both. -/
theorem typeIdentity_lineBreak {a b : String} (h : a < b) :
    typeIdentity [a ++ "\n" ++ b] = typeIdentity [a, b] := by
  have hset : sortedSet [a, b] = [a, b] := by
    have hne : a ≠ b := String.ne_of_lt h
    have hle : a ≤ b := Std.le_of_lt h
    simp [sortedSet, List.eraseDups_cons, hne.symm, sortBy, insertBy, hle]
  show Sha256.hex _ = Sha256.hex ("\n".intercalate (sortedSet [a, b]))
  rw [hset]
  rfl

/-- A schema whose one node asks for two schemas, and whose other node asks for a third one, the
address of which is those of the two with a line break between them. -/
def lineBreakStore : Store :=
  ((((Store.empty "omg://").putRaw "a" (.object [("kind", .text "schema"), ("name", .text "A"),
      ("elements", .object [("x", .object [("kind", .text "string")])])])).putRaw
    "b" (.object [("kind", .text "schema"), ("name", .text "B"),
      ("elements", .object [("y", .object [("kind", .text "string")])])])).putRaw
    "a\nb" (.object [("kind", .text "schema"), ("name", .text "C"),
      ("elements", .object [("z", .object [("kind", .text "string")])])])).putRaw
    "post" (.object [("kind", .text "schema"), ("name", .text "Post"),
      ("elements", .object [("first", .object [("kind", .text "node"), ("schemas", .texts ["a", "b"])]),
        ("second", .object [("kind", .text "node"), ("schemas", .texts ["a\nb"])])])])

/-- A payload that has for each node what its schemas define. -/
def lineBreakPayload : Json :=
  .object [("first", .object [("x", .text "1"), ("y", .text "2")]), ("second", .object [("z", .text "3")])]

/-- Both nodes of the schema lead to the type of the first, and the payload is refused. -/
theorem sharesType_lineBreak : ∃ g,
    (Gateway.ofStore lineBreakStore).source.compile 8 ["post"] = .ok g ∧
    g.rootType.targets = [typeIdentity ["a", "b"], typeIdentity ["a", "b"]] ∧
    (g.validatePayload lineBreakPayload).toOption.isNone := by
  have hrun : ((Gateway.ofStore lineBreakStore).source.compile 8 ["post"]).toOption.any (fun g =>
      g.rootType.targets = [typeIdentity ["a", "b"], typeIdentity ["a", "b"]] ∧
        (g.validatePayload lineBreakPayload).toOption.isNone) = true := by
    decide +kernel
  obtain ⟨g, hg, h⟩ := exists_ok_of_any hrun
  exact ⟨g, hg, of_decide_eq_true h⟩

/-! ### Addresses without line breaks -/

/-- Where no address that lists lead to has a line break, and no list leads to the empty set, the
identities of the sets that are reached tell them apart. -/
theorem Source.separated_of_oneLine {source : Source} {lists : List (List String)}
    (hc : NoCollision ((source.candidates lists).map fun set => identityText set.keys))
    (hline : ∀ set ∈ source.candidates lists, set.keys ≠ [] ∧ ∀ a ∈ set.keys, OneLine a) :
    Separated (Reached source lists) := by
  intro set set' hs hs' hi
  have hm := hs.mem_candidates
  have hm' := hs'.mem_candidates
  have htexts : NoCollision [identityText set.keys, identityText set'.keys] := by
    refine hc.mono fun text ht => ?_
    rcases List.mem_pair.1 ht with rfl | rfl
    · exact List.mem_map.2 ⟨set, hm, rfl⟩
    · exact List.mem_map.2 ⟨set', hm', rfl⟩
  have hne : set.keys = [] ↔ set'.keys = [] := iff_of_false (hline set hm).1 (hline set' hm').1
  exact mem_iff_of_identityLines (hline set hm).2 (hline set' hm').2 hne ((typeIdentity_eq_iff htexts).1 hi)

/-- The addresses that a store issues have no line breaks where what they begin with has none. -/
theorem oneLine_contentAddress {lead : String} (h : OneLine lead) (text : String) :
    OneLine (contentAddress lead text) := by
  rw [OneLine, contentAddress, String.toList_append, List.mem_append]
  rintro (hl | hd)
  · exact h hl
  · exact absurd (hexValue?_of_mem_hex hd) (by decide)

end ContentGraph
