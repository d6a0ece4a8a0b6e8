import ContentGraph.Proofs.Json.Numeral
import ContentGraph.Proofs.Json.Quoted
import ContentGraph.Proofs.Table

/-!
# Compact texts read back

A value whose objects have no repeated member is read from its compact text as itself
(`parse?_toText`). The length of a text bounds the steps of the reader, so that they suffice.
-/

namespace ContentGraph.Json

mutual

/-- No object in a value has two members of one name. -/
def Distinct : Json → Prop
  | .list items => DistinctItems items
  | .object members => (members.map Prod.fst).Nodup ∧ DistinctMembers members
  | _ => True

/-- No object in the items of a list has two members of one name. -/
def DistinctItems : List Json → Prop
  | [] => True
  | v :: rest => v.Distinct ∧ DistinctItems rest

/-- No object in the values of members has two members of one name. -/
def DistinctMembers : List (String × Json) → Prop
  | [] => True
  | (_, v) :: rest => v.Distinct ∧ DistinctMembers rest

end

/-! ### The first character -/

/-- A character with which a word or a numeral begins. -/
structure Scalar (c : Char) : Prop where
  spacing : isSpacing c = false
  quote : c ≠ '\x22'
  bracket : c ≠ '['
  brace : c ≠ '\x7b'
  closing : c ≠ ']' ∧ c ≠ '\x7d'

theorem scalar_digit {c : Char} (h : c.isDigit = true) : Scalar c := by
  have hne : ∀ d : Char, d.isDigit = false → c ≠ d := by
    rintro d hd rfl
    simp [hd] at h
  refine ⟨?_, hne _ rfl, hne _ rfl, hne _ rfl, hne _ rfl, hne _ rfl⟩
  simp [isSpacing, hne ' ' rfl, hne '\n' rfl, hne '\r' rfl, hne '\t' rfl]

theorem scalar_of (c : Char) (h : c = 'n' ∨ c = 't' ∨ c = 'f' ∨ c = 'N' ∨ c = 'I' ∨ c = '-') :
    Scalar c := by
  rcases h with rfl | rfl | rfl | rfl | rfl | rfl <;> exact ⟨rfl, by decide, by decide, by decide, by decide⟩

theorem skipSpacing_cons {c : Char} (h : isSpacing c = false) (cs : List Char) :
    skipSpacing (c :: cs) = c :: cs := by
  simp [skipSpacing, h]

/-- A value that is neither a text nor a list nor an object. -/
def IsScalar : Json → Prop
  | .text _ | .list _ | .object _ => False
  | _ => True

theorem exists_scalar_magnitude (m : Magnitude) :
    ∃ c cs, Layout.canonical.magnitude m = c :: cs ∧ Scalar c := by
  have h := readUnsigned_magnitude false m endsNumeral_nil
  rw [List.append_nil] at h
  obtain ⟨c, cs, hcs, hc⟩ := exists_digit_of_readUnsigned h
  exact ⟨c, cs, hcs, scalar_digit hc⟩

/-- Words and numerals begin with a character of their own. -/
theorem exists_scalar_compact {v : Json} (h : v.IsScalar) :
    ∃ c cs, v.compact = c :: cs ∧ Scalar c := by
  match v with
  | .null => exact ⟨'n', "ull".toList, rfl, scalar_of _ (by simp)⟩
  | .bool true => exact ⟨'t', "rue".toList, rfl, scalar_of _ (by simp)⟩
  | .bool false => exact ⟨'f', "alse".toList, rfl, scalar_of _ (by simp)⟩
  | .integer n =>
    obtain ⟨c, cs, hcs⟩ := List.exists_cons_of_ne_nil (digitsOf_ne_nil n.natAbs)
    have hc : c.isDigit = true := isDigit_of_mem_digitsOf (n := n.natAbs) (by rw [hcs]; simp)
    by_cases hn : n < 0
    · exact ⟨'-', digitsOf n.natAbs, by simp [compact, integerText, hn], scalar_of _ (by simp)⟩
    · exact ⟨c, cs, by simp [compact, integerText, hn, hcs], scalar_digit hc⟩
  | .number .nan => exact ⟨'N', "aN".toList, rfl, scalar_of _ (by simp)⟩
  | .number (.infinite true) => exact ⟨'-', "Infinity".toList, rfl, scalar_of _ (by simp)⟩
  | .number (.infinite false) => exact ⟨'I', "nfinity".toList, rfl, scalar_of _ (by simp)⟩
  | .number (.finite true m) =>
    exact ⟨'-', Layout.canonical.magnitude m, rfl, scalar_of _ (by simp)⟩
  | .number (.finite false m) => exact exists_scalar_magnitude m

/-- Words and numerals are read as themselves. -/
theorem readScalar_compact {v : Json} (h : v.IsScalar) {r : List Char} (hr : EndsNumeral r) :
    readScalar (v.compact ++ r) = some (v, r) := by
  match v with
  | .null => simp [compact, readScalar, words, afterWord?]
  | .bool true => simp [compact, readScalar, words, afterWord?]
  | .bool false => simp [compact, readScalar, words, afterWord?]
  | .integer n => exact readScalar_integer n hr
  | .number x => exact readScalar_number x hr

theorem readValue_scalar {v : Json} (h : v.IsScalar) (n : ℕ) {r : List Char} (hr : EndsNumeral r) :
    readValue (n + 1) (v.compact ++ r) = some (v, r) := by
  have hs := readScalar_compact h hr
  obtain ⟨c, cs, hcs, hc⟩ := exists_scalar_compact h
  rw [hcs, List.cons_append] at hs ⊢
  rw [readValue.eq_def]
  dsimp only
  rw [skipSpacing_cons hc.spacing]
  split
  · next e => exact absurd (List.cons.inj e).1 hc.quote
  · next e => exact absurd (List.cons.inj e).1 hc.bracket
  · next e => exact absurd (List.cons.inj e).1 hc.brace
  · exact hs

/-- No value begins with a blank or a closing bracket. -/
theorem exists_cons_compact (v : Json) :
    ∃ c cs, v.compact = c :: cs ∧ isSpacing c = false ∧ c ≠ ']' := by
  by_cases h : v.IsScalar
  · obtain ⟨c, cs, hcs, hc⟩ := exists_scalar_compact h
    exact ⟨c, cs, hcs, hc.spacing, hc.closing.1⟩
  · match v with
    | .text s => exact ⟨'\x22', _, by rw [compact, quoted], rfl, by decide⟩
    | .list items => exact ⟨'[', _, by rw [compact], rfl, by decide⟩
    | .object members => exact ⟨'\x7b', _, by rw [compact], rfl, by decide⟩
    | .null | .bool _ | .integer _ | .number _ => exact absurd trivial h

theorem endsNumeral_cons {c : Char} (h : c = ',' ∨ c = ']' ∨ c = '\x7d') (r : List Char) :
    EndsNumeral (c :: r) := by
  intro d hd
  rw [List.head?_cons, Option.mem_some_iff] at hd
  subst hd
  rcases h with rfl | rfl | rfl <;> decide

theorem length_compact_pos (v : Json) : 0 < v.compact.length := by
  obtain ⟨c, cs, hcs, -, -⟩ := exists_cons_compact v
  rw [hcs]
  simp

/-! ### Values -/

theorem ofMembers_of_nodup {members : List (String × Json)} (h : (members.map Prod.fst).Nodup) :
    ofMembers members = .object members := by
  rw [ofMembers, Table.entries_ofList h]

theorem quoted_append (s : String) (r : List Char) :
    quoted s ++ r = '\x22' :: (s.toList.flatMap escape ++ '\x22' :: r) := by
  simp [quoted]

theorem exists_cons_compactItems (v : Json) (rest : List Json) :
    ∃ c cs, compactItems (v :: rest) = c :: cs ∧ isSpacing c = false ∧ c ≠ ']' := by
  obtain ⟨c, cs, hcs, hc⟩ := exists_cons_compact v
  cases rest with
  | nil => exact ⟨c, cs, hcs, hc⟩
  | cons w rest => exact ⟨c, _, by rw [compactItems, hcs, List.cons_append], hc⟩

theorem exists_quote_compactMembers (m : String × Json) (rest : List (String × Json)) :
    ∃ cs, compactMembers (m :: rest) = '\x22' :: cs := by
  obtain ⟨k, v⟩ := m
  cases rest with
  | nil => exact ⟨_, by rw [compactMembers, quoted_append]⟩
  | cons m rest => exact ⟨_, by rw [compactMembers, quoted_append]⟩

mutual

/-- A value is read from its compact text within as many steps as twice its length. -/
theorem readValue_compact : ∀ (v : Json) (n : ℕ) (r : List Char), v.Distinct →
    2 * v.compact.length ≤ n → EndsNumeral r → readValue n (v.compact ++ r) = some (v, r)
  | v, 0, r, _, hn, _ => by
    have := length_compact_pos v
    omega
  | .null, n + 1, r, _, _, hr => readValue_scalar (v := .null) trivial n hr
  | .bool b, n + 1, r, _, _, hr => readValue_scalar (v := .bool b) trivial n hr
  | .integer i, n + 1, r, _, _, hr => readValue_scalar (v := .integer i) trivial n hr
  | .number x, n + 1, r, _, _, hr => readValue_scalar (v := .number x) trivial n hr
  | .text s, n + 1, r, _, _, _ => by
    rw [compact, quoted_append, readValue, skipSpacing_cons rfl]
    simp [readText_quoted]
  | .list [], n + 1, r, _, _, _ => by
    rw [compact, compactItems, readValue]
    simp [skipSpacing_cons, isSpacing]
  | .list (v :: rest), n + 1, r, hd, hn, _ => by
    have hl : (compact (.list (v :: rest))).length = (compactItems (v :: rest)).length + 2 := by
      simp [compact]
    have hi := readItems_compact (v :: rest) n r hd (by simp) (by omega)
    obtain ⟨c, cs, hcs, hc, hb⟩ := exists_cons_compactItems v rest
    rw [hcs] at hi
    rw [compact, List.cons_append, List.append_assoc, readValue, skipSpacing_cons rfl, hcs]
    simp only [List.cons_append, List.nil_append] at hi ⊢
    rw [skipSpacing_cons hc]
    simp [hb, hi]
  | .object [], n + 1, r, _, _, _ => by
    rw [compact, compactMembers, readValue]
    simp [skipSpacing_cons, isSpacing]
  | .object (m :: rest), n + 1, r, hd, hn, _ => by
    have hl : (compact (.object (m :: rest))).length = (compactMembers (m :: rest)).length + 2 := by
      simp [compact]
    have hi := readMembers_compact (m :: rest) n r hd.2 (by simp) (by omega)
    obtain ⟨cs, hcs⟩ := exists_quote_compactMembers m rest
    rw [hcs] at hi
    rw [compact, List.cons_append, List.append_assoc, readValue, skipSpacing_cons rfl, hcs]
    simp only [List.cons_append, List.nil_append] at hi ⊢
    rw [skipSpacing_cons rfl]
    simp [hi, ofMembers_of_nodup hd.1]

/-- Items are read from their compact texts up to the closing bracket. -/
theorem readItems_compact : ∀ (vs : List Json) (n : ℕ) (r : List Char), DistinctItems vs →
    vs ≠ [] → 2 * (compactItems vs).length < n →
    readItems n (compactItems vs ++ ']' :: r) = some (vs, r)
  | [], _, _, _, h, _ => absurd rfl h
  | [v], n + 1, r, hd, _, hn => by
    have hv := readValue_compact v n (']' :: r) hd.1 (by simp [compactItems] at hn; omega)
      (endsNumeral_cons (by simp) r)
    rw [compactItems, readItems, hv]
    simp [skipSpacing_cons, isSpacing]
  | v :: w :: rest, n + 1, r, hd, _, hn => by
    simp only [compactItems, List.length_append, List.length_cons] at hn
    have hv := readValue_compact v n (',' :: (compactItems (w :: rest) ++ ']' :: r)) hd.1 (by omega)
      (endsNumeral_cons (by simp) _)
    have hw := readItems_compact (w :: rest) n r hd.2 (by simp) (by omega)
    rw [compactItems, List.append_assoc, List.cons_append, readItems, hv]
    simp [skipSpacing_cons, isSpacing, hw]

/-- Members are read from their compact texts up to the closing brace. -/
theorem readMembers_compact : ∀ (ms : List (String × Json)) (n : ℕ) (r : List Char),
    DistinctMembers ms → ms ≠ [] → 2 * (compactMembers ms).length < n →
    readMembers n (compactMembers ms ++ '\x7d' :: r) = some (ms, r)
  | [], _, _, _, h, _ => absurd rfl h
  | [(k, v)], n + 1, r, hd, _, hn => by
    simp only [compactMembers, List.length_append, List.length_cons] at hn
    have hv := readValue_compact v n ('\x7d' :: r) hd.1 (by omega) (endsNumeral_cons (by simp) r)
    rw [compactMembers, List.append_assoc, quoted_append, List.cons_append, readMembers,
      skipSpacing_cons rfl]
    simp [readText_quoted, skipSpacing_cons, isSpacing, hv]
  | (k, v) :: m :: rest, n + 1, r, hd, _, hn => by
    simp only [compactMembers, List.length_append, List.length_cons] at hn
    have hv := readValue_compact v n (',' :: (compactMembers (m :: rest) ++ '\x7d' :: r)) hd.1
      (by omega) (endsNumeral_cons (by simp) _)
    have hm := readMembers_compact (m :: rest) n r hd.2 (by simp) (by omega)
    rw [compactMembers, List.append_assoc, quoted_append, List.cons_append, List.append_assoc,
      List.cons_append, readMembers, skipSpacing_cons rfl]
    simp [readText_quoted, skipSpacing_cons, isSpacing, hv, hm]

end

/-- **A value is read from its compact text as itself.** -/
theorem parse?_toText {v : Json} (h : v.Distinct) : parse? v.toText = some v := by
  have hv := readValue_compact v (2 * v.compact.length + 1) [] h (by omega) endsNumeral_nil
  rw [List.append_nil] at hv
  rw [parse?, toText, String.toList_ofList, read?, hv]
  simp [skipSpacing]

end ContentGraph.Json
