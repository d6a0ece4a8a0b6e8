import ContentGraph.Json.Printer
import ContentGraph.Json.Reader
import ContentGraph.Proofs.Number.Shortest

/-!
# Numerals in JSON text

A number that was written is read as itself, whatever follows it, as long as that cannot
extend a numeral (`readScalar_number`), and so is an integer (`readScalar_integer`).
-/

namespace ContentGraph

/-- What follows a numeral does not extend it. -/
def EndsNumeral (r : List Char) : Prop :=
  ∀ c ∈ r.head?, c.isDigit = false ∧ c ≠ '.' ∧ c ≠ 'e' ∧ c ≠ 'E'

theorem EndsNumeral.noDigit {r : List Char} (h : EndsNumeral r) : NoDigit r :=
  fun c hc => (h c hc).1

theorem endsNumeral_nil : EndsNumeral [] := by
  intro c hc
  cases hc

/-! ### Fractions and exponents -/

theorem readFraction_point {fs r : List Char} (hf : AllDigits fs) (hne : fs ≠ []) (hr : NoDigit r) :
    Json.readFraction ('.' :: (fs ++ r)) = some (fs, r) := by
  unfold Json.readFraction
  simp only [takeWhile_digits hf hr, dropWhile_digits hf hr]

theorem readFraction_none {r : List Char} (hr : r.head? ≠ some '.') : Json.readFraction r = none := by
  unfold Json.readFraction
  split
  · exact absurd rfl hr
  · rfl

theorem readExponent_none {r : List Char} (hr : EndsNumeral r) : readExponent r = none := by
  unfold readExponent
  split
  · exact absurd rfl (hr 'e' rfl).2.2.1
  · exact absurd rfl (hr 'E' rfl).2.2.2
  · rfl

/-- The exponent of a canonical text is read as itself. -/
theorem readExponent_signed (e : ℤ) (zeros : ℕ) {r : List Char} (hr : NoDigit r) :
    readExponent ('e' :: ((if e < 0 then ['-'] else ['+'])
      ++ (List.replicate zeros '0' ++ (digitsOf e.natAbs ++ r)))) = some (e, r) := by
  have hd : AllDigits (List.replicate zeros '0' ++ digitsOf e.natAbs) :=
    (allDigits_zeros _).append (allDigits_digitsOf _)
  have hv : natOfDigits (List.replicate zeros '0' ++ digitsOf e.natAbs) = e.natAbs := by
    rw [natOfDigits_zeros_append, natOfDigits_digitsOf]
  have hne : List.replicate zeros '0' ++ digitsOf e.natAbs ≠ [] := by
    simp [digitsOf_ne_nil]
  rw [← List.append_assoc (List.replicate zeros '0')]
  generalize List.replicate zeros '0' ++ digitsOf e.natAbs = ds at hd hv hne ⊢
  by_cases he : e < 0
  · simp only [if_pos he, List.cons_append, List.nil_append, readExponent, readSigned,
      takeWhile_digits hd hr, dropWhile_digits hd hr, hv]
    cases ds with
    | nil => exact absurd rfl hne
    | cons d ds =>
      simp only [if_true]
      congr 2
      omega
  · simp only [if_neg he, List.cons_append, List.nil_append, readExponent, readSigned,
      takeWhile_digits hd hr, dropWhile_digits hd hr, hv]
    cases ds with
    | nil => exact absurd rfl hne
    | cons d ds =>
      simp only [Bool.false_eq_true, if_false]
      congr 2
      omega

/-! ### Numerals without their sign -/

/-- Digits that may stand before the point: there are some, and no zero stands before others. -/
structure Whole (ds : List Char) : Prop where
  digits : AllDigits ds
  ne_nil : ds ≠ []
  zero : ds.head? = some '0' → ds = ['0']

theorem Whole.guard {ds : List Char} (h : Whole ds) :
    ¬ (ds = [] ∨ (ds.head? = some '0' ∧ ds ≠ ['0'])) := by
  rintro (hn | ⟨hz, hne⟩)
  · exact h.ne_nil hn
  · exact hne (h.zero hz)

theorem whole_digitsOf (n : ℕ) : Whole (digitsOf n) where
  digits := allDigits_digitsOf n
  ne_nil := digitsOf_ne_nil n
  zero h := by
    rcases Nat.eq_zero_or_pos n with rfl | hn
    · rfl
    · exact absurd h (head?_digitsOf_ne_zero hn)

theorem whole_singleton {c : Char} (h : c.isDigit = true) : Whole [c] where
  digits := by simpa [AllDigits] using h
  ne_nil := by simp
  zero h := by simpa using h

namespace Json

/-- Digits that neither a point nor an exponent follows are an integer. -/
theorem readUnsigned_integer (negative : Bool) {ds r : List Char} (hw : Whole ds)
    (hr : EndsNumeral r) :
    readUnsigned negative (ds ++ r) =
      some (.integer (if negative then -(natOfDigits ds : ℤ) else natOfDigits ds), r) := by
  have hf : readFraction r = none := readFraction_none fun h => (hr '.' h).2.1 rfl
  unfold readUnsigned
  simp only [takeWhile_digits hw.digits hr.noDigit, dropWhile_digits hw.digits hr.noDigit, hf,
    readExponent_none hr, Option.getD_none, if_neg hw.guard]
  simp

/-- Digits before and after a point are a number. -/
theorem readUnsigned_fraction (negative : Bool) {ds fs r r' : List Char} {e? : Option (ℤ × List Char)}
    (hw : Whole ds) (hf : AllDigits fs) (hne : fs ≠ []) (hr : NoDigit r)
    (he : readExponent r = e?) (hr' : (e?.getD (0, r)).2 = r') :
    readUnsigned negative (ds ++ '.' :: (fs ++ r)) =
      some (.number (Decimal.ofParts negative ds fs (e?.getD (0, r)).1).toBinary, r') := by
  have hp : NoDigit ('.' :: (fs ++ r)) := noDigit_cons rfl
  unfold readUnsigned
  simp only [takeWhile_digits hw.digits hp, dropWhile_digits hw.digits hp,
    readFraction_point hf hne hr, Option.getD_some, he, if_neg hw.guard, hne, false_and, if_false,
    hr']

/-- Digits before an exponent are a number. -/
theorem readUnsigned_exponent (negative : Bool) {ds r r' : List Char} {e : ℤ} (hw : Whole ds)
    (he : readExponent ('e' :: r) = some (e, r')) :
    readUnsigned negative (ds ++ 'e' :: r) =
      some (.number (Decimal.ofParts negative ds [] e).toBinary, r') := by
  have hp : NoDigit ('e' :: r) := noDigit_cons rfl
  have hf : readFraction ('e' :: r) = none := readFraction_none (by simp)
  unfold readUnsigned
  simp only [takeWhile_digits hw.digits hp, dropWhile_digits hw.digits hp, hf, Option.getD_none, he,
    if_neg hw.guard, reduceCtorEq, and_false, if_false, Option.getD_some]

/-! ### The texts of magnitudes -/

/-- The digits of a positive number from its first one on. -/
structure Led (ds : List Char) : Prop where
  digits : AllDigits ds
  pos : 0 < natOfDigits ds
  head : ds.head? ≠ some '0'

theorem Led.ne_nil {ds : List Char} (h : Led ds) : ds ≠ [] := by
  rintro rfl
  exact absurd h.pos (by simp)

theorem Led.whole {ds : List Char} (h : Led ds) : Whole ds :=
  ⟨h.digits, h.ne_nil, fun hz => absurd hz h.head⟩

/-- The digits that are written for a positive number. -/
theorem led_trimmed {n : ℕ} (hn : 0 < n) : Led (Layout.trimmed (digitsOf n)) := by
  obtain ⟨z, hz⟩ := exists_trimmed_append (digitsOf n)
  have hv := congrArg natOfDigits hz
  rw [natOfDigits_digitsOf, natOfDigits_append_zeros] at hv
  have hp : 0 < natOfDigits (Layout.trimmed (digitsOf n)) := by
    rcases Nat.eq_zero_or_pos (natOfDigits (Layout.trimmed (digitsOf n))) with h0 | hp
    · rw [h0, Nat.zero_mul] at hv
      omega
    · exact hp
  refine ⟨fun c hc => isDigit_of_mem_digitsOf (mem_of_mem_trimmed hc), hp, fun hh => ?_⟩
  refine head?_digitsOf_ne_zero hn ?_
  rw [hz, List.head?_append, hh]
  rfl

section

variable (negative : Bool) {ds r : List Char} (hd : Led ds)

include hd

/-- A zero, a point, zeros, and the digits. -/
theorem readUnsigned_below (zeros : ℕ) (hr : EndsNumeral r) :
    readUnsigned negative ('0' :: '.' :: (List.replicate zeros '0' ++ ds) ++ r) =
      some (.number (Decimal.toBinary ⟨negative, natOfDigits ds, -(zeros + ds.length : ℕ)⟩), r) := by
  have hf : AllDigits (List.replicate zeros '0' ++ ds) := (allDigits_zeros _).append hd.digits
  have hn : List.replicate zeros '0' ++ ds ≠ [] := by simp [hd.ne_nil]
  have h := readUnsigned_fraction negative (whole_singleton (c := '0') rfl) hf hn hr.noDigit
    (readExponent_none hr) rfl
  rw [show '0' :: '.' :: (List.replicate zeros '0' ++ ds) ++ r
    = ['0'] ++ '.' :: (List.replicate zeros '0' ++ ds ++ r) by simp, h]
  have hv : natOfDigits (['0'] ++ (List.replicate zeros '0' ++ ds)) = natOfDigits ds := by
    rw [natOfDigits_append, natOfDigits_zeros_append]
    simp
  simp only [Decimal.ofParts, hv, Option.getD_none, List.length_append, List.length_replicate]
  congr 5
  omega

/-- The digits, zeros up to the point, and a zero after it. -/
theorem readUnsigned_above (zeros : ℕ) (hr : EndsNumeral r) :
    readUnsigned negative (ds ++ List.replicate zeros '0' ++ ['.', '0'] ++ r) =
      some (.number (Decimal.toBinary ⟨negative, natOfDigits ds, zeros⟩), r) := by
  have hw : Whole (ds ++ List.replicate zeros '0') := by
    refine ⟨hd.digits.append (allDigits_zeros _), by simp [hd.ne_nil], fun hz => ?_⟩
    rw [List.head?_append_of_ne_nil _ hd.ne_nil] at hz
    exact absurd hz hd.head
  have h := readUnsigned_fraction negative hw (allDigits_zeros 1) (by simp) hr.noDigit
    (readExponent_none hr) rfl
  rw [show ds ++ List.replicate zeros '0' ++ ['.', '0'] ++ r
    = ds ++ List.replicate zeros '0' ++ '.' :: (List.replicate 1 '0' ++ r) by simp, h]
  have hv : natOfDigits (ds ++ List.replicate zeros '0' ++ List.replicate 1 '0')
      = natOfDigits ds * 10 ^ (zeros + 1) := by
    rw [natOfDigits_append_zeros, natOfDigits_append_zeros, Nat.mul_assoc, ← Nat.pow_add]
  simp only [Decimal.ofParts, hv, Option.getD_none, List.length_replicate]
  rw [Decimal.toBinary_mul_pow _ hd.pos]
  congr 5
  omega

/-- The point stands among the digits. -/
theorem readUnsigned_among {places : ℕ} (hpos : 0 < places) (hlt : places < ds.length)
    (hr : EndsNumeral r) :
    readUnsigned negative (ds.take places ++ '.' :: ds.drop places ++ r) =
      some (.number (Decimal.toBinary ⟨negative, natOfDigits ds, -(ds.length - places : ℕ)⟩), r) := by
  have hcut : ds.take places ++ ds.drop places = ds := List.take_append_drop _ _
  have hw : Whole (ds.take places) := by
    refine ⟨fun c hc => hd.digits c (List.mem_of_mem_take hc), ?_, fun hz => ?_⟩
    · simp [hd.ne_nil, hpos.ne']
    · rw [List.head?_take, if_neg hpos.ne'] at hz
      exact absurd hz hd.head
  have hf : AllDigits (ds.drop places) := fun c hc => hd.digits c (List.mem_of_mem_drop hc)
  have hn : ds.drop places ≠ [] := by simp [hlt]
  have h := readUnsigned_fraction negative hw hf hn hr.noDigit (readExponent_none hr) rfl
  rw [show ds.take places ++ '.' :: ds.drop places ++ r
    = ds.take places ++ '.' :: (ds.drop places ++ r) by simp, h]
  simp only [Decimal.ofParts, hcut, Option.getD_none, List.length_drop]
  congr 5
  omega

/-- What the text of a magnitude has to be read as: the digits from the exponent `e` down. -/
theorem readUnsigned_positional (e : ℤ) (hr : EndsNumeral r) :
    readUnsigned negative (Layout.positional ds e ++ r) =
      some (.number (Decimal.toBinary ⟨negative, natOfDigits ds, e + 1 - ds.length⟩), r) := by
  unfold Layout.positional
  split
  · next he =>
    rw [readUnsigned_below negative hd _ hr]
    congr 5
    omega
  · next he =>
    dsimp only
    split
    · next hl =>
      rw [readUnsigned_above negative hd _ hr]
      congr 5
      omega
    · next hl =>
      rw [readUnsigned_among negative hd (Nat.succ_pos _) (by omega) hr]
      congr 5
      omega

end

theorem readUnsigned_scientific (negative : Bool) {ds r : List Char} (hd : Led ds) (e : ℤ)
    (hr : NoDigit r) :
    readUnsigned negative (Layout.canonical.scientific ds e ++ r) =
      some (.number (Decimal.toBinary ⟨negative, natOfDigits ds, e + 1 - ds.length⟩), r) := by
  have hx := readExponent_signed e (2 - (digitsOf e.natAbs).length) hr
  unfold Layout.scientific
  simp only [Layout.canonical, List.append_assoc, List.cons_append]
  generalize (if e < 0 then ['-'] else ['+']) ++ (List.replicate (2 - (digitsOf e.natAbs).length) '0'
    ++ (digitsOf e.natAbs ++ r)) = tail at hx ⊢
  match ds, hd with
  | [], hd => exact absurd rfl hd.ne_nil
  | [d], hd =>
    rw [Layout.pointed, readUnsigned_exponent negative hd.whole hx]
    simp [Decimal.ofParts]
  | d :: d' :: rest, hd =>
    have hw : Whole [d] := whole_singleton (hd.digits d (by simp))
    have hf : AllDigits (d' :: rest) := fun c hc => hd.digits c (List.mem_cons_of_mem _ hc)
    have h := readUnsigned_fraction negative hw hf (by simp) (noDigit_cons rfl) hx rfl
    rw [show Layout.pointed (d :: d' :: rest) ++ 'e' :: tail
      = [d] ++ '.' :: (d' :: rest ++ 'e' :: tail) from rfl, h]
    simp only [Decimal.ofParts, Option.getD_some, List.cons_append, List.nil_append, List.length_cons]
    congr 5
    push_cast
    ring

/-- The text of digits and their power of ten is read as their value. -/
theorem readUnsigned_written (negative : Bool) {found : ℕ × ℤ} (hp : 0 < found.1)
    {r : List Char} (hr : EndsNumeral r) :
    readUnsigned negative (Layout.canonical.written found ++ r) =
      some (.number (Decimal.toBinary ⟨negative, found.1, found.2⟩), r) := by
  obtain ⟨digits, exponent⟩ := found
  have hd := led_trimmed hp
  obtain ⟨z, hz⟩ := exists_trimmed_append (digitsOf digits)
  have hv := congrArg natOfDigits hz
  have hl := congrArg List.length hz
  rw [natOfDigits_digitsOf, natOfDigits_append_zeros] at hv
  rw [List.length_append, List.length_replicate] at hl
  have hb : Decimal.toBinary ⟨negative, digits, exponent⟩ =
      Decimal.toBinary ⟨negative, natOfDigits (Layout.trimmed (digitsOf digits)),
        exponent + (digitsOf digits).length - 1 + 1 - (Layout.trimmed (digitsOf digits)).length⟩ := by
    nth_rewrite 1 [hv]
    rw [Decimal.toBinary_mul_pow _ hd.pos]
    congr 2
    omega
  unfold Layout.written
  dsimp only
  rw [hb]
  split
  · exact readUnsigned_positional negative hd _ hr
  · exact readUnsigned_scientific negative hd _ hr.noDigit

/-- The text of a magnitude is read as the magnitude. -/
theorem readUnsigned_magnitude (negative : Bool) (m : Magnitude) {r : List Char} (hr : EndsNumeral r) :
    readUnsigned negative (Layout.canonical.magnitude m ++ r) =
      some (.number (.finite negative m), r) := by
  unfold Layout.magnitude
  split
  · next hm =>
    have h := readUnsigned_fraction negative (whole_singleton (c := '0') rfl) (allDigits_zeros 1)
      (by simp) hr.noDigit (readExponent_none hr) rfl
    have hz : m = Magnitude.zero := Fin.ext hm
    rw [show ['0', '.', '0'] ++ r = ['0'] ++ '.' :: (List.replicate 1 '0' ++ r) by simp, h]
    simp only [Decimal.ofParts, hz]
    rw [show natOfDigits (['0'] ++ List.replicate 1 '0') = 0 from rfl, Decimal.toBinary_zero]
    rfl
  · next hm =>
    rw [readUnsigned_written negative (Magnitude.shortest_pos hm) hr,
      Magnitude.toBinary_shortest hm]

/-! ### Numerals and words -/

theorem exists_digit_of_readUnsigned {negative : Bool} {cs : List Char} {x : Json × List Char}
    (h : readUnsigned negative cs = some x) : ∃ c cs', cs = c :: cs' ∧ c.isDigit = true := by
  cases cs with
  | nil => simp [readUnsigned] at h
  | cons c cs' =>
    refine ⟨c, cs', rfl, ?_⟩
    by_contra hc
    simp [readUnsigned, hc] at h

theorem afterWord?_ne {w c : Char} (h : w ≠ c) (ws cs : List Char) :
    afterWord? (w :: ws) (c :: cs) = none := by
  simp [afterWord?, h]

/-- No word begins with a digit. -/
theorem readScalar_digit {c : Char} (hc : c.isDigit = true) (cs : List Char) :
    readScalar (c :: cs) = readUnsigned false (c :: cs) := by
  have hne : ∀ w : Char, w.isDigit = false → w ≠ c := by
    rintro w hw rfl
    simp [hw] at hc
  have hm : '-' ≠ c := hne '-' rfl
  unfold readScalar words
  simp only [List.findSome?_cons, List.findSome?_nil, String.reduceToList,
    afterWord?_ne (hne 'n' rfl), afterWord?_ne (hne 't' rfl), afterWord?_ne (hne 'f' rfl),
    afterWord?_ne (hne 'N' rfl), afterWord?_ne (hne 'I' rfl), afterWord?_ne hm, Option.map_none]
  split
  · next e => cases e; exact absurd rfl hm
  · rfl

/-- After a minus sign, a digit begins a numeral. -/
theorem readScalar_minus {c : Char} (hc : c.isDigit = true) (cs : List Char) :
    readScalar ('-' :: c :: cs) = readUnsigned true (c :: cs) := by
  have hi : 'I' ≠ c := by
    rintro rfl
    simp at hc
  unfold readScalar words
  simp [afterWord?, hi]

/-- **A 64-bit number is read as itself**, the infinities and what is no number among them. -/
theorem readScalar_number (x : Binary) {r : List Char} (hr : EndsNumeral r) :
    readScalar (Layout.canonical.text x ++ r) = some (.number x, r) := by
  match x with
  | .nan => simp [readScalar, words, afterWord?, Layout.text, Layout.canonical]
  | .infinite true => simp [readScalar, words, afterWord?, Layout.text, Layout.canonical]
  | .infinite false => simp [readScalar, words, afterWord?, Layout.text, Layout.canonical]
  | .finite negative m =>
    have h := readUnsigned_magnitude negative m hr
    obtain ⟨c, cs, hcs, hc⟩ := exists_digit_of_readUnsigned h
    cases negative with
    | false =>
      simp only [Layout.text, Bool.false_eq_true, if_false, List.nil_append]
      rw [hcs] at h ⊢
      rw [readScalar_digit hc, h]
    | true =>
      simp only [Layout.text, if_true, List.cons_append, List.nil_append]
      rw [hcs] at h ⊢
      rw [readScalar_minus hc, h]

/-- An integer is read as itself. -/
theorem readScalar_integer (n : ℤ) {r : List Char} (hr : EndsNumeral r) :
    readScalar (integerText n ++ r) = some (.integer n, r) := by
  have h := readUnsigned_integer (decide (n < 0)) (whole_digitsOf n.natAbs) hr
  rw [natOfDigits_digitsOf] at h
  obtain ⟨c, cs, hcs, hc⟩ := exists_digit_of_readUnsigned h
  unfold integerText
  by_cases hn : n < 0
  · rw [if_pos hn, List.cons_append, List.nil_append, List.cons_append, hcs, readScalar_minus hc,
      ← hcs]
    simp only [hn, decide_true, if_true] at h
    rw [h]
    congr 3
    omega
  · rw [if_neg hn, List.nil_append, hcs, readScalar_digit hc, ← hcs]
    simp only [hn, decide_false, Bool.false_eq_true, if_false] at h
    rw [h]
    congr 3
    omega

end Json

end ContentGraph
