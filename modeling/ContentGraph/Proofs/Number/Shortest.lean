import ContentGraph.Proofs.Number.Rounding

/-!
# The shortest digits read back

`Magnitude.shortest` finds digits by reading them back, and where none of the short rows
does, it takes all digits of the exact value. So in either case the digits are read as the
magnitude they were made from (`toBinary_shortest`).
-/

namespace ContentGraph

namespace Magnitude

theorem units_pos {m : Magnitude} (h : m.val ≠ 0) : 0 < m.units :=
  unitsAt_pos (Nat.pos_of_ne_zero h)

/-- Below the end of a stretch the units are below a power of two. -/
theorem unitsAt_lt {p n : ℕ} (h : p < (n + 1) * 2 ^ 52) : unitsAt p < 2 ^ (52 + n) := by
  rcases position_cases p with hp | ⟨k, r, hr, rfl⟩
  · rw [unitsAt_of_lt hp, Nat.pow_add]
    exact Nat.lt_of_lt_of_le hp (Nat.le_mul_of_pos_right _ (Nat.pow_pos (by decide)))
  · rw [unitsAt_stretch hr.le]
    calc (2 ^ 52 + r) * 2 ^ k
        < 2 ^ 53 * 2 ^ k := Nat.mul_lt_mul_of_pos_right (by omega) (Nat.pow_pos (by decide))
      _ = 2 ^ (53 + k) := (Nat.pow_add 2 53 k).symm
      _ ≤ 2 ^ (52 + n) := Nat.pow_le_pow_right (by decide) (by omega)

theorem exact_pos {m : Magnitude} (h : m.val ≠ 0) : 0 < m.exact :=
  Nat.mul_pos (units_pos h) (Nat.pow_pos (by decide))

/-- The digits of `u * 5 ^ k` in the decimal bounds of its factors. -/
theorem length_digitsOf_mul_pow_five {u k n a b : ℕ} (hu : 0 < u) (hn : u < 2 ^ n) (ha : 0 < a)
    (hb : 0 < b) (hlow : 10 ^ a ≤ Nat.pow 5 k) (hhigh : 2 ^ n * Nat.pow 5 k ≤ 10 ^ b) :
    a < (digitsOf (u * Nat.pow 5 k)).length ∧ (digitsOf (u * Nat.pow 5 k)).length ≤ b := by
  constructor
  · by_contra hc
    have hlt := (length_digitsOf_le_iff ha).1 (Nat.le_of_not_lt hc)
    have hle : Nat.pow 5 k ≤ u * Nat.pow 5 k := Nat.le_mul_of_pos_left _ hu
    exact Nat.lt_irrefl _ (Nat.lt_of_lt_of_le hlt (Nat.le_trans hlow hle))
  · refine (length_digitsOf_le_iff hb).2 (Nat.lt_of_lt_of_le ?_ hhigh)
    exact Nat.mul_lt_mul_of_pos_right hn (Nat.pow_pos (by decide))

/-- The exact digits are neither too few nor too many to be computed with. -/
theorem length_exact {m : Magnitude} (h : m.val ≠ 0) :
    700 < (digitsOf m.exact).length ∧ (digitsOf m.exact).length ≤ 1474 :=
  length_digitsOf_mul_pow_five (n := 52 + 2046) (units_pos h) (unitsAt_lt m.isLt)
    (by decide) (by decide) (by decide +kernel) (by decide +kernel)

theorem pow_five_mul_pow_two (u n : ℕ) : u * Nat.pow 5 n * Nat.pow 2 n = u * Nat.pow 10 n := by
  simp only [Nat.pow_eq]
  rw [Nat.mul_assoc, ← Nat.mul_pow]

/-- All digits of the exact value are read as the magnitude. -/
theorem toBinary_exact {m : Magnitude} (h : m.val ≠ 0) :
    Decimal.toBinary ⟨false, m.exact, -1074⟩ = .finite false m := by
  obtain ⟨hlow, hhigh⟩ := length_exact h
  have hn : nearest m.exact (Nat.pow 10 1074) = m.val :=
    nearest_eq (Nat.pow_pos (by decide)) (pow_five_mul_pow_two m.units 1074)
  rw [Decimal.toBinary_of_pos _ (exact_pos h), if_neg (by omega), if_neg (by omega)]
  unfold Decimal.nearby Binary.ofRatio
  rw [if_neg (by decide)]
  simp only [show (-(-1074 : ℤ)).toNat = 1074 from rfl, hn]
  rw [dif_pos m.isLt]

/-- The digits stand on some grid, or they are all digits. -/
theorem shortest_cases (m : Magnitude) :
    (∃ cut, m.onGrid cut = some m.shortest) ∨ m.shortest = (m.exact, -1074) := by
  have hs : m.shortest = ((List.range 17).findSome? fun n =>
      m.onGrid ((digitsOf m.exact).length - (n + 1))).getD (m.exact, -1074) := rfl
  cases hf : (List.range 17).findSome? fun n => m.onGrid ((digitsOf m.exact).length - (n + 1)) with
  | none =>
    rw [hf] at hs
    exact .inr hs
  | some found =>
    rw [hf] at hs
    obtain ⟨n, -, hn⟩ := List.exists_of_findSome?_eq_some hf
    exact .inl ⟨_, hn.trans (congrArg some hs.symm)⟩

theorem readsBack_of_onGrid {m : Magnitude} {cut : ℕ} {found : ℕ × ℤ}
    (h : m.onGrid cut = some found) : m.readsBack found.1 found.2 = true := by
  unfold onGrid at h
  obtain ⟨digits, hd, rfl⟩ := Option.map_eq_some_iff.1 h
  exact List.find?_some (p := fun digits => m.readsBack digits (cut - 1074)) hd

theorem readsBack_shortest {m : Magnitude} (h : m.val ≠ 0) :
    m.readsBack m.shortest.1 m.shortest.2 = true := by
  rcases m.shortest_cases with ⟨cut, hc⟩ | he
  · exact readsBack_of_onGrid hc
  · rw [he]
    exact decide_eq_true (toBinary_exact h)

/-- **The digits that are written are read as the number.** -/
theorem toBinary_shortest {m : Magnitude} (h : m.val ≠ 0) (negative : Bool) :
    Decimal.toBinary ⟨negative, m.shortest.1, m.shortest.2⟩ = .finite negative m :=
  Decimal.toBinary_sign (by simpa [readsBack] using readsBack_shortest h) negative

theorem shortest_pos {m : Magnitude} (h : m.val ≠ 0) : 0 < m.shortest.1 := by
  rcases Nat.eq_zero_or_pos m.shortest.1 with hz | hp
  · have hb := toBinary_shortest h false
    rw [hz, Decimal.toBinary_zero] at hb
    cases hb
    exact absurd rfl h
  · exact hp

end Magnitude

end ContentGraph
