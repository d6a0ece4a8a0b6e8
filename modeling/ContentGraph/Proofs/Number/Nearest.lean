import ContentGraph.Proofs.Number.Rounding
import Mathlib.Algebra.Order.Field.Power
import Mathlib.Data.Rat.Lemmas
import Mathlib.Tactic.Linarith
import Mathlib.Tactic.Positivity

/-!
# The nearest number

What the 64-bit number of a value is, said of values and not of how it is found: no magnitude is nearer, and
of two that are as near the one at an even position is taken (`Magnitude.IsNearest`). The finite magnitudes are
the integers of at most 53 bits, times some powers of two (`Magnitude.exists_valueAt_iff`). Magnitudes go on
above them, as if there were no greatest exponent, and a value that is nearest to one of those rounds to an
infinity (`Binary.Rounds`).

A ratio has one such number, and `Binary.ofRatio` gives it (`Binary.rounds_iff`). So does `Binary.ofInt?` for
an integer, where the number is finite (`Binary.ofInt?_eq_some_iff`), and `Decimal.toBinary` for a numeral,
however long its digits are and however far its exponent lies (`Decimal.toBinary_eq_iff`).
-/

namespace ContentGraph

namespace Magnitude

/-! ### The nearest magnitude -/

/-- The value of the magnitude at a position. -/
def valueAt (p : ℕ) : ℚ := unitsAt p / (Nat.pow 2 1074 : ℕ)

/-- The magnitude at a position is the nearest to a value. -/
structure IsNearest (q : ℚ) (p : ℕ) : Prop where
  /-- No magnitude is nearer. -/
  least : ∀ r, |valueAt p - q| ≤ |valueAt r - q|
  /-- Where another is as near, the position is even. -/
  even : ∀ r, r ≠ p → |valueAt r - q| = |valueAt p - q| → p % 2 = 0

/-- There are some units in one. -/
theorem units_one_pos : (0 : ℚ) < (Nat.pow 2 1074 : ℕ) := by
  have hpow : ∀ k, (0 : ℚ) < (Nat.pow 2 k : ℕ) := fun k => Nat.cast_pos.2 (Nat.pow_pos (by decide))
  exact hpow 1074

theorem strictMono_valueAt : StrictMono valueAt := fun _ _ h =>
  div_lt_div_of_pos_right (Nat.cast_lt.2 (strictMono_unitsAt h)) units_one_pos

theorem valueAt_zero : valueAt 0 = 0 := by
  rw [valueAt, show unitsAt 0 = 0 from rfl, Nat.cast_zero, zero_div]

/-- Every integer of at most 53 bits times a power of two is the magnitude at some position. -/
theorem exists_unitsAt_eq {n k : ℕ} (hn : n < 2 ^ 53) (hk : k ≤ 2045) :
    ∃ p < 2047 * 2 ^ 52, unitsAt p = n * 2 ^ k := by
  induction k generalizing n with
  | zero => exact ⟨n, by omega, by rw [unitsAt_self hn, Nat.pow_zero, Nat.mul_one]⟩
  | succ k ih =>
    by_cases hlead : n < 2 ^ 52
    · obtain ⟨p, hp, hu⟩ := ih (n := 2 * n) (by omega) (by omega)
      exact ⟨p, hp, by rw [hu, Nat.pow_succ]; ring⟩
    · obtain ⟨r, rfl⟩ : ∃ r, n = 2 ^ 52 + r := ⟨n - 2 ^ 52, by omega⟩
      exact ⟨(k + 1 + 1) * 2 ^ 52 + r, by omega, unitsAt_stretch (by omega)⟩

/-- **The finite magnitudes are the integers of at most 53 bits, times powers of two** from `2 ^ -1074` up to
`2 ^ 971`. -/
theorem exists_valueAt_iff {q : ℚ} : (∃ m : Magnitude, valueAt m.val = q) ↔
    ∃ n k : ℕ, n < 2 ^ 53 ∧ k ≤ 2045 ∧ q = (n * 2 ^ k : ℕ) / (Nat.pow 2 1074 : ℕ) := by
  constructor
  · rintro ⟨m, rfl⟩
    have hm : m.val < 2047 * 2 ^ 52 := m.isLt
    rcases position_cases m.val with h | ⟨k, r, hr, h⟩
    · exact ⟨m.val, 0, by omega, by omega, by rw [valueAt, unitsAt_of_lt h, Nat.pow_zero, Nat.mul_one]⟩
    · exact ⟨2 ^ 52 + r, k, by omega, by omega, by rw [valueAt, h, unitsAt_stretch hr.le]⟩
  · rintro ⟨n, k, hn, hk, rfl⟩
    obtain ⟨p, hp, hu⟩ := exists_unitsAt_eq hn hk
    exact ⟨⟨p, hp⟩, by rw [valueAt, hu]⟩

/-- A value is as near to the lower of two others as to the upper where it does not lie above their middle. -/
theorem abs_lower_le_iff {a b q : ℚ} (h : a < b) : |a - q| ≤ |b - q| ↔ 2 * q ≤ a + b := by
  have hfactor : (b - q) ^ 2 - (a - q) ^ 2 = (b - a) * (a + b - 2 * q) := by ring
  rw [← sq_le_sq, ← sub_nonneg, hfactor, mul_nonneg_iff_of_pos_left (sub_pos.2 h), sub_nonneg]

theorem abs_upper_le_iff {a b q : ℚ} (h : a < b) : |b - q| ≤ |a - q| ↔ a + b ≤ 2 * q := by
  have hfactor : (a - q) ^ 2 - (b - q) ^ 2 = (b - a) * (2 * q - (a + b)) := by ring
  rw [← sq_le_sq, ← sub_nonneg, hfactor, mul_nonneg_iff_of_pos_left (sub_pos.2 h), sub_nonneg]

/-- A value has one nearest magnitude. -/
theorem IsNearest.unique {q : ℚ} {p r : ℕ} (hp : IsNearest q p) (hr : IsNearest q r) : p = r := by
  have hnot : ∀ {p r : ℕ}, IsNearest q p → IsNearest q r → ¬ p < r := by
    intro p r hp hr hlt
    have hsame : |valueAt p - q| = |valueAt r - q| := le_antisymm (hp.least r) (hr.least p)
    have hpe : p % 2 = 0 := hp.even r hlt.ne' hsame.symm
    have hre : r % 2 = 0 := hr.even p hlt.ne hsame
    -- between two even positions lies another, whose magnitude is nearer
    have hbetween : valueAt (p + 1) < valueAt r := strictMono_valueAt (by omega)
    have hlow := (abs_lower_le_iff (strictMono_valueAt (Nat.lt_succ_self p))).1 (hp.least (p + 1))
    have hhigh := (abs_upper_le_iff (strictMono_valueAt hlt)).1 hsame.ge
    linarith
  exact Nat.le_antisymm (Nat.le_of_not_lt (hnot hr hp)) (Nat.le_of_not_lt (hnot hp hr))

/-- Rounding stops at a position where the value lies below the middle of its magnitude and the next one,
or at the middle if the position is even. -/
theorem nearest_le_iff {num den p : ℕ} (hd : 0 < den) : nearest num den ≤ p ↔
    2 * (num / den : ℚ) < valueAt p + valueAt (p + 1) ∨
      2 * (num / den : ℚ) = valueAt p + valueAt (p + 1) ∧ p % 2 = 0 := by
  have hden : (0 : ℚ) < den := Nat.cast_pos.2 hd
  have hsum : valueAt p + valueAt (p + 1) = (unitsAt p + unitsAt (p + 1) : ℕ) / (Nat.pow 2 1074 : ℕ) := by
    rw [valueAt, valueAt, ← add_div, Nat.cast_add]
  have htwice : 2 * (num / den : ℚ) = (2 * num : ℕ) / den := by
    rw [Nat.cast_mul, Nat.cast_ofNat, mul_div_assoc]
  rw [nearest, nearestUnits_le_iff hd, hsum, htwice, div_lt_div_iff₀ hden units_one_pos,
    div_eq_div_iff hden.ne' units_one_pos.ne', ← Nat.mul_assoc]
  generalize Nat.pow 2 1074 = unit, unitsAt p + unitsAt (p + 1) = u, 2 * num = n
  norm_cast

/-- **Rounding gives the nearest magnitude.** -/
theorem isNearest_nearest (num : ℕ) {den : ℕ} (hd : 0 < den) : IsNearest (num / den) (nearest num den) := by
  have hat := (nearest_le_iff hd).1 (le_refl (nearest num den))
  have hbelow : ∀ r, nearest num den = r + 1 →
      ¬ (2 * (num / den : ℚ) < valueAt r + valueAt (r + 1) ∨
        2 * (num / den : ℚ) = valueAt r + valueAt (r + 1) ∧ r % 2 = 0) := by
    intro r hr h
    have hle := (nearest_le_iff hd).2 h
    omega
  generalize nearest num den = p at hat hbelow ⊢
  generalize (num / den : ℚ) = q at hat hbelow ⊢
  -- a magnitude above `p` is at least the next one, one below it at most the one before
  have habove : ∀ r, p < r → 2 * q ≤ valueAt p + valueAt r ∧
      (2 * q = valueAt p + valueAt r → p % 2 = 0) := by
    intro r hr
    have hnext : valueAt (p + 1) ≤ valueAt r := strictMono_valueAt.monotone hr
    rcases hat with hlt | ⟨heq, he⟩
    · exact ⟨by linarith, fun h => by linarith⟩
    · exact ⟨by linarith, fun _ => he⟩
  have hunder : ∀ r, r < p → valueAt r + valueAt p ≤ 2 * q ∧
      (valueAt r + valueAt p = 2 * q → p % 2 = 0) := by
    intro r hr
    obtain ⟨k, rfl⟩ : ∃ k, p = k + 1 := ⟨p - 1, by omega⟩
    have hbefore : valueAt r ≤ valueAt k := strictMono_valueAt.monotone (by omega)
    obtain ⟨hnot, heven⟩ := not_or.1 (hbelow k rfl)
    refine ⟨by linarith [not_lt.1 hnot], fun h => ?_⟩
    have hodd : ¬ k % 2 = 0 := fun hk => heven ⟨by linarith [not_lt.1 hnot], hk⟩
    omega
  constructor
  · intro r
    rcases lt_trichotomy p r with hr | rfl | hr
    · exact (abs_lower_le_iff (strictMono_valueAt hr)).2 (habove r hr).1
    · exact le_refl _
    · exact (abs_upper_le_iff (strictMono_valueAt hr)).2 (hunder r hr).1
  · intro r hne hsame
    rcases Nat.lt_or_gt_of_ne hne with hr | hr
    · exact (hunder r hr).2 (le_antisymm (hunder r hr).1 ((abs_lower_le_iff (strictMono_valueAt hr)).1 hsame.le))
    · exact (habove r hr).2 (le_antisymm (habove r hr).1 ((abs_upper_le_iff (strictMono_valueAt hr)).1 hsame.le))

/-- A value that is not negative has a nearest magnitude. -/
theorem exists_isNearest {q : ℚ} (hq : 0 ≤ q) : ∃ p, IsNearest q p := by
  refine ⟨nearest q.num.natAbs q.den, ?_⟩
  have hnum : ((q.num.natAbs : ℕ) : ℚ) = q.num := by
    rw [Nat.cast_natAbs, abs_of_nonneg (Rat.num_nonneg.2 hq)]
  have h := isNearest_nearest q.num.natAbs q.den_pos
  rwa [hnum, Rat.num_div_den] at h

/-- A value that is far above the finite magnitudes is not nearest to one of them. -/
theorem IsNearest.le_of_large {q : ℚ} {p k : ℕ} (h : IsNearest q p) (hk : 400 ≤ k) (hq : 10 ^ k ≤ q) :
    2047 * Nat.pow 2 52 ≤ p := by
  by_contra hlt
  have hnext : valueAt (p + 1) ≤ valueAt (2047 * Nat.pow 2 52) := strictMono_valueAt.monotone (by omega)
  have hend : valueAt (2047 * Nat.pow 2 52) < 10 ^ k := by
    have hpow : ∀ {j}, j ≤ k → 10 ^ j * Nat.pow 2 1074 ≤ 10 ^ k * Nat.pow 2 1074 :=
      fun h => Nat.mul_le_mul_right _ (Nat.pow_le_pow_right (by decide) h)
    have hunits : unitsAt (2047 * Nat.pow 2 52) < 10 ^ 400 * Nat.pow 2 1074 := by decide +kernel
    have hall := hunits.trans_le (hpow hk)
    rw [valueAt, div_lt_iff₀ units_one_pos]
    exact_mod_cast hall
  have hmiddle := (abs_lower_le_iff (strictMono_valueAt (Nat.lt_succ_self p))).1 (h.least (p + 1))
  have hstep : valueAt p < valueAt (p + 1) := strictMono_valueAt (Nat.lt_succ_self p)
  linarith

/-- A value that is far below the least magnitude but zero is nearest to zero. -/
theorem IsNearest.eq_zero_of_small {q : ℚ} {p k : ℕ} (h : IsNearest q p) (hk : 400 ≤ k) (hq : q * 10 ^ k < 1) :
    p = 0 := by
  by_contra hne
  have hpos : 0 < p := Nat.pos_of_ne_zero hne
  have hleast : valueAt 1 ≤ valueAt p := strictMono_valueAt.monotone hpos
  have hunit : 2 ≤ valueAt 1 * 10 ^ k := by
    have hpow : ∀ {j}, j ≤ k → unitsAt 1 * 10 ^ j ≤ unitsAt 1 * 10 ^ k :=
      fun h => Nat.mul_le_mul_left _ (Nat.pow_le_pow_right (by decide) h)
    have hunits : 2 * Nat.pow 2 1074 ≤ unitsAt 1 * 10 ^ 400 := by decide +kernel
    have hall := hunits.trans (hpow hk)
    rw [valueAt, div_mul_eq_mul_div, le_div_iff₀ units_one_pos]
    exact_mod_cast hall
  have hmiddle := (abs_upper_le_iff (strictMono_valueAt hpos)).1 (h.least 0)
  rw [valueAt_zero, zero_add] at hmiddle
  have hscaled : valueAt 1 * 10 ^ k ≤ 2 * q * 10 ^ k :=
    mul_le_mul_of_nonneg_right (hleast.trans hmiddle) (by positivity)
  linarith

end Magnitude

/-! ### The number of a value -/

namespace Binary

/-- A number is what a value with a sign rounds to. -/
inductive Rounds (negative : Bool) (q : ℚ) : Binary → Prop
  /-- The nearest magnitude is finite. -/
  | finite {m : Magnitude} : Magnitude.IsNearest q m.val → Rounds negative q (.finite negative m)
  /-- The nearest magnitude is above the finite ones. -/
  | infinite {p : ℕ} : Magnitude.IsNearest q p → 2047 * Nat.pow 2 52 ≤ p →
      Rounds negative q (.infinite negative)

/-- A value with a sign rounds to one number. -/
theorem Rounds.unique {negative : Bool} {q : ℚ} {x y : Binary} (hx : Rounds negative q x)
    (hy : Rounds negative q y) : x = y := by
  cases hx with
  | @finite m hm =>
    cases hy with
    | finite hm' => rw [Fin.ext (hm.unique hm')]
    | infinite hp hle => exact absurd (hm.unique hp ▸ m.isLt) (Nat.not_lt.2 hle)
  | infinite hp hle =>
    cases hy with
    | @finite m hm => exact absurd (hm.unique hp ▸ m.isLt) (Nat.not_lt.2 hle)
    | infinite _ _ => rfl

theorem rounds_ofRatio (negative : Bool) (num : ℕ) {den : ℕ} (hd : 0 < den) :
    Rounds negative (num / den) (ofRatio negative num den) := by
  have hnearest := Magnitude.isNearest_nearest num hd
  unfold ofRatio
  dsimp only
  split
  · exact .finite hnearest
  · next h => exact .infinite hnearest (Nat.not_lt.1 h)

/-- **What a ratio rounds to is the number that is given for it.** -/
theorem rounds_iff {negative : Bool} {num den : ℕ} (hd : 0 < den) {x : Binary} :
    Rounds negative (num / den) x ↔ ofRatio negative num den = x :=
  ⟨fun h => (rounds_ofRatio negative num hd).unique h, fun h => h ▸ rounds_ofRatio negative num hd⟩

/-- A finite number is the nearest to an integer. -/
structure IsNearestTo (n : ℤ) (x : Binary) : Prop where
  /-- It is finite. -/
  finite : x.isFinite = true
  /-- It is what the integer rounds to. -/
  rounds : Rounds (n < 0) n.natAbs x

/-- An integer has one nearest number. -/
theorem IsNearestTo.unique {n : ℤ} {x y : Binary} (hx : IsNearestTo n x) (hy : IsNearestTo n y) : x = y :=
  hx.rounds.unique hy.rounds

/-- **An integer is given as the finite number nearest to it.** -/
theorem ofInt?_eq_some_iff {n : ℤ} {x : Binary} : ofInt? n = some x ↔ IsNearestTo n x := by
  have hiff := @rounds_iff (n < 0) n.natAbs 1 Nat.one_pos x
  rw [Nat.cast_one, div_one] at hiff
  rw [ofInt?, Option.guard_eq_some_iff]
  constructor
  · rintro ⟨rfl, hfinite⟩
    exact ⟨hfinite, hiff.2 rfl⟩
  · rintro ⟨hfinite, hrounds⟩
    obtain rfl := hiff.1 hrounds
    exact ⟨rfl, hfinite⟩

/-! ### Numbers that are integers -/

/-- A number is an integer where its magnitude is one and the signs agree. -/
theorem toInt?_finite_eq_some_iff {negative : Bool} {m : Magnitude} {n : ℤ} :
    (finite negative m).toInt? = some n ↔
      m.units = n.natAbs * Nat.pow 2 1074 ∧ n = if negative then -(n.natAbs : ℤ) else n.natAbs := by
  have hread : (finite negative m).toInt? = if m.units % Nat.pow 2 1074 = 0 then
      some (if negative then -((m.units / Nat.pow 2 1074 : ℕ) : ℤ) else (m.units / Nat.pow 2 1074 : ℕ))
      else none := rfl
  have hunit := Nat.cast_pos.1 Magnitude.units_one_pos
  rw [hread]
  generalize Nat.pow 2 1074 = unit at hunit ⊢
  constructor
  · intro h
    split at h
    · next hmod =>
      have hn := (Option.some.inj h).symm
      have habs : n.natAbs = m.units / unit := by
        generalize m.units / unit = k at hn
        split at hn <;> omega
      rw [habs, Nat.div_mul_cancel (Nat.dvd_of_mod_eq_zero hmod)]
      exact ⟨rfl, hn⟩
    · cases h
  · rintro ⟨hunits, hn⟩
    rw [hunits, Nat.mul_mod_left, if_pos rfl, Nat.mul_div_cancel _ hunit, ← hn]

theorem toInt?_eq_zero_iff {x : Binary} : x.toInt? = some 0 ↔ ∃ negative, x = .finite negative Magnitude.zero := by
  constructor
  · intro h
    cases x with
    | finite negative m =>
      obtain ⟨hunits, -⟩ := toInt?_finite_eq_some_iff.1 h
      have hm : m.val = 0 := by
        by_contra hne
        generalize Nat.pow 2 1074 = unit at hunits
        rw [Int.natAbs_zero, Nat.zero_mul] at hunits
        exact (Magnitude.unitsAt_pos (Nat.pos_of_ne_zero hne)).ne' hunits
      exact ⟨negative, congrArg _ (Fin.ext hm)⟩
    | nan => cases h
    | infinite negative => cases h
  · rintro ⟨negative, rfl⟩
    refine toInt?_finite_eq_some_iff.2 ⟨?_, by simp⟩
    generalize Nat.pow 2 1074 = unit
    rw [Int.natAbs_zero, Nat.zero_mul]
    rfl

theorem toInt?_eq_one_iff {x : Binary} : x.toInt? = some 1 ↔ x = .one := by
  have hone : Magnitude.unitsAt (1023 * Nat.pow 2 52) = Nat.pow 2 1074 := by decide +kernel
  constructor
  · intro h
    cases x with
    | finite negative m =>
      obtain ⟨hunits, hsign⟩ := toInt?_finite_eq_some_iff.1 h
      generalize Nat.pow 2 1074 = unit at hunits hone
      rw [Int.natAbs_one, Nat.one_mul] at hunits
      have hm : m.val = 1023 * Nat.pow 2 52 := Magnitude.strictMono_unitsAt.injective (hunits.trans hone.symm)
      cases negative with
      | true => simp at hsign
      | false => exact congrArg _ (Fin.ext hm)
    | nan => cases h
    | infinite negative => cases h
  · rintro rfl
    refine toInt?_finite_eq_some_iff.2 ⟨?_, by simp⟩
    generalize Nat.pow 2 1074 = unit at hone ⊢
    rw [Int.natAbs_one, Nat.one_mul]
    exact hone

/-- The number nearest to an integer is that integer where some number is. -/
theorem toInt?_of_ofInt? {n : ℤ} {x y : Binary} (hx : ofInt? n = some x) (hy : y.toInt? = some n) :
    x.toInt? = some n := by
  cases y with
  | finite negative m =>
    obtain ⟨hunits, -⟩ := toInt?_finite_eq_some_iff.1 hy
    have hnearest : Magnitude.nearest n.natAbs 1 = m.val :=
      Magnitude.nearest_eq Nat.one_pos (hunits.symm.trans (Nat.mul_one _).symm)
    obtain ⟨rfl, -⟩ := Option.guard_eq_some_iff.1 hx
    have hsign : n = if decide (n < 0) then -(n.natAbs : ℤ) else n.natAbs := by
      simp only [decide_eq_true_eq]
      omega
    have hread : ofRatio (n < 0) n.natAbs 1 = finite (n < 0) m := by
      unfold ofRatio
      simp only [hnearest, m.isLt, dif_pos]
    rw [hread]
    exact toInt?_finite_eq_some_iff.2 ⟨hunits, hsign⟩
  | nan => cases hy
  | infinite negative => cases hy

end Binary

/-! ### Numerals -/

namespace Decimal

/-- The value of a numeral without its sign. -/
def value (d : Decimal) : ℚ := d.digits * 10 ^ d.exponent

/-- A numeral of as many digits lies between two powers of ten. -/
theorem value_between (negative : Bool) {n : ℕ} (hn : 0 < n) (e : ℤ) :
    (10 : ℚ) ^ ((digitsOf n).length + e - 1) ≤ value ⟨negative, n, e⟩ ∧
      value ⟨negative, n, e⟩ < (10 : ℚ) ^ ((digitsOf n).length + e) := by
  have hlen : 0 < (digitsOf n).length := List.length_pos_of_ne_nil (digitsOf_ne_nil n)
  have hhigh : n < 10 ^ (digitsOf n).length := (length_digitsOf_le_iff hlen).1 (le_refl _)
  have hlow : 10 ^ ((digitsOf n).length - 1) ≤ n := by
    by_contra hlt
    rcases Nat.eq_zero_or_pos ((digitsOf n).length - 1) with h | h
    · rw [h, Nat.pow_zero] at hlt
      omega
    · have hle := (length_digitsOf_le_iff h).2 (Nat.not_le.1 hlt)
      omega
  generalize (digitsOf n).length = len at hlen hlow hhigh ⊢
  have hpow : (0 : ℚ) < 10 ^ e := by positivity
  have hsplit : (len : ℤ) + e - 1 = (len - 1 : ℕ) + e := by omega
  rw [value, hsplit, zpow_add₀ (by norm_num), zpow_add₀ (by norm_num), zpow_natCast, zpow_natCast]
  exact ⟨mul_le_mul_of_nonneg_right (mod_cast hlow) hpow.le, mul_lt_mul_of_pos_right (mod_cast hhigh) hpow⟩

theorem rounds_nearby (negative : Bool) (n : ℕ) (e : ℤ) :
    Binary.Rounds negative (value ⟨negative, n, e⟩) (nearby negative n e) := by
  unfold nearby value
  simp only [Nat.pow_eq]
  by_cases he : 0 ≤ e
  · obtain ⟨k, rfl⟩ := Int.eq_ofNat_of_zero_le he
    have h := Binary.rounds_ofRatio negative (n * 10 ^ k) Nat.one_pos
    rw [if_pos he]
    simpa using h
  · obtain ⟨k, rfl⟩ : ∃ k : ℕ, e = -k := ⟨(-e).toNat, by omega⟩
    have h := Binary.rounds_ofRatio negative n (Nat.pow_pos (by decide) : 0 < 10 ^ k)
    rw [if_neg he]
    simpa [div_eq_mul_inv] using h

/-- **A numeral is read as the number that its value rounds to**, also where it lies so far off that nothing
is computed. -/
theorem rounds_toBinary (d : Decimal) : Binary.Rounds d.negative d.value d.toBinary := by
  obtain ⟨negative, n, e⟩ := d
  rcases Nat.eq_zero_or_pos n with rfl | hn
  · have hzero : value ⟨negative, 0, e⟩ = 0 := by simp [value]
    rw [toBinary_zero, hzero]
    refine .finite ⟨fun r => ?_, fun _ _ _ => rfl⟩
    simp [Magnitude.zero, Magnitude.valueAt_zero]
  · obtain ⟨hlow, hhigh⟩ := value_between negative hn e
    obtain ⟨p, hp⟩ := Magnitude.exists_isNearest (le_trans (by positivity) hlow)
    rw [toBinary_of_pos negative hn]
    split_ifs with hlarge hsmall
    · obtain ⟨k, hk⟩ : ∃ k : ℕ, (digitsOf n).length + e - 1 = k := ⟨((digitsOf n).length + e - 1).toNat, by omega⟩
      rw [hk, zpow_natCast] at hlow
      exact .infinite hp (hp.le_of_large (by omega) hlow)
    · obtain ⟨k, hk⟩ : ∃ k : ℕ, (digitsOf n).length + e = -k := ⟨(-((digitsOf n).length + e)).toNat, by omega⟩
      rw [hk, zpow_neg, zpow_natCast, ← one_div, lt_div_iff₀ (by positivity)] at hhigh
      obtain rfl := hp.eq_zero_of_small (by omega) hhigh
      exact .finite hp
    · exact rounds_nearby negative n e

theorem toBinary_eq_iff {d : Decimal} {x : Binary} : d.toBinary = x ↔ Binary.Rounds d.negative d.value x :=
  ⟨fun h => h ▸ d.rounds_toBinary, fun h => d.rounds_toBinary.unique h⟩

end Decimal

end ContentGraph
