import ContentGraph.Proofs.Number.Digits
import Mathlib.Data.Nat.Log

/-!
# Rounding to 64-bit numbers

A finite magnitude is its position, so rounding is exact where the given ratio is the
magnitude at some position (`nearest_eq`), and it depends on the value of a numeral alone
(`toBinary_mul_pow`). Both are what makes a written number read as itself.

A ratio between two positions goes to the nearer one (`nearestUnits_le_iff`), so that a number fits
the integers below the middle of the greatest finite magnitude and the one that would follow it
(`exists_ofInt?_iff`).
-/

namespace ContentGraph

namespace Magnitude

/-! ### Positions and units -/

theorem unitsAt_of_lt {p : ℕ} (h : p < 2 ^ 52) : unitsAt p = p := by
  unfold unitsAt
  rw [if_pos (by simpa using h)]

/-- The position `r` of the stretch whose spacing is `2 ^ k`; the last one begins the next stretch. -/
theorem unitsAt_stretch {k r : ℕ} (hr : r ≤ 2 ^ 52) :
    unitsAt ((k + 1) * 2 ^ 52 + r) = (2 ^ 52 + r) * 2 ^ k := by
  have hwithin : ∀ {k r : ℕ}, r < 2 ^ 52 → unitsAt ((k + 1) * 2 ^ 52 + r) = (2 ^ 52 + r) * 2 ^ k := by
    intro k r hr
    have hd : ((k + 1) * 2 ^ 52 + r) / 2 ^ 52 = k + 1 := by omega
    have hm : ((k + 1) * 2 ^ 52 + r) % 2 ^ 52 = r := by omega
    unfold unitsAt
    simp only [Nat.pow_eq, hd, hm]
    rw [if_neg (by omega), Nat.add_sub_cancel]
  rcases Nat.lt_or_eq_of_le hr with hr | rfl
  · exact hwithin hr
  · rw [show (k + 1) * 2 ^ 52 + 2 ^ 52 = (k + 1 + 1) * 2 ^ 52 + 0 by omega, hwithin (by decide)]
    ring

/-- A position lies in the first stretch or at some place of another. -/
theorem position_cases (p : ℕ) :
    p < 2 ^ 52 ∨ ∃ k r, r < 2 ^ 52 ∧ p = (k + 1) * 2 ^ 52 + r := by
  by_cases h : p < 2 ^ 52
  · exact .inl h
  · exact .inr ⟨p / 2 ^ 52 - 1, p % 2 ^ 52, Nat.mod_lt _ (by decide), by omega⟩

/-- As many units as there are positions up to the end of the second stretch. -/
theorem unitsAt_self {u : ℕ} (h : u < 2 ^ 53) : unitsAt u = u := by
  by_cases hu : u < 2 ^ 52
  · exact unitsAt_of_lt hu
  · obtain ⟨r, rfl⟩ : ∃ r, u = (0 + 1) * 2 ^ 52 + r := ⟨u - 2 ^ 52, by omega⟩
    rw [unitsAt_stretch (by omega), Nat.pow_zero]
    omega

theorem unitsAt_lt_succ (p : ℕ) : unitsAt p < unitsAt (p + 1) := by
  rcases position_cases p with h | ⟨k, r, hr, rfl⟩
  · rw [unitsAt_self (by omega), unitsAt_self (by omega)]
    exact Nat.lt_succ_self p
  · rw [Nat.add_assoc, unitsAt_stretch hr.le, unitsAt_stretch hr]
    exact Nat.mul_lt_mul_of_pos_right (by omega) (Nat.pow_pos (by decide))

theorem strictMono_unitsAt : StrictMono unitsAt := strictMono_nat_of_lt_succ unitsAt_lt_succ

theorem unitsAt_pos {p : ℕ} (h : 0 < p) : 0 < unitsAt p := by
  obtain ⟨q, rfl⟩ : ∃ q, p = q + 1 := ⟨p - 1, by omega⟩
  exact Nat.lt_of_le_of_lt (Nat.zero_le _) (unitsAt_lt_succ q)

/-- Units lie between the magnitude at the position below them and the next one. -/
theorem units_between (u : ℕ) :
    unitsAt (positionBelow u) ≤ u ∧ u < unitsAt (positionBelow u + 1) := by
  unfold positionBelow
  simp only [Nat.pow_eq]
  rcases Nat.lt_or_ge u (2 ^ 53) with h | h
  · have hs : u.log2 - 52 = 0 := by
      rw [Nat.sub_eq_zero_iff_le, ← Nat.lt_succ_iff]
      by_cases hu : u = 0
      · subst hu
        decide
      · exact (Nat.log2_lt hu).2 h
    rw [hs, Nat.zero_mul, Nat.zero_add, Nat.pow_zero, Nat.div_one]
    have hself := unitsAt_self h
    exact ⟨hself.le, hself.symm.trans_lt (unitsAt_lt_succ u)⟩
  · obtain ⟨k, hk⟩ : ∃ k, u.log2 = 52 + (k + 1) :=
      ⟨u.log2 - 53, by have := (Nat.le_log2 (by omega)).2 h; omega⟩
    have hpos : 0 < 2 ^ (k + 1) := Nat.pow_pos (by decide)
    obtain ⟨hlow, hhigh⟩ := (Nat.log2_eq_iff (by omega)).1 hk
    obtain ⟨r, hr⟩ : ∃ r, u / 2 ^ (k + 1) = 2 ^ 52 + r :=
      Nat.exists_eq_add_of_le ((Nat.le_div_iff_mul_le hpos).2 (by rwa [← Nat.pow_add]))
    have hlt : u / 2 ^ (k + 1) < 2 ^ 53 :=
      (Nat.div_lt_iff_lt_mul hpos).2 (by rwa [← Nat.pow_add, show 53 + (k + 1) = 52 + (k + 1) + 1 by omega])
    rw [hr] at hlt
    have hp : (k + 1) * 2 ^ 52 + (2 ^ 52 + r) = (k + 1 + 1) * 2 ^ 52 + r := by omega
    rw [hk, Nat.add_sub_cancel_left, hr, hp, Nat.add_assoc _ r 1, unitsAt_stretch (by omega),
      unitsAt_stretch (by omega), ← Nat.add_assoc, ← hr]
    exact ⟨Nat.div_mul_le_self _ _, Nat.lt_mul_of_div_lt (Nat.lt_succ_self _) hpos⟩

theorem positionBelow_unitsAt (p : ℕ) : positionBelow (unitsAt p) = p := by
  obtain ⟨hlow, hhigh⟩ := units_between (unitsAt p)
  exact Nat.le_antisymm (strictMono_unitsAt.le_iff_le.1 hlow)
    (Nat.le_of_lt_succ (strictMono_unitsAt.lt_iff_lt.1 hhigh))

/-! ### The nearest position -/

/-- A ratio that is the magnitude at a position is rounded to that position. -/
theorem nearest_eq {num den p : ℕ} (hd : 0 < den) (h : num * Nat.pow 2 1074 = unitsAt p * den) :
    nearest num den = p := by
  have hlt : 2 * (unitsAt p * den) < (unitsAt p + unitsAt (p + 1)) * den := by
    rw [← Nat.mul_assoc]
    refine Nat.mul_lt_mul_of_pos_right ?_ hd
    have := unitsAt_lt_succ p
    omega
  rw [nearest, h]
  unfold nearestUnits
  simp only [Nat.mul_div_cancel _ hd, positionBelow_unitsAt]
  rw [if_pos hlt]

/-- A ratio is rounded to a position or one before it where it lies below the middle of that position
and the next, or at the middle if the position is even. -/
theorem nearestUnits_le_iff {num den p : ℕ} (hd : 0 < den) : nearestUnits num den ≤ p ↔
    2 * num < (unitsAt p + unitsAt (p + 1)) * den ∨
      2 * num = (unitsAt p + unitsAt (p + 1)) * den ∧ p % 2 = 0 := by
  obtain ⟨hlow, hhigh⟩ := units_between (num / den)
  rw [Nat.le_div_iff_mul_le hd] at hlow
  rw [Nat.div_lt_iff_lt_mul hd] at hhigh
  unfold nearestUnits
  dsimp only
  generalize positionBelow (num / den) = low at *
  have hmono : ∀ {a b : ℕ}, a ≤ b → unitsAt a * den ≤ unitsAt b * den := fun h =>
    Nat.mul_le_mul_right _ (strictMono_unitsAt.monotone h)
  have hnext : unitsAt p * den < unitsAt (p + 1) * den := Nat.mul_lt_mul_of_pos_right (unitsAt_lt_succ p) hd
  rw [Nat.add_mul, Nat.add_mul]
  rcases Nat.lt_trichotomy low p with h | rfl | h
  · have hle := hmono (show low + 1 ≤ p from h)
    constructor
    · intro _
      omega
    · intro _
      split_ifs <;> omega
  · split_ifs <;> omega
  · have hle := hmono (show p + 1 ≤ low from h)
    constructor
    · split_ifs <;> omega
    · omega

theorem nearestUnits_mul_right (num den : ℕ) {k : ℕ} (hk : 0 < k) :
    nearestUnits (num * k) (den * k) = nearestUnits num den := by
  unfold nearestUnits
  simp only [Nat.mul_div_mul_right _ _ hk, ← Nat.mul_assoc, Nat.mul_lt_mul_right hk,
    Nat.mul_left_inj hk.ne']

/-- Rounding depends on the ratio alone. -/
theorem nearest_mul_right (num den : ℕ) {k : ℕ} (hk : 0 < k) :
    nearest (num * k) (den * k) = nearest num den := by
  rw [nearest, nearest, Nat.mul_right_comm, nearestUnits_mul_right _ _ hk]

end Magnitude

/-! ### Numbers -/

namespace Binary

theorem isFinite_ofRatio {negative : Bool} {num den : ℕ} :
    (ofRatio negative num den).isFinite ↔ Magnitude.nearest num den < 2047 * Nat.pow 2 52 := by
  unfold ofRatio
  dsimp only
  split
  · next h => exact ⟨fun _ => h, fun _ => rfl⟩
  · next h => exact iff_of_false Bool.false_ne_true h

/-- A number fits an integer: it lies below the middle of the greatest finite magnitude and the one
that would follow it. -/
structure Fits (n : ℤ) : Prop where
  /-- The greatest finite magnitude is `2 ^ 1024 - 2 ^ 971`. -/
  below : n.natAbs < 2 ^ 1024 - 2 ^ 970

instance (n : ℤ) : Decidable (Fits n) := decidable_of_iff _ ⟨Fits.mk, Fits.below⟩

/-- The integers that have a nearest number are those that one fits. -/
theorem exists_ofInt?_iff {n : ℤ} : (∃ x, ofInt? n = some x) ↔ Fits n := by
  have hlast : 2047 * Nat.pow 2 52 = (2045 + 1) * 2 ^ 52 + (2 ^ 52 - 1) + 1 := by decide
  have hmiddle : Magnitude.unitsAt ((2045 + 1) * 2 ^ 52 + (2 ^ 52 - 1)) +
      Magnitude.unitsAt ((2045 + 1) * 2 ^ 52 + (2 ^ 52 - 1) + 1) = 2 * (2 ^ 1024 - 2 ^ 970) * Nat.pow 2 1074 := by
    decide +kernel
  have hguard : (∃ x, ofInt? n = some x) ↔ (ofRatio (n < 0) n.natAbs 1).isFinite := by
    simp only [ofInt?, Option.guard_eq_some_iff, exists_eq_left']
  have hpow : ∀ k, 0 < Nat.pow 2 k := fun k => Nat.pow_pos (by decide)
  have hodd : ((2045 + 1) * 2 ^ 52 + (2 ^ 52 - 1)) % 2 ≠ 0 := by decide
  have hfits : Fits n ↔ n.natAbs < 2 ^ 1024 - 2 ^ 970 := ⟨Fits.below, Fits.mk⟩
  rw [hguard, hfits, isFinite_ofRatio, hlast, Nat.lt_succ_iff, Magnitude.nearest,
    Magnitude.nearestUnits_le_iff Nat.one_pos, or_iff_left fun h => hodd h.2, Nat.mul_one, hmiddle,
    ← Nat.mul_assoc, Nat.mul_lt_mul_right (hpow 1074), Nat.mul_lt_mul_left (by decide)]

theorem isSome_ofInt?_iff {n : ℤ} : (ofInt? n).isSome = true ↔ Fits n := by
  rw [Option.isSome_iff_exists, exists_ofInt?_iff]

theorem ofRatio_mul_right (negative : Bool) (num den : ℕ) {k : ℕ} (hk : 0 < k) :
    ofRatio negative (num * k) (den * k) = ofRatio negative num den := by
  unfold ofRatio
  simp only [Magnitude.nearest_mul_right num den hk]

theorem ofRatio_sign {num den : ℕ} {m : Magnitude}
    (h : ofRatio false num den = .finite false m) (negative : Bool) :
    ofRatio negative num den = .finite negative m := by
  unfold ofRatio at h ⊢
  dsimp only at h ⊢
  split at h
  · next hp =>
    cases h
    rw [dif_pos hp]
  · cases h

end Binary

/-! ### Numerals -/

namespace Decimal

/-- The number nearest to `digits * 10 ^ exponent`, where it is known to be in reach. -/
def nearby (negative : Bool) (digits : ℕ) (exponent : ℤ) : Binary :=
  if 0 ≤ exponent then .ofRatio negative (digits * Nat.pow 10 exponent.toNat) 1
  else .ofRatio negative digits (Nat.pow 10 (-exponent).toNat)

theorem nearby_mul_pow (negative : Bool) (d k : ℕ) (e : ℤ) :
    nearby negative (d * 10 ^ k) e = nearby negative d (e + k) := by
  unfold nearby
  simp only [Nat.pow_eq]
  by_cases he : 0 ≤ e
  · rw [if_pos he, if_pos (by omega), Nat.mul_assoc, ← Nat.pow_add]
    congr 3
    omega
  · rw [if_neg he]
    by_cases hk : 0 ≤ e + k
    · have hs : k = (e + k).toNat + (-e).toNat := by omega
      rw [if_pos hk]
      nth_rewrite 1 [hs]
      rw [Nat.pow_add, ← Nat.mul_assoc]
      have h := Binary.ofRatio_mul_right negative (d * 10 ^ (e + k).toNat) 1
        (k := 10 ^ (-e).toNat) (Nat.pow_pos (by decide))
      rwa [Nat.one_mul] at h
    · have hs : (-e).toNat = (-(e + k)).toNat + k := by omega
      rw [if_neg hk, hs, Nat.pow_add]
      exact Binary.ofRatio_mul_right negative d (10 ^ (-(e + k)).toNat) (Nat.pow_pos (by decide))

theorem toBinary_of_pos (negative : Bool) {d : ℕ} (hd : 0 < d) (e : ℤ) :
    toBinary ⟨negative, d, e⟩ =
      if 400 < ((digitsOf d).length : ℤ) + e then .infinite negative
      else if ((digitsOf d).length : ℤ) + e < -400 then .finite negative Magnitude.zero
      else nearby negative d e := by
  unfold toBinary nearby
  simp only [hd.ne', if_false]

/-- **A numeral is read by its value**: zeros at the end of its digits count as powers of ten. -/
theorem toBinary_mul_pow (negative : Bool) {d : ℕ} (hd : 0 < d) (k : ℕ) (e : ℤ) :
    toBinary ⟨negative, d * 10 ^ k, e⟩ = toBinary ⟨negative, d, e + k⟩ := by
  have hp : 0 < d * 10 ^ k := Nat.mul_pos hd (Nat.pow_pos (by decide))
  have hs : ((digitsOf (d * 10 ^ k)).length : ℤ) + e = (digitsOf d).length + (e + k) := by
    rw [length_digitsOf_mul_pow hd]
    push_cast
    ring
  rw [toBinary_of_pos _ hp, toBinary_of_pos _ hd, hs, nearby_mul_pow]

theorem toBinary_zero (negative : Bool) (e : ℤ) :
    toBinary ⟨negative, 0, e⟩ = .finite negative Magnitude.zero := by
  unfold toBinary
  simp

/-- The sign of a numeral is the sign of the number. -/
theorem toBinary_sign {d : ℕ} {e : ℤ} {m : Magnitude}
    (h : toBinary ⟨false, d, e⟩ = .finite false m) (negative : Bool) :
    toBinary ⟨negative, d, e⟩ = .finite negative m := by
  rcases Nat.eq_zero_or_pos d with rfl | hd
  · rw [toBinary_zero] at h ⊢
    cases h
    rfl
  · rw [toBinary_of_pos _ hd] at h ⊢
    split_ifs at h ⊢ with h₁ h₂
    · cases h
      rfl
    · unfold nearby at h ⊢
      split_ifs at h ⊢ with h₃
      · exact Binary.ofRatio_sign h negative
      · exact Binary.ofRatio_sign h negative

end Decimal

end ContentGraph
