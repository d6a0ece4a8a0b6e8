import ContentGraph.Number.Shortest
import Mathlib.Data.List.Basic
import Mathlib.Data.List.TakeWhile
import Mathlib.Tactic.Ring

/-!
# Rows of decimal digits

What reading a row of digits gives: the row of a number reads as the number, zeros in front
change nothing, zeros at the end multiply by powers of ten. The row of a positive number
does not begin with a zero. In a text a row ends where no digit follows (`takeWhile_digits`).
-/

namespace ContentGraph

/-! ### The number that a row denotes -/

theorem natOfDigits_eq_ofDigitChars (cs : List Char) : natOfDigits cs = Nat.ofDigitChars 10 cs 0 :=
  rfl

@[simp] theorem natOfDigits_nil : natOfDigits [] = 0 := rfl

@[simp] theorem natOfDigits_zero : natOfDigits ['0'] = 0 := rfl

theorem natOfDigits_append (as bs : List Char) :
    natOfDigits (as ++ bs) = natOfDigits as * 10 ^ bs.length + natOfDigits bs := by
  simp only [natOfDigits_eq_ofDigitChars, Nat.ofDigitChars_append]
  rw [Nat.ofDigitChars_eq_ofDigitChars_zero, Nat.mul_comm]

@[simp] theorem natOfDigits_replicate_zero (n : ℕ) : natOfDigits (List.replicate n '0') = 0 := by
  induction n with
  | zero => rfl
  | succ n ih => rw [List.replicate_succ', natOfDigits_append, ih]; rfl

theorem natOfDigits_zeros_append (n : ℕ) (ds : List Char) :
    natOfDigits (List.replicate n '0' ++ ds) = natOfDigits ds := by
  simp [natOfDigits_append]

theorem natOfDigits_append_zeros (ds : List Char) (n : ℕ) :
    natOfDigits (ds ++ List.replicate n '0') = natOfDigits ds * 10 ^ n := by
  simp [natOfDigits_append]

/-! ### The row of a number -/

@[simp] theorem natOfDigits_digitsOf (n : ℕ) : natOfDigits (digitsOf n) = n := by
  rw [natOfDigits_eq_ofDigitChars]
  exact Nat.ofDigitChars_ten_toDigits

theorem isDigit_of_mem_digitsOf {n : ℕ} {c : Char} (h : c ∈ digitsOf n) : c.isDigit = true :=
  Nat.isDigit_of_mem_toDigits (by decide) (by decide) h

theorem digitsOf_ne_nil (n : ℕ) : digitsOf n ≠ [] := Nat.toDigits_ne_nil

theorem length_digitsOf_le_iff {n k : ℕ} (hk : 0 < k) : (digitsOf n).length ≤ k ↔ n < 10 ^ k :=
  Nat.length_toDigits_le_iff (by decide) hk

/-- One more digit at the end. -/
theorem digitsOf_mul_ten {n : ℕ} (hn : 0 < n) : digitsOf (n * 10) = digitsOf n ++ ['0'] := by
  have h := Nat.toDigits_append_toDigits (b := 10) (n := n) (d := 0) (by decide) hn (by decide)
  rw [Nat.toDigits_zero, Nat.add_zero, Nat.mul_comm] at h
  exact h.symm

theorem length_digitsOf_mul_pow {n : ℕ} (hn : 0 < n) (k : ℕ) :
    (digitsOf (n * 10 ^ k)).length = (digitsOf n).length + k := by
  induction k with
  | zero => simp
  | succ k ih =>
    rw [Nat.pow_succ, ← Nat.mul_assoc, digitsOf_mul_ten (Nat.mul_pos hn (Nat.pow_pos (by decide))),
      List.length_append, ih]
    rfl

/-- The row of a positive number does not begin with a zero. -/
theorem head?_digitsOf_ne_zero {n : ℕ} (hn : 0 < n) : (digitsOf n).head? ≠ some '0' := by
  induction n using Nat.strong_induction_on with
  | _ n ih =>
    unfold digitsOf
    rw [Nat.toDigits_eq_if (by decide)]
    split
    · next h =>
      rw [List.head?_cons]
      intro e
      have hc := congrArg Char.toNat (Option.some.inj e)
      rw [Nat.toNat_digitChar_of_lt_ten h] at hc
      simp at hc
      omega
    · next h =>
      have hi := ih (n / 10) (by omega) (by omega)
      unfold digitsOf at hi
      rw [List.head?_append_of_ne_nil _ Nat.toDigits_ne_nil]
      exact hi

/-! ### Zeros at the end -/

/-- A row is its trimmed row and some zeros. -/
theorem exists_trimmed_append (ds : List Char) :
    ∃ z, ds = Layout.trimmed ds ++ List.replicate z '0' := by
  refine ⟨(ds.reverse.takeWhile (· = '0')).length, ?_⟩
  have hz : ds.reverse.takeWhile (· = '0')
      = List.replicate (ds.reverse.takeWhile (· = '0')).length '0' := by
    refine List.eq_replicate_of_mem fun c hc => ?_
    simpa using List.mem_takeWhile_imp hc
  have h := congrArg List.reverse (List.takeWhile_append_dropWhile (p := (· = '0')) (l := ds.reverse))
  rw [List.reverse_reverse, List.reverse_append] at h
  rw [hz, List.reverse_replicate] at h
  exact h.symm

theorem mem_of_mem_trimmed {ds : List Char} {c : Char} (h : c ∈ Layout.trimmed ds) : c ∈ ds := by
  obtain ⟨z, hz⟩ := exists_trimmed_append ds
  rw [hz]
  exact List.mem_append_left _ h

/-! ### Rows of digits in a text -/

/-- Every character is a digit. -/
def AllDigits (ds : List Char) : Prop := ∀ c ∈ ds, c.isDigit = true

/-- What follows a row of digits does not begin with one. -/
def NoDigit (r : List Char) : Prop := ∀ c ∈ r.head?, c.isDigit = false

theorem noDigit_cons {c : Char} {r : List Char} (h : c.isDigit = false) : NoDigit (c :: r) := by
  intro d hd
  rw [List.head?_cons] at hd
  cases hd
  exact h

theorem allDigits_digitsOf (n : ℕ) : AllDigits (digitsOf n) := fun _ => isDigit_of_mem_digitsOf

theorem AllDigits.append {as bs : List Char} (ha : AllDigits as) (hb : AllDigits bs) :
    AllDigits (as ++ bs) := fun c hc => (List.mem_append.1 hc).elim (ha c) (hb c)

theorem allDigits_zeros (n : ℕ) : AllDigits (List.replicate n '0') := by
  intro c hc
  rw [List.eq_of_mem_replicate hc]
  rfl

theorem takeWhile_digits {ds r : List Char} (hd : AllDigits ds) (hr : NoDigit r) :
    (ds ++ r).takeWhile Char.isDigit = ds := by
  rw [List.takeWhile_append_of_pos hd]
  cases r with
  | nil => simp
  | cons c r => simp [hr c rfl]

theorem dropWhile_digits {ds r : List Char} (hd : AllDigits ds) (hr : NoDigit r) :
    (ds ++ r).dropWhile Char.isDigit = r := by
  rw [List.dropWhile_append_of_pos hd]
  cases r with
  | nil => rfl
  | cons c r => simp [hr c rfl]

/-- A text is a row of digits and what follows it. -/
theorem exists_digits (cs : List Char) : ∃ ds r, cs = ds ++ r ∧ AllDigits ds ∧ NoDigit r := by
  refine ⟨cs.takeWhile Char.isDigit, cs.dropWhile Char.isDigit, List.takeWhile_append_dropWhile.symm,
    fun c hc => List.mem_takeWhile_imp hc, fun c hc => ?_⟩
  have h := List.head?_dropWhile_not Char.isDigit cs
  rw [Option.mem_def.1 hc] at h
  exact h

end ContentGraph
