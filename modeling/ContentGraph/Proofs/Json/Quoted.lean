import ContentGraph.Json.Printer
import ContentGraph.Json.Reader
import Mathlib.Data.List.Basic

/-!
# Quoted texts

A text between quotes is read as itself: every character is escaped in a form that the reader
undoes (`readQuoted_escape`), and no character of a text is half of another (`joinHalves_toNat`).
-/

namespace ContentGraph.Json

/-- The four digits of a control character. -/
theorem hexNumber?_control {n : ℕ} (h : n < 32) :
    hexNumber? ['0', '0', hexDigit (n / 16), hexDigit (n % 16)] = some n := by
  revert n
  decide

/-- The reader undoes the escape of one character. -/
theorem readQuoted_escape (c : Char) (cs : List Char) :
    readQuoted (escape c ++ cs) = (readQuoted cs).map fun (ns, r) => (c.toNat :: ns, r) := by
  unfold escape
  split
  · next h => subst h; simp [readQuoted, unescape?]
  split
  · next h => subst h; simp [readQuoted, unescape?]
  split
  · next h => subst h; simp [readQuoted, unescape?]
  split
  · next h => subst h; simp [readQuoted, unescape?]
  split
  · next h => subst h; simp [readQuoted, unescape?]
  split
  · next h => subst h; simp [readQuoted, unescape?]
  split
  · next h => subst h; simp [readQuoted, unescape?]
  split
  · next h => simp [readQuoted, hexNumber?_control h]
  · next hq hb _ _ _ _ _ hc =>
    rw [List.cons_append, List.nil_append, readQuoted.eq_def]
    split
    · next e => cases e
    · next e => exact absurd (List.cons.inj e).1 hq
    · next e => exact absurd (List.cons.inj e).1 hb
    · next e => exact absurd (List.cons.inj e).1 hb
    · next e =>
      obtain ⟨rfl, rfl⟩ := List.cons.inj e
      rw [if_neg (not_or.2 ⟨hb, hc⟩)]

/-- The characters of a text are read up to its closing quote. -/
theorem readQuoted_flatMap_escape (cs r : List Char) :
    readQuoted (cs.flatMap escape ++ '\x22' :: r) = some (cs.map Char.toNat, r) := by
  induction cs with
  | nil => simp [readQuoted]
  | cons c cs ih => rw [List.flatMap_cons, List.append_assoc, readQuoted_escape, ih]; rfl

/-- No character is a half. -/
theorem not_half (c : Char) : ¬ (0xD800 ≤ c.toNat ∧ c.toNat < 0xDC00) := by
  have h := c.valid
  simp only [UInt32.isValidChar, Nat.isValidChar] at h
  have : c.toNat = c.val.toNat := rfl
  omega

theorem joinHalves_toNat (cs : List Char) : joinHalves (cs.map Char.toNat) = cs := by
  have h : (cs.map Char.toNat).foldr joinHalf [] = cs.map Char.toNat := by
    induction cs with
    | nil => rfl
    | cons c cs ih =>
      rw [List.map_cons, List.foldr_cons, ih]
      cases cs with
      | nil => rfl
      | cons d ds =>
        simp only [List.map_cons, joinHalf]
        rw [if_neg fun hc => not_half c ⟨hc.1, hc.2.1⟩]
  rw [joinHalves, h, List.map_map]
  exact (List.map_congr_left fun c _ => Char.ofNat_toNat c).trans (List.map_id _)

/-- **A quoted text is read as itself**, and what follows it is left. -/
theorem readText_quoted (s : String) (r : List Char) :
    readText (s.toList.flatMap escape ++ '\x22' :: r) = some (s, r) := by
  rw [readText, readQuoted_flatMap_escape]
  simp [joinHalves_toNat]

end ContentGraph.Json
