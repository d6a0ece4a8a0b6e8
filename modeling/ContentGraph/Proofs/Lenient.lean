import ContentGraph.Lenient
import ContentGraph.Proofs.Checked
import ContentGraph.Proofs.Number.Nearest
import Mathlib.Data.String.Basic

/-!
# What is read leniently

The numbers and truth values that wire objects denote, declared apart from their readers. A numeral is a sign
and the name of a number without digits, or a sign, digits with at most one point, and a power of ten; its
number is the nearest to its value (`Numeral`). A text is a numeral between blanks, or one with single
underscores between its characters (`NumeralText`). A truth value is one of a few words (`truthWords`).

Each reader gives what is declared and nothing else (`numberOfText?_eq_some_iff`, `boolOfText?_eq_some_iff`),
and so do the readings of JSON values (`Json.asNumber_eq_ok_iff`, `Json.asBool_eq_ok_iff`).
-/

namespace ContentGraph

/-! ### Signs -/

/-- A sign, and whether it is a minus. -/
inductive Sign : Bool → List Char → Prop
  /-- No sign. -/
  | absent : Sign false []
  /-- A plus. -/
  | plus : Sign false ['+']
  /-- A minus. -/
  | minus : Sign true ['-']

/-- A text that does not begin with a sign. -/
def NoSign (cs : List Char) : Prop := ∀ c ∈ cs.head?, c ≠ '-' ∧ c ≠ '+'

theorem noSign_cons {c : Char} {cs : List Char} (hm : c ≠ '-') (hp : c ≠ '+') : NoSign (c :: cs) := by
  rintro d hd
  cases hd
  exact ⟨hm, hp⟩

theorem noSign_digits {ds r : List Char} (hd : AllDigits ds) (hne : ds ≠ []) : NoSign (ds ++ r) := by
  cases ds with
  | nil => exact absurd rfl hne
  | cons d ds =>
    have hdigit := hd d List.mem_cons_self
    refine noSign_cons ?_ ?_ <;> rintro rfl <;> exact absurd hdigit (by decide)

theorem unsigned_append {negative : Bool} {sign cs : List Char} (hs : Sign negative sign) (hn : NoSign cs) :
    unsigned (sign ++ cs) = (negative, cs) := by
  cases hs with
  | plus => rfl
  | minus => rfl
  | absent =>
    rw [List.nil_append]
    unfold unsigned
    split
    · exact absurd rfl (hn '-' rfl).1
    · exact absurd rfl (hn '+' rfl).2
    · rfl

/-- A text is a sign and what follows it. -/
theorem exists_sign (cs : List Char) :
    ∃ negative sign body, cs = sign ++ body ∧ Sign negative sign ∧ unsigned cs = (negative, body) := by
  unfold unsigned
  split
  · exact ⟨true, ['-'], _, rfl, .minus, rfl⟩
  · exact ⟨false, ['+'], _, rfl, .plus, rfl⟩
  · exact ⟨false, [], _, rfl, .absent, rfl⟩

/-! ### Powers of ten -/

/-- A sign and digits denote an integer. -/
inductive SignedDigits : List Char → ℤ → Prop
  /-- The digits denote it without its sign. -/
  | intro {negative : Bool} {sign ds : List Char} : Sign negative sign → AllDigits ds → ds ≠ [] →
      SignedDigits (sign ++ ds) (if negative then -(Nat.ofDigitChars 10 ds 0 : ℤ) else Nat.ofDigitChars 10 ds 0)

theorem readSigned_eq (cs : List Char) : readSigned cs =
    if (unsigned cs).2.takeWhile Char.isDigit = [] then none
    else some (if (unsigned cs).1 then -(natOfDigits ((unsigned cs).2.takeWhile Char.isDigit) : ℤ)
        else natOfDigits ((unsigned cs).2.takeWhile Char.isDigit),
      (unsigned cs).2.dropWhile Char.isDigit) := by
  unfold readSigned
  split
  next negative body hu =>
    rw [show unsigned cs = (negative, body) from hu]
    generalize body.takeWhile Char.isDigit = ds
    cases ds <;> rfl

theorem readSigned_eq_some_iff {cs : List Char} {e : ℤ} : readSigned cs = some (e, []) ↔ SignedDigits cs e := by
  constructor
  · intro h
    obtain ⟨negative, sign, body, rfl, hs, hu⟩ := exists_sign cs
    obtain ⟨ds, r, rfl, hd, hr⟩ := exists_digits body
    rw [readSigned_eq, hu] at h
    simp only [takeWhile_digits hd hr, dropWhile_digits hd hr] at h
    split at h
    · cases h
    · next hne =>
      cases h
      rw [List.append_nil]
      exact .intro hs hd hne
  · rintro ⟨hs, hd, hne⟩
    have hn := noSign_digits (r := []) hd hne
    rw [List.append_nil] at hn
    have htake := takeWhile_digits (r := []) hd (by simp [NoDigit])
    have hdrop := dropWhile_digits (r := []) hd (by simp [NoDigit])
    rw [List.append_nil] at htake hdrop
    simp only [readSigned_eq, unsigned_append hs hn, htake, hdrop, if_neg hne]
    rfl

/-- What may follow digits, and the power of ten that it denotes. -/
inductive PowerText : List Char → ℤ → Prop
  /-- Nothing. -/
  | absent : PowerText [] 0
  /-- A letter and an integer. -/
  | written {c : Char} {cs : List Char} {e : ℤ} : c = 'e' ∨ c = 'E' → SignedDigits cs e → PowerText (c :: cs) e

theorem readExponent_eq_some_iff {cs : List Char} {e : ℤ} (hne : cs ≠ []) :
    readExponent cs = some (e, []) ↔ PowerText cs e := by
  constructor
  · intro h
    unfold readExponent at h
    split at h
    · exact .written (.inl rfl) (readSigned_eq_some_iff.1 h)
    · exact .written (.inr rfl) (readSigned_eq_some_iff.1 h)
    · cases h
  · intro h
    cases h with
    | absent => exact absurd rfl hne
    | written hc hs => rcases hc with rfl | rfl <;> exact readSigned_eq_some_iff.2 hs

theorem PowerText.noDigit {cs : List Char} {e : ℤ} (h : PowerText cs e) : NoDigit cs := by
  cases h with
  | absent => simp [NoDigit]
  | written hc _ => rcases hc with rfl | rfl <;> exact noDigit_cons (by decide)

theorem PowerText.head?_ne {cs : List Char} {e : ℤ} (h : PowerText cs e) : cs.head? ≠ some '.' := by
  cases h with
  | absent => simp
  | written hc _ => rcases hc with rfl | rfl <;> simp

/-! ### Decimal numerals -/

/-- What may follow the digits of whole ones, and the digits of the fraction. -/
inductive PointText : List Char → List Char → Prop
  /-- Nothing. -/
  | absent : PointText [] []
  /-- A point, and perhaps digits. -/
  | written {ds : List Char} : AllDigits ds → PointText ('.' :: ds) ds

/-- A decimal numeral without its sign denotes a number: the one nearest to its value. -/
inductive DecimalText (negative : Bool) : List Char → Binary → Prop
  /-- There are digits before the point or after it, and a power of ten may follow. -/
  | intro {whole point fraction power : List Char} {e : ℤ} {x : Binary} : AllDigits whole →
      PointText point fraction → ¬ (whole = [] ∧ fraction = []) → PowerText power e →
      Binary.Rounds negative (Nat.ofDigitChars 10 (whole ++ fraction) 0 * 10 ^ (e - fraction.length)) x →
      DecimalText negative (whole ++ (point ++ power)) x

/-- The digits of whole ones are followed by a point and a fraction, or by neither, and by something else. -/
theorem exists_point (r : List Char) (hr : NoDigit r) : ∃ point fraction rest, r = point ++ rest ∧
    PointText point fraction ∧ NoDigit rest ∧ (point = [] → rest.head? ≠ some '.') := by
  by_cases hp : r.head? = some '.'
  · obtain ⟨r', rfl⟩ : ∃ r', r = '.' :: r' := by
      cases r with
      | nil => cases hp
      | cons c r' =>
        cases hp
        exact ⟨r', rfl⟩
    obtain ⟨fs, rest, rfl, hf, hrest⟩ := exists_digits r'
    exact ⟨'.' :: fs, fs, rest, rfl, .written hf, hrest, fun h => nomatch h⟩
  · exact ⟨[], [], r, rfl, .absent, hr, fun _ => hp⟩

theorem PointText.noDigit {point fraction rest : List Char} (h : PointText point fraction) (hr : NoDigit rest) :
    NoDigit (point ++ rest) := by
  cases h with
  | absent => exact hr
  | written _ => exact noDigit_cons (by decide)

theorem fractionOf_append {point fraction rest : List Char} (hp : PointText point fraction) (hr : NoDigit rest)
    (hno : point = [] → rest.head? ≠ some '.') : fractionOf (point ++ rest) = (fraction, rest) := by
  cases hp with
  | written hf => rw [List.cons_append, fractionOf, takeWhile_digits hf hr, dropWhile_digits hf hr]
  | absent =>
    rw [List.nil_append]
    unfold fractionOf
    split
    · exact absurd rfl (hno rfl)
    · rfl

theorem rounds_ofParts_iff {negative : Bool} {whole fraction : List Char} {e : ℤ} {x : Binary} :
    (Decimal.ofParts negative whole fraction e).toBinary = x ↔
      Binary.Rounds negative (Nat.ofDigitChars 10 (whole ++ fraction) 0 * 10 ^ (e - fraction.length)) x :=
  Decimal.toBinary_eq_iff

/-- **A decimal numeral is read as the number nearest to its value.** -/
theorem decimal?_eq_some_iff {negative : Bool} {cs : List Char} {x : Binary} :
    decimal? negative cs = some x ↔ DecimalText negative cs x := by
  constructor
  · intro h
    obtain ⟨whole, r, rfl, hw, hr⟩ := exists_digits cs
    obtain ⟨point, fraction, rest, rfl, hp, hrest, hno⟩ := exists_point r hr
    simp only [decimal?, takeWhile_digits hw hr, dropWhile_digits hw hr, fractionOf_append hp hrest hno] at h
    split at h
    · cases h
    · next hdigits =>
      split at h
      · next hnil =>
        subst hnil
        exact .intro hw hp hdigits .absent (rounds_ofParts_iff.1 (Option.some.inj h))
      · next hne =>
        split at h
        · next e he =>
          have hpower := (readExponent_eq_some_iff hne).1 he
          exact .intro hw hp hdigits hpower (rounds_ofParts_iff.1 (Option.some.inj h))
        · cases h
  · rintro ⟨hw, hp, hdigits, hpower, hx⟩
    have hn := hp.noDigit hpower.noDigit
    simp only [decimal?, takeWhile_digits hw hn, dropWhile_digits hw hn,
      fractionOf_append hp hpower.noDigit fun _ => hpower.head?_ne, if_neg hdigits]
    split
    · next hnil =>
      subst hnil
      cases hpower with
      | absent => rw [rounds_ofParts_iff.2 hx]
    · next hne => simp only [(readExponent_eq_some_iff hne).2 hpower, rounds_ofParts_iff.2 hx]

/-! ### Numerals -/

/-- The name of a number without digits. -/
inductive NumberName (negative : Bool) : List Char → Binary → Prop
  /-- An infinity. -/
  | infinity : NumberName negative "infinity".toList (.infinite negative)
  /-- An infinity, for short. -/
  | inf : NumberName negative "inf".toList (.infinite negative)
  /-- What is not a number. -/
  | nan : NumberName negative "nan".toList .nan

/-- A numeral denotes a number. -/
inductive Numeral : List Char → Binary → Prop
  /-- After a sign stands a name, in which capital letters count as small ones. -/
  | named {negative : Bool} {sign cs name : List Char} {x : Binary} : Sign negative sign →
      cs.map Char.toLower = name → NumberName negative name x → Numeral (sign ++ cs) x
  /-- After a sign stand digits. -/
  | decimal {negative : Bool} {sign cs : List Char} {x : Binary} : Sign negative sign →
      DecimalText negative cs x → Numeral (sign ++ cs) x

theorem toNat_of_isDigit {c : Char} (h : c.isDigit = true) : 48 ≤ c.toNat ∧ c.toNat ≤ 57 := by
  simp only [Char.isDigit, Bool.and_eq_true, decide_eq_true_eq] at h
  exact ⟨UInt32.le_iff_toNat_le.1 h.1, UInt32.le_iff_toNat_le.1 h.2⟩

/-- What is no capital letter has no small one. -/
theorem toLower_eq_self {c : Char} (h : c.toNat < 65 ∨ 90 < c.toNat) : c.toLower = c := by
  refine dif_neg fun hc => ?_
  have hlow : 65 ≤ c.toNat := UInt32.le_iff_toNat_le.1 hc.1
  have hhigh : c.toNat ≤ 90 := UInt32.le_iff_toNat_le.1 hc.2
  omega

/-- A decimal numeral begins with a digit or a point. -/
theorem DecimalText.head {negative : Bool} {cs : List Char} {x : Binary} (h : DecimalText negative cs x) :
    ∃ c ∈ cs.head?, c.isDigit = true ∨ c = '.' := by
  obtain @⟨whole, point, fraction, power, e, _, hw, hp, hdigits, -, -⟩ := h
  cases whole with
  | cons c whole => exact ⟨c, rfl, .inl (hw c List.mem_cons_self)⟩
  | nil =>
    cases hp with
    | absent => exact absurd ⟨rfl, rfl⟩ hdigits
    | written _ => exact ⟨'.', rfl, .inr rfl⟩

theorem DecimalText.noSign {negative : Bool} {cs : List Char} {x : Binary} (h : DecimalText negative cs x) :
    NoSign cs := by
  obtain ⟨c, hc, hd⟩ := h.head
  intro d hd'
  cases (Option.mem_unique hc hd')
  rcases hd with hd | rfl
  · constructor <;> rintro rfl <;> exact absurd hd (by decide)
  · decide

/-- No decimal numeral is a name. -/
theorem DecimalText.not_named {negative : Bool} {cs : List Char} {x y : Binary} (h : DecimalText negative cs x) :
    ¬ NumberName negative (cs.map Char.toLower) y := by
  obtain ⟨c, hc, hd⟩ := h.head
  have hlow : c.toLower = c := by
    rcases hd with hd | rfl
    · exact toLower_eq_self (by have := toNat_of_isDigit hd; omega)
    · rfl
  have hhead : (cs.map Char.toLower).head? = some c := by
    rw [List.head?_map, Option.mem_def.1 hc, Option.map_some, hlow]
  generalize cs.map Char.toLower = name at hhead
  rintro (_ | _ | _)
  all_goals
    cases hhead
    exact absurd hd (by decide)

theorem NumberName.noSign {negative : Bool} {cs : List Char} {x : Binary}
    (h : NumberName negative (cs.map Char.toLower) x) : NoSign cs := by
  intro c hc
  have hhead : (cs.map Char.toLower).head? = some c.toLower := by
    rw [List.head?_map, Option.mem_def.1 hc, Option.map_some]
  generalize cs.map Char.toLower = name at h hhead
  constructor <;> rintro rfl <;> cases h <;> exact absurd hhead (by decide)

/-- **A numeral is read as the number that it denotes.** -/
theorem numeral?_eq_some_iff {cs : List Char} {x : Binary} : numeral? cs = some x ↔ Numeral cs x := by
  constructor
  · intro h
    obtain ⟨negative, sign, body, rfl, hs, hu⟩ := exists_sign cs
    simp only [numeral?, hu, String.ofList_eq] at h
    split at h
    · next hname =>
      cases h
      rcases hname with hname | hname
      · exact .named hs hname .inf
      · exact .named hs hname .infinity
    · split at h
      · next hname =>
        cases h
        exact .named hs hname .nan
      · exact .decimal hs (decimal?_eq_some_iff.1 h)
  · rintro (⟨hs, rfl, hn⟩ | @⟨negative, sign, cs, _, hs, hd⟩)
    · simp only [numeral?, unsigned_append hs hn.noSign, String.ofList_eq]
      generalize List.map Char.toLower _ = name at hn
      cases hn <;> rfl
    · have hno : ∀ {name y}, NumberName negative name y → cs.map Char.toLower ≠ name :=
        fun hn he => hd.not_named (he ▸ hn)
      simp only [numeral?, unsigned_append hs hd.noSign, String.ofList_eq, hno .inf, hno .infinity, hno .nan,
        or_self, if_false]
      exact decimal?_eq_some_iff.2 hd

/-! ### Characters of numerals -/

/-- Every character is neither a blank nor an underscore. -/
def AllPlain (cs : List Char) : Prop := ∀ c ∈ cs, isBlank c = false ∧ c ≠ '_'

instance (cs : List Char) : Decidable (AllPlain cs) :=
  decidable_of_iff (cs.all fun c => !isBlank c && c != '_') (by simp [AllPlain])

theorem AllPlain.append {as bs : List Char} (ha : AllPlain as) (hb : AllPlain bs) : AllPlain (as ++ bs) :=
  List.forall_mem_append.2 ⟨ha, hb⟩

theorem AllDigits.allPlain {ds : List Char} (h : AllDigits ds) : AllPlain ds := by
  intro c hc
  have hc := toNat_of_isDigit (h c hc)
  refine ⟨?_, ?_⟩
  · simp only [isBlank, Bool.or_eq_false_iff, Bool.and_eq_false_iff, decide_eq_false_iff_not]
    omega
  · rintro rfl
    exact absurd hc (by decide)

theorem Sign.allPlain {negative : Bool} {sign : List Char} (h : Sign negative sign) : AllPlain sign := by
  cases h <;> decide

theorem PowerText.allPlain {cs : List Char} {e : ℤ} (h : PowerText cs e) : AllPlain cs := by
  cases h with
  | absent => exact fun _ hc => nomatch hc
  | written hc hs =>
    obtain ⟨hs, hd, -⟩ := hs
    refine List.forall_mem_cons.2 ⟨?_, hs.allPlain.append hd.allPlain⟩
    rcases hc with rfl | rfl <;> decide

theorem DecimalText.allPlain {negative : Bool} {cs : List Char} {x : Binary} (h : DecimalText negative cs x) :
    AllPlain cs := by
  obtain ⟨hw, hp, -, hpower, -⟩ := h
  refine hw.allPlain.append (AllPlain.append ?_ hpower.allPlain)
  cases hp with
  | absent => exact fun _ hc => nomatch hc
  | written hf => exact List.forall_mem_cons.2 ⟨by decide, hf.allPlain⟩

/-- A name has letters only. -/
theorem NumberName.allPlain {negative : Bool} {cs : List Char} {x : Binary}
    (h : NumberName negative (cs.map Char.toLower) x) : AllPlain cs := by
  have hletters : ∀ name, NumberName negative name x → AllPlain name := by
    intro name hn
    cases hn <;> decide
  intro c hc
  have hlow := hletters _ h c.toLower (List.mem_map_of_mem hc)
  refine ⟨?_, ?_⟩
  · by_contra hb
    have hsame : c.toLower = c := by
      simp only [isBlank, Bool.not_eq_false, Bool.or_eq_true, Bool.and_eq_true, decide_eq_true_eq] at hb
      exact toLower_eq_self (by omega)
    rw [hsame] at hlow
    exact hb hlow.1
  · rintro rfl
    exact absurd hlow.2 (by decide)

/-- A numeral has neither blanks nor underscores. -/
theorem Numeral.allPlain {cs : List Char} {x : Binary} (h : Numeral cs x) : AllPlain cs := by
  rcases h with ⟨hs, rfl, hn⟩ | ⟨hs, hd⟩
  · exact hs.allPlain.append hn.allPlain
  · exact hs.allPlain.append hd.allPlain

/-! ### Blanks at the ends -/

/-- Every character is a blank. -/
def AllBlank (cs : List Char) : Prop := ∀ c ∈ cs, isBlank c = true

/-- A text is what is left of it between the blanks at its ends. -/
theorem exists_trimBlanks (cs : List Char) :
    ∃ front back, cs = front ++ (trimBlanks cs ++ back) ∧ AllBlank front ∧ AllBlank back := by
  refine ⟨cs.takeWhile isBlank, ((cs.dropWhile isBlank).reverse.takeWhile isBlank).reverse, ?_,
    fun c hc => List.mem_takeWhile_imp hc, fun c hc => List.mem_takeWhile_imp (List.mem_reverse.1 hc)⟩
  rw [trimBlanks, ← List.reverse_append, List.takeWhile_append_dropWhile, List.reverse_reverse,
    List.takeWhile_append_dropWhile]

/-- Blanks at the ends are trimmed, and nothing between them. -/
theorem trimBlanks_append {front cs back : List Char} (hf : AllBlank front) (hb : AllBlank back)
    (hp : AllPlain cs) : trimBlanks (front ++ (cs ++ back)) = cs := by
  have hkeep : ∀ {ds r : List Char}, AllPlain ds → ds ≠ [] → (ds ++ r).dropWhile isBlank = ds ++ r := by
    intro ds r hd hne
    cases ds with
    | nil => exact absurd rfl hne
    | cons d ds => simp [(hd d List.mem_cons_self).1]
  rw [trimBlanks, List.dropWhile_append_of_pos hf]
  cases hcs : cs with
  | nil =>
    have hnone : back.dropWhile isBlank = [] := List.dropWhile_eq_nil_iff.2 hb
    simp [hnone]
  | cons c rest =>
    have hne : cs ≠ [] := by simp [hcs]
    have hr : AllPlain cs.reverse := fun c hc => hp c (List.mem_reverse.1 hc)
    have hlast := hkeep (r := []) hr (by simpa using hne)
    rw [List.append_nil] at hlast
    rw [← hcs, hkeep hp hne, List.reverse_append,
      List.dropWhile_append_of_pos fun c hc => hb c (List.mem_reverse.1 hc), hlast, List.reverse_reverse]

theorem trimBlanks_of_plain {cs : List Char} (hp : AllPlain cs) : trimBlanks cs = cs := by
  have hnil : AllBlank [] := fun _ hc => nomatch hc
  have htrim := trimBlanks_append hnil hnil hp
  rwa [List.nil_append, List.append_nil] at htrim

/-- What is plain between blanks has no underscores. -/
theorem not_mem_of_plain_trimBlanks {cs : List Char} (hp : AllPlain (trimBlanks cs)) : '_' ∉ cs := by
  obtain ⟨front, back, hcs, hf, hb⟩ := exists_trimBlanks cs
  have hblank : ∀ {ds}, AllBlank ds → '_' ∉ ds := fun h hm => absurd (h _ hm) (by decide)
  rw [hcs, List.mem_append, List.mem_append]
  rintro (h | h | h)
  · exact hblank hf h
  · exact (hp _ h).2 rfl
  · exact hblank hb h

/-! ### Underscores -/

/-- Groups of characters with single underscores between them, and the characters alone. -/
inductive Grouped : List Char → List Char → Prop
  /-- One group. -/
  | one {group : List Char} : group ≠ [] → '_' ∉ group → Grouped group group
  /-- A group before others. -/
  | more {group cs ds : List Char} : group ≠ [] → '_' ∉ group → Grouped cs ds →
      Grouped (group ++ '_' :: cs) (group ++ ds)

theorem filter_of_not_mem {cs : List Char} (h : '_' ∉ cs) : cs.filter (· ≠ '_') = cs :=
  List.filter_eq_self.2 fun _ hc => decide_eq_true fun he => h (he ▸ hc)

theorem doubledUnderscore_append {group : List Char} (h : '_' ∉ group) (cs : List Char) :
    doubledUnderscore (group ++ cs) = doubledUnderscore cs := by
  induction group with
  | nil => rfl
  | cons c group ih =>
    obtain ⟨hc, hg⟩ := not_or.1 (mt List.mem_cons.2 h)
    rw [List.cons_append, doubledUnderscore, ih hg]
    rintro rest rfl
    exact absurd rfl hc

theorem doubledUnderscore_underscore {cs : List Char} (h : cs.head? ≠ some '_') :
    doubledUnderscore ('_' :: cs) = doubledUnderscore cs := by
  rw [doubledUnderscore]
  rintro rest - rfl
  exact h rfl

/-- What is grouped begins and ends with a character, has no two underscores side by side, and gives all
that is no underscore. -/
theorem Grouped.sound {cs ds : List Char} (h : Grouped cs ds) : cs ≠ [] ∧ cs.head? ≠ some '_' ∧
    cs.getLast? ≠ some '_' ∧ doubledUnderscore cs = false ∧ cs.filter (· ≠ '_') = ds := by
  induction h with
  | @one group hne hno =>
    refine ⟨hne, fun h => hno (List.mem_of_head? h), fun h => hno (List.mem_of_getLast? h), ?_,
      filter_of_not_mem hno⟩
    have h := doubledUnderscore_append hno []
    rwa [List.append_nil] at h
  | @more group cs ds hne hno _ ih =>
    obtain ⟨hcs, hhead, hlast, hdouble, hfilter⟩ := ih
    refine ⟨by simp [hne], ?_, ?_, ?_, ?_⟩
    · rw [List.head?_append_of_ne_nil _ hne]
      exact fun h => hno (List.mem_of_head? h)
    · rwa [List.getLast?_append_of_ne_nil _ (List.cons_ne_nil _ _), List.getLast?_cons_of_ne_nil hcs]
    · rw [doubledUnderscore_append hno, doubledUnderscore_underscore hhead, hdouble]
    · rw [List.filter_append, filter_of_not_mem hno, List.filter_cons_of_neg (by simp), hfilter]

theorem exists_grouped {cs : List Char} (hne : cs ≠ []) (hhead : cs.head? ≠ some '_')
    (hlast : cs.getLast? ≠ some '_') (hdouble : doubledUnderscore cs = false) : ∃ ds, Grouped cs ds := by
  induction hn : cs.length using Nat.strongRecOn generalizing cs with
  | _ n ih =>
    by_cases hmem : '_' ∈ cs
    · obtain ⟨group, rest, rfl, hno⟩ := List.eq_append_cons_of_mem hmem
      have hgroup : group ≠ [] := by
        rintro rfl
        exact hhead rfl
      have hrest : rest ≠ [] := by
        rintro rfl
        simp at hlast
      rw [List.getLast?_append_of_ne_nil _ (List.cons_ne_nil _ _), List.getLast?_cons_of_ne_nil hrest] at hlast
      rw [doubledUnderscore_append hno] at hdouble
      have hfirst : rest.head? ≠ some '_' := by
        intro h
        obtain ⟨rest', rfl⟩ : ∃ rest', rest = '_' :: rest' := List.head?_eq_some_iff.1 h
        simp [doubledUnderscore] at hdouble
      rw [doubledUnderscore_underscore hfirst] at hdouble
      obtain ⟨ds, hds⟩ := ih rest.length (by subst hn; simp; omega) hrest hfirst hlast hdouble rfl
      exact ⟨_, .more hgroup hno hds⟩
    · exact ⟨cs, .one hne hmem⟩

/-- **Underscores are left out where each stands alone between other characters**, and nowhere else. -/
theorem withoutUnderscores?_eq_some_iff {cs ds : List Char} (hne : cs ≠ []) :
    withoutUnderscores? cs = some ds ↔ Grouped cs ds := by
  rw [withoutUnderscores?]
  constructor
  · intro h
    split at h
    · cases h
    · next hno =>
      simp only [not_or, Bool.not_eq_true] at hno
      obtain ⟨hhead, hlast, hdouble⟩ := hno
      obtain ⟨ds', hds⟩ := exists_grouped hne hhead hlast hdouble
      cases h
      exact hds.sound.2.2.2.2 ▸ hds
  · intro h
    obtain ⟨-, hhead, hlast, hdouble, hfilter⟩ := h.sound
    rw [if_neg (by simp [hhead, hlast, hdouble]), hfilter]

/-! ### Numbers in texts -/

/-- A text denotes a number. -/
inductive NumeralText (s : String) (x : Binary) : Prop
  /-- It is a numeral, perhaps between blanks. -/
  | plain {front cs back : List Char} : s.toList = front ++ (cs ++ back) → AllBlank front → AllBlank back →
      Numeral cs x → NumeralText s x
  /-- It is a numeral with underscores. -/
  | grouped {cs : List Char} : Grouped s.toList cs → Numeral cs x → NumeralText s x

theorem not_numeral_nil {x : Binary} : ¬ Numeral [] x := by
  intro h
  have hread := numeral?_eq_some_iff.2 h
  simp [numeral?, unsigned, decimal?, fractionOf] at hread

/-- **A text is read as the number that it denotes.** -/
theorem numberOfText?_eq_some_iff {s : String} {x : Binary} :
    numberOfText? s = some x ↔ NumeralText s x := by
  have hfirst : ∀ {y}, numeral? (trimBlanks s.toList) = some y → numberOfText? s = some y := by
    intro y h
    rw [numberOfText?, h]
  constructor
  · intro h
    rw [numberOfText?] at h
    obtain ⟨front, back, hs, hf, hb⟩ := exists_trimBlanks s.toList
    split at h
    · next y hy =>
      cases h
      exact .plain hs hf hb (numeral?_eq_some_iff.1 hy)
    · obtain ⟨cs, hcs, hx⟩ := Option.bind_eq_some_iff.1 h
      have hnumeral := numeral?_eq_some_iff.1 hx
      have hne : s.toList ≠ [] := by
        intro hnil
        rw [hnil] at hcs
        cases hcs
        exact not_numeral_nil hnumeral
      exact .grouped ((withoutUnderscores?_eq_some_iff hne).1 hcs) hnumeral
  · rintro (⟨hs, hf, hb, hx⟩ | @⟨cs, hg, hx⟩)
    · refine hfirst ?_
      rw [hs, trimBlanks_append hf hb hx.allPlain, numeral?_eq_some_iff.2 hx]
    · cases hy : numeral? (trimBlanks s.toList) with
      | none =>
        rw [numberOfText?, hy]
        simp only [(withoutUnderscores?_eq_some_iff hg.sound.1).2 hg, Option.bind_some]
        exact numeral?_eq_some_iff.2 hx
      | some y =>
        -- a text that is a numeral between blanks has no underscores, so it is the numeral itself
        have hno := not_mem_of_plain_trimBlanks (numeral?_eq_some_iff.1 hy).allPlain
        have hsame : s.toList = cs := by
          rw [← hg.sound.2.2.2.2, filter_of_not_mem hno]
        refine hfirst ?_
        rw [hsame, trimBlanks_of_plain hx.allPlain, numeral?_eq_some_iff.2 hx]

/-! ### Truth values in texts -/

/-- The words for truth values. -/
def truthWords : List (String × Bool) :=
  [("true", true), ("t", true), ("yes", true), ("y", true), ("on", true), ("1", true),
    ("false", false), ("f", false), ("no", false), ("n", false), ("off", false), ("0", false)]

/-- A text is a word for a truth value, where capital letters count as small ones. -/
inductive TruthText (s : String) (b : Bool) : Prop
  /-- It is one of the words. -/
  | word {w : String} : (w, b) ∈ truthWords → s.toList.map Char.toLower = w.toList → TruthText s b

/-- **A text is read as the truth value that it is a word for.** -/
theorem boolOfText?_eq_some_iff {s : String} {b : Bool} : boolOfText? s = some b ↔ TruthText s b := by
  have hwords : ∀ w ∈ ["true", "t", "yes", "y", "on", "1"], (w, true) ∈ truthWords := by decide +kernel
  have hwords' : ∀ w ∈ ["false", "f", "no", "n", "off", "0"], (w, false) ∈ truthWords := by decide +kernel
  constructor
  · intro h
    rw [boolOfText?] at h
    split at h
    · next hw =>
      cases h
      exact .word (hwords _ (List.contains_iff_mem.1 hw)) String.toList_ofList.symm
    · split at h
      · next hw =>
        cases h
        exact .word (hwords' _ (List.contains_iff_mem.1 hw)) String.toList_ofList.symm
      · cases h
  · rintro ⟨hw, hs⟩
    have hread : ∀ e ∈ truthWords, boolOfText? e.1 = some e.2 ∧ e.1.toList.map Char.toLower = e.1.toList := by
      decide +kernel
    obtain ⟨hread, hsmall⟩ := hread _ hw
    rw [boolOfText?] at hread ⊢
    rw [hs, ← hsmall]
    exact hread

/-! ### JSON values -/

namespace Json

/-- The number that a value denotes. -/
inductive Denotes : Json → Binary → Prop
  /-- A number denotes itself. -/
  | number (x : Binary) : Denotes (.number x) x
  /-- An integer denotes the number nearest to it. -/
  | integer {n : Int} {x : Binary} : x.IsNearestTo n → Denotes (.integer n) x
  /-- A truth value denotes one or zero. -/
  | truth (b : Bool) : Denotes (.bool b) (if b then .one else .zero)
  /-- A numeral denotes its number. -/
  | numeral {s : String} {x : Binary} : NumeralText s x → Denotes (.text s) x

/-- The truth value that a value says. -/
inductive Says : Json → Bool → Prop
  /-- A truth value says itself. -/
  | bool (b : Bool) : Says (.bool b) b
  /-- One and zero say truth values. -/
  | integer (b : Bool) : Says (.integer (if b then 1 else 0)) b
  /-- So does the number one. -/
  | one : Says (.number .one) true
  /-- So does zero, with either sign. -/
  | zero (negative : Bool) : Says (.number (.finite negative Magnitude.zero)) false
  /-- Some words do. -/
  | word {s : String} {b : Bool} : TruthText s b → Says (.text s) b

/-- **A value is read as the number that it denotes.** -/
theorem asNumber_eq_ok_iff {v : Json} {x : Binary} : v.asNumber = .ok x ↔ v.Denotes x := by
  constructor
  · intro h
    cases v with
    | number y =>
      cases h
      exact .number x
    | bool b =>
      cases h
      exact .truth b
    | integer n =>
      rw [asNumber, Checked.ofOption_eq_ok_iff, Binary.ofInt?_eq_some_iff] at h
      exact .integer h
    | text s =>
      rw [asNumber, Checked.ofOption_eq_ok_iff, numberOfText?_eq_some_iff] at h
      exact .numeral h
    | null => cases h
    | list items => cases h
    | object ms => cases h
  · intro h
    cases h with
    | number => rfl
    | truth => rfl
    | integer h => rwa [asNumber, Checked.ofOption_eq_ok_iff, Binary.ofInt?_eq_some_iff]
    | numeral h => rwa [asNumber, Checked.ofOption_eq_ok_iff, numberOfText?_eq_some_iff]

/-- An integer says a truth value where it is one or zero. -/
theorem truth_eq_ok_iff {n : ℤ} {b : Bool} {kind : IssueKind} {v : Json} :
    (if n = 0 then Checked.ok false else if n = 1 then .ok true else .refuse kind v) = .ok b ↔
      n = if b then 1 else 0 := by
  split
  · next h =>
    subst h
    cases b <;> simp
  · split
    · next h =>
      subst h
      cases b <;> simp
    · cases b <;> simp_all [Checked.refuse]

/-- **A value is read as the truth value that it says.** -/
theorem asBool_eq_ok_iff {v : Json} {b : Bool} : v.asBool = .ok b ↔ v.Says b := by
  constructor
  · intro h
    cases v with
    | bool c =>
      cases h
      exact .bool b
    | integer n => exact truth_eq_ok_iff.1 h ▸ .integer b
    | number x =>
      rw [asBool] at h
      split at h
      · next n hn =>
        obtain rfl := truth_eq_ok_iff.1 h
        cases b with
        | true => exact Binary.toInt?_eq_one_iff.1 hn ▸ .one
        | false =>
          obtain ⟨negative, rfl⟩ := Binary.toInt?_eq_zero_iff.1 hn
          exact .zero negative
      · cases h
    | text s =>
      rw [asBool] at h
      split at h
      · next c hc =>
        cases h
        exact .word (boolOfText?_eq_some_iff.1 hc)
      · cases h
    | null => cases h
    | list items => cases h
    | object ms => cases h
  · intro h
    cases h with
    | bool => rfl
    | integer => cases b <;> rfl
    | one => simp only [asBool, Binary.toInt?_eq_one_iff.2 rfl, one_ne_zero, if_false, if_true]
    | zero negative => simp only [asBool, Binary.toInt?_eq_zero_iff.2 ⟨negative, rfl⟩, if_true]
    | word h => simp only [asBool, boolOfText?_eq_some_iff.2 h]

end Json

end ContentGraph
