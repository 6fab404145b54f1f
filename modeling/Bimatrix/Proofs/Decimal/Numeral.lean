import Mathlib.Data.List.TakeWhile
import Mathlib.Tactic
import Bimatrix.Decimal.Numeral

/-! # Numerals and their digits

The digits of a natural number are a numeral in the strict grammar, and they are read as that number.
Every numeral of the strict grammar is one of the loose grammar, with the same digits and exponent.
-/
namespace Bimatrix.Numeral

theorem digits_eq_of_isDigit {cs : List Char} (h : ∀ c ∈ cs, c.isDigit = true) :
    digits cs = (cs.map digitValue, []) := by
  have htake : cs.takeWhile Char.isDigit = cs := List.takeWhile_eq_self_iff.mpr h
  have hdrop : cs.dropWhile Char.isDigit = [] := List.dropWhile_eq_nil_iff.mpr h
  rw [digits, htake, hdrop]

theorem ofDigits_map_digitValue (cs : List Char) :
    ofDigits (cs.map digitValue) = Nat.ofDigitChars 10 cs 0 := by
  rw [ofDigits, List.foldl_map]
  rfl

theorem isDigit_of_mem_toDigits {n : ℕ} {c : Char} (h : c ∈ Nat.toDigits 10 n) :
    c.isDigit = true :=
  Nat.isDigit_of_mem_toDigits (by decide) (by decide) h

theorem digits_toDigits (n : ℕ) :
    digits (Nat.toDigits 10 n) = ((Nat.toDigits 10 n).map digitValue, []) :=
  digits_eq_of_isDigit fun _ => isDigit_of_mem_toDigits

theorem ofDigits_toDigits (n : ℕ) : ofDigits ((Nat.toDigits 10 n).map digitValue) = n := by
  rw [ofDigits_map_digitValue, Nat.ofDigitChars_ten_toDigits]

theorem digitValue_digitChar {d : ℕ} (h : d < 10) : digitValue (Nat.digitChar d) = d :=
  Nat.toNat_digitChar_sub_48_of_lt_ten h

/-- The digits of a positive number do not start with a zero. -/
theorem exists_toDigits_eq_cons {n : ℕ} (h : 0 < n) :
    ∃ c cs, Nat.toDigits 10 n = c :: cs ∧ digitValue c ≠ 0 := by
  induction n using Nat.base_induction 10 (by decide) with
  | single m hm =>
    refine ⟨_, [], Nat.toDigits_of_lt_base hm, ?_⟩
    rw [digitValue_digitChar hm]
    exact h.ne'
  | digit m k hk hm ih =>
    obtain ⟨c, cs, hcs, hc⟩ := ih hm
    refine ⟨c, cs ++ Nat.toDigits 10 k, ?_, hc⟩
    rw [← Nat.toDigits_append_toDigits (by decide) hm hk, hcs, List.cons_append]

theorem ofStrict?_of_isDigit {c : Char} {cs : List Char} (h : ∀ d ∈ c :: cs, d.isDigit = true)
    (hzero : digitValue c ≠ 0 ∨ cs = []) :
    ofStrict? (c :: cs) = some ⟨false, (c :: cs).map digitValue, [], 0⟩ := by
  have hsign : c ≠ '-' := by
    rintro rfl
    exact absurd (h '-' (by simp)) (by decide)
  have hstrict : ofStrict?.strict ((c :: cs).map digitValue) none = true := by
    cases cs with
    | nil => rfl
    | cons d cs =>
      have hc : digitValue c ≠ 0 := hzero.resolve_right (by simp)
      simp [ofStrict?.strict, hc]
  have hunsigned : ofStrict? (c :: cs) = unsigned? ofStrict?.strict false (c :: cs) := by
    unfold ofStrict?
    split
    next heq =>
      cases heq
      exact absurd rfl hsign
    next => rfl
  rw [hunsigned, unsigned?, digits_eq_of_isDigit h]
  simp only [fraction?, hstrict, if_true, exponent?, Option.map_some, Option.getD_none]

theorem ofStrict?_toDigits (n : ℕ) :
    ofStrict? (Nat.toDigits 10 n) = some ⟨false, (Nat.toDigits 10 n).map digitValue, [], 0⟩ := by
  obtain rfl | hpos := Nat.eq_zero_or_pos n
  · rfl
  · obtain ⟨c, cs, hcs, hc⟩ := exists_toDigits_eq_cons hpos
    have hdigits : ∀ d ∈ c :: cs, d.isDigit = true := by
      rw [← hcs]
      exact fun _ => isDigit_of_mem_toDigits
    rw [hcs]
    exact ofStrict?_of_isDigit hdigits (.inl hc)

variable {accept accept' : List ℕ → Option (List ℕ) → Bool} {negative : Bool} {cs : List Char}
  {x : Numeral}

def IsNumeralChar (c : Char) : Prop := c.isDigit = true ∨ c ∈ ['-', '+', '.', 'e', 'E']

/-- What is read after the sign: the digits up to the point, those behind it, and the exponent. -/
theorem exists_of_unsigned? (h : unsigned? accept negative cs = some x) :
    ∃ e, accept (digits cs).1 (fraction? (digits cs).2).1 = true ∧
      exponent? (fraction? (digits cs).2).2 = some e ∧
      x = ⟨negative, (digits cs).1, (fraction? (digits cs).2).1.getD [], e⟩ := by
  unfold unsigned? at h
  dsimp only at h
  split_ifs at h with haccept
  obtain ⟨e, he, hx⟩ := Option.map_eq_some_iff.mp h
  exact ⟨e, haccept, he, hx.symm⟩

theorem unsigned?_of_imp (himp : ∀ whole fraction, accept whole fraction = true →
    accept' whole fraction = true) (h : unsigned? accept negative cs = some x) :
    unsigned? accept' negative cs = some x := by
  obtain ⟨e, haccept, he, rfl⟩ := exists_of_unsigned? h
  simp only [unsigned?, himp _ _ haccept, if_true, he, Option.map_some]

theorem loose_of_strict (whole : List ℕ) (fraction : Option (List ℕ))
    (h : ofStrict?.strict whole fraction = true) : ofLoose?.loose whole fraction = true := by
  cases whole with
  | nil => simp [ofStrict?.strict] at h
  | cons d ds => simp [ofLoose?.loose]

/-- A strict numeral is its sign, if it has one, and what comes after the sign. -/
theorem ofStrict?_cases (h : ofStrict? cs = some x) :
    (∃ rest, cs = '-' :: rest ∧ unsigned? ofStrict?.strict true rest = some x) ∨
      unsigned? ofStrict?.strict false cs = some x := by
  unfold ofStrict? at h
  split at h
  next rest => exact .inl ⟨rest, rfl, h⟩
  next => exact .inr h

/-- A strict numeral without a minus sign starts with a digit. -/
theorem exists_isDigit_of_unsigned? (h : unsigned? ofStrict?.strict negative cs = some x) :
    ∃ c rest, cs = c :: rest ∧ c.isDigit = true := by
  obtain ⟨e, hstrict, -⟩ := exists_of_unsigned? h
  cases cs with
  | nil => simp [digits, ofStrict?.strict] at hstrict
  | cons c rest =>
    refine ⟨c, rest, rfl, ?_⟩
    by_contra hc
    simp [digits, hc, ofStrict?.strict] at hstrict

theorem ofLoose?_of_ofStrict? (h : ofStrict? cs = some x) : ofLoose? cs = some x := by
  obtain ⟨rest, rfl, hrest⟩ | hcs := ofStrict?_cases h
  · exact unsigned?_of_imp loose_of_strict hrest
  · obtain ⟨c, rest, rfl, hc⟩ := exists_isDigit_of_unsigned? hcs
    have hsign : sign (c :: rest) = (false, c :: rest) := by
      unfold sign
      split
      next heq =>
        cases heq
        exact absurd hc (by decide)
      next heq =>
        cases heq
        exact absurd hc (by decide)
      next => rfl
    rw [ofLoose?, hsign]
    exact unsigned?_of_imp loose_of_strict hcs

theorem ne_nil_of_ofStrict? (h : ofStrict? cs = some x) : cs ≠ [] := by
  rintro rfl
  cases h

theorem isNumeralChar_of_digits (h : ∀ c ∈ (digits cs).2, IsNumeralChar c) :
    ∀ c ∈ cs, IsNumeralChar c := by
  intro c hc
  rw [← List.takeWhile_append_dropWhile (p := Char.isDigit) (l := cs), List.mem_append] at hc
  obtain hdigit | hrest := hc
  · exact .inl (List.mem_takeWhile_imp hdigit)
  · exact h c hrest

theorem isNumeralChar_of_fraction? (h : ∀ c ∈ (fraction? cs).2, IsNumeralChar c) :
    ∀ c ∈ cs, IsNumeralChar c := by
  unfold fraction? at h
  split at h
  next rest =>
    rw [List.forall_mem_cons]
    exact ⟨.inr (by decide), isNumeralChar_of_digits h⟩
  next => exact h

theorem isNumeralChar_of_sign (h : ∀ c ∈ (sign cs).2, IsNumeralChar c) :
    ∀ c ∈ cs, IsNumeralChar c := by
  unfold sign at h
  split at h
  · rw [List.forall_mem_cons]
    exact ⟨.inr (by decide), h⟩
  · rw [List.forall_mem_cons]
    exact ⟨.inr (by decide), h⟩
  · exact h

theorem isNumeralChar_of_exponent? {e : ℤ} (h : exponent? cs = some e) :
    ∀ c ∈ cs, IsNumeralChar c := by
  cases cs with
  | nil => simp
  | cons c rest =>
    rw [exponent?] at h
    split_ifs at h with hletter
    have hrest : (digits (sign rest).2).2 = [] := by
      dsimp only at h
      split at h
      next heq => rw [heq]
      next => cases h
    rw [List.forall_mem_cons]
    refine ⟨.inr (by obtain rfl | rfl := hletter <;> decide), isNumeralChar_of_sign ?_⟩
    exact isNumeralChar_of_digits (by simp [hrest])

theorem isNumeralChar_of_unsigned? (h : unsigned? accept negative cs = some x) :
    ∀ c ∈ cs, IsNumeralChar c := by
  obtain ⟨e, -, he, -⟩ := exists_of_unsigned? h
  exact isNumeralChar_of_digits (isNumeralChar_of_fraction? (isNumeralChar_of_exponent? he))

theorem isNumeralChar_of_ofStrict? (h : ofStrict? cs = some x) : ∀ c ∈ cs, IsNumeralChar c := by
  obtain ⟨rest, rfl, hrest⟩ | hcs := ofStrict?_cases h
  · rw [List.forall_mem_cons]
    exact ⟨.inr (by decide), isNumeralChar_of_unsigned? hrest⟩
  · exact isNumeralChar_of_unsigned? hcs

theorem lt_ten_of_mem_digits (cs : List Char) : ∀ d ∈ (digits cs).1, d < 10 := by
  intro d hd
  obtain ⟨c, hc, rfl⟩ := List.mem_map.mp hd
  have hdigit := List.mem_takeWhile_imp hc
  simp only [Char.isDigit, Bool.and_eq_true, decide_eq_true_eq, UInt32.le_iff_toNat_le] at hdigit
  have hnine : ('9' : Char).val.toNat = 57 := rfl
  simp only [digitValue, Char.toNat]
  have hzero : ('0' : Char).val.toNat = 48 := rfl
  omega

theorem lt_ten_of_unsigned? (h : unsigned? accept negative cs = some x) :
    ∀ d ∈ x.whole ++ x.fraction, d < 10 := by
  obtain ⟨e, -, -, rfl⟩ := exists_of_unsigned? h
  rw [List.forall_mem_append]
  refine ⟨lt_ten_of_mem_digits cs, ?_⟩
  unfold fraction?
  split
  · exact lt_ten_of_mem_digits _
  · simp

theorem lt_ten_of_ofStrict? (h : ofStrict? cs = some x) : ∀ d ∈ x.whole ++ x.fraction, d < 10 := by
  obtain ⟨rest, rfl, hrest⟩ | hcs := ofStrict?_cases h
  · exact lt_ten_of_unsigned? hrest
  · exact lt_ten_of_unsigned? hcs

end Bimatrix.Numeral
