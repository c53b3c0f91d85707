import PocketCalc.Proofs.Calculator.Compute
import PocketCalc.Proofs.Decimal.Grid
import PocketCalc.Proofs.Expr.Evaluation
import PocketCalc.Proofs.Formula.Parsed
import PocketCalc.Proofs.Numeral.Fitted
import PocketCalc.Proofs.Token.Words

/-!
# The texts of numbers are read as numbers

* `IsFiniteNumeral` — a written number whose number is finite, maybe with a minus sign;
* `isFiniteNumeral_natural`, `isFiniteNumeral_fixed`, `isFiniteNumeral_exponential` — the texts of a finite number are
  such: what is rounded to fewer digits is far below the largest number, since a larger one keeps all its digits;
* `IsFiniteNumeral.exists_value`, `valueOf_fitted` — such a text is read as a finite number, and it has that number as
  its value;
* `read?_fitted`, `valueOf_fitted_iff` — the text of a number, fitted into any width, is read as a finite number
  exactly if the number is finite.
-/

namespace PocketCalc.Numeral

open Binary64 Decimal Float.Model Float.Model.UnpackedFloat

/-- A written number whose number is finite, maybe with a minus sign. -/
def IsFiniteNumeral (t : Text) : Prop :=
  ∃ s : Spelling, s.decimal.toBinary64.isFinite = true ∧ (t = s.text ∨ t = '-' :: s.text)

variable {v w : Binary64} {t ds : Text} {sign : Sign} {m num den : ℕ} {q e : ℤ} {hm : 0 < m} {width places : ℕ}

theorem isFiniteNumeral_signed (v : Binary64) (s : Spelling) (h : s.decimal.value < 2 ^ (80 : ℤ)) :
    IsFiniteNumeral (signed v s.text) := by
  have hfinite := isFinite_toBinary64 (h.trans (zpow_lt_threshold (by norm_num)))
  unfold signed
  split
  · exact ⟨s, hfinite, .inr rfl⟩
  · exact ⟨s, hfinite, .inl rfl⟩

/-! ## All the digits -/

/-- All the digits of a number are read as the number. -/
theorem isFiniteNumeral_natural (h : v.isFinite = true) : IsFiniteNumeral (natural v) := by
  have hpositive {v : Binary64} (h : v.isFinite = true) (hs : v.sign = .positive) :
      ∃ s : Spelling, s.decimal.toBinary64.isFinite = true ∧ natural v = s.text := by
    obtain ⟨s, htext, hvalue⟩ := exists_spelling_natural h hs
    exact ⟨s, by rwa [hvalue], htext.symm⟩
  rcases finite_cases h with ⟨sign, hu⟩ | ⟨sign, m, q, hm, hu⟩
  · have hzero : (0 : Binary64).unpacked = .zero .positive := unpacked_ofNat_zero
    obtain ⟨s, hs, htext⟩ := hpositive (v := 0) rfl rfl
    rw [natural_of_zero hzero] at htext
    exact ⟨s, hs, .inl ((natural_of_zero hu).trans htext)⟩
  · cases sign with
    | positive =>
      obtain ⟨s, hs, htext⟩ := hpositive h (fields_of_finite hu).1
      exact ⟨s, hs, .inl htext⟩
    | negative =>
      have hneg := unpacked_neg_of_negative hu
      obtain ⟨s, hs, htext⟩ := hpositive ((isFinite_neg v).trans h) (fields_of_finite hneg).1
      exact ⟨s, hs, .inr (by rw [natural_neg hu, htext])⟩

/-- Digits in front of an exponent have its mark, with a sign as well. -/
theorem mem_signed_scientific (v : Binary64) (ds : Text) (e : ℤ) : 'e' ∈ signed v (Decimal.scientific true ds e) := by
  have hscientific : 'e' ∈ Decimal.scientific true ds e := List.mem_append_right _ (List.mem_cons_self ..)
  unfold signed
  split
  · exact List.mem_cons_of_mem _ hscientific
  · exact hscientific

/-- A number that is not zero and has no exponent in its text is of a plain size. -/
theorem isPlain_of_not_mem (hu : v.unpacked = .finite sign m q hm) (h : 'e' ∉ natural v) : isPlain v = true := by
  by_contra hplain
  rw [natural_of_finite hu, if_neg hplain] at h
  exact h (mem_signed_scientific v _ _)

/-! ## Fewer digits -/

/-- The number is below `2 ^ 70`. -/
def IsModest (v : Binary64) : Prop := (v.significand * 2 ^ v.exponent : ℚ) < 2 ^ (70 : ℤ)

theorem unpacked_abs_of_finite (hu : v.unpacked = .finite sign m q hm) : v.abs.unpacked = .finite .positive m q hm := by
  show (ofUnpacked v.unpacked.abs).unpacked = _
  rw [hu]
  exact unpacked_ofUnpacked_finite (canonical_of_finite hu)

/-- A number that is written without exponent is below `10 ^ 21`, and so below `2 ^ 70`. -/
theorem isModest_of_isPlain (hu : v.unpacked = .finite sign m q hm) (h : isPlain v = true) : IsModest v := by
  have hc := canonical_of_finite hu
  have hbelow : plainBelow.unpacked = .finite .positive 7629394531250000 17 (by decide) := by rfl
  have habs := unpacked_abs_of_finite hu
  have hq : q ≤ 17 := by
    have hlt : v.abs.lt plainBelow = true := (Bool.and_eq_true_iff.1 h).2
    rw [lt_eq, habs, hbelow] at hlt
    by_contra hlarge
    have hcompare : compare q 17 = .gt := compare_gt_iff_gt.2 (by omega)
    simp only [UnpackedFloat.compare, hcompare] at hlt
    cases hlt
  obtain ⟨-, hsignificand, hexponent, -⟩ := fields_of_finite hu
  have hm : (m : ℚ) < 2 ^ (53 : ℤ) := by exact_mod_cast hc.lt
  rw [IsModest, hsignificand, hexponent]
  calc (m * 2 ^ q : ℚ) < 2 ^ (53 : ℤ) * 2 ^ q := by gcongr
    _ ≤ 2 ^ (53 : ℤ) * 2 ^ (17 : ℤ) := by gcongr; norm_num
    _ = 2 ^ (70 : ℤ) := by rw [← zpow_add₀ two_ne_zero]; norm_num

theorem isModest_of_zero (hu : v.unpacked = .zero sign) : IsModest v := by
  rw [IsModest, (fields_of_zero hu).2.1, Nat.cast_zero, zero_mul]
  positivity

theorem isFiniteNumeral_fixed (h : v.isFinite = true) (hv : IsModest v) (places : ℕ) :
    IsFiniteNumeral (fixed v places) := by
  obtain ⟨s, htext, hdecimal⟩ := exists_spelling_positional (toPlaces v places) places
  rw [fixed, if_pos h, ← htext]
  refine isFiniteNumeral_signed v s ?_
  have hround := (abs_le.1 (dist_roundDiv (fraction v places).1 (fraction_den_pos v places))).2
  rw [value_fraction, ← Decimal.toPlaces, sub_le_iff_le_add'] at hround
  have hscale : (10 : ℚ) ^ (places : ℤ) * 10 ^ (-places : ℤ) = 1 := by
    rw [← zpow_add₀ (by norm_num), add_neg_cancel, zpow_zero]
  have hunit : (10 : ℚ) ^ (-places : ℤ) ≤ 1 := zpow_le_one_of_nonpos₀ (by norm_num) (by omega)
  rw [hdecimal]
  calc (toPlaces v places : ℚ) * 10 ^ (-places : ℤ)
      ≤ (v.significand * 2 ^ v.exponent * 10 ^ (places : ℤ) + 1 / 2) * 10 ^ (-places : ℤ) := by gcongr
    _ = v.significand * 2 ^ v.exponent + 1 / 2 * 10 ^ (-places : ℤ) := by
      linear_combination (v.significand * 2 ^ v.exponent : ℚ) * hscale
    _ ≤ 2 ^ (70 : ℤ) + 1 / 2 * 1 := by
      gcongr
      exact hv.le
    _ < 2 ^ (80 : ℤ) := by norm_num

/-- Digits in front of an exponent that is not large. -/
theorem isFiniteNumeral_scientific (v : Binary64) (hne : ds ≠ []) (hdigits : ∀ c ∈ ds, c.isDigit = true)
    (hlt : Nat.ofDigitChars 10 ds 0 < 10 ^ ds.length) (he : e ≤ 22) :
    IsFiniteNumeral (signed v (Decimal.scientific true ds e)) := by
  obtain ⟨s, htext, hvalue⟩ := exists_spelling_scientific hne hdigits e
  rw [← htext]
  refine isFiniteNumeral_signed v s ?_
  have hlt : (Nat.ofDigitChars 10 ds 0 : ℚ) < 10 ^ (ds.length : ℤ) := by exact_mod_cast hlt
  rw [hvalue]
  calc (Nat.ofDigitChars 10 ds 0 : ℚ) * 10 ^ (e + 1 - ds.length)
      < 10 ^ (ds.length : ℤ) * 10 ^ (e + 1 - ds.length) := by gcongr
    _ = 10 ^ (e + 1) := by
      rw [← zpow_add₀ (by norm_num)]
      congr 1
      omega
    _ ≤ 10 ^ (23 : ℤ) := zpow_le_zpow_right₀ (by norm_num) (by omega)
    _ < 2 ^ (80 : ℤ) := by norm_num

theorem magnitude_le (h : (num / den : ℚ) < 2 ^ (70 : ℤ)) : magnitude num den ≤ 22 := by
  unfold magnitude
  split
  · have hquotient : num / den < 10 ^ 22 := by
      have hle : ((num / den : ℕ) : ℚ) ≤ num / den := Nat.cast_div_le
      have hlt : ((num / den : ℕ) : ℚ) < 10 ^ 22 := hle.trans_lt (h.trans (by norm_num))
      exact_mod_cast hlt
    have hlength := (Nat.length_toDigits_le_iff (by decide) (by decide)).2 hquotient
    omega
  · omega

/-- The exponent of the first digit is the magnitude or one less. -/
theorem exponent_toSignificant_le (hv : IsModest v) (n : ℕ) : (toSignificant v n).2 ≤ 22 := by
  have hmagnitude : magnitude (fraction v 0).1 (fraction v 0).2 ≤ 22 := by
    refine magnitude_le ?_
    rw [value_fraction, zpow_zero, mul_one]
    exact hv
  simp only [toSignificant]
  split
  · exact hmagnitude
  · exact (Int.sub_le_self _ (by decide)).trans hmagnitude

theorem isFiniteNumeral_exponential (h : v.isFinite = true) (hv : IsModest v) (places : ℕ) :
    IsFiniteNumeral (exponential v places) := by
  unfold exponential
  rw [h, Bool.not_true, if_neg (by decide)]
  split
  · have hzeros : ∀ c ∈ List.replicate (places + 1) '0', c.isDigit = true := by
      intro c hc
      obtain rfl := (List.mem_replicate.1 hc).2
      rfl
    refine isFiniteNumeral_scientific v (List.cons_ne_nil _ _) hzeros ?_ (by decide)
    rw [Nat.ofDigitChars_replicate_zero]
    positivity
  · refine isFiniteNumeral_scientific v (digitsOf_ne_nil _) (fun c => isDigit_digitsOf) ?_
      (exponent_toSignificant_le hv _)
    rw [ofDigitChars_digitsOf]
    exact lt_pow_length_digitsOf _

theorem isFiniteNumeral_fixedWithin (h : v.isFinite = true) (hv : IsModest v) (width places : ℕ) :
    IsFiniteNumeral (fixedWithin v width places) := by
  induction places with
  | zero => exact isFiniteNumeral_fixed h hv 0
  | succ places ih =>
    simp only [fixedWithin]
    split
    · exact isFiniteNumeral_fixed h hv (places + 1)
    · exact ih

/-- **The text of a finite number is a written number that is finite.** Only a number that is written without exponent
is rounded to the width. -/
theorem isFiniteNumeral_fitted (h : v.isFinite = true) (width : ℕ) : IsFiniteNumeral (fitted v width) := by
  unfold fitted
  simp only
  split
  · exact isFiniteNumeral_natural h
  next hlong =>
    have hmodest : IsModest v := by
      rcases finite_cases h with ⟨sign, hu⟩ | ⟨sign, m, q, hm, hu⟩
      · exact isModest_of_zero hu
      · exact isModest_of_isPlain hu (isPlain_of_not_mem hu fun he => hlong (.inl he))
    split
    · exact isFiniteNumeral_exponential h hmodest _
    · split
      · exact isFiniteNumeral_exponential h hmodest _
      · exact isFiniteNumeral_fixedWithin h hmodest _ _

/-! ## Both readers -/

theorem read?_neg_text (s : Spelling) : read? ('-' :: s.text) = some (-s.decimal.toBinary64) := by
  obtain ⟨c, t, htext, hc⟩ := s.exists_text
  have hread := s.read?_text
  have hmagnitude : read? s.text = magnitude? s.text := by
    rw [htext]
    unfold read?
    split
    next heq =>
      cases heq
      cases hc
    next heq =>
      cases heq
      cases hc
    next => rfl
  rw [hmagnitude] at hread
  show (magnitude? s.text).map (- ·) = _
  rw [hread]
  rfl

theorem checked_of_isFinite (h : v.isFinite = true) : Arithmetic.checked v = .ok v := by
  obtain ⟨hnan, hinf⟩ := isFinite_iff.1 h
  show (if v.isNaN then _ else if v.isInfinite then _ else _) = _
  rw [hnan, hinf]
  rfl

/-- A written number has its number as its value. -/
theorem valueOf_text (s : Spelling) (h : s.decimal.toBinary64.isFinite = true) :
    Compute.valueOf s.text = .ok s.decimal.toBinary64 := by
  have htokens : Token.tokens s.text = .ok [.number s.decimal.toBinary64] := by
    have hlexes := Token.Lexes.spelling s [] Token.ends_nil
    rwa [List.append_nil, Token.tokens_nil] at hlexes
  rw [Compute.valueOf_eq_ok]
  refine ⟨.number s.decimal.toBinary64, ?_, checked_of_isFinite h⟩
  rw [Formula.parse_eq, htokens]
  rfl

theorem valueOf_neg_text (s : Spelling) (h : s.decimal.toBinary64.isFinite = true) :
    Compute.valueOf ('-' :: s.text) = .ok (-s.decimal.toBinary64) := by
  have htokens : Token.tokens ('-' :: s.text) = .ok [.symbol .sub, .number s.decimal.toBinary64] := by
    have hlexes := (Token.Lexes.spelling s).neg [] Token.ends_nil
    rwa [List.append_nil, Token.tokens_nil] at hlexes
  rw [Compute.valueOf_eq_ok]
  refine ⟨.neg (.number s.decimal.toBinary64), ?_, Expr.evaluate_neg_eq_ok.2 ⟨_, checked_of_isFinite h, rfl⟩⟩
  rw [Formula.parse_eq, htokens]
  rfl

/-- **Both readers read a finite number, and the same.** -/
theorem IsFiniteNumeral.exists_value (h : IsFiniteNumeral t) :
    ∃ w, w.isFinite = true ∧ read? t = some w ∧ Compute.valueOf t = .ok w := by
  obtain ⟨s, hs, rfl | rfl⟩ := h
  · exact ⟨_, hs, s.read?_text, valueOf_text s hs⟩
  · exact ⟨_, (isFinite_neg _).trans hs, read?_neg_text s, valueOf_neg_text s hs⟩

/-- **The text of a finite number can be read back, the same way by both readers.** The text has a value, which is
finite, and that value is the number it is read as. -/
theorem valueOf_fitted (h : v.isFinite = true) (width : ℕ) :
    ∃ w, Compute.valueOf (fitted v width) = .ok w ∧ w.isFinite = true ∧ read? (fitted v width) = some w := by
  obtain ⟨w, hw, hread, hvalue⟩ := (isFiniteNumeral_fitted h width).exists_value
  exact ⟨w, hvalue, hw, hread⟩

/-- The number `-0.0000123456789` in six characters loses all its digits but keeps its sign: both readers read `-0`. -/
theorem valueOf_fitted_negative_zero :
    let v := -Decimal.toBinary64 ⟨123456789, -13⟩
    v.isFinite = true ∧ fitted v 6 = "-0.000".toList ∧ read? (fitted v 6) = some (-0) ∧
      ∃ w, Compute.valueOf (fitted v 6) = .ok w ∧ w.isFinite = true ∧ read? (fitted v 6) = some w := by
  intro v
  have hfinite : v.isFinite = true := by decide +kernel
  exact ⟨hfinite, by decide +kernel, by decide +kernel, valueOf_fitted hfinite 6⟩

/-- The words for what is not finite are read as such, and have no value. -/
theorem read?_of_mem_words (h : t ∈ specialWords) :
    (∃ w, w.isFinite = false ∧ read? t = some w) ∧ ∃ err, Compute.valueOf t = .error err := by
  simp only [specialWords, List.mem_cons, List.not_mem_nil, or_false] at h
  rcases h with rfl | rfl | rfl
  · exact ⟨⟨nan, by decide +kernel, by decide +kernel⟩, .parse (.unknownName "nan".toList), by decide +kernel⟩
  · exact ⟨⟨.infinity, by decide +kernel, by decide +kernel⟩, .parse (.unknownName "infinity".toList), by decide +kernel⟩
  · exact ⟨⟨-.infinity, by decide +kernel, by decide +kernel⟩, .parse (.unknownName "infinity".toList),
      by decide +kernel⟩

/-- The text of a number is read as a number that is finite exactly if it is. -/
theorem read?_fitted (v : Binary64) (width : ℕ) : ∃ w, w.isFinite = v.isFinite ∧ read? (fitted v width) = some w := by
  cases h : v.isFinite with
  | true =>
    obtain ⟨w, hw, hread, -⟩ := (isFiniteNumeral_fitted h width).exists_value
    exact ⟨w, hw, hread⟩
  | false =>
    obtain ⟨w, hw, hread⟩ := (read?_of_mem_words (fitted_of_not_finite h width)).1
    exact ⟨w, hw, hread⟩

/-- **The text of a number has a value exactly if the number is finite.** -/
theorem valueOf_fitted_iff (v : Binary64) (width : ℕ) :
    (∃ w, Compute.valueOf (fitted v width) = .ok w) ↔ v.isFinite = true := by
  constructor
  · rintro ⟨w, hw⟩
    by_contra hinfinite
    have hwords := fitted_of_not_finite (Bool.not_eq_true _ ▸ hinfinite) width
    obtain ⟨err, herr⟩ := (read?_of_mem_words hwords).2
    rw [herr] at hw
    cases hw
  · intro h
    obtain ⟨w, -, -, hw⟩ := (isFiniteNumeral_fitted h width).exists_value
    exact ⟨w, hw⟩

end PocketCalc.Numeral
