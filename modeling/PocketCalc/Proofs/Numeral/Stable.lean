import PocketCalc.Proofs.Expr.ZeroMinus
import PocketCalc.Proofs.Numeral.Width

/-!
# Results that are read and written again

* `valueOf_signed` — a written number whose decimal reads back to a number has that number as its value, with its sign;
* `fitted_cases` — the three ways in which the text of a number is fitted into a width;
* `fitted_of_fixed` — what was rounded to places is written with all its digits from then on;
* `valueOf_fitted_of_exponential` — what got an exponent is rounded to the same value again;
* `exists_settled` — so the value of the text of a number stays the same, if its text is read once more.
-/

namespace PocketCalc.Numeral

open Binary64 Decimal Float.Model Float.Model.UnpackedFloat

variable {v w : Binary64} {t whole : Text} {sign : Sign} {m n k p : ℕ} {q : ℤ} {hm : 0 < m} {x : ℚ}
  {width places : ℕ}

/-! ## Written numbers with a sign -/

theorem neg_neg_of_finite (hu : w.unpacked = .finite sign m q hm) : - -w = w := by
  have hunpacked : (- -w).unpacked = w.unpacked := by
    rw [unpacked_neg, unpacked_neg, hu]
    cases sign <;> rfl
  exact eq_of_unpacked hunpacked (by rw [isNaN_eq, hunpacked, ← isNaN_eq]; exact (kinds_of_finite hu).1)

/-- A written number, with the minus sign of a number in front, has that number as its value, if its decimal lies in the
interval of the number. -/
theorem valueOf_signed (hu : w.unpacked = .finite sign m q hm) (s : Spelling) (h : RoundsTo s.decimal.value m q) :
    Compute.valueOf (signed w s.text) = .ok w := by
  have hfinite := isFinite_of_unpacked hu
  cases sign with
  | positive =>
    have hread := toBinary64_of_roundsTo hu h
    rw [signed, isNegative_of_positive hu, if_neg (by decide), ← hread]
    exact valueOf_text s (hread ▸ hfinite)
  | negative =>
    have hread := toBinary64_of_roundsTo (unpacked_neg_of_negative hu) h
    have hvalue := valueOf_neg_text s (by rw [hread, isFinite_neg, hfinite])
    rw [hread, neg_neg_of_finite hu] at hvalue
    rw [signed, isNegative_of_negative hu, if_pos rfl, hvalue]

/-- Every written number of a moderate size has a value, which has the sign that stands in front. -/
theorem exists_valueOf_signed (v : Binary64) (s : Spelling) (hlow : 2 ^ (-1000 : ℤ) ≤ s.decimal.value)
    (hhigh : s.decimal.value < 2 ^ (1000 : ℤ)) :
    ∃ w sign m q hm, w.unpacked = .finite sign m q hm ∧ signWidth w = signWidth v ∧ 2 ^ 52 ≤ m ∧
      RoundsTo s.decimal.value m q ∧ Compute.valueOf (signed v s.text) = .ok w := by
  obtain ⟨m, q, hfull, hc, hrounds⟩ := exists_roundsTo hlow hhigh
  have hm : 0 < m := lt_of_lt_of_le (by norm_num) hfull
  have hunpacked (sign : Sign) : (ofUnpacked (.finite sign m q hm)).unpacked = .finite sign m q hm :=
    unpacked_ofUnpacked_finite hc
  obtain ⟨sign, hsign⟩ : ∃ sign, (ofUnpacked (.finite sign m q hm)).isNegative = v.isNegative := by
    cases v.isNegative with
    | true => exact ⟨.negative, isNegative_of_negative (hunpacked .negative)⟩
    | false => exact ⟨.positive, isNegative_of_positive (hunpacked .positive)⟩
  have hvalue := valueOf_signed (hunpacked sign) s hrounds
  rw [signed, hsign, ← signed] at hvalue
  exact ⟨_, sign, m, q, hm, hunpacked sign, by rw [signWidth, hsign, signWidth], hfull, hrounds, hvalue⟩

/-! ## The parts of the natural text -/

/-- How many units of its last place the text of a number has, if it has no exponent. -/
def units (v : Binary64) : ℕ := (shortest v).digits * Nat.pow 10 (shortest v).exponent.toNat

/-- How many places it has behind the point. -/
def unitPlaces (v : Binary64) : ℕ := (-(shortest v).exponent).toNat

theorem natural_of_isPlain (hu : v.unpacked = .finite sign m q hm) (h : isPlain v = true) :
    natural v = signed v (positional (units v) (unitPlaces v)) := by
  rw [natural_of_finite hu, if_pos h]
  rfl

/-- All the digits of a number are read as that number. -/
theorem roundsTo_units (hu : v.unpacked = .finite sign m q hm) :
    RoundsTo (units v * 10 ^ (-unitPlaces v : ℤ)) m q := by
  have hvalue := value_toPositional (shortest v)
  have hrounds := shortest_roundsTo hu
  rw [← hvalue] at hrounds
  exact hrounds

/-- The natural text of a number is read as that number. -/
theorem valueOf_natural (hu : v.unpacked = .finite sign m q hm) : Compute.valueOf (natural v) = .ok v := by
  obtain ⟨s, htext, hvalue⟩ : ∃ s : Spelling, natural v = signed v s.text ∧ s.decimal.value = (shortest v).value := by
    rw [natural_of_finite hu]
    split
    · obtain ⟨s, htext, hvalue⟩ := exists_spelling_toPositional (shortest v)
      exact ⟨s, by rw [htext], hvalue⟩
    · obtain ⟨s, htext, hvalue⟩ := exists_spelling_toScientific (shortest v)
      exact ⟨s, by rw [htext], hvalue⟩
  rw [htext]
  exact valueOf_signed hu s (hvalue ▸ shortest_roundsTo hu)

/-! ## Three ways to fit -/

theorem exists_fixedWithin (v : Binary64) (width places : ℕ) : ∃ p ≤ places, fixedWithin v width places = fixed v p := by
  induction places with
  | zero => exact ⟨0, le_rfl, rfl⟩
  | succ places ih =>
    simp only [fixedWithin]
    split
    · exact ⟨places + 1, le_rfl, rfl⟩
    · obtain ⟨p, hp, hfixed⟩ := ih
      exact ⟨p, hp.trans (Nat.le_succ places), hfixed⟩

theorem wholeDigits_pos (n places : ℕ) : 0 < wholeDigits n places := by
  unfold wholeDigits
  omega

/-- The first of several digits before the point is not zero. -/
theorem pow_le_of_wholeDigits (h : 2 ≤ wholeDigits n places) : 10 ^ (wholeDigits n places - 1 + places) ≤ n := by
  have hlength : wholeDigits n places - 1 + places = (digitsOf n).length - 1 := by
    unfold wholeDigits at h ⊢
    omega
  rw [hlength]
  refine pow_le_of_length_digitsOf (Nat.pos_of_ne_zero ?_)
  rintro rfl
  have hone : (digitsOf 0).length = 1 := rfl
  unfold wholeDigits at h
  omega

/-- A number with many digits before the point is large. -/
theorem le_of_wholeDigits (hu : v.unpacked = .finite sign m q hm) (hwidth : 3 ≤ width)
    (h : width ≤ wholeDigits (units v) (unitPlaces v) + 1) : (10 : ℚ) ^ (width - 3) ≤ m * 2 ^ q := by
  have hrounds := (roundsTo_units hu).le_two_mul hm
  have hfirst : 10 ^ (wholeDigits (units v) (unitPlaces v) - 1 + unitPlaces v) ≤ units v :=
    pow_le_of_wholeDigits (by omega)
  have hpow : 10 ^ (width - 2 + unitPlaces v) ≤ units v :=
    (Nat.pow_le_pow_right (by decide) (by omega)).trans hfirst
  have hle : (10 : ℚ) ^ (width - 2) ≤ units v * 10 ^ (-unitPlaces v : ℤ) := by
    rw [zpow_neg, zpow_natCast, ← div_eq_mul_inv, le_div_iff₀ (by positivity), ← pow_add]
    exact_mod_cast hpow
  have hpos : (0 : ℚ) < 10 ^ (width - 3) := by positivity
  rw [show width - 2 = width - 3 + 1 by omega, pow_succ] at hle
  linarith

theorem point_mem_signed_positional (v : Binary64) (n : ℕ) (h : places ≠ 0) : '.' ∈ signed v (positional n places) := by
  have hpoint : '.' ∈ positional n places := by
    rw [positional, if_neg h]
    exact List.mem_append_right _ (List.mem_cons_self ..)
  unfold signed
  split
  · exact List.mem_cons_of_mem _ hpoint
  · exact hpoint

/-- Digits that stand before a point of a natural text are those of its units, and places follow. -/
theorem whole_of_beforePoint?_natural (hu : v.unpacked = .finite sign m q hm) (hplain : isPlain v = true)
    (h : beforePoint? (natural v) = some whole) :
    unitPlaces v ≠ 0 ∧ whole.length = signWidth v + wholeDigits (units v) (unitPlaces v) := by
  rw [natural_of_isPlain hu hplain] at h
  obtain ⟨whole', hwhole, hlength⟩ := length_of_beforePoint?_signed h
  refine ⟨fun hzero => ?_, hlength.trans (congrArg _ (length_of_beforePoint?_positional hwhole))⟩
  rw [hzero, positional, if_pos rfl, beforePoint?_of_isDigit fun c => isDigit_digitsOf] at hwhole
  cases hwhole

/-- All digits of a natural text without a point count as digits before it. -/
theorem length_natural_le_of_beforePoint?_none (hu : v.unpacked = .finite sign m q hm) (hplain : isPlain v = true)
    (h : beforePoint? (natural v) = none) :
    (natural v).length ≤ signWidth v + wholeDigits (units v) (unitPlaces v) := by
  rw [natural_of_isPlain hu hplain] at h ⊢
  have hplaces : unitPlaces v = 0 := by
    by_contra hne
    rw [beforePoint?, if_pos (point_mem_signed_positional v _ hne)] at h
    cases h
  rw [length_signed, hplaces, length_positional, if_pos rfl, wholeDigits]
  omega

/-- **The text of a number is fitted in one of three ways**: it stays as it is, or it is rounded to places, or, if the
number is large, it gets an exponent. -/
theorem fitted_cases (hu : v.unpacked = .finite sign m q hm) (hwidth : 3 ≤ width) :
    fitted v width = natural v ∨ isPlain v = true ∧
      ((∃ p k, fitted v width = fixed v p ∧ unitPlaces v ≠ 0 ∧ 0 < k ∧ (m * 2 ^ q : ℚ) ≤ 10 ^ k ∧
          signWidth v + k + 1 + p ≤ width) ∨
        fitted v width = exponential v (width - 5) ∧ (10 : ℚ) ^ (width - 3) ≤ m * 2 ^ q) := by
  have hsign := signWidth_le_one v
  unfold fitted
  simp only
  split
  · exact .inl rfl
  next hlong =>
    have hplain := isPlain_of_not_mem hu fun he => hlong (.inl he)
    refine .inr ⟨hplain, ?_⟩
    cases hwhole : beforePoint? (natural v) with
    | none =>
      have hlength := length_natural_le_of_beforePoint?_none hu hplain hwhole
      have hwide : ¬ (natural v).length ≤ width := fun h => hlong (.inr h)
      exact .inr ⟨rfl, le_of_wholeDigits hu hwidth (by omega)⟩
    | some whole =>
      obtain ⟨hplaces, hlength⟩ := whole_of_beforePoint?_natural hu hplain hwhole
      simp only
      split
      next hwide => exact .inr ⟨rfl, le_of_wholeDigits hu hwidth (by omega)⟩
      next hroom =>
        obtain ⟨k, hdigits, hle⟩ := exists_wholeDigits (isFinite_of_unpacked hu) (fun he => hlong (.inl he)) hwhole
        obtain ⟨-, hsignificand, hexponent, -⟩ := fields_of_finite hu
        rw [hsignificand, hexponent] at hle
        have hpos := wholeDigits_pos (units v) (unitPlaces v)
        obtain ⟨p, hp, hfixed⟩ := exists_fixedWithin v width (width - whole.length - 1)
        exact .inl ⟨p, k, hfixed, hplaces, by omega, hle, by omega⟩

/-! ## Rounded to places -/

/-- A number below a power of ten has at most as many digits before the point as that has zeros. -/
theorem length_digitsOf_units_le (hk : 0 < k) (h : (units w * 10 ^ (-unitPlaces w : ℤ) : ℚ) < 10 ^ k) :
    (digitsOf (units w)).length ≤ k + unitPlaces w := by
  rw [zpow_neg, zpow_natCast, ← div_eq_mul_inv, div_lt_iff₀ (by positivity), ← pow_add] at h
  exact (Nat.length_toDigits_le_iff (by decide) (by omega)).2 (by exact_mod_cast h)

/-- All the digits of a number are less than twice a decimal that is read as it. -/
theorem units_lt_pow_succ (hu : w.unpacked = .finite sign m q hm) (hfull : 2 ^ 52 ≤ m) (h : RoundsTo x m q)
    (hx : x ≤ 10 ^ k) : (units w * 10 ^ (-unitPlaces w : ℤ) : ℚ) < 10 ^ (k + 1) := by
  have htwo : (0 : ℚ) < 2 ^ q := by positivity
  have hm : (2 : ℚ) ^ 52 * 2 ^ q ≤ m * 2 ^ q := by
    gcongr
    exact_mod_cast hfull
  have hlow := (abs_le.1 h.dist_le.1).1
  have hhigh := (abs_le.1 (dist_le_of_roundsTo (roundsTo_units hu) h)).2
  rw [pow_succ]
  linarith

/-- If there are places among the digits, no power of ten lies between the two: it would have no places. -/
theorem units_lt_pow (hu : w.unpacked = .finite sign m q hm) (hfull : 2 ^ 52 ≤ m) (h : RoundsTo x m q)
    (hx : x ≤ 10 ^ k) (hplaces : unitPlaces w ≠ 0) : (units w * 10 ^ (-unitPlaces w : ℤ) : ℚ) < 10 ^ k := by
  by_contra hge
  have hpower : RoundsTo ((1 : ℕ) * 10 ^ (k : ℤ)) m q := by
    rw [Nat.cast_one, one_mul, zpow_natCast]
    exact h.between (roundsTo_units hu) hx (not_lt.1 hge)
  have hcoarse := le_exponent_shortest hu hfull Nat.one_pos hpower
  unfold unitPlaces at hplaces
  omega

/-- The digits of a number fit, if it is that of a decimal with few digits. -/
theorem length_units_le (hu : w.unpacked = .finite sign m q hm) (hfull : 2 ^ 52 ≤ m) (hn : 0 < n) (hk : 0 < k)
    (hle : n ≤ 10 ^ (k + p)) (h : RoundsTo (n * 10 ^ (-p : ℤ)) m q) :
    (positional (units w) (unitPlaces w)).length ≤ k + 1 + p := by
  have hexponent := le_exponent_shortest hu hfull hn h
  have hplaces : unitPlaces w ≤ p := by
    unfold unitPlaces
    omega
  have hdecimal : (n * 10 ^ (-p : ℤ) : ℚ) ≤ 10 ^ k := by
    rw [zpow_neg, zpow_natCast, ← div_eq_mul_inv, div_le_iff₀ (by positivity), ← pow_add]
    exact_mod_cast hle
  rw [length_positional]
  split
  next hzero =>
    have hdigits := length_digitsOf_units_le (Nat.succ_pos k) (units_lt_pow_succ hu hfull h hdecimal)
    omega
  next hne =>
    -- the point takes a character, but the digits before it are one less
    have hdigits := length_digitsOf_units_le hk (units_lt_pow hu hfull h hdecimal hne)
    omega

/-- **What was rounded to places is written with all its digits from then on.** -/
theorem fitted_of_fixed (hu : w.unpacked = .finite sign m q hm) (hfull : 2 ^ 52 ≤ m) (hn : 0 < n) (hk : 0 < k)
    (hle : n ≤ 10 ^ (k + p)) (h : RoundsTo (n * 10 ^ (-p : ℤ)) m q) (hwidth : signWidth w + k + 1 + p ≤ width) :
    fitted w width = natural w := by
  have hlength := length_units_le hu hfull hn hk hle h
  unfold fitted
  simp only
  refine if_pos ?_
  by_cases hplain : isPlain w = true
  · refine .inr ?_
    rw [natural_of_isPlain hu hplain, length_signed]
    omega
  · rw [natural_of_finite hu, if_neg hplain]
    exact .inl (mem_signed_scientific w _ _)

/-- A number that is written without exponent is at least about a millionth. -/
theorem le_of_isPlain (hu : v.unpacked = .finite sign m q hm) (h : isPlain v = true) : (2 : ℚ) ^ (-72 : ℤ) ≤ m * 2 ^ q := by
  have hfrom : plainFrom.unpacked = .finite .positive 4722366482869645 (-72) (by decide) := by rfl
  have hq : -72 ≤ q := by
    have hle : plainFrom.le v.abs = true := (Bool.and_eq_true_iff.1 h).1
    rw [le_eq, unpacked_abs_of_finite hu, hfrom] at hle
    by_contra hsmall
    have hcompare : compare (-72) q = .gt := compare_gt_iff_gt.2 (by omega)
    simp only [UnpackedFloat.compare, hcompare] at hle
    cases hle
  have hm : (1 : ℚ) ≤ m := by exact_mod_cast hm
  exact (zpow_le_zpow_right₀ (by norm_num) hq).trans (le_mul_of_one_le_left (by positivity) hm)

/-- The number is a zero, or its text has it as its value. -/
def Settled (w : Binary64) (width : ℕ) : Prop :=
  (∃ s, w.unpacked = .zero s) ∨ Compute.valueOf (fitted w width) = .ok w

/-- A written zero has a zero as its value. -/
theorem exists_valueOf_signed_zero (v : Binary64) (s : Spelling) (h : s.decimal.digits = 0) :
    ∃ w t, w.unpacked = .zero t ∧ Compute.valueOf (signed v s.text) = .ok w := by
  have hread : s.decimal.toBinary64 = 0 := by
    rw [← toBinary64_zero s.decimal.exponent, ← h]
  have hfinite : s.decimal.toBinary64.isFinite = true := by
    rw [hread]
    rfl
  have hzero : (0 : Binary64).unpacked = .zero .positive := unpacked_ofNat_zero
  unfold signed
  split
  · refine ⟨-0, .negative, ?_, by rw [valueOf_neg_text s hfinite, hread]⟩
    rw [unpacked_neg, hzero]
    rfl
  · exact ⟨0, .positive, hzero, by rw [valueOf_text s hfinite, hread]⟩

/-- A decimal near a number of a plain size, written with the sign of that number, has a value. -/
theorem exists_valueOf_rounded (hu : v.unpacked = .finite sign m q hm) (hplain : isPlain v = true) (s : Spelling)
    {unit : ℚ} (hunit : unit ≤ s.decimal.value) (hdist : |s.decimal.value - m * 2 ^ q| ≤ 1 / 2 * unit) :
    ∃ w sign m q hm, w.unpacked = .finite sign m q hm ∧ signWidth w = signWidth v ∧ 2 ^ 52 ≤ m ∧
      RoundsTo s.decimal.value m q ∧ Compute.valueOf (signed v s.text) = .ok w := by
  obtain ⟨-, hsignificand, hexponent, -⟩ := fields_of_finite hu
  have hlow := le_of_isPlain hu hplain
  have hhigh := isModest_of_isPlain hu hplain
  rw [IsModest, hsignificand, hexponent] at hhigh
  obtain ⟨hbelow, habove⟩ := abs_le.1 hdist
  have hvalue : (2 : ℚ) ^ (-73 : ℤ) ≤ s.decimal.value := by
    have hdouble : (2 : ℚ) ^ (-72 : ℤ) = 2 * 2 ^ (-73 : ℤ) := by norm_num
    linarith
  have hvalue' : s.decimal.value < 2 ^ (71 : ℤ) := by
    have hdouble : (2 : ℚ) ^ (71 : ℤ) = 2 * 2 ^ (70 : ℤ) := by norm_num
    linarith
  exact exists_valueOf_signed v s ((zpow_le_zpow_right₀ (by norm_num) (by norm_num)).trans hvalue)
    (hvalue'.trans_le (zpow_le_zpow_right₀ (by norm_num) (by norm_num)))

/-- The value of a number that was rounded to places is settled. -/
theorem exists_settled_of_fixed (hu : v.unpacked = .finite sign m q hm) (hplain : isPlain v = true) (hk : 0 < k)
    (hle : (m * 2 ^ q : ℚ) ≤ 10 ^ k) (hwidth : signWidth v + k + 1 + p ≤ width) :
    ∃ w, Compute.valueOf (fixed v p) = .ok w ∧ Settled w width := by
  obtain ⟨-, hsignificand, hexponent, -⟩ := fields_of_finite hu
  have hplaces : Decimal.toPlaces v p ≤ 10 ^ (k + p) := toPlaces_le (by rwa [hsignificand, hexponent]) p
  obtain ⟨s, htext, hdecimal⟩ := exists_spelling_positional (Decimal.toPlaces v p) p
  rw [fixed, if_pos (isFinite_of_unpacked hu), ← htext]
  rcases Nat.eq_zero_or_pos (Decimal.toPlaces v p) with hzero | hn
  · obtain ⟨w, t, hw, hvalue⟩ := exists_valueOf_signed_zero v s (by rw [hdecimal, hzero])
    exact ⟨w, hvalue, .inl ⟨t, hw⟩⟩
  · have hvalue : s.decimal.value = Decimal.toPlaces v p * 10 ^ (-p : ℤ) := by rw [hdecimal, value]
    have hunit : (10 : ℚ) ^ (-p : ℤ) ≤ s.decimal.value := by
      rw [hvalue]
      exact le_mul_of_one_le_left (by positivity) (by exact_mod_cast hn)
    have hdist : |s.decimal.value - m * 2 ^ q| ≤ 1 / 2 * 10 ^ (-p : ℤ) := by
      rw [hvalue]
      exact dist_round_fraction hu p
    obtain ⟨w, sign', m', q', hm', hw, hsign, hfull, hrounds, hread⟩ := exists_valueOf_rounded hu hplain s hunit hdist
    rw [hvalue] at hrounds
    refine ⟨w, hread, .inr ?_⟩
    rw [fitted_of_fixed hw hfull hn hk hplaces hrounds (by omega)]
    exact valueOf_natural hw

/-! ## Written with an exponent -/

/-- A number with an exponent is the nearest multiple of its unit, written. -/
theorem exists_spelling_exponential (hu : v.unpacked = .finite sign m q hm) (hn : 0 < n) :
    ∃ s : Spelling, exponential v (n - 1) = signed v s.text ∧ s.decimal.value =
      roundDiv (fraction v (n - magnitudeOf v)).1 (fraction v (n - magnitudeOf v)).2 * 10 ^ (magnitudeOf v - n) := by
  obtain ⟨-, hsignificand, -⟩ := fields_of_finite hu
  have hfinite := isFinite_of_unpacked hu
  obtain ⟨hlength, hvalue⟩ := toSignificant_spec hu hn
  obtain ⟨s, htext, hdecimal⟩ := exists_spelling_scientific (digitsOf_ne_nil (toSignificant v n).1)
    (fun c => isDigit_digitsOf) (toSignificant v n).2
  refine ⟨s, ?_, ?_⟩
  · rw [exponential, hfinite, Bool.not_true, if_neg (by decide), hsignificand, if_neg hm.ne', Nat.sub_add_cancel hn, htext]
  · rw [hdecimal, hlength, ofDigitChars_digitsOf, ← hvalue]
    rfl

/-- If a decimal with `n` digits reads back, then one does on the grid of the number. -/
theorem exists_multiple {N u u' : ℕ} (hu : w.unpacked = .finite sign m q hm) (hn : 0 < n) (hN : N ≤ 10 ^ n)
    (hu' : magnitudeOf w - n = u') (h : RoundsTo (N * 10 ^ u) m q) : ∃ M : ℕ, RoundsTo (M * 10 ^ u') m q := by
  obtain ⟨hlow, -⟩ := magnitudeOf_bounds hu
  rcases Nat.lt_or_ge u u' with hcoarse | hfine
  · -- the number is at least the least with so many digits, and the decimal at most
    refine ⟨10 ^ (n - 1), ?_⟩
    have hpower : ((10 ^ (n - 1) : ℕ) : ℚ) * 10 ^ u' = 10 ^ (magnitudeOf w - 1) := by
      rw [Nat.cast_pow, Nat.cast_ofNat, ← pow_add, ← zpow_natCast]
      congr 1
      omega
    rw [hpower]
    refine h.between (.self m q) ?_ hlow
    rw [← hpower, Nat.cast_pow, Nat.cast_ofNat, ← pow_add]
    calc (N * 10 ^ u : ℚ) ≤ 10 ^ n * 10 ^ u := by
          gcongr
          exact_mod_cast hN
      _ = 10 ^ (n + u) := (pow_add ..).symm
      _ ≤ 10 ^ (n - 1 + u') := pow_le_pow_right₀ (by norm_num) (by omega)
  · refine ⟨N * 10 ^ (u - u'), ?_⟩
    rw [Nat.cast_mul, Nat.cast_pow, Nat.cast_ofNat, mul_assoc, ← pow_add, Nat.sub_add_cancel hfine]
    exact h

/-- The unit of a number with more digits than `n` before the point is a whole power of ten. -/
theorem exists_unit (hu : v.unpacked = .finite sign m q hm) (hlarge : (10 : ℚ) ^ (width - 3) ≤ m * 2 ^ q)
    (hn : n ≤ width - 2) : ∃ u : ℕ, magnitudeOf v - n = u := by
  obtain ⟨-, hhigh⟩ := magnitudeOf_bounds hu
  rw [← zpow_natCast] at hlarge
  have hexponent := (zpow_lt_zpow_iff_right₀ (by norm_num)).1 (hlarge.trans_lt hhigh)
  exact ⟨(magnitudeOf v - n).toNat, by omega⟩

/-- **What got an exponent is rounded to the same value again**, if it gets one again. -/
theorem valueOf_fitted_of_exponential {N u : ℕ} (hu : w.unpacked = .finite sign m q hm) (hfull : 2 ^ 52 ≤ m)
    (hwidth : 5 ≤ width) (hpos : 0 < N) (hN : N ≤ 10 ^ (width - 5 + 1)) (h : RoundsTo (N * 10 ^ u) m q) :
    Compute.valueOf (fitted w width) = .ok w := by
  have hthree : 3 ≤ width := by omega
  rcases fitted_cases hu hthree with hnatural | ⟨hplain, ⟨p, k, -, hplaces, -⟩ | ⟨hexponential, hlarge⟩⟩
  · rw [hnatural]
    exact valueOf_natural hu
  · -- a multiple of a power of ten has no places behind the point
    have hexponent := le_exponent_shortest (e := u) hu hfull hpos (by rwa [zpow_natCast])
    unfold unitPlaces at hplaces
    omega
  · obtain ⟨-, hsignificand, hexponent, -⟩ := fields_of_finite hu
    have hmodest := isModest_of_isPlain hu hplain
    rw [IsModest, hsignificand, hexponent] at hmodest
    obtain ⟨u', hu'⟩ := exists_unit (n := width - 5 + 1) hu hlarge (by omega)
    obtain ⟨M, hM⟩ := exists_multiple hu (Nat.succ_pos _) hN hu' h
    obtain ⟨s, htext, hvalue⟩ := exists_spelling_exponential (n := width - 5 + 1) hu (Nat.succ_pos _)
    have hdist := dist_round_fraction hu ((width - 5 + 1 : ℕ) - magnitudeOf w)
    rw [neg_sub, hu', zpow_natCast] at hdist
    rw [hu', zpow_natCast] at hvalue
    rw [hexponential, ← Nat.add_sub_cancel (n := width - 5) (m := 1), htext]
    exact valueOf_signed hu s (hvalue ▸ roundsTo_of_nearest hmodest hM hdist)

/-- The value of a number that got an exponent is settled. -/
theorem exists_settled_of_exponential (hu : v.unpacked = .finite sign m q hm) (hplain : isPlain v = true)
    (hlarge : (10 : ℚ) ^ (width - 3) ≤ m * 2 ^ q) (hwidth : 5 ≤ width) :
    ∃ w, Compute.valueOf (exponential v (width - 5)) = .ok w ∧ Settled w width := by
  obtain ⟨u, hu'⟩ := exists_unit (n := width - 5 + 1) hu hlarge (by omega)
  obtain ⟨hlow, hhigh⟩ := round_fraction_bounds (n := width - 5 + 1) hu (Nat.succ_pos _)
  obtain ⟨s, htext, hvalue⟩ := exists_spelling_exponential (n := width - 5 + 1) hu (Nat.succ_pos _)
  have hdist := dist_round_fraction hu ((width - 5 + 1 : ℕ) - magnitudeOf v)
  rw [neg_sub, hu', zpow_natCast] at hdist
  rw [hu', zpow_natCast] at hvalue
  generalize roundDiv (fraction v ((width - 5 + 1 : ℕ) - magnitudeOf v)).1
    (fraction v ((width - 5 + 1 : ℕ) - magnitudeOf v)).2 = N at *
  have hpos : 0 < N := lt_of_lt_of_le (by positivity) hlow
  have hunit : (10 : ℚ) ^ u ≤ s.decimal.value := by
    rw [hvalue]
    exact le_mul_of_one_le_left (by positivity) (by exact_mod_cast hpos)
  rw [← hvalue] at hdist
  obtain ⟨w, sign', m', q', hm', hw, -, hfull, hrounds, hread⟩ := exists_valueOf_rounded hu hplain s hunit hdist
  rw [hvalue] at hrounds
  rw [← Nat.add_sub_cancel (n := width - 5) (m := 1), htext]
  exact ⟨w, hread, .inr (valueOf_fitted_of_exponential hw hfull hwidth hpos hhigh hrounds)⟩

/-! ## Settled values -/

/-- **The value of the text of a number is settled**: written and read again, it stays the same. -/
theorem exists_settled (h : v.isFinite = true) (hwidth : 5 ≤ width) :
    ∃ w, Compute.valueOf (fitted v width) = .ok w ∧ Settled w width := by
  rcases finite_cases h with ⟨sign, hu⟩ | ⟨sign, m, q, hm, hu⟩
  · have hzero : (0 : Binary64).unpacked = .zero .positive := unpacked_ofNat_zero
    have hone : 1 ≤ width := by omega
    rw [fitted_of_zero hu hone]
    exact ⟨0, by decide +kernel, .inl ⟨.positive, hzero⟩⟩
  · have hthree : 3 ≤ width := by omega
    rcases fitted_cases hu hthree with hnatural | ⟨hplain, ⟨p, k, hfixed, -, hk, hle, hroom⟩ | ⟨hexponential, hlarge⟩⟩
    · have hvalue := valueOf_natural hu
      rw [← hnatural] at hvalue
      exact ⟨v, hvalue, .inr hvalue⟩
    · rw [hfixed]
      exact exists_settled_of_fixed hu hplain hk hle hroom
    · rw [hexponential]
      exact exists_settled_of_exponential hu hplain hlarge hwidth

/-- A settled value is equal to that of its text, and all numbers that are equal to it have the same text. -/
theorem Settled.exists_value (h : Settled w width) (hw : w.isFinite = true) (hwidth : 1 ≤ width) :
    ∃ w', Compute.valueOf (fitted w width) = .ok w' ∧ w'.eq w = true ∧ fitted w' width = fitted w width := by
  rcases h with ⟨s, hzero⟩ | hvalue
  · have hpositive : (0 : Binary64).unpacked = .zero .positive := unpacked_ofNat_zero
    have hagrees : (0 : Binary64).Agrees w := by
      rw [Agrees, hzero, hpositive]
      exact .zeros _ _
    have heq : (0 : Binary64).eq w = true := eq_iff.2 ⟨hagrees, rfl⟩
    refine ⟨0, ?_, heq, fitted_congr hwidth ⟨hw, hagrees⟩⟩
    rw [fitted_of_zero hzero hwidth]
    decide +kernel
  · exact ⟨w, hvalue, eq_iff.2 ⟨.refl w, (isFinite_iff.1 hw).1⟩, rfl⟩

end PocketCalc.Numeral
