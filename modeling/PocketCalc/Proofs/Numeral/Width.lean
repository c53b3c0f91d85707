import PocketCalc.Proofs.Numeral.Readable

/-!
# How wide the text of a number is

* `le_pow_ten` — a number is at most a power of ten that is above its shortest decimal;
* `length_fixed_le` — below a power of ten, rounding to places makes a number wider by one digit at most, the carry
  into a new one;
* `exists_wholeDigits` — the digits before the point in the text of a number are as many as such a power has;
* `fixedCounted`, `fittedCounted?` — how a text is fitted into a width, with subtractions that fail below zero, and with
  the number of places that are taken off in the end;
* `fitted_width` — no subtraction fails, one place is taken off at most, and the text fits the width or has an exponent.
-/

namespace PocketCalc.Numeral

open Binary64 Decimal Float.Model Float.Model.UnpackedFloat

variable {v : Binary64} {t whole : Text} {sign : Sign} {m n k num den : ℕ} {q : ℤ} {hm : 0 < m} {x : ℚ}
  {width places : ℕ}

/-! ## Powers of ten above a number -/

/-- A number is at most as large as a multiple of its last place that is above a decimal rounded to it. -/
theorem le_of_roundsTo (h : RoundsTo x m q) (hx : x < n * 2 ^ q) : m ≤ n := by
  have hpos : (0 : ℚ) < 2 ^ q := by positivity
  have hnear := h.nearest.1
  have hlt : x / 2 ^ q < n := (div_lt_iff₀ hpos).2 hx
  have hcast : (m : ℚ) < n + 1 := by linarith
  exact Nat.lt_succ_iff.1 (by exact_mod_cast hcast)

/-- The last place of a number below `2 ^ 70` is coarser than a power of ten only far above that power. -/
theorem exponent_le_of_roundsTo (hc : Canonical m q) (hmodest : (m * 2 ^ q : ℚ) < 2 ^ (70 : ℤ)) (h : RoundsTo x m q)
    (hx : x < 10 ^ k) : q ≤ k := by
  by_contra hlt
  have hfull : (2 : ℚ) ^ (52 : ℤ) ≤ m := by exact_mod_cast hc.full.resolve_right (by omega)
  have hq : q < 18 := by
    have hpow : (2 : ℚ) ^ (52 + q) < 2 ^ (70 : ℤ) := by
      rw [zpow_add₀ two_ne_zero]
      refine lt_of_le_of_lt ?_ hmodest
      gcongr
    have hexponent := (zpow_lt_zpow_iff_right₀ (one_lt_two (α := ℚ))).1 hpow
    omega
  have hten : (10 : ℚ) ^ k ≤ 2 ^ (51 : ℤ) * 2 ^ q := by
    have hfive : (5 : ℚ) ^ k ≤ 5 ^ 17 := pow_le_pow_right₀ (by norm_num) (by omega)
    have htwo : (2 : ℚ) ^ k ≤ 2 ^ q := by
      rw [← zpow_natCast]
      exact zpow_le_zpow_right₀ (by norm_num) (by omega)
    calc (10 : ℚ) ^ k = 5 ^ k * 2 ^ k := by rw [← mul_pow]; norm_num
      _ ≤ 5 ^ 17 * 2 ^ q := by gcongr
      _ ≤ 2 ^ (51 : ℤ) * 2 ^ q := by gcongr; norm_num
  have hlow : (2 : ℚ) ^ (51 : ℤ) * 2 ^ q ≤ x := by
    have hpos : (0 : ℚ) < 2 ^ q := by positivity
    have hnear := h.nearest.1
    have hdouble : (2 : ℚ) ^ (52 : ℤ) = 2 * 2 ^ (51 : ℤ) := by norm_num
    have hone : (1 : ℚ) ≤ 2 ^ (51 : ℤ) := by norm_num
    exact (le_div_iff₀ hpos).1 (by linarith)
  linarith

/-- **A number is at most a power of ten that is above a decimal rounded to it**, since the power is a number, too. -/
theorem le_pow_ten (hc : Canonical m q) (hmodest : (m * 2 ^ q : ℚ) < 2 ^ (70 : ℤ)) (h : RoundsTo x m q)
    (hx : x < 10 ^ k) : (m * 2 ^ q : ℚ) ≤ 10 ^ k := by
  have hq := exponent_le_of_roundsTo hc hmodest h hx
  have hten : (10 : ℚ) ^ k = (5 ^ k * 2 ^ (k - q).toNat : ℕ) * 2 ^ q := by
    have htwo : (2 : ℚ) ^ (k - q).toNat * 2 ^ q = 2 ^ k := by
      rw [← zpow_natCast, ← zpow_add₀ two_ne_zero, ← zpow_natCast]
      congr 1
      omega
    push_cast
    rw [mul_assoc, htwo, ← mul_pow]
    norm_num
  rw [hten] at hx ⊢
  gcongr
  exact le_of_roundsTo h hx

/-! ## A fixed number of places -/

theorem length_digitsOf_le (h : n ≤ 10 ^ k) : (digitsOf n).length ≤ k + 1 := by
  refine (Nat.length_toDigits_le_iff (by decide) (Nat.succ_pos k)).2 ?_
  rw [pow_succ]
  have hpos : 0 < 10 ^ k := by positivity
  omega

/-- A quotient is rounded to no more than a whole number that is not below it. -/
theorem roundDiv_le_of_le (hden : 0 < den) (h : num ≤ n * den) : roundDiv num den ≤ n := by
  have hnear := (roundDiv_near num hden).2
  have hle : 2 * roundDiv num den * den ≤ (2 * n + 1) * den := by linarith
  have hround := Nat.le_of_mul_le_mul_right hle hden
  omega

theorem toPlaces_le (h : (v.significand * 2 ^ v.exponent : ℚ) ≤ 10 ^ k) (places : ℕ) :
    Decimal.toPlaces v places ≤ 10 ^ (k + places) := by
  have hden : (0 : ℚ) < (fraction v places).2 := by exact_mod_cast fraction_den_pos v places
  refine roundDiv_le_of_le (fraction_den_pos v places) ?_
  have hquotient : ((fraction v places).1 : ℚ) / (fraction v places).2 ≤ 10 ^ (k + places) := by
    rw [value_fraction, pow_add, ← zpow_natCast (10 : ℚ) places]
    gcongr
  exact_mod_cast (div_le_iff₀ hden).1 hquotient

/-- How many characters a minus sign takes, if there is one. -/
def signWidth (v : Binary64) : ℕ := if v.isNegative then 1 else 0

theorem signWidth_le_one (v : Binary64) : signWidth v ≤ 1 := by
  unfold signWidth
  split <;> decide

theorem length_signed (v : Binary64) (t : Text) : (signed v t).length = signWidth v + t.length := by
  unfold signed signWidth
  split
  · exact Nat.add_comm ..
  · exact (Nat.zero_add _).symm

/-- How many characters the point and the places behind it take. -/
def placesWidth (places : ℕ) : ℕ := if places = 0 then 0 else places + 1

/-- **Rounded to places, a number is wider by one digit at most** than a power of ten that is not below it allows. -/
theorem length_fixed_le (h : v.isFinite = true) (hv : (v.significand * 2 ^ v.exponent : ℚ) ≤ 10 ^ k) (places : ℕ) :
    (fixed v places).length ≤ signWidth v + k + 1 + placesWidth places := by
  have hdigits := length_digitsOf_le (toPlaces_le hv places)
  rw [fixed, if_pos h, length_signed, length_positional, placesWidth]
  split
  next hzero =>
    rw [hzero] at hdigits ⊢
    omega
  next => omega

/-! ## The digits before the point -/

/-- How many digits stand before the point, with that many places behind it. -/
def wholeDigits (n places : ℕ) : ℕ := max (places + 1) (digitsOf n).length - places

theorem lt_pow_wholeDigits (n places : ℕ) : n < 10 ^ (wholeDigits n places + places) := by
  have hwidth : wholeDigits n places + places = max (places + 1) (digitsOf n).length := by
    unfold wholeDigits
    omega
  rw [hwidth]
  exact (Nat.length_toDigits_le_iff (by decide) (by omega)).1 (le_max_right ..)

theorem beforePoint?_of_isDigit (h : ∀ c ∈ t, c.isDigit = true) : beforePoint? t = none := by
  have hpoint : '.' ∉ t := by
    intro hmem
    cases h '.' hmem
  exact if_neg hpoint

theorem length_of_beforePoint?_positional (h : beforePoint? (positional n places) = some whole) :
    whole.length = wholeDigits n places := by
  have hdigits : ∀ c ∈ padded (places + 1) n, c.isDigit = true := isDigit_padded
  have hlength := length_padded (places + 1) n
  unfold positional at h
  split at h
  · rw [beforePoint?_of_isDigit fun c => isDigit_digitsOf] at h
    cases h
  next =>
    simp only at h
    generalize padded (places + 1) n = ds at *
    have hbefore : ∀ c ∈ ds.take (ds.length - places), (decide (c ≠ '.')) = true := by
      intro c hc
      exact decide_eq_true (ne_of_isDigit (hdigits c (List.mem_of_mem_take hc)) rfl)
    rw [beforePoint?, if_pos (List.mem_append_right _ (List.mem_cons_self ..)),
      takeWhile_append_eq hbefore (by simp)] at h
    cases h
    rw [List.length_take, wholeDigits]
    omega

theorem length_of_beforePoint?_signed (h : beforePoint? (signed v t) = some whole) :
    ∃ whole', beforePoint? t = some whole' ∧ whole.length = signWidth v + whole'.length := by
  unfold signed at h
  unfold signWidth
  split at h
  next hneg =>
    rw [if_pos hneg]
    by_cases hpoint : '.' ∈ t
    · rw [beforePoint?, if_pos (List.mem_cons_of_mem _ hpoint)] at h
      cases h
      exact ⟨_, if_pos hpoint, by simp [Nat.add_comm]⟩
    · rw [beforePoint?, if_neg (by simpa using hpoint)] at h
      cases h
  next hpos =>
    rw [if_neg hpos]
    exact ⟨whole, h, (Nat.zero_add _).symm⟩

/-- **The digits before the point**, in a text without exponent: a power of ten with that many zeros is not below the
number. -/
theorem exists_wholeDigits (h : v.isFinite = true) (hplain : 'e' ∉ natural v)
    (hwhole : beforePoint? (natural v) = some whole) :
    ∃ k, whole.length = signWidth v + k ∧ (v.significand * 2 ^ v.exponent : ℚ) ≤ 10 ^ k := by
  rcases finite_cases h with ⟨sign, hu⟩ | ⟨sign, m, q, hm, hu⟩
  · rw [natural_of_zero hu] at hwhole
    cases hwhole
  · have hsize : isPlain v = true := isPlain_of_not_mem hu hplain
    have hmodest := isModest_of_isPlain hu hsize
    obtain ⟨-, hsignificand, hexponent, -⟩ := fields_of_finite hu
    rw [IsModest, hsignificand, hexponent] at hmodest
    rw [natural_of_finite hu, if_pos hsize] at hwhole
    obtain ⟨whole', hwhole', hlength⟩ := length_of_beforePoint?_signed hwhole
    refine ⟨_, hlength.trans (congrArg _ (length_of_beforePoint?_positional hwhole')), ?_⟩
    rw [hsignificand, hexponent]
    refine le_pow_ten (canonical_of_finite hu) hmodest (shortest_roundsTo hu) ?_
    rw [← value_toPositional, value, zpow_neg, zpow_natCast, ← div_eq_mul_inv, div_lt_iff₀ (by positivity), ← pow_add]
    exact_mod_cast lt_pow_wholeDigits _ _

/-! ## Fitting -/

/-- The difference, unless it is below zero. -/
def minus? (a b : ℕ) : Option ℕ := if b ≤ a then some (a - b) else none

theorem minus?_eq_some (h : n ≤ k) : minus? k n = some (k - n) := if_pos h

/-- The text of `fixedWithin`, and how many places were taken off. -/
def fixedCounted (v : Binary64) (width : ℕ) : ℕ → Text × ℕ
  | 0 => (fixed v 0, 0)
  | places + 1 =>
    let t := fixed v (places + 1)
    if t.length ≤ width then (t, 0)
    else
      let r := fixedCounted v width places
      (r.1, r.2 + 1)

/-- The text of `fitted`, and how many places were taken off in the end. Where the width is too small for a subtraction
that is not bounded by zero, there is none. -/
def fittedCounted? (v : Binary64) (width : ℕ) : Option (Text × ℕ) :=
  let t := natural v
  if 'e' ∈ t ∨ t.length ≤ width then some (t, 0)
  else
    match beforePoint? t with
    | none => some (exponential v (width - 5), 0)
    | some whole =>
      if width ≤ whole.length then some (exponential v (width - 5), 0)
      else do
        let places ← minus? (← minus? width whole.length) 1
        return fixedCounted v width places

theorem fixedCounted_fst (v : Binary64) (width places : ℕ) :
    (fixedCounted v width places).1 = fixedWithin v width places := by
  induction places with
  | zero => rfl
  | succ places ih =>
    simp only [fixedCounted, fixedWithin]
    split
    · rfl
    · exact ih

/-- With room for all but a carry, the text fits once one place is taken off. -/
theorem fixedCounted_fits (hfixed : ∀ p, (fixed v p).length ≤ n + 1 + placesWidth p) (hwidth : width = n + 1 + places) :
    (fixedCounted v width places).1.length ≤ width ∧ (fixedCounted v width places).2 ≤ 1 := by
  have hroom : ∀ p < places, (fixed v p).length ≤ width := by
    intro p hp
    have hle := hfixed p
    unfold placesWidth at hle
    split at hle <;> omega
  cases places with
  | zero => exact ⟨(hfixed 0).trans hwidth.ge, Nat.zero_le 1⟩
  | succ places =>
    have hfits := hroom places (Nat.lt_succ_self places)
    have hcounted : fixedCounted v width places = (fixed v places, 0) := by
      cases places with
      | zero => rfl
      | succ places => exact if_pos hfits
    simp only [fixedCounted]
    split
    next hfirst => exact ⟨hfirst, Nat.zero_le 1⟩
    next =>
      rw [hcounted]
      exact ⟨hfits, le_rfl⟩

theorem mem_exponential (h : v.isFinite = true) (places : ℕ) : 'e' ∈ exponential v places := by
  unfold exponential
  rw [h, Bool.not_true, if_neg (by decide)]
  split
  · exact mem_signed_scientific v _ _
  · exact mem_signed_scientific v _ _

/-- **The width budget.** The text of a finite number, fitted into a width, fits it or has an exponent. No subtraction on
the way falls below zero, and at most one place is taken off in the end. -/
theorem fitted_width (h : v.isFinite = true) (width : ℕ) :
    ((fitted v width).length ≤ width ∨ 'e' ∈ fitted v width) ∧
      ∃ n ≤ 1, fittedCounted? v width = some (fitted v width, n) := by
  unfold fitted fittedCounted?
  simp only
  split
  next hshort => exact ⟨hshort.symm, 0, Nat.zero_le 1, rfl⟩
  next hlong =>
    cases hwhole : beforePoint? (natural v) with
    | none => exact ⟨.inr (mem_exponential h _), 0, Nat.zero_le 1, rfl⟩
    | some whole =>
      simp only
      split
      next => exact ⟨.inr (mem_exponential h _), 0, Nat.zero_le 1, rfl⟩
      next hroom =>
        obtain ⟨k, hlength, hv⟩ := exists_wholeDigits h (fun he => hlong (.inl he)) hwhole
        have hfixed := length_fixed_le h hv
        rw [← hlength] at hfixed
        have hwidth : width = whole.length + 1 + (width - whole.length - 1) := by omega
        obtain ⟨hfits, hcount⟩ := fixedCounted_fits hfixed hwidth
        rw [fixedCounted_fst] at hfits
        refine ⟨.inl hfits, _, hcount, ?_⟩
        rw [minus?_eq_some (by omega), ← fixedCounted_fst]
        show (minus? (width - whole.length) 1 >>= _) = _
        rw [minus?_eq_some (by omega)]
        rfl

/-- The number `9.9999999999` in ten characters: the carry makes the text too wide, and one place is taken off. -/
theorem fitted_width_carry :
    let v := Decimal.toBinary64 ⟨99999999999, -10⟩
    v.isFinite = true ∧ fitted v 10 = "10.0000000".toList ∧ fittedCounted? v 10 = some (fitted v 10, 1) ∧
      ((fitted v 10).length ≤ 10 ∨ 'e' ∈ fitted v 10) := by
  intro v
  have hfinite : v.isFinite = true := by decide +kernel
  exact ⟨hfinite, by decide +kernel, by decide +kernel, (fitted_width hfinite 10).1⟩

end PocketCalc.Numeral
