import PocketCalc.Proofs.Binary64.Finite
import PocketCalc.Proofs.Binary64.Product
import PocketCalc.Proofs.Binary64.Whole

/-!
# Factorials, round by round

The factors of a factorial can be counted in numbers, up to the number that stands for the last one. That may be so large
that one more than a factor is the same factor again, and the counting alone would not come to an end.

* `multiplyWithin`, `factorialWithin` — the loop that counts so, with a bound on its rounds;
* `multiplyWithin_eq` — while factors are counted exactly, it multiplies by the natural numbers in turn;
* `IsNearNatural`, `isRefused_eq_false` — what a factorial is defined for, in terms of values;
* `factorialWithin_eq` — the loop takes as many rounds as there are factors, but 170 at most, since no product goes farther;
* `factorial_terminates` — it ends, and when it fails, and what comes out of it otherwise.
-/

namespace PocketCalc.Binary64

variable {a b v last acc : Binary64} {k n rounds rounds' : ℕ} {o : Except EvalError Binary64}

/-! ## The loop -/

/-- The product so far is multiplied by the next factor, unless that is above the last one; an infinite product ends the
loop. None if the loop would go on for more than `rounds` rounds. -/
def multiplyWithin (last : Binary64) : (rounds : ℕ) → (acc factor : Binary64) → Option (Except EvalError Binary64)
  | 0, acc, factor => if factor.le last then none else some (.ok acc)
  | rounds + 1, acc, factor =>
    if factor.le last then
      if (acc * factor).isInfinite then some (.error .overflow)
      else multiplyWithin last rounds (acc * factor) (factor + 1)
    else some (.ok acc)

/-- The number is not finite, or too far below zero, or too far from the nearest whole number. -/
def isRefused (v : Binary64) : Bool := !v.isFinite || v.lt (-tolerance) || tolerance.lt (v - v.round).abs

/-- The factorial by the loop that starts with two and ends with the nearest whole number. -/
def factorialWithin (rounds : ℕ) (v : Binary64) : Option (Except EvalError Binary64) :=
  if v.isRefused then some (.error (.domain .notNatural)) else multiplyWithin v.round rounds 1 2

/-- A loop that has come to its end does not go on if it may. -/
theorem multiplyWithin_mono (h : multiplyWithin last rounds acc a = some o) (hle : rounds ≤ rounds') :
    multiplyWithin last rounds' acc a = some o := by
  induction rounds generalizing acc a rounds' with
  | zero =>
    simp only [multiplyWithin] at h
    split at h
    · cases h
    next hlast => cases rounds' <;> simpa only [multiplyWithin, if_neg hlast] using h
  | succ rounds ih =>
    obtain ⟨rounds', rfl⟩ : ∃ r, rounds' = r + 1 := ⟨rounds' - 1, by omega⟩
    simp only [multiplyWithin] at h ⊢
    by_cases hlast : a.le last = true
    · rw [if_pos hlast] at h ⊢
      by_cases hinf : (acc * a).isInfinite = true
      · rwa [if_pos hinf] at h ⊢
      · rw [if_neg hinf] at h ⊢
        exact ih h (Nat.le_of_succ_le_succ hle)
    · rwa [if_neg hlast] at h ⊢

/-! ## Counting -/

/-- Natural numbers are counted exactly as long as they have 53 binary places at most. -/
theorem ofNat_add_one (h : k + 1 < 2 ^ 53) : ofNat k + 1 = ofNat (k + 1) := by
  obtain ⟨m, e, hm, hu, hvalue⟩ := unpacked_ofNat (Nat.succ_pos k) h
  obtain ⟨hfinite, hk⟩ := toRat_ofNat (n := k) (by omega)
  obtain ⟨hone, hone'⟩ := toRat_ofNat (n := 1) (by norm_num)
  have hsum := nearest_add hfinite hone
  rw [hk, hone', ← Nat.cast_add, ← hvalue] at hsum
  have heq := hsum.unpacked_eq (by positivity) hm (canonical_of_finite hu) (.self m e)
  exact eq_of_unpacked (heq.trans hu.symm) hsum.isNaN

theorem ofNat_le_iff (hk : k < 2 ^ 53) (hlast : last.isFinite = true) (hn : last.toRat = n) :
    (ofNat k).le last = true ↔ k ≤ n := by
  obtain ⟨hfinite, hvalue⟩ := toRat_ofNat hk
  rw [le_iff hfinite hlast, hvalue, hn, Nat.cast_le]

/-- **While factors are counted exactly, the loop multiplies by the natural numbers in turn**, one in each round, and ends
with the last one unless a product is infinite before. -/
theorem multiplyWithin_eq (hlast : last.isFinite = true) (hn : last.toRat = n) (hk : k + rounds < 2 ^ 53) :
    multiplyWithin last rounds acc (ofNat k) =
      match productFrom acc k (min rounds (n + 1 - k)) with
      | .ok u => if n + 1 - k ≤ rounds then some (.ok u) else none
      | .error err => some (.error err) := by
  induction rounds generalizing acc k with
  | zero =>
    have hguard : (ofNat k).le last = true ↔ ¬ n + 1 - k ≤ 0 := (ofNat_le_iff (by omega) hlast hn).trans (by omega)
    simp only [multiplyWithin, hguard, Nat.zero_min, productFrom, ite_not]
  | succ rounds ih =>
    have hguard : (ofNat k).le last = true ↔ k ≤ n := ofNat_le_iff (by omega) hlast hn
    simp only [multiplyWithin, hguard]
    rcases Nat.lt_or_ge n k with hgt | hle
    · have hcount : n + 1 - k = 0 := by omega
      rw [if_neg (Nat.not_le.2 hgt), hcount, Nat.min_zero, productFrom]
      rfl
    · have hcount : n + 1 - k = n + 1 - (k + 1) + 1 := by omega
      rw [if_pos hle, hcount, Nat.add_min_add_right, productFrom]
      by_cases hinf : (acc * ofNat k).isInfinite = true
      · simp only [if_pos hinf]
      · simp only [if_neg hinf, Nat.add_le_add_iff_right]
        rw [ofNat_add_one (by omega)]
        exact ih (by omega)

/-! ## What factorials are defined for -/

/-- The number is finite, not below zero by more than the tolerance, and no farther than that from the nearest whole
number. -/
@[mk_iff]
structure IsNearNatural (v : Binary64) : Prop where
  finite : v.isFinite = true
  low : -tolerance.toRat ≤ v.toRat
  near : |v.toRat - v.round.toRat| ≤ tolerance.toRat

theorem isFinite_tolerance : tolerance.isFinite = true := by decide +kernel

/-- The tolerance is less than a half, so that it reaches one whole number at most. -/
theorem toRat_tolerance_lt : tolerance.toRat < 1 / 2 := by
  have hfields : tolerance.significand = 4835703278458517 ∧ tolerance.exponent = -82 := by decide +kernel
  refine (le_abs_self _).trans_lt ?_
  rw [abs_toRat, distance, hfields.1, hfields.2]
  norm_num

theorem lt_tolerance_iff (h : v.isFinite = true) : v.lt (-tolerance) = true ↔ v.toRat < -tolerance.toRat := by
  rw [lt_iff h ((isFinite_neg _).trans isFinite_tolerance), toRat_neg isFinite_tolerance]

/-- The distance from the nearest whole number is found out exactly. -/
theorem tolerance_lt_iff (h : v.isFinite = true) (hb : b.isFinite = true) (heq : b.toRat = v.round.toRat) :
    tolerance.lt (v - b).abs = true ↔ tolerance.toRat < |v.toRat - v.round.toRat| := by
  obtain ⟨hfinite, hvalue⟩ := toRat_sub_of_eq_round h hb heq
  obtain ⟨hfinite', hvalue'⟩ := toRat_abs hfinite
  rw [lt_iff isFinite_tolerance hfinite', hvalue', hvalue]

theorem isRefused_eq_false : v.isRefused = false ↔ v.IsNearNatural := by
  have hparts : v.isRefused = false ↔
      v.isFinite = true ∧ v.lt (-tolerance) = false ∧ tolerance.lt (v - v.round).abs = false := by
    simp only [isRefused, Bool.or_eq_false_iff, Bool.not_eq_false', and_assoc]
  rw [hparts, isNearNatural_iff]
  refine and_congr_right fun h => ?_
  rw [Bool.eq_false_iff, Bool.eq_false_iff, ne_eq, ne_eq, lt_tolerance_iff h, tolerance_lt_iff h (toRat_round h).1 rfl,
    not_lt, not_lt]

/-- A number that is not below zero by more than the tolerance is not nearest to a negative whole number. -/
theorem toRat_round_eq (h : v.isFinite = true) (hlow : -tolerance.toRat ≤ v.toRat) : v.round.toRat = v.roundAbs := by
  rw [(toRat_round h).2]
  cases hsign : v.sign with
  | positive => rfl
  | negative =>
    have hvalue : v.toRat = -v.distance := by rw [toRat, hsign]; rfl
    have hlt := toRat_tolerance_lt
    have hzero : v.roundAbs = 0 := by
      rw [roundAbs_eq, Nat.floor_eq_zero]
      linarith
    rw [hzero, Nat.cast_zero, signed_zero]

/-- The difference from the natural number is the difference from the nearest whole number, where it counts. -/
theorem factorial_eq (v : Binary64) :
    factorial v = if v.isRefused then .error (.domain .notNatural) else productFrom 1 2 (v.roundAbs - 1) := by
  have hguard : (!v.isFinite || v.lt (-tolerance) || tolerance.lt (v - ofNat v.roundAbs).abs) = v.isRefused := by
    rw [isRefused]
    by_cases h : v.isFinite = true
    · by_cases hlow : v.lt (-tolerance) = true
      · simp only [hlow, Bool.or_true, Bool.true_or]
      · congr 1
        rw [lt_tolerance_iff h, not_lt] at hlow
        obtain ⟨hfinite, hvalue⟩ := (nearest_ofNat v.roundAbs).toRat_eq (isNumber_roundAbs h)
        rw [Bool.eq_iff_iff, tolerance_lt_iff h hfinite (hvalue.trans (toRat_round_eq h hlow).symm),
          tolerance_lt_iff h (toRat_round h).1 rfl]
    · simp only [Bool.eq_false_iff.2 h, Bool.not_false, Bool.true_or]
  simp only [factorial, hguard]

/-! ## Factorials -/

/-- The factors from two up to the nearest whole number are counted exactly in each of the first 170 rounds. -/
theorem multiplyWithin_round (h : v.IsNearNatural) (hr : rounds ≤ 170) : multiplyWithin v.round rounds 1 2 =
    match productFrom 1 2 (min rounds (v.roundAbs - 1)) with
    | .ok u => if v.roundAbs - 1 ≤ rounds then some (.ok u) else none
    | .error err => some (.error err) :=
  multiplyWithin_eq (k := 2) (toRat_round h.finite).1 (toRat_round_eq h.finite h.low) (by omega)

/-- **A round for each factor is enough, and so are 170 rounds.** -/
theorem multiplyWithin_enough (h : v.IsNearNatural) (hcount : min (v.roundAbs - 1) 170 ≤ rounds) :
    multiplyWithin v.round rounds 1 2 = some (productFrom 1 2 (v.roundAbs - 1)) := by
  have hfew : multiplyWithin v.round (min rounds 170) 1 2 = some (productFrom 1 2 (v.roundAbs - 1)) := by
    rw [multiplyWithin_round h (Nat.min_le_right _ _)]
    rcases Nat.lt_or_ge (min rounds 170) (v.roundAbs - 1) with hlt | hge
    · -- all 170 rounds are made, and there are more factors
      have hall : min rounds 170 = 170 := by omega
      rw [hall] at hlt ⊢
      rw [Nat.min_eq_left hlt.le, productFrom_eq_overflow le_rfl, productFrom_eq_overflow hlt.le]
    · rw [Nat.min_eq_right hge]
      cases productFrom 1 2 (v.roundAbs - 1) with
      | ok u => exact if_pos hge
      | error err => rfl
  exact multiplyWithin_mono hfew (Nat.min_le_left _ _)

/-- With fewer rounds the product is still a number, and there are factors left. -/
theorem multiplyWithin_eq_none (h : v.IsNearNatural) (hcount : rounds < min (v.roundAbs - 1) 170) :
    multiplyWithin v.round rounds 1 2 = none := by
  obtain ⟨u, hu, -⟩ := exists_productFrom (c := rounds) (by omega)
  rw [multiplyWithin_round h (by omega), Nat.min_eq_left (by omega), hu]
  exact if_neg (by omega)

/-- How many rounds the loop takes: as many as there are factors, but no more than 170. -/
def roundsOf (v : Binary64) : ℕ := if v.isRefused then 0 else min (v.roundAbs - 1) 170

/-- **The loop takes so many rounds and gives the factorial.** -/
theorem factorialWithin_eq (v : Binary64) (rounds : ℕ) :
    factorialWithin rounds v = if v.roundsOf ≤ rounds then some (factorial v) else none := by
  cases hrefused : v.isRefused with
  | true => simp only [factorialWithin, roundsOf, factorial_eq, hrefused, if_true, Nat.zero_le]
  | false =>
    have hnear := isRefused_eq_false.1 hrefused
    simp only [factorialWithin, roundsOf, factorial_eq, hrefused, Bool.false_eq_true, if_false]
    split
    next hcount => exact multiplyWithin_enough hnear hcount
    next hcount => exact multiplyWithin_eq_none hnear (Nat.lt_of_not_le hcount)

/-- One round less is not enough for a number whose factorial is beyond all numbers. -/
example : factorialWithin 169 (ofFloat 1e308) = none := by
  rw [factorialWithin_eq]
  exact if_neg (by decide +kernel)

theorem roundsOf_le (v : Binary64) : v.roundsOf ≤ 170 := by
  unfold roundsOf
  split
  · exact Nat.zero_le 170
  · exact Nat.min_le_right _ 170

theorem not_isNearNatural : ¬ v.IsNearNatural ↔
    v.isFinite = false ∨ v.toRat < -tolerance.toRat ∨ tolerance.toRat < |v.toRat - v.round.toRat| := by
  rw [isNearNatural_iff, not_and_or, not_and_or, not_le, not_le, Bool.not_eq_true]

/-- A factorial is refused, or overflows, or is a number. -/
theorem factorial_cases (v : Binary64) :
    (¬ v.IsNearNatural ∧ factorial v = .error (.domain .notNatural)) ∨
      (v.IsNearNatural ∧ 171 ≤ v.round.toRat ∧ factorial v = .error .overflow) ∨
      (v.IsNearNatural ∧ v.round.toRat < 171 ∧ ∃ u, factorial v = .ok u) := by
  rw [factorial_eq, ← isRefused_eq_false]
  cases hrefused : v.isRefused with
  | true => exact .inl ⟨by decide, rfl⟩
  | false =>
    obtain ⟨hfinite, hlow, -⟩ := isRefused_eq_false.1 hrefused
    rw [toRat_round_eq hfinite hlow, if_neg (by decide)]
    rcases Nat.lt_or_ge v.roundAbs 171 with hlt | hge
    · obtain ⟨u, hu, -⟩ := exists_productFrom (c := v.roundAbs - 1) (by omega)
      exact .inr (.inr ⟨rfl, by exact_mod_cast hlt, u, hu⟩)
    · exact .inr (.inl ⟨rfl, by exact_mod_cast hge, productFrom_eq_overflow (by omega)⟩)

/-- **Factorials terminate, within 170 rounds.** The factorial is refused exactly if the number is not finite, or below zero
by more than the tolerance, or farther than that from the nearest whole number. Otherwise it overflows exactly if that
whole number is at least 171, and is a finite number if not: the product of the natural numbers from two up to the whole
number, multiplied from the left and rounded at each step. -/
theorem factorial_terminates (v : Binary64) :
    (∀ rounds, 170 ≤ rounds → factorialWithin rounds v = some (factorial v)) ∧
      (factorial v = .error (.domain .notNatural) ↔
        v.isFinite = false ∨ v.toRat < -tolerance.toRat ∨ tolerance.toRat < |v.toRat - v.round.toRat|) ∧
      (factorial v = .error .overflow ↔ v.IsNearNatural ∧ 171 ≤ v.round.toRat) ∧
      (v.IsNearNatural → v.round.toRat < 171 → ∃ n : ℕ, v.round.toRat = n ∧ ∃ u, factorial v = .ok u ∧
        u.isFinite = true ∧ u = ((List.range' 2 (n - 1)).map ofNat).foldl (· * ·) 1) := by
  have hrounds (rounds : ℕ) (h : 170 ≤ rounds) : factorialWithin rounds v = some (factorial v) := by
    rw [factorialWithin_eq, if_pos ((roundsOf_le v).trans h)]
  rw [← not_isNearNatural]
  refine ⟨hrounds, ?_⟩
  rcases factorial_cases v with ⟨hnear, h⟩ | ⟨hnear, hlarge, h⟩ | ⟨hnear, hsmall, u, h⟩
  · rw [h]
    exact ⟨iff_of_true rfl hnear, iff_of_false nofun fun hnear' => hnear hnear'.1, fun hnear' => absurd hnear' hnear⟩
  · rw [h]
    exact ⟨iff_of_false nofun (not_not.2 hnear), iff_of_true rfl ⟨hnear, hlarge⟩,
      fun _ hsmall => absurd hsmall (not_lt.2 hlarge)⟩
  · have hproduct := (eq_product_of_factorial h).trans (product_eq_foldl 1 2 _)
    refine ⟨?_, ?_, fun _ _ => ⟨v.roundAbs, toRat_round_eq hnear.finite hnear.low, u, h, ?_, hproduct⟩⟩
    · exact iff_of_false (by rw [h]; nofun) (not_not.2 hnear)
    · exact iff_of_false (by rw [h]; nofun) fun hlarge => absurd hsmall (not_lt.2 hlarge.2)
    · exact (nearFactorial_of_factorial h).isLarge.isFinite

/-- The loop comes to its end far above all factors that are counted exactly, and the factorial of 170 is a number. -/
theorem factorial_terminates_limits :
    factorialWithin 170 (ofFloat 1e308) = some (factorial (ofFloat 1e308)) ∧
      (ofNat 170).IsNearNatural ∧ (ofNat 170).round.toRat < 171 ∧
      ∃ n : ℕ, (ofNat 170).round.toRat = n ∧ ∃ u, factorial (ofNat 170) = .ok u ∧
        u.isFinite = true ∧ u = ((List.range' 2 (n - 1)).map ofNat).foldl (· * ·) 1 := by
  have hnear : (ofNat 170).IsNearNatural := isRefused_eq_false.1 (by decide +kernel)
  have hsmall : (ofNat 170).round.toRat < 171 := by
    have hround : (ofNat 170).roundAbs = 170 := by decide +kernel
    rw [toRat_round_eq hnear.finite hnear.low, hround]
    norm_num
  exact ⟨(factorial_terminates (ofFloat 1e308)).1 170 le_rfl, hnear, hsmall,
    (factorial_terminates (ofNat 170)).2.2.2 hnear hsmall⟩

end PocketCalc.Binary64
