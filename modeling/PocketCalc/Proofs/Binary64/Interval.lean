import PocketCalc.Proofs.Binary64.Rounding

/-!
# The interval of a number

* `RoundsTo.between`, `RoundsTo.of_nearer` — the interval has no gaps, and goes as far above the number as below it,
  except at a power of two;
* `eq_of_roundsTo` — a whole number is rounded to itself, if the last binary place of the result is not above the
  point;
* `threshold`, `exists_roundsTo_of_lt` — every value below the threshold lies in the interval of some number;
* `exists_canonical` — a value with at most 53 places is a number itself;
* `RoundsTo.lt_threshold`, `exists_roundsTo_of_ge` — no other value does, for the exponent would be above all exponents;
* `RoundsTo.le_of_le` — a value that is not above some number is rounded to one that is not above it.
-/

namespace PocketCalc.Binary64

variable {x y z : ℚ} {m n : ℕ} {q : ℤ}

/-- The neighbour below is nearer than the one above. -/
def Narrow (m : ℕ) (q : ℤ) : Prop := m = 2 ^ 52 ∧ -1074 < q

/-- The interval of a number has no gaps. -/
theorem RoundsTo.between (hx : RoundsTo x m q) (hz : RoundsTo z m q) (hxy : x ≤ y) (hyz : y ≤ z) : RoundsTo y m q where
  low := hx.low.trans hxy
  high := hyz.trans hz.high
  tie hodd := ⟨(hx.tie hodd).1.trans_le hxy, hyz.trans_lt (hz.tie hodd).2⟩

/-- How far a value may be from the number, in units of the last binary place. -/
theorem RoundsTo.dist_le (h : RoundsTo x m q) :
    |x - m * 2 ^ q| ≤ 1 / 2 * 2 ^ q ∧ (m % 2 = 1 → |x - m * 2 ^ q| < 1 / 2 * 2 ^ q) := by
  obtain ⟨hlow, hhigh, htie⟩ := h.nearest
  have hpos : (0 : ℚ) < 2 ^ q := by positivity
  rw [le_div_iff₀ hpos] at hlow
  rw [div_le_iff₀ hpos] at hhigh
  rw [lt_div_iff₀ hpos, div_lt_iff₀ hpos] at htie
  refine ⟨abs_le.2 ⟨by linarith, by linarith⟩, fun hodd => ?_⟩
  obtain ⟨hlow, hhigh⟩ := htie hodd
  exact abs_lt.2 ⟨by linarith, by linarith⟩

theorem zpow_half (q : ℤ) : (2 : ℚ) ^ (q - 1) = 2 ^ q / 2 := zpow_sub_one₀ two_ne_zero q

theorem zpow_quarter (q : ℤ) : (2 : ℚ) ^ (q - 2) = 2 ^ q / 4 := by
  rw [zpow_sub₀ two_ne_zero]
  norm_num

/-- A value that is within half a unit lies in the interval, unless it is below a power of two. -/
theorem RoundsTo.of_dist_le (h : |y - m * 2 ^ q| ≤ 1 / 2 * 2 ^ q) (htie : m % 2 = 1 → |y - m * 2 ^ q| < 1 / 2 * 2 ^ q)
    (hside : ¬ Narrow m q ∨ m * 2 ^ q ≤ y) : RoundsTo y m q := by
  have hpos : (0 : ℚ) < 2 ^ q := by positivity
  have hquarter := zpow_quarter q
  obtain ⟨hlow, hhigh⟩ := abs_le.1 h
  refine ⟨?_, ?_, fun hodd => ?_⟩
  · rw [hquarter]
    split
    next hnarrow =>
      have hle := hside.resolve_left (not_not.2 hnarrow)
      linarith
    next => linarith
  · rw [hquarter]
    linarith
  · obtain ⟨hlow, hhigh⟩ := abs_lt.1 (htie hodd)
    rw [hquarter]
    constructor <;> linarith

/-- A value that is within a quarter of a unit lies in the interval. -/
theorem RoundsTo.of_dist_le_quarter (h : |y - m * 2 ^ q| ≤ 1 / 4 * 2 ^ q) : RoundsTo y m q := by
  have hpos : (0 : ℚ) < 2 ^ q := by positivity
  have hquarter := zpow_quarter q
  obtain ⟨hlow, hhigh⟩ := abs_le.1 h
  refine ⟨?_, ?_, fun _ => ?_⟩
  · rw [hquarter]
    split <;> linarith
  · rw [hquarter]
    linarith
  · rw [hquarter]
    constructor <;> linarith

/-- A value that is not farther away lies in the interval, too, unless it is below a power of two and the other one is
not. -/
theorem RoundsTo.of_nearer (hx : RoundsTo x m q) (hy : |y - m * 2 ^ q| ≤ |x - m * 2 ^ q|)
    (hside : ¬ Narrow m q ∨ m * 2 ^ q ≤ y ∨ x ≤ m * 2 ^ q) : RoundsTo y m q := by
  obtain ⟨habs, htie⟩ := hx.dist_le
  have hsym (hside : ¬ Narrow m q ∨ m * 2 ^ q ≤ y) : RoundsTo y m q :=
    .of_dist_le (hy.trans habs) (fun hodd => hy.trans_lt (htie hodd)) hside
  rcases hside with hside | hside | hbelow
  · exact hsym (.inl hside)
  · exact hsym (.inr hside)
  · rcases le_total (m * 2 ^ q : ℚ) y with habove | hbelow'
    · exact hsym (.inr habove)
    · rw [abs_of_nonpos (by linarith), abs_of_nonpos (by linarith)] at hy
      exact hx.between (.self m q) (by linarith) hbelow'

/-- A value is less than twice as large as its number. -/
theorem RoundsTo.le_two_mul (h : RoundsTo x m q) (hm : 0 < m) : x ≤ 2 * (m * 2 ^ q) := by
  have hpos : (0 : ℚ) < 2 ^ q := by positivity
  have hm : (1 : ℚ) ≤ m := by exact_mod_cast hm
  have hle : (2 : ℚ) ^ q ≤ m * 2 ^ q := le_mul_of_one_le_left hpos.le hm
  have hdist := (abs_le.1 h.dist_le.1).2
  linarith

/-- A number is at most twice as large as its values. -/
theorem RoundsTo.le_two_mul_value (h : RoundsTo x m q) (hx : 0 ≤ x) : (m * 2 ^ q : ℚ) ≤ 2 * x := by
  rcases Nat.eq_zero_or_pos m with rfl | hm
  · rw [Nat.cast_zero, zero_mul]
    positivity
  · have hm : (1 : ℚ) ≤ m := by exact_mod_cast hm
    have hpos : (0 : ℚ) < 2 ^ q := by positivity
    have hunit : (2 : ℚ) ^ q ≤ m * 2 ^ q := le_mul_of_one_le_left hpos.le hm
    have hlow := (abs_le.1 h.dist_le.1).1
    linarith

/-- Multiples that are less than one unit apart are the same. -/
theorem eq_of_dist_lt {unit : ℚ} (hunit : 0 < unit) (h : |n * unit - m * unit| < unit) : n = m := by
  rw [← sub_mul, abs_mul, abs_of_pos hunit] at h
  have hlt : |(n : ℚ) - m| < 1 := lt_of_mul_lt_mul_right (by rwa [one_mul]) hunit.le
  have hzero : |((n : ℤ) - m : ℤ)| < 1 := by exact_mod_cast hlt
  have heq := Int.abs_lt_one_iff.1 hzero
  omega

/-- A whole number is rounded to itself, if the last binary place is a fraction. -/
theorem eq_of_roundsTo (hq : q ≤ 0) (h : RoundsTo n m q) : (n : ℚ) = m * 2 ^ q := by
  have hpos : (0 : ℚ) < 2 ^ q := by positivity
  have hscale : (n : ℚ) = (n * 2 ^ (-q).toNat : ℕ) * 2 ^ q := by
    have hone : (2 : ℚ) ^ (-q).toNat * 2 ^ q = 1 := by
      rw [← zpow_natCast, ← zpow_add₀ two_ne_zero, show ((-q).toNat : ℤ) + q = 0 by omega, zpow_zero]
    push_cast
    rw [mul_assoc, hone, mul_one]
  have hdist := h.dist_le.1
  rw [hscale] at hdist ⊢
  rw [eq_of_dist_lt hpos (hdist.trans_lt (by linarith))]

/-! ## Every value has a number -/

/-- The nearest whole number, and of two the even one. -/
theorem exists_nearest (hy : 0 ≤ y) :
    ∃ n : ℕ, |y - n| ≤ 1 / 2 ∧ (n % 2 = 1 → |y - n| < 1 / 2) ∧ (n = ⌊y⌋₊ ∨ n = ⌊y⌋₊ + 1) := by
  have hfloor : (⌊y⌋₊ : ℚ) ≤ y := Nat.floor_le hy
  have hceil : y < ⌊y⌋₊ + 1 := Nat.lt_floor_add_one y
  have hbelow : |y - ⌊y⌋₊| = y - ⌊y⌋₊ := abs_of_nonneg (by linarith)
  have habove : |y - (⌊y⌋₊ + 1 : ℕ)| = ⌊y⌋₊ + 1 - y := by
    push_cast
    rw [abs_of_nonpos (by linarith)]
    ring
  rcases lt_trichotomy (y - ⌊y⌋₊) (1 / 2) with hlt | heq | hgt
  · exact ⟨⌊y⌋₊, by rw [hbelow]; exact hlt.le, fun _ => by rw [hbelow]; exact hlt, .inl rfl⟩
  · rcases Nat.mod_two_eq_zero_or_one ⌊y⌋₊ with heven | hodd
    · exact ⟨⌊y⌋₊, by rw [hbelow, heq], fun hodd => by omega, .inl rfl⟩
    · exact ⟨⌊y⌋₊ + 1, by rw [habove]; linarith, fun hodd' => by omega, .inr rfl⟩
  · exact ⟨⌊y⌋₊ + 1, by rw [habove]; linarith, fun _ => by rw [habove]; linarith, .inr rfl⟩

/-- The distance from a multiple, counted in units. -/
theorem dist_mul {unit : ℚ} (hunit : 0 < unit) (y : ℚ) (n : ℕ) : |y - n * unit| = |y / unit - n| * unit := by
  rw [← abs_of_pos hunit, ← abs_mul, abs_of_pos hunit, sub_mul, div_mul_cancel₀ _ hunit.ne']

/-- Halfway from the greatest finite number to the next power of two. -/
def threshold : ℚ := (2 ^ 53 - 1 / 2) * 2 ^ (971 : ℤ)

theorem threshold_le : threshold ≤ 2 ^ (1024 : ℤ) := by
  rw [threshold, show (1024 : ℤ) = 53 + 971 by norm_num, zpow_add₀ two_ne_zero]
  gcongr
  norm_num

theorem zpow_lt_threshold {p : ℤ} (hp : p < 1024) : (2 : ℚ) ^ p < threshold := by
  refine (zpow_le_zpow_right₀ one_le_two (show p ≤ 52 + 971 by omega)).trans_lt ?_
  rw [threshold, zpow_add₀ two_ne_zero]
  gcongr
  norm_num

/-- The last of the 53 places of a value below the threshold, or the last place that there is. -/
theorem exists_lastPlace (hx : 0 < x) (h : x < threshold) :
    ∃ q : ℤ, -1074 ≤ q ∧ q ≤ 971 ∧ x < 2 ^ 53 * 2 ^ q ∧ (2 ^ 52 * 2 ^ q ≤ x ∨ q = -1074 ∧ x < 2 ^ (-1022 : ℤ)) := by
  have hlog : (2 : ℚ) ^ Int.log 2 x ≤ x := Int.zpow_log_le_self (by norm_num) hx
  have hlog' : x < (2 : ℚ) ^ (Int.log 2 x + 1) := Int.lt_zpow_succ_log_self (by norm_num) x
  generalize Int.log 2 x = i at hlog hlog'
  rcases lt_or_ge i (-1022) with hsmall | hnormal
  · have hlt : x < 2 ^ (-1022 : ℤ) := hlog'.trans_le (zpow_le_zpow_right₀ one_le_two (by omega))
    refine ⟨-1074, le_rfl, by norm_num, hlt.trans_le ?_, .inr ⟨rfl, hlt⟩⟩
    rw [← zpow_natCast, ← zpow_add₀ two_ne_zero]
    exact zpow_le_zpow_right₀ one_le_two (by norm_num)
  · obtain ⟨q, rfl⟩ : ∃ q, i = 52 + q := ⟨i - 52, by omega⟩
    have hle : (52 : ℤ) + q < 1024 :=
      (zpow_lt_zpow_iff_right₀ (one_lt_two (α := ℚ))).1 (hlog.trans_lt (h.trans_le threshold_le))
    rw [zpow_add₀ two_ne_zero] at hlog
    rw [show 52 + q + 1 = 53 + q by omega, zpow_add₀ two_ne_zero] at hlog'
    exact ⟨q, by omega, by omega, by exact_mod_cast hlog', .inl (by exact_mod_cast hlog)⟩

/-- A value that is rounded up to the next power of two. -/
theorem roundsTo_of_carry (h : |x - (2 ^ 53 : ℕ) * 2 ^ q| ≤ 1 / 2 * 2 ^ q) : RoundsTo x (2 ^ 52) (q + 1) := by
  refine .of_dist_le_quarter ?_
  have hdouble : ((2 ^ 52 : ℕ) : ℚ) * 2 ^ (q + 1) = (2 ^ 53 : ℕ) * 2 ^ q := by
    rw [zpow_add_one₀ two_ne_zero]
    push_cast
    ring
  rw [hdouble, zpow_add_one₀ two_ne_zero]
  linarith

/-- Below the threshold there is a next power of two. -/
theorem lt_of_carry (h : x < threshold) (hq : q ≤ 971) (hle : |x - (2 ^ 53 : ℕ) * 2 ^ q| ≤ 1 / 2 * 2 ^ q) : q < 971 := by
  refine lt_of_le_of_ne hq fun hlast => ?_
  subst hlast
  have hdist := (abs_le.1 hle).1
  rw [threshold] at h
  generalize (2 : ℚ) ^ (971 : ℤ) = unit at *
  push_cast at hdist
  linarith

/-- **Every value below the threshold is rounded to a number**, with all its places unless the value is very small. -/
theorem exists_roundsTo_of_lt (hx : 0 < x) (h : x < threshold) :
    ∃ m q, Canonical m q ∧ RoundsTo x m q ∧ (2 ^ (-1022 : ℤ) ≤ x → 2 ^ 52 ≤ m) := by
  obtain ⟨q, hq, hq', hupper, hlower⟩ := exists_lastPlace hx h
  have hpos : (0 : ℚ) < 2 ^ q := by positivity
  obtain ⟨m, habs, htie, hm⟩ := exists_nearest (y := x / 2 ^ q) (by positivity)
  have hscale := dist_mul hpos x m
  have hle : |x - m * 2 ^ q| ≤ 1 / 2 * 2 ^ q := by
    rw [hscale]
    gcongr
  have hfloor : ⌊x / 2 ^ q⌋₊ < 2 ^ 53 := by
    refine (Nat.floor_lt (by positivity)).2 ((div_lt_iff₀ hpos).2 ?_)
    exact_mod_cast hupper
  have hfull : 2 ^ 52 * 2 ^ q ≤ x → 2 ^ 52 ≤ ⌊x / 2 ^ q⌋₊ := by
    intro hlow
    refine Nat.le_floor ((le_div_iff₀ hpos).2 ?_)
    exact_mod_cast hlow
  rcases Nat.lt_or_ge m (2 ^ 53) with hlt | hcarry
  · refine ⟨m, q, ⟨hlt, hq, hq', ?_⟩, .of_dist_le hle (fun hodd => ?_) ?_, fun hnormal => ?_⟩
    · rcases hlower with hlow | ⟨hlast, -⟩
      · have := hfull hlow
        exact .inl (by omega)
      · exact .inr hlast
    · rw [hscale]
      exact mul_lt_mul_of_pos_right (htie hodd) hpos
    · rcases hlower with hlow | ⟨hlast, -⟩
      · by_cases heq : m = 2 ^ 52
        · refine .inr ?_
          rw [heq]
          exact_mod_cast hlow
        · exact .inl fun hnarrow => heq hnarrow.1
      · exact .inl fun hnarrow => by have := hnarrow.2; omega
    · rcases hlower with hlow | ⟨-, hsmall⟩
      · have := hfull hlow
        omega
      · exact absurd hsmall (not_lt.2 hnormal)
  · -- the carry to the next power of two
    obtain rfl : m = 2 ^ 53 := by omega
    have hnext := lt_of_carry h hq' hle
    exact ⟨2 ^ 52, q + 1, ⟨by norm_num, by omega, by omega, .inl le_rfl⟩, roundsTo_of_carry hle, fun _ => le_rfl⟩

/-- A significand can be doubled until it has all its places, or until the exponent is the least one. -/
theorem exists_canonical {p : ℤ} (hm : 0 < m) (hlt : m < 2 ^ 53) (hp : -1074 ≤ p) (hp' : p ≤ 971) :
    ∃ M q, 0 < M ∧ Canonical M q ∧ (M * 2 ^ q : ℚ) = m * 2 ^ p := by
  obtain ⟨k, rfl⟩ : ∃ k : ℕ, p = -1074 + k := ⟨(p + 1074).toNat, by omega⟩
  induction k generalizing m with
  | zero => exact ⟨m, _, hm, ⟨hlt, hp, hp', .inr rfl⟩, rfl⟩
  | succ k ih =>
    rcases Nat.lt_or_ge m (2 ^ 52) with hsmall | hfull
    · obtain ⟨M, q, hM, hc, hvalue⟩ := ih (m := 2 * m) (by omega) (by omega) (by omega) (by omega)
      refine ⟨M, q, hM, hc, hvalue.trans ?_⟩
      rw [Nat.cast_succ, ← add_assoc, zpow_add_one₀ two_ne_zero]
      push_cast
      ring
    · exact ⟨m, _, hm, ⟨hlt, hp, hp', .inl hfull⟩, rfl⟩

/-- A value of a moderate size is rounded to a number with all its places. -/
theorem exists_roundsTo (hlow : 2 ^ (-1000 : ℤ) ≤ x) (hhigh : x < 2 ^ (1000 : ℤ)) :
    ∃ m q, 2 ^ 52 ≤ m ∧ Canonical m q ∧ RoundsTo x m q := by
  have hthreshold : (2 : ℚ) ^ (1000 : ℤ) < threshold := zpow_lt_threshold (by norm_num)
  have hsmallest : (2 : ℚ) ^ (-1022 : ℤ) ≤ 2 ^ (-1000 : ℤ) := zpow_le_zpow_right₀ one_le_two (by norm_num)
  obtain ⟨m, q, hc, hrounds, hfull⟩ :=
    exists_roundsTo_of_lt (lt_of_lt_of_le (by positivity) hlow) (hhigh.trans hthreshold)
  exact ⟨m, q, hfull (hsmallest.trans hlow), hc, hrounds⟩

/-! ## Beyond all numbers -/

/-- Only values below the threshold are rounded to numbers; the threshold itself is a tie with an odd significand. -/
theorem RoundsTo.lt_threshold (h : RoundsTo x m q) (hc : Canonical m q) : x < threshold := by
  rcases lt_or_eq_of_le hc.le' with hq | rfl
  · have hpow : (2 : ℚ) ^ (q + 53) < threshold := zpow_lt_threshold (by omega)
    exact (h.lt_zpow hc.lt).trans hpow
  · have hscale : (4 * (2 ^ 53 - 1) + 2 : ℚ) * 2 ^ (971 - 2 : ℤ) = threshold := by
      rw [threshold, zpow_quarter]
      ring
    have hpos : (0 : ℚ) < 2 ^ (971 - 2 : ℤ) := by positivity
    rw [← hscale]
    rcases Nat.lt_or_ge m (2 ^ 53 - 1) with hlt | hge
    · have hm : (m : ℚ) < 2 ^ 53 - 1 := by
        rw [lt_sub_iff_add_lt]
        exact_mod_cast (show m + 1 < 2 ^ 53 by omega)
      exact h.high.trans_lt (mul_lt_mul_of_pos_right (by linarith) hpos)
    · obtain rfl : m = 2 ^ 53 - 1 := by have := hc.lt; omega
      have htie := (h.tie (by decide)).2
      rwa [Nat.cast_sub (by decide), Nat.cast_pow, Nat.cast_ofNat, Nat.cast_one] at htie

/-- A value that is a power of two times as large is rounded to a number that is as many times as large. -/
theorem RoundsTo.scale (h : RoundsTo x m q) (hq : -1074 < q) (k : ℕ) : RoundsTo (x * 2 ^ k) m (q + k) := by
  have hpos : (0 : ℚ) < 2 ^ k := by positivity
  have hpow : (2 : ℚ) ^ (q + k - 2) = 2 ^ (q - 2) * 2 ^ k := by
    rw [← zpow_natCast, ← zpow_add₀ two_ne_zero]
    congr 1
    omega
  have hnarrow : (m = 2 ^ 52 ∧ -1074 < q + (k : ℤ)) ↔ (m = 2 ^ 52 ∧ -1074 < q) :=
    and_congr_right fun _ => by omega
  refine ⟨?_, ?_, fun hodd => ?_⟩
  · rw [hpow, ← mul_assoc, if_congr hnarrow rfl rfl]
    exact mul_le_mul_of_nonneg_right h.low hpos.le
  · rw [hpow, ← mul_assoc]
    exact mul_le_mul_of_nonneg_right h.high hpos.le
  · obtain ⟨hlow, hhigh⟩ := h.tie hodd
    rw [hpow, ← mul_assoc, ← mul_assoc]
    exact ⟨mul_lt_mul_of_pos_right hlow hpos, mul_lt_mul_of_pos_right hhigh hpos⟩

/-- Every value from the threshold on would be rounded to a number with an exponent above all exponents. -/
theorem exists_roundsTo_of_ge (h : threshold ≤ x) :
    ∃ m q, 2 ^ 52 ≤ m ∧ m < 2 ^ 53 ∧ 971 < q ∧ RoundsTo x m q := by
  have hpos : 0 < x := (zpow_pos two_pos 0).trans ((zpow_lt_threshold (by norm_num)).trans_le h)
  have hlow : (2 : ℚ) ^ Int.log 2 x ≤ x := Int.zpow_log_le_self (by norm_num) hpos
  have hhigh : x < (2 : ℚ) ^ (Int.log 2 x + 1) := Int.lt_zpow_succ_log_self (by norm_num) x
  generalize Int.log 2 x = i at hlow hhigh
  have hi : (0 : ℤ) < i + 1 :=
    (zpow_lt_zpow_iff_right₀ one_lt_two).1 (((zpow_lt_threshold (by norm_num)).trans_le h).trans hhigh)
  obtain ⟨k, rfl⟩ : ∃ k : ℕ, i = k := ⟨i.toNat, by omega⟩
  rw [zpow_natCast] at hlow
  rw [zpow_add_one₀ two_ne_zero, zpow_natCast] at hhigh
  -- the value is rounded as its first digits are
  have hscale : (0 : ℚ) < 2 ^ k := by positivity
  have hone : 1 ≤ x / 2 ^ k := (one_le_div hscale).2 hlow
  have htwo : x / 2 ^ k < 2 := (div_lt_iff₀ hscale).2 (by rwa [mul_comm])
  obtain ⟨m, q, hfull, hc, hrounds⟩ := exists_roundsTo (x := x / 2 ^ k)
    ((zpow_le_one_of_nonpos₀ one_le_two (by norm_num)).trans hone)
    (htwo.trans_le (by simpa using zpow_le_zpow_right₀ (one_le_two (α := ℚ)) (show (1 : ℤ) ≤ 1000 by norm_num)))
  have hq : -53 < q := by
    have hlog := (zpow_lt_zpow_iff_right₀ (one_lt_two (α := ℚ))).1
      (((zpow_zero (2 : ℚ)).trans_le hone).trans_lt (hrounds.lt_zpow hc.lt))
    omega
  have hrounds := hrounds.scale (by omega) k
  rw [div_mul_cancel₀ _ hscale.ne'] at hrounds
  refine ⟨m, q + k, hfull, hc.lt, lt_of_not_ge fun hle => ?_, hrounds⟩
  exact absurd (hrounds.lt_threshold ⟨hc.lt, by omega, hle, .inl hfull⟩) (not_lt.2 h)

/-! ## Rounding does not pass a number -/

/-- A value is above every number with at most 53 places whose last place is less than half of its own. -/
theorem RoundsTo.lt_of_fine {p : ℤ} (hx : RoundsTo x m q) (hfull : 2 ^ 52 ≤ m) (hn : n ≤ 2 ^ 53) (hp : p ≤ q - 2) :
    n * 2 ^ p < x := by
  have hfull : ((2 ^ 52 : ℕ) : ℚ) ≤ m := Nat.cast_le.2 hfull
  have hn : (n : ℚ) ≤ (2 ^ 53 : ℕ) := Nat.cast_le.2 hn
  have hpow : (2 : ℚ) ^ p ≤ 2 ^ (q - 2) := zpow_le_zpow_right₀ one_le_two hp
  have hless : ((2 ^ 53 : ℕ) : ℚ) < 4 * m - 2 := by
    push_cast at hfull ⊢
    linarith
  refine lt_of_lt_of_le ?_ hx.low'
  calc (n : ℚ) * 2 ^ p ≤ (2 ^ 53 : ℕ) * 2 ^ (q - 2) := by gcongr
    _ < (4 * m - 2) * 2 ^ (q - 2) := by gcongr

/-- A value that is not above a multiple of half the last place is rounded to a number that is not above it either. -/
theorem RoundsTo.le_of_le_multiple {k : ℕ} (hx : RoundsTo x m q) (hc : Canonical m q) (hn : n ≤ 2 ^ 53)
    (hp : -1074 ≤ q - 1 + k) (h : x ≤ n * 2 ^ (q - 1 + k)) : (m * 2 ^ q : ℚ) ≤ n * 2 ^ (q - 1 + k) := by
  have hpos : (0 : ℚ) < 2 ^ (q - 2) := by positivity
  have hm : (m : ℚ) * 2 ^ q = (4 * m : ℕ) * 2 ^ (q - 2) := by
    rw [zpow_quarter]
    push_cast
    ring
  have hbound : (n : ℚ) * 2 ^ (q - 1 + k) = (2 * (n * 2 ^ k) : ℕ) * 2 ^ (q - 2) := by
    rw [show q - 1 + (k : ℤ) = 1 + k + (q - 2) by omega, zpow_add₀ two_ne_zero, zpow_add₀ two_ne_zero, zpow_natCast]
    push_cast
    ring
  -- what the value is above, and then both numbers, counted in quarters of the last place
  have hlow : (4 * m - if m = 2 ^ 52 ∧ -1074 < q then 1 else 2 : ℚ) * 2 ^ (q - 2) ≤ n * 2 ^ (q - 1 + k) := hx.low.trans h
  rw [hbound] at hlow
  have hlow := le_of_mul_le_mul_right hlow hpos
  rw [hm, hbound]
  refine mul_le_mul_of_nonneg_right (Nat.cast_le.2 ?_) hpos.le
  have hquarters : 4 * m ≤ 2 * (n * 2 ^ k) + if m = 2 ^ 52 ∧ -1074 < q then 1 else 2 := by
    rw [sub_le_iff_le_add] at hlow
    split at hlow
    next hnarrow =>
      rw [if_pos hnarrow]
      exact_mod_cast hlow
    next hwide =>
      rw [if_neg hwide]
      exact_mod_cast hlow
  obtain ⟨-, hmin, -, hfull⟩ := hc
  rcases Nat.eq_zero_or_pos k with rfl | hk
  · rw [pow_zero, mul_one] at hquarters ⊢
    split at hquarters <;> omega
  · obtain ⟨j, rfl⟩ : ∃ j, k = j + 1 := ⟨k - 1, by omega⟩
    rw [show n * 2 ^ (j + 1) = 2 * (n * 2 ^ j) by ring] at hquarters ⊢
    split at hquarters <;> omega

/-- **Rounding does not pass a number.** A value that is not above `n · 2 ^ p`, where `n` has at most 53 places or is the
power of two that comes next, is rounded to a number that is not above it either. -/
theorem RoundsTo.le_of_le {p : ℤ} (hx : RoundsTo x m q) (hc : Canonical m q) (hn : n ≤ 2 ^ 53) (hp : -1074 ≤ p)
    (h : x ≤ n * 2 ^ p) : (m * 2 ^ q : ℚ) ≤ n * 2 ^ p := by
  rcases le_or_gt (q - 1) p with hcoarse | hfine
  · obtain ⟨k, rfl⟩ : ∃ k : ℕ, p = q - 1 + k := ⟨(p - (q - 1)).toNat, by omega⟩
    exact hx.le_of_le_multiple hc hn hp h
  · have hfull : 2 ^ 52 ≤ m := hc.full.resolve_right (by omega)
    exact absurd h (not_le.2 (hx.lt_of_fine hfull hn (by omega)))

end PocketCalc.Binary64
