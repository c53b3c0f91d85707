import PocketCalc.Proofs.Binary64.Interval
import PocketCalc.Proofs.Decimal.Shortest

/-!
# Decimal grids

* `magnitude_bounds` — the magnitude of a quotient is the number of its digits before the point;
* `exists_onGrid?` — a grid on which some decimal reads back is one on which the shortest is looked for with success;
* `exists_onGrid?_seventeen` — seventeen digits are enough for every number;
* `le_exponent_shortest` — no decimal that reads back is on a coarser grid than the shortest one;
* `roundsTo_of_nearest` — the nearest whole multiple of a power of ten reads back, if any multiple does;
* `toSignificant_spec` — a decimal with a given number of digits is the nearest multiple of its unit.
-/

namespace PocketCalc.Decimal

open Binary64 Float.Model.UnpackedFloat

variable {v : Binary64} {d : Decimal} {s : Sign} {m n k num den : ℕ} {q e : ℤ} {hm : 0 < m}

/-! ## Magnitudes -/

theorem lt_pow_length_digitsOf (n : ℕ) : n < 10 ^ (digitsOf n).length :=
  (Nat.length_toDigits_le_iff (by decide) Nat.length_toDigits_pos).1 le_rfl

theorem pow_le_of_length_digitsOf (hn : 0 < n) : 10 ^ ((digitsOf n).length - 1) ≤ n := by
  by_contra hlt
  have hlength : 0 < (digitsOf n).length := Nat.length_toDigits_pos
  rcases Nat.eq_zero_or_pos ((digitsOf n).length - 1) with hzero | hpos
  · rw [hzero] at hlt
    omega
  · have hshort := (Nat.length_toDigits_le_iff (by decide) hpos).2 (Nat.not_le.1 hlt)
    change (digitsOf n).length ≤ _ at hshort
    omega

/-- A quotient has as many digits before the point as its magnitude says. -/
theorem magnitude_bounds (hnum : 0 < num) (hden : 0 < den) :
    (10 : ℚ) ^ (magnitude num den - 1) ≤ num / den ∧ (num / den : ℚ) < 10 ^ magnitude num den := by
  have hden' : (0 : ℚ) < den := by exact_mod_cast hden
  unfold magnitude
  split
  next hle =>
    have hlow := (Nat.le_div_iff_mul_le hden).1 (pow_le_of_length_digitsOf (Nat.div_pos hle hden))
    have hhigh := (Nat.div_lt_iff_lt_mul hden).1 (lt_pow_length_digitsOf (num / den))
    have hlength : 0 < (digitsOf (num / den)).length := Nat.length_toDigits_pos
    rw [← digitsOf]
    generalize (digitsOf (num / den)).length = k at *
    rw [show (k : ℤ) - 1 = (k - 1 : ℕ) by omega, zpow_natCast, zpow_natCast, le_div_iff₀ hden', div_lt_iff₀ hden']
    exact ⟨by exact_mod_cast hlow, by exact_mod_cast hhigh⟩
  next hlt =>
    have hlow := (Nat.div_lt_iff_lt_mul hnum).1 (lt_pow_length_digitsOf ((den - 1) / num))
    have hquotient : 0 < (den - 1) / num := Nat.div_pos (by omega) hnum
    have hhigh := (Nat.le_div_iff_mul_le hnum).1 (pow_le_of_length_digitsOf hquotient)
    have hlength : 0 < (digitsOf ((den - 1) / num)).length := Nat.length_toDigits_pos
    rw [← digitsOf]
    generalize (digitsOf ((den - 1) / num)).length = k at *
    have hlow' : den ≤ 10 ^ k * num := by omega
    have hhigh' : 10 ^ (k - 1) * num < den := by omega
    rw [show (1 : ℤ) - k - 1 = -(k : ℤ) by omega, show (1 : ℤ) - k = -((k - 1 : ℕ) : ℤ) by omega, zpow_neg, zpow_neg,
      zpow_natCast, zpow_natCast, le_div_iff₀ hden', div_lt_iff₀ hden', inv_mul_le_iff₀ (by positivity),
      lt_inv_mul_iff₀ (by positivity)]
    exact ⟨by exact_mod_cast hlow', by exact_mod_cast hhigh'⟩

/-! ## Numbers on a grid -/

theorem value_fraction (v : Binary64) (e : ℤ) :
    ((fraction v e).1 : ℚ) / (fraction v e).2 = v.significand * 2 ^ v.exponent * 10 ^ e := by
  have htwo := zpow_mul_toNat (two_ne_zero (α := ℚ)) v.exponent
  have hten := zpow_mul_toNat (by norm_num : (10 : ℚ) ≠ 0) e
  simp only [fraction, Nat.pow_eq, Nat.cast_mul, Nat.cast_pow, Nat.cast_ofNat]
  rw [← htwo, ← hten]
  field_simp

/-- How many digits of the number stand before the point. -/
def magnitudeOf (v : Binary64) : ℤ := magnitude (fraction v 0).1 (fraction v 0).2

theorem magnitudeOf_bounds (hu : v.unpacked = .finite s m q hm) :
    (10 : ℚ) ^ (magnitudeOf v - 1) ≤ m * 2 ^ q ∧ (m * 2 ^ q : ℚ) < 10 ^ magnitudeOf v := by
  obtain ⟨-, hsignificand, hexponent, -⟩ := fields_of_finite hu
  have hnum : 0 < (fraction v 0).1 := by
    simp only [fraction, hsignificand]
    exact Nat.mul_pos (Nat.mul_pos hm (Nat.pow_pos (by decide))) (Nat.pow_pos (by decide))
  have hbounds := magnitude_bounds hnum (fraction_den_pos v 0)
  rwa [value_fraction, hsignificand, hexponent, zpow_zero, mul_one] at hbounds

/-- The number of units below a value. -/
theorem floor_fraction (hu : v.unpacked = .finite s m q hm) (e : ℤ) :
    ((fraction v (-e)).1 / (fraction v (-e)).2 : ℕ) * (10 : ℚ) ^ e ≤ m * 2 ^ q ∧
      (m * 2 ^ q : ℚ) < ((fraction v (-e)).1 / (fraction v (-e)).2 + 1 : ℕ) * (10 : ℚ) ^ e := by
  obtain ⟨-, hsignificand, hexponent, -⟩ := fields_of_finite hu
  have hden : (0 : ℚ) < (fraction v (-e)).2 := by exact_mod_cast fraction_den_pos v (-e)
  have hvalue := value_fraction v (-e)
  have hten : (0 : ℚ) < 10 ^ e := by positivity
  rw [hsignificand, hexponent, zpow_neg, ← div_eq_mul_inv, eq_div_iff hten.ne'] at hvalue
  rw [← hvalue]
  have hlow : (((fraction v (-e)).1 / (fraction v (-e)).2 : ℕ) : ℚ) ≤ (fraction v (-e)).1 / (fraction v (-e)).2 :=
    Nat.cast_div_le
  have hhigh : ((fraction v (-e)).1 : ℚ) / (fraction v (-e)).2 <
      ((fraction v (-e)).1 / (fraction v (-e)).2 + 1 : ℕ) := by
    rw [div_lt_iff₀ hden]
    exact_mod_cast Nat.lt_mul_of_div_lt (Nat.lt_succ_self _) (fraction_den_pos v (-e))
  exact ⟨by gcongr, by gcongr⟩

/-- A grid on which some decimal reads back has one that is looked at: a neighbour of the number. -/
theorem exists_onGrid? (hu : v.unpacked = .finite s m q hm) (h : RoundsTo (n * 10 ^ e) m q) :
    ∃ d, onGrid? v e = some d := by
  obtain ⟨hlow, hhigh⟩ := floor_fraction hu e
  have hneighbour : readsBack v ⟨(fraction v (-e)).1 / (fraction v (-e)).2, e⟩ = true ∨
      readsBack v ⟨(fraction v (-e)).1 / (fraction v (-e)).2 + 1, e⟩ = true := by
    rw [readsBack_iff hu, readsBack_iff hu]
    rcases Nat.lt_or_ge ((fraction v (-e)).1 / (fraction v (-e)).2) n with habove | hbelow
    · refine .inr ((RoundsTo.self m q).between h hhigh.le ?_)
      simp only [value]
      gcongr
      exact habove
    · refine .inl (h.between (.self m q) ?_ hlow)
      simp only [value]
      gcongr
  simp only [onGrid?]
  split
  · split
    · exact ⟨_, rfl⟩
    · exact ⟨_, rfl⟩
  · exact ⟨_, rfl⟩
  · exact ⟨_, rfl⟩
  next hbelow habove =>
    rcases hneighbour with h | h
    · rw [hbelow] at h
      cases h
    · rw [habove] at h
      cases h

theorem exponent_of_onGrid? (h : onGrid? v e = some d) : d.exponent = e := by
  simp only [onGrid?] at h
  split at h
  · split at h
    · cases h
      rfl
    · cases h
      rfl
  · cases h
    rfl
  · cases h
    rfl
  · cases h

/-- **Seventeen digits are enough**: the nearest decimal with so many reads back. -/
theorem exists_onGrid?_seventeen (hu : v.unpacked = .finite s m q hm) : ∃ d, onGrid? v (magnitudeOf v - 17) = some d := by
  obtain ⟨hlow, -⟩ := magnitudeOf_bounds hu
  have hc := canonical_of_finite hu
  have htwo : (0 : ℚ) < 2 ^ q := by positivity
  have hten : (0 : ℚ) < 10 ^ (magnitudeOf v - 17) := by positivity
  obtain ⟨n, hn, -⟩ := exists_nearest (y := m * 2 ^ q / 10 ^ (magnitudeOf v - 17)) (by positivity)
  have hnear : |(n * 10 ^ (magnitudeOf v - 17) : ℚ) - m * 2 ^ q| ≤ 1 / 2 * 10 ^ (magnitudeOf v - 17) := by
    rw [abs_sub_comm, dist_mul hten]
    gcongr
  refine exists_onGrid? (n := n) hu ?_
  rw [show magnitudeOf v - 1 = 16 + (magnitudeOf v - 17) by omega, zpow_add₀ (by norm_num)] at hlow
  generalize (10 : ℚ) ^ (magnitudeOf v - 17) = unit at *
  by_cases hnarrow : Narrow m q
  · refine .of_dist_le_quarter (hnear.trans ?_)
    rw [hnarrow.1] at hlow
    push_cast at hlow
    linarith
  · have hm : (m : ℚ) < 2 ^ 53 := by exact_mod_cast hc.lt
    have hunit : unit < 2 ^ q := by nlinarith
    exact .of_dist_le (hnear.trans (by linarith)) (fun _ => hnear.trans_lt (by linarith)) (.inl hnarrow)

/-! ## The shortest decimal -/

/-- The shortest decimal is found on a grid that is looked at, or on a coarser one. -/
theorem exists_shortest {i : ℕ} (hi : i < 17) (h : onGrid? v (magnitudeOf v - 1 - i) = some d) :
    ∃ j ≤ i, ∃ d', onGrid? v (magnitudeOf v - 1 - j) = some d' ∧ shortest v = carried d' := by
  have hsome : ((List.range (i + 1)).findSome? fun (n : ℕ) => onGrid? v (magnitudeOf v - 1 - n)).isSome = true := by
    rw [List.findSome?_isSome_iff]
    exact ⟨i, List.mem_range.2 (Nat.lt_succ_self i), by rw [h]; rfl⟩
  obtain ⟨d', hd'⟩ := Option.isSome_iff_exists.1 hsome
  obtain ⟨j, hj, hgrid⟩ := List.exists_of_findSome?_eq_some hd'
  refine ⟨j, Nat.lt_succ_iff.1 (List.mem_range.1 hj), d', hgrid, ?_⟩
  have hfirst : List.range (i + 1) <+: List.range 17 := by
    have htake := List.take_prefix (i + 1) (List.range 17)
    rwa [List.take_range, Nat.min_eq_left hi] at htake
  have hfound := hfirst.findSome?_eq_some hd'
  simp only [magnitudeOf] at hfound
  simp only [shortest]
  rw [hfound, Option.getD_some]

theorem le_exponent_carried (d : Decimal) : d.exponent ≤ (carried d).exponent := by
  unfold carried
  split
  · exact Int.le_add_one le_rfl
  · exact le_rfl

/-- Two values of the same number are less than one unit of its last binary place apart. -/
theorem dist_le_of_roundsTo {x y : ℚ} (hx : RoundsTo x m q) (hy : RoundsTo y m q) : |x - y| ≤ 2 ^ q := by
  obtain ⟨hlow, hhigh⟩ := abs_le.1 hx.dist_le.1
  obtain ⟨hlow', hhigh'⟩ := abs_le.1 hy.dist_le.1
  exact abs_le.2 ⟨by linarith, by linarith⟩

/-- Only a power of ten right above a number is on a grid that is coarser than its first digit, and reads back; it is
found as ten units of that digit. -/
theorem le_exponent_shortest_of_magnitude (hu : v.unpacked = .finite s m q hm) (hfull : 2 ^ 52 ≤ m) (hn : 0 < n)
    (he : magnitudeOf v ≤ e) (h : RoundsTo (n * 10 ^ e) m q) : e ≤ (shortest v).exponent := by
  obtain ⟨-, hhigh⟩ := magnitudeOf_bounds hu
  generalize hk : magnitudeOf v = k at *
  have hsplit : (10 : ℚ) ^ k = 10 * 10 ^ (k - 1) := by rw [← zpow_one_add₀ (by norm_num), add_sub_cancel]
  have hten : (0 : ℚ) < 10 ^ (k - 1) := by positivity
  have hplace : (2 : ℚ) ^ q < 10 ^ (k - 1) := by
    have htwo : (0 : ℚ) < 2 ^ q := by positivity
    have hm : (2 : ℚ) ^ 52 * 2 ^ q ≤ m * 2 ^ q := by
      gcongr
      exact_mod_cast hfull
    linarith
  have hle : (10 : ℚ) ^ e ≤ n * 10 ^ e := le_mul_of_one_le_left (by positivity) (by exact_mod_cast hn)
  have hpower : RoundsTo (10 * 10 ^ (k - 1)) m q := by
    rw [← hsplit]
    exact (RoundsTo.self m q).between h hhigh.le ((zpow_le_zpow_right₀ (by norm_num) he).trans hle)
  have heq : e = k := by
    by_contra hne
    have hcoarse : (10 : ℚ) * 10 ^ k ≤ 10 ^ e := by
      rw [← zpow_one_add₀ (by norm_num)]
      exact zpow_le_zpow_right₀ (by norm_num) (by omega)
    have hdist := (abs_le.1 (dist_le_of_roundsTo h hpower)).2
    linarith
  obtain ⟨d, hd⟩ : ∃ d, onGrid? v (k - 1) = some d := exists_onGrid? (n := 10) hu hpower
  obtain ⟨j, hj, d', hd', hshortest⟩ := exists_shortest (i := 0) (d := d) (by decide) (by rw [hk, ← hd]; congr 1; omega)
  obtain rfl : j = 0 := Nat.le_zero.1 hj
  have hexponent := exponent_of_onGrid? hd'
  have hreads := (readsBack_iff hu).1 (readsBack_of_onGrid? hd')
  rw [hk, Nat.cast_zero, sub_zero] at hexponent
  rw [value, hexponent] at hreads
  have hdigits : d'.digits = 10 :=
    eq_of_dist_lt hten ((dist_le_of_roundsTo hreads (by exact_mod_cast hpower)).trans_lt hplace)
  rw [hshortest, carried, if_pos hdigits]
  show e ≤ d'.exponent + 1
  omega

/-- **No decimal that reads back is on a coarser grid than the shortest one.** -/
theorem le_exponent_shortest (hu : v.unpacked = .finite s m q hm) (hfull : 2 ^ 52 ≤ m) (hn : 0 < n)
    (h : RoundsTo (n * 10 ^ e) m q) : e ≤ (shortest v).exponent := by
  obtain ⟨hlow, hhigh⟩ := magnitudeOf_bounds hu
  have hfound {i : ℕ} (hi : i < 17) (hgrid : ∃ d, onGrid? v (magnitudeOf v - 1 - i) = some d) :
      magnitudeOf v - 1 - i ≤ (shortest v).exponent := by
    obtain ⟨d, hd⟩ := hgrid
    obtain ⟨j, hj, d', hd', hshortest⟩ := exists_shortest hi hd
    have hexponent := exponent_of_onGrid? hd'
    have hcarried := le_exponent_carried d'
    rw [hshortest]
    omega
  rcases lt_or_ge e (magnitudeOf v) with hbelow | habove
  · rcases lt_or_ge e (magnitudeOf v - 17) with hfine | hcoarse
    · have hseventeen := hfound (i := 16) (by decide) (by
        obtain ⟨d, hd⟩ := exists_onGrid?_seventeen hu
        exact ⟨d, by rw [← hd]; congr 1; omega⟩)
      omega
    · obtain ⟨i, hi⟩ : ∃ i : ℕ, e = magnitudeOf v - 1 - i := ⟨(magnitudeOf v - 1 - e).toNat, by omega⟩
      rw [hi] at h ⊢
      exact hfound (by omega) (exists_onGrid? hu h)
  · exact le_exponent_shortest_of_magnitude hu hfull hn habove h

/-! ## Rounding on a grid -/

/-- A quotient is rounded to a whole number that is at most half a unit away. -/
theorem dist_roundDiv (num : ℕ) (hden : 0 < den) : |(roundDiv num den : ℚ) - num / den| ≤ 1 / 2 := by
  have hden' : (0 : ℚ) < den := by exact_mod_cast hden
  obtain ⟨hlow, hhigh⟩ := roundDiv_near num hden
  have hlow : (2 * num : ℚ) ≤ (2 * roundDiv num den + 1) * den := by exact_mod_cast hlow
  have hhigh : (2 * roundDiv num den * den : ℚ) ≤ 2 * num + den := by exact_mod_cast hhigh
  have hvalue : (num : ℚ) / den * den = num := div_mul_cancel₀ _ hden'.ne'
  generalize (num : ℚ) / den = y at *
  rw [← hvalue] at hlow hhigh
  have hlow : 2 * y ≤ 2 * roundDiv num den + 1 := le_of_mul_le_mul_right (by linarith) hden'
  have hhigh : 2 * (roundDiv num den : ℚ) ≤ 2 * y + 1 := le_of_mul_le_mul_right (by linarith) hden'
  exact abs_le.2 ⟨by linarith, by linarith⟩

variable {x unit : ℚ} {N : ℕ}

/-- What is at most half a unit away is nearest among the multiples of the unit. -/
theorem nearest_of_dist (hunit : 0 < unit) (h : |N * unit - x| ≤ 1 / 2 * unit) (n : ℕ) : |N * unit - x| ≤ |n * unit - x| := by
  by_contra hnearer
  have hlt : |(n : ℚ) * unit - N * unit| < unit := by
    calc |(n : ℚ) * unit - N * unit| ≤ |n * unit - x| + |x - N * unit| := abs_sub_le _ _ _
      _ < 1 / 2 * unit + 1 / 2 * unit := by
        rw [abs_sub_comm x]
        linarith
      _ = unit := by ring
  rw [eq_of_dist_lt hunit hlt] at hnearer
  exact hnearer le_rfl

/-- A number is rounded on a grid to a multiple of the unit that is at most half a unit away. -/
theorem dist_round_fraction (hu : v.unpacked = .finite s m q hm) (i : ℤ) :
    |(roundDiv (fraction v i).1 (fraction v i).2 : ℚ) * 10 ^ (-i) - m * 2 ^ q| ≤ 1 / 2 * 10 ^ (-i) := by
  obtain ⟨-, hsignificand, hexponent, -⟩ := fields_of_finite hu
  have hunit : (0 : ℚ) < 10 ^ (-i) := by positivity
  have hdist := dist_roundDiv (fraction v i).1 (fraction_den_pos v i)
  rw [value_fraction, hsignificand, hexponent, abs_sub_comm] at hdist
  rw [abs_sub_comm, dist_mul hunit, zpow_neg, div_inv_eq_mul]
  gcongr

/-- Powers of two that are numbers below `2 ^ 70`, on the grids of small powers of ten: where the next multiple above
reads back, the multiple below is so near that it reads back as well. -/
theorem near_two_pow : ∀ q < 18, ∀ u < 6, 2 * (10 ^ u - 2 ^ (52 + q) % 10 ^ u) ≤ 2 ^ q →
    2 * (2 ^ (52 + q) % 10 ^ u) ≤ 10 ^ u → 4 * (2 ^ (52 + q) % 10 ^ u) ≤ 2 ^ q := by
  decide +kernel

/-- A power of two between two multiples: if the upper one is half a last place above it at most, and the lower one is
not farther away than half a unit, then the lower one is within a quarter of that place. -/
theorem dist_two_pow {i u M : ℕ} (hi : i < 18) (habove : 2 ^ (52 + i) < M * 10 ^ u)
    (hM : 2 * (M * 10 ^ u) ≤ 2 * 2 ^ (52 + i) + 2 ^ i) (hbelow : N * 10 ^ u < 2 ^ (52 + i))
    (hN : 2 * 2 ^ (52 + i) ≤ 2 * (N * 10 ^ u) + 10 ^ u) : 4 * 2 ^ (52 + i) ≤ 4 * (N * 10 ^ u) + 2 ^ i := by
  have hnear := near_two_pow i hi u
  have hpos : 0 < 10 ^ u := by positivity
  have hmod := Nat.mod_lt (2 ^ (52 + i)) hpos
  have hdiv := Nat.div_add_mod (2 ^ (52 + i)) (10 ^ u)
  have hpow : 2 ^ i ≤ 2 ^ 17 := Nat.pow_le_pow_right (by decide) (by omega)
  have hsix : u < 6 ∨ 10 ^ 6 ≤ 10 ^ u := (Nat.lt_or_ge u 6).imp_right (Nat.pow_le_pow_right (by decide))
  generalize 2 ^ (52 + i) = w at *
  generalize 10 ^ u = unit at *
  -- the two multiples are the neighbours of the power
  have hM' : w / unit + 1 ≤ M := (Nat.div_lt_iff_lt_mul hpos).2 habove
  have hN' : N = w / unit := by
    refine Nat.le_antisymm ((Nat.le_div_iff_mul_le hpos).2 hbelow.le) ?_
    by_contra hlt
    have hstep : (N + 1) * unit ≤ w / unit * unit := Nat.mul_le_mul_right _ (by omega)
    rw [Nat.mul_comm] at hdiv
    rw [Nat.add_mul, Nat.one_mul] at hstep
    omega
  have hupper : (w / unit + 1) * unit ≤ M * unit := Nat.mul_le_mul_right _ hM'
  rw [← hN', Nat.mul_comm] at hdiv
  rw [← hN', Nat.add_mul, Nat.one_mul] at hupper
  omega

/-- **The nearest multiple of a power of ten reads back, if any multiple does.** -/
theorem roundsTo_of_nearest {u M : ℕ} (hmodest : (m * 2 ^ q : ℚ) < 2 ^ (70 : ℤ)) (hM : RoundsTo (M * 10 ^ u) m q)
    (hN : |(N * 10 ^ u : ℚ) - m * 2 ^ q| ≤ 1 / 2 * 10 ^ u) : RoundsTo (N * 10 ^ u) m q := by
  have hunit : (0 : ℚ) < 10 ^ u := by positivity
  have hnearest := nearest_of_dist hunit hN
  by_cases hside : ¬ Narrow m q ∨ (m * 2 ^ q : ℚ) ≤ N * 10 ^ u ∨ (M * 10 ^ u : ℚ) ≤ m * 2 ^ q
  · exact hM.of_nearer (hnearest M) hside
  simp only [not_or, not_not, not_le] at hside
  obtain ⟨⟨rfl, -⟩, hbelow, habove⟩ := hside
  rcases le_or_gt q 0 with hq | hq
  · -- the multiple above would be the number itself
    have heq : ((M * 10 ^ u : ℕ) : ℚ) = (2 ^ 52 : ℕ) * 2 ^ q := eq_of_roundsTo hq (by exact_mod_cast hM)
    push_cast at heq habove
    linarith
  · obtain ⟨i, rfl⟩ := Int.eq_ofNat_of_zero_le hq.le
    have hvalue : ((2 ^ 52 : ℕ) : ℚ) * 2 ^ (i : ℤ) = (2 ^ (52 + i) : ℕ) := by
      rw [zpow_natCast, pow_add]
      push_cast
      rfl
    have hi : i < 18 := by
      rw [hvalue, show (2 : ℚ) ^ (70 : ℤ) = (2 ^ 70 : ℕ) by norm_num, Nat.cast_lt] at hmodest
      have hexponent := (Nat.pow_lt_pow_iff_right (by decide)).1 hmodest
      omega
    have hM' := (abs_le.1 hM.dist_le.1).2
    rw [hvalue, zpow_natCast] at hM'
    rw [hvalue] at hbelow habove hN
    have hN' := (abs_le.1 hN).1
    have hle := dist_two_pow (N := N) (M := M) (u := u) hi (by exact_mod_cast habove)
      (by have h : (2 * (M * 10 ^ u) : ℚ) ≤ 2 * (2 ^ (52 + i) : ℕ) + 2 ^ i := by linarith
          exact_mod_cast h)
      (by exact_mod_cast hbelow)
      (by have h : (2 * (2 ^ (52 + i) : ℕ) : ℚ) ≤ 2 * (N * 10 ^ u) + 10 ^ u := by linarith
          exact_mod_cast h)
    have hle' : (4 * (2 ^ (52 + i) : ℕ) : ℚ) ≤ 4 * (N * 10 ^ u) + 2 ^ i := by exact_mod_cast hle
    refine .of_dist_le_quarter ?_
    rw [hvalue, zpow_natCast, abs_of_nonpos (by linarith)]
    linarith

/-! ## Significant digits -/

theorem length_digitsOf_eq (hk : 0 < k) (hlow : 10 ^ (k - 1) ≤ n) (hhigh : n < 10 ^ k) : (digitsOf n).length = k := by
  have hle : (digitsOf n).length ≤ k := (Nat.length_toDigits_le_iff (by decide) hk).2 hhigh
  have hlt := hlow.trans_lt (lt_pow_length_digitsOf n)
  have hge := (Nat.pow_lt_pow_iff_right (by decide)).1 hlt
  omega

/-- How many units are nearest to a number, if it has `n` digits in front of the unit. -/
theorem round_fraction_bounds (hu : v.unpacked = .finite s m q hm) (hn : 0 < n) :
    10 ^ (n - 1) ≤ roundDiv (fraction v (n - magnitudeOf v)).1 (fraction v (n - magnitudeOf v)).2 ∧
      roundDiv (fraction v (n - magnitudeOf v)).1 (fraction v (n - magnitudeOf v)).2 ≤ 10 ^ n := by
  obtain ⟨hlow, hhigh⟩ := magnitudeOf_bounds hu
  have hdist := dist_round_fraction hu (n - magnitudeOf v)
  generalize roundDiv (fraction v (n - magnitudeOf v)).1 (fraction v (n - magnitudeOf v)).2 = N at *
  rw [neg_sub] at hdist
  have hunit : (0 : ℚ) < 10 ^ (magnitudeOf v - n) := by positivity
  rw [show magnitudeOf v - 1 = ((n - 1 : ℕ) : ℤ) + (magnitudeOf v - n) by omega, zpow_add₀ (by norm_num), zpow_natCast]
    at hlow
  rw [show magnitudeOf v = n + (magnitudeOf v - n) by omega, zpow_add₀ (by norm_num), zpow_natCast] at hhigh
  generalize (10 : ℚ) ^ (magnitudeOf v - n) = unit at *
  obtain ⟨hbelow, habove⟩ := abs_le.1 hdist
  have hlow' : (10 : ℚ) ^ (n - 1) < N + 1 := lt_of_mul_lt_mul_right (a := unit) (by linarith) hunit.le
  have hhigh' : (N : ℚ) < 10 ^ n + 1 := lt_of_mul_lt_mul_right (a := unit) (by linarith) hunit.le
  exact ⟨Nat.lt_succ_iff.1 (by exact_mod_cast hlow'), Nat.lt_succ_iff.1 (by exact_mod_cast hhigh')⟩

/-- **The decimal with a given number of significant digits** has so many digits, and its value is the nearest multiple of
its unit; a carry keeps the value. -/
theorem toSignificant_spec (hu : v.unpacked = .finite s m q hm) (hn : 0 < n) :
    (digitsOf (toSignificant v n).1).length = n ∧
      ((toSignificant v n).1 * 10 ^ ((toSignificant v n).2 + 1 - n) : ℚ) =
        roundDiv (fraction v (n - magnitudeOf v)).1 (fraction v (n - magnitudeOf v)).2 * 10 ^ (magnitudeOf v - n) := by
  obtain ⟨hlow, hhigh⟩ := round_fraction_bounds hu hn
  simp only [toSignificant]
  rw [← magnitudeOf]
  generalize roundDiv (fraction v (n - magnitudeOf v)).1 (fraction v (n - magnitudeOf v)).2 = N at *
  split
  next hcarry =>
    have hpow : 10 ^ (n - 1) < 10 ^ n := Nat.pow_lt_pow_right (by decide) (by omega)
    rw [Nat.pow_eq] at hcarry ⊢
    refine ⟨length_digitsOf_eq hn le_rfl hpow, ?_⟩
    rw [hcarry]
    push_cast
    rw [← zpow_natCast, ← zpow_natCast, ← zpow_add₀ (by norm_num), ← zpow_add₀ (by norm_num)]
    congr 1
    omega
  next hne =>
    refine ⟨length_digitsOf_eq hn hlow (lt_of_le_of_ne hhigh hne), ?_⟩
    rw [sub_add_cancel]

end PocketCalc.Decimal
