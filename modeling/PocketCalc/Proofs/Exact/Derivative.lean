import Mathlib
import PocketCalc.Expr.Derivative
import PocketCalc.Proofs.Exact.Arithmetic

/-!
# Derivatives over the exact reals

* `Expr.Unbroken` — no remainder in the formula jumps at a point;
* `hasDerivAt_outer` — the formula for the derivative of a function gives its derivative;
* `hasDerivAt_add`, …, `hasDerivAt_call` — the derivative of an operation from those of its operands;
* `hasDerivAt_powerRule` — the three rules for powers;
* `hasDerivAt_value` — the derivative of a formula is the derivative of its value.
-/

namespace PocketCalc

open Exact Filter Topology

namespace Expr

variable {α : Type}

/-- A formula is another one, or a part of it. -/
inductive Occurs (d : Expr α) : Expr α → Prop
  | here : Occurs d d
  | neg {e : Expr α} : Occurs d e → Occurs d (.neg e)
  | call {f : Function} {e : Expr α} : Occurs d e → Occurs d (.call f e)
  | left {op : Operator} {a b : Expr α} : Occurs d a → Occurs d (.binary op a b)
  | right {op : Operator} {a b : Expr α} : Occurs d b → Occurs d (.binary op a b)

/-- No remainder in the formula is taken where its dividend is a multiple, other than zero, of its divisor:
that is where remainders jump. -/
def Unbroken (e : Expr Exact) (p : ℝ) : Prop :=
  ∀ f g, Occurs (.binary .mod f g) e → ∀ n : ℤ, n ≠ 0 → f.value p ≠ n * g.value p

variable {e a b df dg : Expr Exact} {p t a' b' : ℝ}

theorem Unbroken.of_neg (h : (neg e).Unbroken p) : e.Unbroken p := fun f g hfg => h f g hfg.neg

theorem Unbroken.of_call {f : Function} (h : (call f e).Unbroken p) : e.Unbroken p := fun f g hfg => h f g hfg.call

theorem Unbroken.of_binary {op : Operator} (h : (binary op a b).Unbroken p) : a.Unbroken p ∧ b.Unbroken p :=
  ⟨fun f g hfg => h f g hfg.left, fun f g hfg => h f g hfg.right⟩

/-! ## Operations -/

section Operations

theorem hasDerivAt_neg (h : ∀ᶠ t in 𝓝 p, (neg e).Defined t) (he : HasDerivAt e.value a' p) :
    HasDerivAt (neg e).value (-a') p :=
  he.neg.congr_of_eventuallyEq (h.mono fun _ ht => ht.neg.2)

theorem hasDerivAt_add (h : ∀ᶠ t in 𝓝 p, (binary .add a b).Defined t)
    (ha : HasDerivAt a.value a' p) (hb : HasDerivAt b.value b' p) :
    HasDerivAt (binary .add a b).value (a' + b') p :=
  (ha.add hb).congr_of_eventuallyEq (h.mono fun _ ht => apply_add.1 ht.binary.2.2)

theorem hasDerivAt_sub (h : ∀ᶠ t in 𝓝 p, (binary .sub a b).Defined t)
    (ha : HasDerivAt a.value a' p) (hb : HasDerivAt b.value b' p) :
    HasDerivAt (binary .sub a b).value (a' - b') p :=
  (ha.sub hb).congr_of_eventuallyEq (h.mono fun _ ht => apply_sub.1 ht.binary.2.2)

theorem hasDerivAt_mul (h : ∀ᶠ t in 𝓝 p, (binary .mul a b).Defined t)
    (ha : HasDerivAt a.value a' p) (hb : HasDerivAt b.value b' p) :
    HasDerivAt (binary .mul a b).value (a' * b.value p + a.value p * b') p :=
  (ha.mul hb).congr_of_eventuallyEq (h.mono fun _ ht => apply_mul.1 ht.binary.2.2)

theorem hasDerivAt_div (h : ∀ᶠ t in 𝓝 p, (binary .div a b).Defined t)
    (ha : HasDerivAt a.value a' p) (hb : HasDerivAt b.value b' p) :
    HasDerivAt (binary .div a b).value ((a' * b.value p - a.value p * b') / b.value p ^ 2) p :=
  (ha.div hb (apply_div.1 h.self_of_nhds.binary.2.2).1).congr_of_eventuallyEq
    (h.mono fun _ ht => (apply_div.1 ht.binary.2.2).2)

/-- The whole part stays the same around every number but the whole numbers other than zero. -/
theorem eventually_truncate_eq {x : ℝ} (hx : ∀ n : ℤ, n ≠ 0 → x ≠ n) :
    ∀ᶠ y in 𝓝 x, truncate y = truncate x := by
  by_cases h0 : x = 0
  · subst h0
    filter_upwards [Ioo_mem_nhds (show (-1 : ℝ) < 0 by norm_num) (show (0 : ℝ) < 1 by norm_num)] with y hy
    unfold truncate
    split
    next hpos => simpa using Int.floor_eq_zero_iff.2 ⟨hpos, hy.2⟩
    next hneg => simpa using Int.ceil_eq_zero_iff.2 ⟨hy.1, (not_le.1 hneg).le⟩
  · have hne : ∀ n : ℤ, x ≠ n := by
      intro n
      by_cases hn : n = 0
      · simpa [hn] using h0
      · exact hx n hn
    have hfloor : (⌊x⌋ : ℝ) < x := lt_of_le_of_ne (Int.floor_le x) (hne _).symm
    -- no whole number lies between `x` and its neighbours, zero included
    filter_upwards [Ioo_mem_nhds hfloor (Int.lt_floor_add_one x)] with y hy
    have hy_floor : ⌊y⌋ = ⌊x⌋ := Int.floor_eq_iff.2 ⟨hy.1.le, hy.2⟩
    have hceil : ∀ z : ℝ, (⌊x⌋ : ℝ) < z → z < ⌊x⌋ + 1 → ⌈z⌉ = ⌊x⌋ + 1 := fun z h1 h2 =>
      Int.ceil_eq_iff.2 ⟨by push_cast; linarith, by push_cast; linarith⟩
    have hsign : 0 ≤ y ↔ 0 ≤ x := by rw [← Int.floor_nonneg, hy_floor, Int.floor_nonneg]
    simp only [truncate, hsign, hy_floor, hceil y hy.1 hy.2, hceil x hfloor (Int.lt_floor_add_one x)]

theorem hasDerivAt_mod (h : ∀ᶠ t in 𝓝 p, (binary .mod a b).Defined t) (hb : b.contains boundName = false)
    (hjump : ∀ n : ℤ, n ≠ 0 → a.value p ≠ n * b.value p) (ha : HasDerivAt a.value a' p) :
    HasDerivAt (binary .mod a b).value a' p := by
  have hb0 : b.value p ≠ 0 := (apply_mod.1 h.self_of_nhds.binary.2.2).1
  have hquotient : ∀ n : ℤ, n ≠ 0 → a.value p / b.value p ≠ n := by
    intro n hn heq
    exact hjump n hn (by rw [← heq, div_mul_cancel₀ _ hb0])
  have hsteady : ∀ᶠ t in 𝓝 p, truncate (a.value t / b.value p) = truncate (a.value p / b.value p) :=
    (ha.continuousAt.div_const _).eventually (eventually_truncate_eq hquotient)
  have hshift := ha.sub_const (b.value p * truncate (a.value p / b.value p))
  refine hshift.congr_of_eventuallyEq ?_
  filter_upwards [h, hsteady] with t ht htrunc
  rw [(apply_mod.1 ht.binary.2.2).2, value_congr hb t p, htrunc]

/-- Without the variable the derivative is zero. -/
theorem hasDerivAt_of_not_contains (h : e.contains boundName = false) : HasDerivAt e.value 0 p := by
  rw [show e.value = fun _ => e.value p from funext fun t => value_congr h t p]
  exact hasDerivAt_const p (e.value p)

end Operations

/-! ## Functions -/

section Functions

theorem value_ofNat (n : ℕ) : (number (Arithmetic.ofNat n : Exact)).value t = n := rfl

theorem value_ln10 : (number (Arithmetic.ln10 : Exact)).value t = Real.log 10 := rfl

theorem value_squared (h : e.squared.Defined t) : e.squared.value t = e.value t ^ 2 := by
  have hpow := (apply_pow.1 h.binary.2.2).2.2
  rw [value_ofNat, Real.rpow_natCast] at hpow
  exact hpow

theorem value_inverse (h : e.inverse.Defined t) : e.value t ≠ 0 ∧ e.inverse.value t = 1 / e.value t := by
  obtain ⟨hne, hval⟩ := apply_div.1 h.binary.2.2
  rw [value_ofNat, Nat.cast_one] at hval
  exact ⟨hne, hval⟩

/-- The inverse of the root of `1 - u²` has a value only strictly between minus one and one. -/
theorem value_rootOfRest {u : Expr Exact}
    (h : (inverse (.call .sqrt (.binary .sub (.number (Arithmetic.ofNat 1)) u.squared))).Defined p) :
    u.value p ≠ -1 ∧ u.value p ≠ 1 ∧
      (inverse (.call .sqrt (.binary .sub (.number (Arithmetic.ofNat 1)) u.squared))).value p =
        1 / √(1 - u.value p ^ 2) := by
  obtain ⟨hroot, hval⟩ := value_inverse h
  obtain ⟨hrest, hsqrt⟩ := h.binary.2.1.call
  have hrest_val := apply_sub.1 hrest.binary.2.2
  rw [value_ofNat, Nat.cast_one, value_squared hrest.binary.2.1] at hrest_val
  rw [(apply_sqrt.1 hsqrt).2, hrest_val] at hroot hval
  refine ⟨?_, ?_, hval⟩
  · intro hu
    simp [hu] at hroot
  · intro hu
    simp [hu] at hroot

/-- The derivative of a function, as a formula, is that of the function. -/
theorem hasDerivAt_outer {f : Function} {u outer : Expr Exact} (hf : f.outer? u = some outer)
    (hu : (call f u).Defined p) (h : outer.Defined p) :
    HasDerivAt f.real (outer.value p) (u.value p) := by
  cases f with
  | sin =>
    cases hf
    rw [apply_cos.1 h.call.2]
    exact Real.hasDerivAt_sin _
  | cos =>
    cases hf
    rw [h.neg.2, apply_sin.1 h.neg.1.call.2]
    exact Real.hasDerivAt_cos _
  | tan =>
    cases hf
    obtain ⟨hcos, hval⟩ := value_inverse h
    have hsquare := h.binary.2.1
    rw [value_squared hsquare, apply_cos.1 hsquare.binary.1.call.2] at hcos hval
    rw [hval]
    exact Real.hasDerivAt_tan (pow_ne_zero_iff two_ne_zero |>.1 hcos)
  | asin =>
    cases hf
    obtain ⟨hneg, hpos, hval⟩ := value_rootOfRest h
    rw [hval]
    exact Real.hasDerivAt_arcsin hneg hpos
  | acos =>
    cases hf
    obtain ⟨hneg, hpos, hval⟩ := value_rootOfRest h.neg.1
    rw [h.neg.2, hval]
    exact Real.hasDerivAt_arccos hneg hpos
  | atan =>
    cases hf
    obtain ⟨-, hval⟩ := value_inverse h
    have hsum := h.binary.2.1
    rw [apply_add.1 hsum.binary.2.2, value_ofNat, Nat.cast_one, value_squared hsum.binary.2.1] at hval
    rw [hval]
    exact Real.hasDerivAt_arctan _
  | log10 =>
    cases hf
    have hpos := (apply_log10.1 hu.call.2).1
    have hval := (value_inverse h).2
    rw [apply_mul.1 h.binary.2.1.binary.2.2] at hval
    have hlog := (Real.hasDerivAt_log hpos.ne').div_const (Real.log 10)
    refine hlog.congr_deriv ?_
    rw [hval, value_ln10]
    field_simp
  | ln =>
    cases hf
    rw [(value_inverse h).2, one_div]
    exact Real.hasDerivAt_log (apply_ln.1 hu.call.2).1.ne'
  | exp =>
    cases hf
    rw [apply_exp.1 h.call.2]
    exact Real.hasDerivAt_exp _
  | sqrt =>
    cases hf
    obtain ⟨hne, hval⟩ := value_inverse h
    have hproduct := h.binary.2.1
    rw [apply_mul.1 hproduct.binary.2.2, value_ofNat, (apply_sqrt.1 hproduct.binary.2.1.call.2).2] at hne hval
    rw [hval]
    refine Real.hasDerivAt_sqrt ?_
    intro hu0
    simp [hu0] at hne
  | square =>
    cases hf
    rw [apply_mul.1 h.binary.2.2, value_ofNat]
    exact ((hasDerivAt_id _).mul (hasDerivAt_id _)).congr_deriv (by simp; ring)
  | cube =>
    cases hf
    rw [apply_mul.1 h.binary.2.2, value_ofNat, value_squared h.binary.2.1]
    exact (((hasDerivAt_id _).mul (hasDerivAt_id _)).mul (hasDerivAt_id _)).congr_deriv (by simp; ring)
  | factorial => cases hf

/-- Every function but the factorial computes its function of real numbers. -/
theorem value_call {f : Function} (hf : f ≠ .factorial) (h : (call f e).Defined t) :
    (call f e).value t = f.real (e.value t) := by
  have hcall := h.call.2
  cases f with
  | sin => exact apply_sin.1 hcall
  | cos => exact apply_cos.1 hcall
  | tan => exact apply_tan.1 hcall
  | asin => exact (apply_asin.1 hcall).2
  | acos => exact (apply_acos.1 hcall).2
  | atan => exact apply_atan.1 hcall
  | log10 => exact (apply_log10.1 hcall).2
  | ln => exact (apply_ln.1 hcall).2
  | exp => exact apply_exp.1 hcall
  | sqrt => exact (apply_sqrt.1 hcall).2
  | square => exact apply_square.1 hcall
  | cube => exact apply_cube.1 hcall
  | factorial => exact absurd rfl hf

theorem hasDerivAt_call {f : Function} {outer : Expr Exact} (hf : f.outer? e = some outer)
    (h : ∀ᶠ t in 𝓝 p, (call f e).Defined t) (houter : outer.Defined p) (he : HasDerivAt e.value a' p) :
    HasDerivAt (call f e).value (outer.value p * a') p := by
  have hne : f ≠ .factorial := by
    rintro rfl
    cases hf
  have hchain := (hasDerivAt_outer hf h.self_of_nhds houter).comp p he
  exact hchain.congr_of_eventuallyEq (h.mono fun _ ht => value_call hne ht)

end Functions

/-! ## Powers -/

section Powers

theorem value_lessOne {g : Expr Exact} (hg : g.Defined t) (h : g.lessOne.Defined t) :
    g.lessOne.value t = g.value t - 1 := by
  have hsub : (binary .sub g (number (Arithmetic.ofNat 1))).Defined t →
      (binary .sub g (number (Arithmetic.ofNat 1))).value t = g.value t - 1 := by
    intro h
    have hval := apply_sub.1 h.binary.2.2
    rw [value_ofNat, Nat.cast_one] at hval
    exact hval
  -- only a number is made smaller by computing, and it is a real number since it has a value
  cases g with
  | atom l =>
    cases l with
    | number v =>
      cases v with
      | real r => exact congrArg (r - ·) Nat.cast_one
      | undefined => exact absurd hg (by rintro ⟨u, ⟨⟩⟩)
    | var name => exact hsub h
    | constant c => exact hsub h
  | neg e => exact hsub h
  | call f e => exact hsub h
  | binary op a b => exact hsub h

variable {f g : Expr Exact}

/-- A power with a constant exponent. Where the base is zero, the exponent is at least one. -/
theorem hasDerivAt_pow_const (h : ∀ᶠ t in 𝓝 p, (binary .pow f g).Defined t) (hg : g.contains boundName = false)
    (hpow : (binary .pow f g.lessOne).Defined p) (hf : HasDerivAt f.value a' p) :
    HasDerivAt (binary .pow f g).value (g.value p * (binary .pow f g.lessOne).value p * a') p := by
  have hless := value_lessOne h.self_of_nhds.binary.2.1 hpow.binary.2.1
  obtain ⟨-, hzero, hval⟩ := apply_pow.1 hpow.binary.2.2
  rw [hless] at hzero hval
  have hbase : f.value p ≠ 0 ∨ 1 ≤ g.value p := by
    rw [or_iff_not_imp_left, not_not]
    exact fun h0 => sub_nonneg.1 (hzero h0)
  have hvalue : ∀ᶠ t in 𝓝 p, (binary .pow f g).value t = f.value t ^ g.value p := h.mono fun t ht => by
    rw [(apply_pow.1 ht.binary.2.2).2.2, value_congr hg t p]
  refine ((hf.rpow_const hbase).congr_of_eventuallyEq hvalue).congr_deriv ?_
  rw [hval]
  ring

/-- A power with a constant base. Its logarithm has a value, so it is positive. -/
theorem hasDerivAt_const_pow (h : ∀ᶠ t in 𝓝 p, (binary .pow f g).Defined t) (hf : f.contains boundName = false)
    (hln : (call .ln f).Defined p) (hg : HasDerivAt g.value b' p) :
    HasDerivAt (binary .pow f g).value ((binary .pow f g).value p * (call .ln f).value p * b') p := by
  obtain ⟨hpos, hlog⟩ := apply_ln.1 hln.call.2
  have hvalue : ∀ᶠ t in 𝓝 p, (binary .pow f g).value t = f.value p ^ g.value t := h.mono fun t ht => by
    rw [(apply_pow.1 ht.binary.2.2).2.2, value_congr hf t p]
  refine ((hg.const_rpow hpos).congr_of_eventuallyEq hvalue).congr_deriv ?_
  rw [hlog, (apply_pow.1 h.self_of_nhds.binary.2.2).2.2]
  ring

/-- A power whose base and exponent vary. -/
theorem hasDerivAt_pow (h : ∀ᶠ t in 𝓝 p, (binary .pow f g).Defined t) (hln : (call .ln f).Defined p)
    (hf : HasDerivAt f.value a' p) (hg : HasDerivAt g.value b' p) :
    HasDerivAt (binary .pow f g).value
      ((binary .pow f g).value p * (b' * (call .ln f).value p + g.value p * a' / f.value p)) p := by
  obtain ⟨hpos, hlog⟩ := apply_ln.1 hln.call.2
  have hvalue : ∀ᶠ t in 𝓝 p, (binary .pow f g).value t = f.value t ^ g.value t :=
    h.mono fun _ ht => (apply_pow.1 ht.binary.2.2).2.2
  refine ((hf.rpow hg hpos).congr_of_eventuallyEq hvalue).congr_deriv ?_
  rw [hlog, (apply_pow.1 h.self_of_nhds.binary.2.2).2.2, Real.rpow_sub_one hpos.ne']
  field_simp
  ring

/-- The rule for powers gives the derivative, whichever of base and exponent vary. -/
theorem hasDerivAt_powerRule (h : ∀ᶠ t in 𝓝 p, (binary .pow f g).Defined t)
    (hd : (powerRule boundName f df g dg).Defined p)
    (hf : df.Defined p → HasDerivAt f.value (df.value p) p)
    (hg : dg.Defined p → HasDerivAt g.value (dg.value p) p) :
    HasDerivAt (binary .pow f g).value ((powerRule boundName f df g dg).value p) p := by
  unfold powerRule at hd ⊢
  split at hd
  next hgc =>
    rw [if_pos hgc, apply_mul.1 hd.binary.2.2, apply_mul.1 hd.binary.1.binary.2.2]
    rw [Bool.not_eq_true'] at hgc
    exact hasDerivAt_pow_const h hgc hd.binary.1.binary.2.1 (hf hd.binary.2.1)
  next hgc =>
    rw [if_neg hgc]
    split at hd
    next hfc =>
      rw [if_pos hfc, apply_mul.1 hd.binary.2.2, apply_mul.1 hd.binary.1.binary.2.2]
      rw [Bool.not_eq_true'] at hfc
      exact hasDerivAt_const_pow h hfc hd.binary.1.binary.2.1 (hg hd.binary.2.1)
    next hfc =>
      obtain ⟨hsum, hquotient, hadd⟩ := hd.binary.2.1.binary
      have hproduct := hquotient.binary.1
      rw [if_neg hfc, apply_mul.1 hd.binary.2.2, apply_add.1 hadd, apply_mul.1 hsum.binary.2.2,
        (apply_div.1 hquotient.binary.2.2).2, apply_mul.1 hproduct.binary.2.2]
      exact hasDerivAt_pow h hsum.binary.2.1 (hf hproduct.binary.2.1) (hg hsum.binary.1)

end Powers

/-! ## Formulas -/

/-- **The derivative of a formula is its derivative.** Where a formula has a value all around a point, its
derivative has one at the point, and none of its remainders jumps there, the value of the formula is
differentiable, and the derivative has the value of its derivative. -/
theorem hasDerivAt_value (e : Expr Exact) (p : ℝ) (h : ∀ᶠ t in 𝓝 p, e.Defined t)
    (hd : (e.derivative boundName).Defined p) (hjump : e.Unbroken p) :
    HasDerivAt e.value ((e.derivative boundName).value p) p := by
  induction e with
  | atom l =>
    cases l with
    | number v => exact (hasDerivAt_of_not_contains rfl).congr_deriv Nat.cast_zero.symm
    | constant c => exact (hasDerivAt_of_not_contains rfl).congr_deriv Nat.cast_zero.symm
    | var name =>
      have hbound : name = boundName := by
        obtain ⟨u, hu⟩ := h.self_of_nhds
        exact (ite_ok_eq_ok.1 hu).1
      subst hbound
      refine ((hasDerivAt_id p).congr_of_eventuallyEq ?_).congr_deriv Nat.cast_one.symm
      exact Eventually.of_forall fun t => value_of_evaluate rfl
  | neg e ih =>
    have he := ih (h.mono fun _ ht => ht.neg.1) hd.neg.1 hjump.of_neg
    exact (hasDerivAt_neg h he).congr_deriv hd.neg.2.symm
  | call f u ih =>
    have hu : ∀ᶠ t in 𝓝 p, u.Defined t := h.mono fun _ ht => ht.call.1
    rw [derivative] at hd ⊢
    split at hd
    next outer hf =>
      rw [apply_mul.1 hd.binary.2.2]
      exact hasDerivAt_call hf h hd.binary.1 (ih hu hd.binary.2.1 hjump.of_call)
    next =>
      split at hd
      next hvar => exact absurd hd (by rintro ⟨v, ⟨⟩⟩)
      next hvar =>
        rw [if_neg hvar]
        have hconstant : (call f u).contains boundName = false := Bool.not_eq_true _ ▸ hvar
        exact (hasDerivAt_of_not_contains hconstant).congr_deriv Nat.cast_zero.symm
  | binary op f g ihf ihg =>
    replace ihf := fun hd => ihf (h.mono fun _ ht => ht.binary.1) hd hjump.of_binary.1
    replace ihg := fun hd => ihg (h.mono fun _ ht => ht.binary.2.1) hd hjump.of_binary.2
    cases op with
    | add =>
      exact (hasDerivAt_add h (ihf hd.binary.1) (ihg hd.binary.2.1)).congr_deriv (apply_add.1 hd.binary.2.2).symm
    | sub =>
      exact (hasDerivAt_sub h (ihf hd.binary.1) (ihg hd.binary.2.1)).congr_deriv (apply_sub.1 hd.binary.2.2).symm
    | mul =>
      obtain ⟨hleft, hright, hsum⟩ := hd.binary
      refine (hasDerivAt_mul h (ihf hleft.binary.1) (ihg hright.binary.2.1)).congr_deriv ?_
      rw [← apply_mul.1 hleft.binary.2.2, ← apply_mul.1 hright.binary.2.2]
      exact (apply_add.1 hsum).symm
    | div =>
      obtain ⟨hdifference, hsquare, hquotient⟩ := hd.binary
      obtain ⟨hleft, hright, hsub⟩ := hdifference.binary
      refine (hasDerivAt_div h (ihf hleft.binary.1) (ihg hright.binary.2.1)).congr_deriv ?_
      rw [← apply_mul.1 hleft.binary.2.2, ← apply_mul.1 hright.binary.2.2, ← apply_sub.1 hsub,
        ← value_squared hsquare]
      exact (apply_div.1 hquotient).2.symm
    | pow => exact hasDerivAt_powerRule h hd ihf ihg
    | mod =>
      rw [derivative] at hd ⊢
      split at hd
      next hvar => exact absurd hd (by rintro ⟨v, ⟨⟩⟩)
      next hvar =>
        rw [if_neg hvar]
        rw [Bool.not_eq_true] at hvar
        exact hasDerivAt_mod h hvar (hjump f g .here) (ihf hd)

/-- At one, the remainder of `x ^ 2` by three has a derivative. -/
theorem hasDerivAt_value_square_remainder :
    HasDerivAt (binary .mod (binary .pow x (number (real 2))) (number (real 3))).value
      ((derivative boundName (binary .mod (binary .pow x (number (real 2))) (number (real 3)))).value 1) 1 := by
  have hx (t : ℝ) : (x : Expr Exact).evaluate (some (real t)) = .ok (real t) := rfl
  have hpow (t : ℝ) : (binary .pow x (number (real 2))).evaluate (some (real t)) = .ok (real (t ^ (2 : ℝ))) :=
    evaluate_binary_eq_ok.2 ⟨_, _, hx t, rfl, apply_pow.2 ⟨fun _ => ⟨2, by norm_num⟩, by norm_num, rfl⟩⟩
  have hmod (t : ℝ) : (binary .mod (binary .pow x (number (real 2))) (number (real 3))).Defined t :=
    ⟨_, evaluate_binary_eq_ok.2 ⟨_, _, hpow t, rfl, apply_mod.2 ⟨by norm_num, rfl⟩⟩⟩
  have hless : (binary .pow x (number (real (2 - (1 : ℕ))))).evaluate (some (real 1)) =
      .ok (real (1 ^ (2 - (1 : ℕ) : ℝ))) :=
    evaluate_binary_eq_ok.2 ⟨_, _, hx 1, rfl, apply_pow.2 ⟨by norm_num, by norm_num, rfl⟩⟩
  refine hasDerivAt_value _ 1 (.of_forall hmod) ?_ ?_
  · exact ⟨_, evaluate_binary_eq_ok.2
      ⟨_, _, evaluate_binary_eq_ok.2 ⟨_, _, rfl, hless, apply_mul.2 rfl⟩, rfl, apply_mul.2 rfl⟩⟩
  · intro f g hfg n hn heq
    obtain ⟨rfl, rfl⟩ : f = binary .pow x (number (real 2)) ∧ g = number (real 3) := by
      cases hfg with
      | here => exact ⟨rfl, rfl⟩
      | left h => cases h with
        | left h => cases h
        | right h => cases h
      | right h => cases h
    rw [value_of_evaluate (hpow 1), value_number, Real.one_rpow] at heq
    have h3 : (1 : ℤ) = n * 3 := by exact_mod_cast heq
    omega

end Expr

end PocketCalc
