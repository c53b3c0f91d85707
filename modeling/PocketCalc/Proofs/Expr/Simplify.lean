import PocketCalc.Proofs.Binary64.Libm
import PocketCalc.Proofs.Expr.Evaluation
import PocketCalc.Proofs.Expr.NormalForm

/-!
# Simplification keeps values

* `HasEqual` — of a formula: it has a value that is equal to a given one;
* `HasEqual.neg`, `HasEqual.call`, `HasEqual.binary` — equal values of the parts make an equal value of the whole;
* `HasEqual.negated`, `HasEqual.reduced`, `HasEqual.combined` — so they do when the whole is simplified;
* `evaluate_simplify` — a value that a formula has is equal to the one that its simple form has.
-/

namespace PocketCalc

open Binary64 PocketCalc.Expr

section

variable {L : Libm} {x : Option L.Number} {a b e : Expr L.Number} {u v w : L.Number}

theorem HasEqual.of_agrees {r : Except EvalError L.Number} (h : HasEqual r w) (hu : Agrees u w) :
    HasEqual r u := by
  obtain ⟨u', hr, heq⟩ := h
  obtain ⟨hagree, hnan⟩ := Number.eq_iff.1 heq
  exact ⟨u', hr, Number.eq_iff.2 ⟨Agrees.trans hu hagree, hu.isNaN.trans hnan⟩⟩

/-! ## Evaluation -/

theorem HasEqual.neg (h : HasEqual (e.evaluate x) v) : HasEqual ((Expr.neg e).evaluate x) (-v) := by
  obtain ⟨v', he, heq⟩ := h
  obtain ⟨hagree, hnan⟩ := Number.eq_iff.1 heq
  exact ⟨-v', evaluate_neg_eq_ok.2 ⟨v', he, rfl⟩, Number.eq_iff.2 ⟨Agrees.neg hagree, (isNaN_neg v).trans hnan⟩⟩

theorem HasEqual.call (hL : L.Lawful) {f : Function} (h : HasEqual (e.evaluate x) v) (hf : f.apply v = .ok u) :
    HasEqual ((Expr.call f e).evaluate x) u := by
  obtain ⟨v', he, heq⟩ := h
  obtain ⟨u', hf', hu⟩ := Function.apply_congr hL heq hf
  exact ⟨u', evaluate_call_eq_ok.2 ⟨v', he, hf'⟩, hu⟩

theorem HasEqual.binary (hL : L.Lawful) {op : Operator} (ha : HasEqual (a.evaluate x) v)
    (hb : HasEqual (b.evaluate x) w) (hop : op.apply v w = .ok u) :
    HasEqual ((Expr.binary op a b).evaluate x) u := by
  obtain ⟨v', ha, hv⟩ := ha
  obtain ⟨w', hb, hw⟩ := hb
  obtain ⟨u', hop', hu⟩ := Operator.apply_congr hL hv hw hop
  exact ⟨u', evaluate_binary_eq_ok.2 ⟨v', w', ha, hb, hop'⟩, hu⟩

/-! ## Simplification -/

/-- The value of a formula that is a number. -/
theorem HasEqual.of_number (h : HasEqual ((number w).evaluate x) v) : Arithmetic.eq v w = true := by
  obtain ⟨v', hw, heq⟩ := h
  obtain ⟨-, rfl⟩ := checked_eq_ok.1 hw
  exact heq

theorem Expr.eq_ofNat_of_isNat {n : ℕ} (h : a.isNat n = true) (ha : HasEqual (a.evaluate x) v) :
    Arithmetic.eq v (Arithmetic.ofNat n) = true := by
  unfold isNat at h
  split at h
  next w hw =>
    rw [number?_eq_some] at hw
    subst hw
    obtain ⟨hagree, hnan⟩ := Number.eq_iff.1 ha.of_number
    exact Number.eq_iff.2 ⟨Agrees.trans hagree (Number.eq_iff.1 h).1, hnan⟩
  · cases h

theorem HasEqual.negated (h : HasEqual (e.evaluate x) v) : HasEqual (e.negated.evaluate x) (-v) := by
  unfold Expr.negated
  split
  next w =>
    obtain ⟨v', hw, heq⟩ := h
    obtain ⟨⟨hnan, hinf⟩, rfl⟩ := checked_eq_ok.1 hw
    obtain ⟨hagree, hnan'⟩ := Number.eq_iff.1 heq
    exact ⟨-w, checked_eq_ok.2 ⟨⟨(isNaN_neg w).trans hnan, (isInfinite_neg w).trans hinf⟩, rfl⟩,
      Number.eq_iff.2 ⟨Agrees.neg hagree, (isNaN_neg v).trans hnan'⟩⟩
  next inner =>
    obtain ⟨v', he, heq⟩ := h
    obtain ⟨v'', hinner, rfl⟩ := evaluate_neg_eq_ok.1 he
    obtain ⟨hagree, hnan⟩ := Number.eq_iff.1 heq
    exact ⟨v'', hinner, Number.eq_iff.2
      ⟨Agrees.trans (Agrees.neg hagree) (neg_neg_agrees v''), (isNaN_neg v).trans hnan⟩⟩
  · exact h.neg

/-- An operation without operands that make no difference. -/
theorem HasEqual.reduced (hL : L.Lawful) {op : Operator} (ha : HasEqual (a.evaluate x) v)
    (hb : HasEqual (b.evaluate x) w) (hop : op.apply v w = .ok u) :
    HasEqual ((Expr.reduced op a b).evaluate x) u := by
  cases op with
  | add =>
    obtain ⟨-, rfl⟩ := checked_eq_ok.1 hop
    rw [Expr.reduced]
    split
    next h0 => exact hb.of_agrees (zero_add_agrees (eq_ofNat_of_isNat h0 ha) w)
    · split
      next h0 => exact ha.of_agrees (add_zero_agrees v (eq_ofNat_of_isNat h0 hb))
      · exact HasEqual.binary hL ha hb hop
  | sub =>
    obtain ⟨-, rfl⟩ := checked_eq_ok.1 hop
    rw [Expr.reduced]
    split
    next h0 => exact ha.of_agrees (sub_zero_agrees v (eq_ofNat_of_isNat h0 hb))
    · split
      next h0 => exact hb.negated.of_agrees (zero_sub_agrees (eq_ofNat_of_isNat h0 ha) w)
      · exact HasEqual.binary hL ha hb hop
  | mul =>
    obtain ⟨⟨hnan, -⟩, rfl⟩ := checked_eq_ok.1 hop
    rw [Expr.reduced]
    split
    next h0 =>
      have hzero : Agrees (v * w) (Binary64.ofNat 0) := by
        rcases Bool.or_eq_true_iff.1 h0 with h0 | h0
        · exact zero_mul_agrees (eq_ofNat_of_isNat h0 ha) hnan
        · exact mul_zero_agrees (eq_ofNat_of_isNat h0 hb) hnan
      exact ⟨Arithmetic.ofNat 0, checked_ofNat_zero, Number.eq_iff.2 ⟨hzero, hnan⟩⟩
    · split
      next h1 => exact hb.of_agrees (one_mul_agrees (eq_ofNat_of_isNat h1 ha) w)
      · split
        next h1 => exact ha.of_agrees (mul_one_agrees v (eq_ofNat_of_isNat h1 hb))
        · exact HasEqual.binary hL ha hb hop
  | div =>
    rw [Expr.reduced]
    split
    next h1 =>
      rw [Operator.apply] at hop
      split at hop
      · cases hop
      · obtain ⟨-, rfl⟩ := checked_eq_ok.1 hop
        exact ha.of_agrees (div_one_agrees v (eq_ofNat_of_isNat h1 hb))
    · exact HasEqual.binary hL ha hb hop
  | pow =>
    have hpow : Arithmetic.pow v w = u := by
      rw [Operator.apply] at hop
      split at hop
      · cases hop
      · split at hop
        · cases hop
        · exact (checked_eq_ok.1 hop).2
    have hnan : Binary64.isNaN v = false := by
      obtain ⟨v', -, hv⟩ := ha
      exact (Number.eq_iff.1 hv).2
    subst hpow
    rw [Expr.reduced]
    split
    next h1 =>
      exact ha.of_agrees (Number.eq_iff.1 (hL.pow_one v w hnan (eq_ofNat_of_isNat h1 hb))).1
    · split
      next h0 =>
        exact ⟨Arithmetic.ofNat 1, checked_ofNat_one, hL.pow_zero v w (eq_ofNat_of_isNat h0 hb)⟩
      · exact HasEqual.binary hL ha hb hop
  | mod => exact HasEqual.binary hL ha hb hop

theorem checked_raw_of_apply {op : Operator} (h : op.apply v w = .ok u) :
    Arithmetic.checked (op.raw v w) = .ok u := by
  cases op with
  | add | sub | mul => exact h
  | div | mod =>
    rw [Operator.apply] at h
    split at h
    · cases h
    · exact h
  | pow =>
    rw [Operator.apply] at h
    split at h
    · cases h
    · split at h
      · cases h
      · exact h

theorem HasEqual.combined (hL : L.Lawful) {op : Operator} (ha : HasEqual (a.evaluate x) v)
    (hb : HasEqual (b.evaluate x) w) (hop : op.apply v w = .ok u) :
    HasEqual ((Expr.combined op a b).evaluate x) u := by
  rcases combined_cases op a b with ⟨v', w', rfl, rfl, -, heq⟩ | ⟨-, heq⟩
  · obtain ⟨u', hop', hu⟩ := Operator.apply_congr hL ha.of_number hb.of_number hop
    have hraw := checked_raw_of_apply hop'
    obtain ⟨-, rfl⟩ := checked_eq_ok.1 hraw
    rw [heq]
    exact ⟨_, hraw, hu⟩
  · rw [heq]
    exact ha.reduced hL hb hop

end

/-- **Simplification keeps values.** If a formula has a value, whatever finite number its variable may be bound to,
its simple form has an equal one: only the sign of a zero may be another. -/
theorem Expr.evaluate_simplify {L : Libm} (hL : L.Lawful) (e : Expr L.Number) (x : Option L.Number)
    (hx : ∀ t, x = some t → Arithmetic.isFinite t = true) {v : L.Number} (h : e.evaluate x = .ok v) :
    ∃ v', e.simplify.evaluate x = .ok v' ∧ Arithmetic.eq v v' = true := by
  induction e generalizing v with
  | atom l =>
    refine ⟨v, h, Number.eq_iff.2 ⟨.refl _, ?_⟩⟩
    cases l with
    | number w =>
      obtain ⟨⟨hnan, -⟩, rfl⟩ := checked_eq_ok.1 h
      exact hnan
    | constant c =>
      cases h
      cases c with
      | pi => exact show Binary64.isNaN (.ofFloat (Float.ofBits 0x400921FB54442D18)) = false by decide +kernel
      | e => exact show Binary64.isNaN (.ofFloat (Float.ofBits 0x4005BF0A8B145769)) = false by decide +kernel
    | var name =>
      cases x with
      | none => cases h
      | some t =>
        obtain ⟨hname, rfl⟩ : name = boundName ∧ t = v := by
          by_cases hname : name = boundName
          · exact ⟨hname, by simpa [evaluate, evaluateAtom, hname] using h⟩
          · simp [evaluate, evaluateAtom, hname] at h
        have hnumber := (Bool.and_eq_true_iff.1 (hx t rfl)).1
        rwa [Bool.not_eq_true'] at hnumber
  | neg e ih =>
    obtain ⟨w, hw, rfl⟩ := evaluate_neg_eq_ok.1 h
    exact HasEqual.negated (ih hw)
  | call f e ih =>
    obtain ⟨w, hw, hf⟩ := evaluate_call_eq_ok.1 h
    exact HasEqual.call hL (ih hw) hf
  | binary op a b iha ihb =>
    obtain ⟨w, z, hw, hz, hop⟩ := evaluate_binary_eq_ok.1 h
    exact HasEqual.combined hL (iha hw) (ihb hz) hop

/-! ## A library -/

/-- A library that knows the powers zero and one. -/
def Libm.powers : Libm where
  sin _ := 0
  cos _ := 0
  tan _ := 0
  asin _ := 0
  acos _ := 0
  atan _ := 0
  log10 _ := 0
  ln _ := 0
  exp _ := 0
  pow a b := if b.eq (ofNat 0) then ofNat 1 else a

theorem Libm.powers_lawful : Libm.powers.Lawful where
  congr f hf a b _ := by
    have hconst : f = fun _ => 0 := by
      simp only [powers, List.mem_cons, List.not_mem_nil, or_false, or_self] at hf
      exact hf
    subst hconst
    exact .refl 0
  pow_congr a a' b b' ha hb _ := by
    show Agrees (if b.eq (ofNat 0) then ofNat 1 else a) (if b'.eq (ofNat 0) then ofNat 1 else a')
    rw [hb.eq (.refl _)]
    split
    · exact .refl _
    · exact ha
  pow_one a b ha hb := by
    have hb0 : b.eq (ofNat 0) = false := by
      rw [eq_eq, eq_ofNat_one.1 hb, unpacked_ofNat_zero]
      rfl
    show (if b.eq (ofNat 0) then ofNat 1 else a).eq a = true
    rw [hb0]
    exact eq_iff.2 ⟨.refl a, ha⟩
  pow_zero a b hb := by
    show (if b.eq (ofNat 0) then ofNat 1 else a).eq (ofNat 1) = true
    rw [hb]
    exact eq_ofNat_one.2 unpacked_ofNat_one
  logarithm f hf a _ _ := by
    have hconst : f = fun _ => 0 := by simpa [powers] using hf
    subst hconst
    exact show Binary64.isNaN 0 = false from rfl
  inverse f hf a _ _ := by
    have hconst : f = fun _ => 0 := by simpa [powers] using hf
    subst hconst
    exact show Binary64.isNaN 0 = false from rfl

/-- The formula `(0 + x) ^ 1 / 1 - x ^ 0`. -/
def powersExample : Expr Libm.powers.Number :=
  .binary .sub
    (.binary .div
      (.binary .pow (.binary .add (.number (Arithmetic.ofNat 0)) Expr.x) (.number (Arithmetic.ofNat 1)))
      (.number (Arithmetic.ofNat 1)))
    (.binary .pow Expr.x (.number (Arithmetic.ofNat 0)))

/-- The value of that formula at three, and of its simple form. -/
theorem Expr.evaluate_simplify_powers : ∃ v' : Libm.powers.Number,
    powersExample.simplify.evaluate (some (Arithmetic.ofNat 3)) = .ok v' ∧
      Arithmetic.eq (Arithmetic.ofNat 2) v' = true :=
  evaluate_simplify Libm.powers_lawful powersExample (some (Arithmetic.ofNat 3))
    (by rintro t ⟨⟩; decide +kernel) (by decide +kernel)

end PocketCalc
