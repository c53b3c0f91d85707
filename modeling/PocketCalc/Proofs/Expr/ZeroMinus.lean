import PocketCalc.Numeral.Printer
import PocketCalc.Proofs.Binary64.Opposite
import PocketCalc.Proofs.Expr.Finite

/-!
# Zero minus a product

* `NegatesFirst` — a product, and the same product with its first factor negated; the values are opposite;
* `DropsZero` — a sum that starts with zero minus a product, and the same sum with that product negated instead; the
  values agree up to the sign of a zero, and the second sum is not deeper;
* `fitted_congr` — the text of a number does not show the sign of a zero.
-/

namespace PocketCalc

open Binary64

/-! ## Checked results -/

/-- The first number is finite, and the second one agrees with the image of the first. -/
def Tracks (g : Binary64 → Binary64) (v v' : Binary64) : Prop := v.isFinite = true ∧ v'.Agrees (g v)

/-- A change of a number that keeps its kind. -/
structure KeepsKind (g : Binary64 → Binary64) : Prop where
  isNaN : ∀ v, (g v).isNaN = v.isNaN
  isInfinite : ∀ v, (g v).isInfinite = v.isInfinite

theorem keepsKind_id : KeepsKind fun v => v := ⟨fun _ => rfl, fun _ => rfl⟩

theorem keepsKind_neg : KeepsKind fun v => -v := ⟨isNaN_neg, isInfinite_neg⟩

variable {g : Binary64 → Binary64} {u v v' w : Binary64} {op : Operator} {a a' b e p p' s s' : Formula}

/-- Results that agree up to such a change are refused alike. -/
theorem Tracks.checked (hg : KeepsKind g) (h : v'.Agrees (g v)) :
    Corresponds (Tracks g) (Arithmetic.checked v) (Arithmetic.checked v') := by
  have hnan : v'.isNaN = v.isNaN := h.isNaN.trans (hg.isNaN v)
  have hinf : v'.isInfinite = v.isInfinite := h.isInfinite.trans (hg.isInfinite v)
  show Corresponds _ (if v.isNaN then _ else if v.isInfinite then _ else _)
    (if v'.isNaN then _ else if v'.isInfinite then _ else _)
  rw [hnan, hinf]
  cases hv : v.isNaN with
  | true => exact .error _
  | false =>
    cases hv' : v.isInfinite with
    | true => exact .error _
    | false => exact .ok ⟨isFinite_iff.2 ⟨hv, hv'⟩, h⟩

/-- A product or quotient with the opposite left operand is the opposite. -/
theorem Tracks.apply_product (hop : op ∈ [.mul, .div, .mod]) (h : Tracks (fun v => -v) v v') (w : Binary64) :
    Corresponds (Tracks fun v => -v) (op.apply v w) (op.apply v' w) := by
  have hguard {r r' : Binary64} (hr : w.eq (ofNat 0) = false → r'.Agrees (-r)) :
      Corresponds (Tracks fun v => -v)
        (if w.eq (ofNat 0) then .error .divisionByZero else Arithmetic.checked r)
        (if w.eq (ofNat 0) then .error .divisionByZero else Arithmetic.checked r') := by
    cases hw : w.eq (ofNat 0) with
    | true => exact .error _
    | false => exact Tracks.checked keepsKind_neg (hr hw)
  simp only [List.mem_cons, List.not_mem_nil, or_false] at hop
  rcases hop with rfl | rfl | rfl
  · exact Tracks.checked keepsKind_neg ((h.2.mul (.refl w)).trans (neg_mul_agrees v w))
  · exact hguard fun hw => (h.2.div (.refl w) hw).trans (neg_div_agrees v w)
  · exact hguard fun hw => (h.2.remainder (.refl w)).trans (neg_remainder_agrees v w)

/-- A sum or difference does not depend on the sign of a zero on its left. -/
theorem Tracks.apply_sum (hop : op ∈ [.add, .sub]) (h : Tracks (fun v => v) v v') (w : Binary64) :
    Corresponds (Tracks fun v => v) (op.apply v w) (op.apply v' w) := by
  simp only [List.mem_cons, List.not_mem_nil, or_false] at hop
  rcases hop with rfl | rfl
  · exact Tracks.checked keepsKind_id (h.2.add (.refl w))
  · exact Tracks.checked keepsKind_id (h.2.sub (.refl w))

/-- Zero minus a number is the opposite of the number, up to the sign of a zero. -/
theorem Tracks.zero_sub (h : Tracks (fun v => -v) v v') :
    Corresponds (Tracks fun v => v) (Operator.apply .sub (0 : Binary64) v) (.ok v') := by
  have hsub : (0 - v : Binary64).Agrees (-v) := zero_sub_agrees rfl v
  have hfinite : (0 - v : Binary64).isFinite = true := by rw [hsub.isFinite, isFinite_neg, h.1]
  obtain ⟨hnan, hinf⟩ := isFinite_iff.1 hfinite
  have hchecked : Operator.apply .sub (0 : Binary64) v = .ok (0 - v) := by
    show (if (0 - v : Binary64).isNaN then _ else if (0 - v : Binary64).isInfinite then _ else _) = _
    rw [hnan, hinf]
    rfl
  rw [hchecked]
  exact .ok ⟨hfinite, h.2.trans hsub.symm⟩

/-! ## Formulas -/

/-- The second product is the first one with its first factor negated. -/
inductive NegatesFirst : Formula → Formula → Prop where
  | factor (u : Formula) : NegatesFirst u (.neg u)
  | chain {op : Operator} {a a' : Formula} (hop : op ∈ [.mul, .div, .mod]) (h : NegatesFirst a a') (b : Formula) :
    NegatesFirst (.binary op a b) (.binary op a' b)

/-- The second sum starts with the opposite of a product, where the first one starts with zero minus the product. -/
inductive DropsZero : Formula → Formula → Prop where
  | product {p p' : Formula} (h : NegatesFirst p p') : DropsZero (.binary .sub (.number 0) p) p'
  | chain {op : Operator} {a a' : Formula} (hop : op ∈ [.add, .sub]) (h : DropsZero a a') (b : Formula) :
    DropsZero (.binary op a b) (.binary op a' b)

theorem NegatesFirst.depth_le (h : NegatesFirst p p') : p'.depth ≤ p.depth + 1 := by
  induction h with
  | factor u => exact Nat.le_refl _
  | chain hop h b ih =>
    simp only [Expr.depth]
    omega

/-- The sum without the zero is not deeper. -/
theorem DropsZero.depth_le (h : DropsZero s s') : s'.depth ≤ s.depth := by
  induction h with
  | product h =>
    have hdepth := h.depth_le
    simp only [Expr.depth]
    omega
  | chain hop h b ih =>
    simp only [Expr.depth]
    omega

/-- The value of a formula that calls no function is finite. -/
theorem isFinite_of_not_hasCalls (hcalls : e.hasCalls = false) (h : e.evaluate none = .ok v) : v.isFinite = true := by
  have hfinite := Expr.finite_of_evaluate (L := Libm.system) (x := none) (e := e) (v := v)
    (fun hc => absurd (hcalls.symm.trans hc) Bool.false_ne_true) nofun h
  exact Number.isFinite_iff.1 hfinite.1

theorem evaluate_binary_corresponds {R S : Binary64 → Binary64 → Prop}
    (h : Corresponds R (a.evaluate none) (a'.evaluate none))
    (hop : ∀ v v' w, R v v' → Corresponds S (op.apply v w) (op.apply v' w)) :
    Corresponds S ((Expr.binary op a b).evaluate none) ((Expr.binary op a' b).evaluate none) :=
  h.bind fun v v' hv => Corresponds.bind_left fun w => hop v v' w hv

/-- The value of a product with its first factor negated is the opposite. -/
theorem NegatesFirst.evaluate (h : NegatesFirst p p') (hcalls : p.hasCalls = false) :
    Corresponds (Tracks fun v => -v) (p.evaluate none) (p'.evaluate none) := by
  induction h with
  | factor u =>
    rw [Expr.evaluate]
    rcases hu : u.evaluate none with err | v
    · exact .error err
    · exact .ok ⟨isFinite_of_not_hasCalls hcalls hu, .refl _⟩
  | chain hop h b ih =>
    simp only [Expr.hasCalls, Bool.or_eq_false_iff] at hcalls
    exact evaluate_binary_corresponds (ih hcalls.1) fun v v' w hv => hv.apply_product hop w

/-- **Zero minus a product** may be left out of a sum: the value is the same, up to the sign of a zero. -/
theorem DropsZero.evaluate (h : DropsZero s s') (hcalls : s.hasCalls = false) :
    Corresponds (Tracks fun v => v) (s.evaluate none) (s'.evaluate none) := by
  induction h with
  | product h =>
    simp only [Expr.hasCalls, Bool.false_or] at hcalls
    have hzero : Arithmetic.checked (0 : Binary64) = .ok 0 := checked_ofNat_zero (L := Libm.system)
    simp only [Expr.evaluate, Expr.evaluateAtom, hzero]
    have hproduct := (h.evaluate hcalls).bind (g := fun v' => .ok v') fun v v' hv => hv.zero_sub
    rwa [show (fun v' : Binary64 => Except.ok (ε := EvalError) v') = pure from rfl, bind_pure] at hproduct
  | chain hop h b ih =>
    simp only [Expr.hasCalls, Bool.or_eq_false_iff] at hcalls
    exact evaluate_binary_corresponds (ih hcalls.1) fun v v' w hv => hv.apply_sum hop w

/-! ## Texts of numbers -/

theorem natural_of_zero {t : Float.Model.UnpackedFloat.Sign} (h : v.unpacked = .zero t) :
    Numeral.natural v = "0".toList := by
  obtain ⟨hnan, hinf⟩ := kinds_of_zero h
  obtain ⟨-, hm, -⟩ := fields_of_zero h
  simp [Numeral.natural, hnan, hinf, hm]

theorem fitted_of_zero {t : Float.Model.UnpackedFloat.Sign} {width : ℕ} (h : v.unpacked = .zero t) (hw : 1 ≤ width) :
    Numeral.fitted v width = "0".toList := by
  have hlength : "0".toList.length ≤ width := hw
  simp only [Numeral.fitted]
  rw [natural_of_zero h, if_pos (.inr hlength)]

/-- The text of a number does not show the sign of a zero. -/
theorem fitted_congr {width : ℕ} (hw : 1 ≤ width) (h : Tracks (fun v => v) v v') :
    Numeral.fitted v' width = Numeral.fitted v width := by
  obtain ⟨hfinite, hagree⟩ := h
  rw [Agrees] at hagree
  generalize hu : v'.unpacked = x at hagree
  generalize hv : v.unpacked = y at hagree
  cases hagree with
  | same =>
    have hnan : v'.isNaN = false := by
      rw [isNaN_eq, hu, ← hv, ← isNaN_eq]
      exact (isFinite_iff.1 hfinite).1
    rw [eq_of_unpacked (hu.trans hv.symm) hnan]
  | zeros t t' => rw [fitted_of_zero hu hw, fitted_of_zero hv hw]

end PocketCalc
