import PocketCalc.Proofs.Binary64.Factorial
import PocketCalc.Expr.Evaluate

/-!
# Evaluation with a library

* `Libm.Lawful` — what is assumed of a library;
* `checked_congr`, `Function.apply_congr`, `Operator.apply_congr` — where an operation has a value, it has an
  equal one on equal operands: nothing depends on the sign of a zero.
-/

namespace PocketCalc

open Binary64

/-- A library whose functions do not depend on the sign of a zero, beyond the sign of a zero that they give;
that raises to the powers zero and one exactly; and that has a number wherever a formula asks for one. -/
structure Libm.Lawful (L : Libm) : Prop where
  congr : ∀ f ∈ [L.sin, L.cos, L.tan, L.asin, L.acos, L.atan, L.log10, L.ln, L.exp], ∀ a b : Binary64,
    a.Agrees b → (f a).Agrees (f b)
  pow_congr : ∀ a a' b b' : Binary64, a.Agrees a' → b.Agrees b' →
    ¬ (a.eq (ofNat 0) = true ∧ b.lt (ofNat 0) = true) → (L.pow a b).Agrees (L.pow a' b')
  pow_one : ∀ a b : Binary64, a.isNaN = false → b.eq (ofNat 1) = true → (L.pow a b).eq a = true
  pow_zero : ∀ a b : Binary64, b.eq (ofNat 0) = true → (L.pow a b).eq (ofNat 1) = true
  logarithm : ∀ f ∈ [L.log10, L.ln], ∀ a : Binary64, a.isNaN = false → a.le (ofNat 0) = false →
    (f a).isNaN = false
  inverse : ∀ f ∈ [L.asin, L.acos], ∀ a : Binary64, (-ofNat 1).le a = true → a.le (ofNat 1) = true →
    (f a).isNaN = false

variable {L : Libm} {v v' w w' u r r' : L.Number}

theorem Number.eq_iff : Arithmetic.eq v w = true ↔ Agrees v w ∧ Binary64.isNaN v = false := Binary64.eq_iff

theorem checked_eq_ok : Arithmetic.checked v = .ok u ↔
    (Binary64.isNaN v = false ∧ Binary64.isInfinite v = false) ∧ v = u := by
  show (if Binary64.isNaN v then _ else if Binary64.isInfinite v then _ else _) = _ ↔ _
  cases Binary64.isNaN v <;> cases Binary64.isInfinite v <;> simp

theorem checked_ofNat_zero : Arithmetic.checked (Arithmetic.ofNat 0 : L.Number) = .ok (Arithmetic.ofNat 0) := by
  rw [checked_eq_ok]
  show ((Binary64.ofNat 0).isNaN = false ∧ (Binary64.ofNat 0).isInfinite = false) ∧ _
  rw [isNaN_eq, isInfinite_eq, unpacked_ofNat_zero]
  exact ⟨⟨rfl, rfl⟩, rfl⟩

theorem checked_ofNat_one : Arithmetic.checked (Arithmetic.ofNat 1 : L.Number) = .ok (Arithmetic.ofNat 1) := by
  rw [checked_eq_ok]
  show ((Binary64.ofNat 1).isNaN = false ∧ (Binary64.ofNat 1).isInfinite = false) ∧ _
  rw [isNaN_eq, isInfinite_eq, unpacked_ofNat_one]
  exact ⟨⟨rfl, rfl⟩, rfl⟩

/-- A result has an equal one, if there is a result that agrees. -/
def HasEqual (x : Except EvalError L.Number) (u : L.Number) : Prop :=
  ∃ u', x = .ok u' ∧ Arithmetic.eq u u' = true

theorem checked_congr (h : Agrees r r') (hr : Arithmetic.checked r = .ok u) :
    HasEqual (Arithmetic.checked r') u := by
  obtain ⟨⟨hnan, hinf⟩, rfl⟩ := checked_eq_ok.1 hr
  refine ⟨r', checked_eq_ok.2 ⟨⟨?_, ?_⟩, rfl⟩, Number.eq_iff.2 ⟨h, hnan⟩⟩
  · rw [← h.isNaN, hnan]
  · rw [← h.isInfinite, hinf]

theorem ok_congr (h : Agrees r r') (hnan : Binary64.isNaN r = false) :
    HasEqual (.ok r') r :=
  ⟨r', rfl, Number.eq_iff.2 ⟨h, hnan⟩⟩

/-- What is refused under a condition has equal values where the condition is the same. -/
theorem guard_congr {c c' : Bool} {err : EvalError} {x x' : Except EvalError L.Number} (hc : c' = c)
    (h : (if c then .error err else x) = .ok u) (hx : c = false → x = .ok u → HasEqual x' u) :
    HasEqual (if c' then .error err else x') u := by
  rw [hc]
  split at h
  · cases h
  next hfalse =>
    rw [if_neg hfalse]
    exact hx (Bool.not_eq_true _ ▸ hfalse) h

/-! ## Functions -/

section Functions

variable {f : Binary64 → Binary64} {err : EvalError}

theorem logarithm_congr (hL : L.Lawful) (hf : f ∈ [L.log10, L.ln]) (h : Arithmetic.eq v v' = true)
    (hv : (if Arithmetic.le v (Arithmetic.ofNat 0) then .error err else .ok (f v)) = Except.ok u) :
    HasEqual (if Arithmetic.le v' (Arithmetic.ofNat 0) then .error err else .ok (f v')) u := by
  obtain ⟨hagree, hnan⟩ := Number.eq_iff.1 h
  have hle : Arithmetic.le v' (Arithmetic.ofNat 0) = Arithmetic.le v (Arithmetic.ofNat 0) :=
    Agrees.le hagree.symm (.refl _)
  have hmem : f ∈ [L.sin, L.cos, L.tan, L.asin, L.acos, L.atan, L.log10, L.ln, L.exp] := by
    simp only [List.mem_cons, List.not_mem_nil, or_false] at hf ⊢
    tauto
  refine guard_congr hle hv fun hpos hok => ?_
  cases hok
  exact ok_congr (hL.congr f hmem v v' hagree) (hL.logarithm f hf v hnan hpos)

theorem inverse_congr (hL : L.Lawful) (hf : f ∈ [L.asin, L.acos]) (h : Arithmetic.eq v v' = true)
    (hv : (if Function.apply.inUnit v then .ok (f v) else .error err) = Except.ok u) :
    HasEqual (if Function.apply.inUnit v' then .ok (f v') else .error err) u := by
  obtain ⟨hagree, -⟩ := Number.eq_iff.1 h
  have hunit : Function.apply.inUnit v' = Function.apply.inUnit v :=
    congrArg₂ and (Agrees.le (.refl _) hagree.symm) (Agrees.le hagree.symm (.refl _))
  have hmem : f ∈ [L.sin, L.cos, L.tan, L.asin, L.acos, L.atan, L.log10, L.ln, L.exp] := by
    simp only [List.mem_cons, List.not_mem_nil, or_false] at hf ⊢
    tauto
  rw [hunit]
  split at hv
  next hin =>
    cases hv
    rw [if_pos hin]
    obtain ⟨hlow, hhigh⟩ := Bool.and_eq_true_iff.1 hin
    exact ok_congr (hL.congr f hmem v v' hagree) (hL.inverse f hf v hlow hhigh)
  · cases hv

theorem sqrt_congr (h : Arithmetic.eq v v' = true)
    (hv : (if Arithmetic.lt v (Arithmetic.ofNat 0) then .error err else .ok (Arithmetic.sqrt v)) = Except.ok u) :
    HasEqual (if Arithmetic.lt v' (Arithmetic.ofNat 0) then .error err else .ok (Arithmetic.sqrt v')) u := by
  obtain ⟨hagree, hnan⟩ := Number.eq_iff.1 h
  have hlt : Arithmetic.lt v' (Arithmetic.ofNat 0) = Arithmetic.lt v (Arithmetic.ofNat 0) :=
    Agrees.lt hagree.symm (.refl _)
  refine guard_congr hlt hv fun hpos hok => ?_
  cases hok
  exact ok_congr hagree.sqrt (isNaN_sqrt hnan hpos)

/-- A function has equal values at equal arguments. -/
theorem Function.apply_congr (hL : L.Lawful) {f : Function} (h : Arithmetic.eq v v' = true)
    (hv : f.apply v = .ok u) : HasEqual (f.apply v') u := by
  obtain ⟨hagree, -⟩ := Number.eq_iff.1 h
  cases f with
  | sin => exact checked_congr (hL.congr L.sin (by simp) v v' hagree) hv
  | cos => exact checked_congr (hL.congr L.cos (by simp) v v' hagree) hv
  | tan => exact checked_congr (hL.congr L.tan (by simp) v v' hagree) hv
  | atan => exact checked_congr (hL.congr L.atan (by simp) v v' hagree) hv
  | exp => exact checked_congr (hL.congr L.exp (by simp) v v' hagree) hv
  | square => exact checked_congr (Agrees.mul hagree hagree) hv
  | cube => exact checked_congr (Agrees.mul (Agrees.mul hagree hagree) hagree) hv
  | asin => exact inverse_congr hL (f := L.asin) (by simp) h hv
  | acos => exact inverse_congr hL (f := L.acos) (by simp) h hv
  | log10 => exact logarithm_congr hL (f := L.log10) (by simp) h hv
  | ln => exact logarithm_congr hL (f := L.ln) (by simp) h hv
  | sqrt => exact sqrt_congr h hv
  | factorial =>
    have heq : Function.factorial.apply v' = Function.factorial.apply v := hagree.factorial.symm
    exact ⟨u, heq.trans hv, Number.eq_iff.2 ⟨.refl _, isNaN_of_factorial hv⟩⟩

end Functions

/-! ## Operators -/

/-- An operator has equal values on equal operands. -/
theorem Operator.apply_congr (hL : L.Lawful) {op : Operator} (hv : Arithmetic.eq v v' = true)
    (hw : Arithmetic.eq w w' = true) (h : op.apply v w = .ok u) : HasEqual (op.apply v' w') u := by
  obtain ⟨hv, -⟩ := Number.eq_iff.1 hv
  obtain ⟨hw, -⟩ := Number.eq_iff.1 hw
  have hzero : Arithmetic.eq w' (Arithmetic.ofNat 0) = Arithmetic.eq w (Arithmetic.ofNat 0) :=
    Agrees.eq hw.symm (.refl _)
  cases op with
  | add => exact checked_congr (Agrees.add hv hw) h
  | sub => exact checked_congr (Agrees.sub hv hw) h
  | mul => exact checked_congr (Agrees.mul hv hw) h
  | div =>
    rw [Operator.apply] at h ⊢
    exact guard_congr hzero h fun hne => checked_congr (Agrees.div hv hw hne)
  | mod =>
    rw [Operator.apply] at h ⊢
    exact guard_congr hzero h fun _ => checked_congr (Agrees.remainder hv hw)
  | pow =>
    have hneg : Arithmetic.lt v' (Arithmetic.ofNat 0) = Arithmetic.lt v (Arithmetic.ofNat 0) :=
      Agrees.lt hv.symm (.refl _)
    have hzero' : Arithmetic.eq v' (Arithmetic.ofNat 0) = Arithmetic.eq v (Arithmetic.ofNat 0) :=
      Agrees.eq hv.symm (.refl _)
    have hneg' : Arithmetic.lt w' (Arithmetic.ofNat 0) = Arithmetic.lt w (Arithmetic.ofNat 0) :=
      Agrees.lt hw.symm (.refl _)
    have hwhole : Arithmetic.isWhole w' = Arithmetic.isWhole w := hw.symm.isWhole
    rw [Operator.apply] at h ⊢
    rw [hneg, hzero', hneg', hwhole]
    refine guard_congr rfl h fun _ h => guard_congr rfl h fun hpole => ?_
    exact checked_congr (hL.pow_congr v v' w w' hv hw fun hc => Bool.eq_false_iff.1 hpole (Bool.and_eq_true_iff.2 hc))

end PocketCalc
