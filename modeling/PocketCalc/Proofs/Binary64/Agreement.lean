import PocketCalc.Binary64.Arithmetic
import PocketCalc.Proofs.Binary64.Rounding

/-!
# Numbers up to the sign of a zero

* `Alike`, `Agrees` — the same number, or two zeros;
* `eq_iff` — numbers compare as equal exactly if they agree and are numbers at all;
* `Agrees.add`, …, `Agrees.sqrt` — operations agree on operands that agree, and so do comparisons;
* `zero_add_agrees`, …, `div_one_agrees` — neutral operands change at most the sign of a zero;
* `Agrees.remainder`, `Agrees.isWhole`, `Agrees.factorial` — so do the functions on the machine word.
-/

namespace PocketCalc.Binary64

open Float.Model Float.Model.UnpackedFloat

/-! ## What numbers stand for -/

/-- The same, up to the sign of a zero. -/
inductive Alike : UnpackedFloat → UnpackedFloat → Prop
  | same (u : UnpackedFloat) : Alike u u
  | zeros (s t : Sign) : Alike (.zero s) (.zero t)

variable {u v w u' v' : UnpackedFloat} {a b c a' b' : Binary64}

theorem Alike.symm (h : Alike u v) : Alike v u := by
  cases h with
  | same => exact .same _
  | zeros s t => exact .zeros t s

theorem Alike.trans (h : Alike u v) (h' : Alike v w) : Alike u w := by
  cases h with
  | same => exact h'
  | zeros s t =>
    cases h' with
    | same => exact .zeros _ _
    | zeros _ r => exact .zeros _ _

theorem Alike.isNaN (h : Alike u v) : u.isNaN = v.isNaN := by cases h <;> rfl

theorem Alike.isInf (h : Alike u v) : u.isInf = v.isInf := by cases h <;> rfl

theorem Alike.isFinite (h : Alike u v) : u.isFinite = v.isFinite := by cases h <;> rfl

theorem Alike.add (hu : Alike u u') (hv : Alike v v') :
    Alike (UnpackedFloat.add Format.binary64 u v) (UnpackedFloat.add Format.binary64 u' v') := by
  cases hu with
  | same u =>
    cases hv with
    | same v => exact .same _
    | zeros s t =>
      cases u with
      | zero r => cases r <;> cases s <;> cases t <;> exact .zeros _ _
      | _ => exact .same _
  | zeros s t =>
    cases hv with
    | same v =>
      cases v with
      | zero r => cases r <;> cases s <;> cases t <;> exact .zeros _ _
      | _ => exact .same _
    | zeros s' t' => cases s <;> cases t <;> cases s' <;> cases t' <;> exact .zeros _ _

theorem Alike.compare (hu : Alike u u') (hv : Alike v v') : u.compare v = u'.compare v' := by
  cases hu with
  | same u =>
    cases hv with
    | same v => rfl
    | zeros s t =>
      cases u with
      | infinity r => cases r <;> rfl
      | finite r m e h => cases r <;> rfl
      | zero => rfl
      | notANumber => rfl
  | zeros s t =>
    cases hv with
    | same v =>
      cases v with
      | infinity r => cases r <;> rfl
      | finite r m e h => cases r <;> rfl
      | zero => rfl
      | notANumber => rfl
    | zeros s' t' => rfl

/-- Numbers compare as equal if they are the same up to the sign of a zero, and no others do. -/
theorem compare_eq_some_eq : u.compare v = some .eq ↔ Alike u v ∧ u.isNaN = false := by
  constructor
  · intro h
    cases u with
    | notANumber => cases h
    | infinity s => cases v with
      | infinity t => cases s <;> cases t <;> first | exact ⟨.same _, rfl⟩ | cases h
      | _ => cases s <;> cases h
    | zero s => cases v with
      | zero t => exact ⟨.zeros s t, rfl⟩
      | infinity t => cases t <;> cases h
      | finite t m e hm => cases t <;> cases h
      | notANumber => cases h
    | finite s m e hm => cases v with
      | notANumber => cases h
      | infinity t => cases t <;> cases s <;> cases h
      | zero t => cases s <;> cases h
      | finite t m' e' hm' =>
        cases s <;> cases t <;>
          simp only [UnpackedFloat.compare, Option.some.injEq, Ordering.swap_eq_eq, Ordering.then_eq_eq,
            Int.compare_eq_eq, Nat.compare_eq_eq] at h
        · obtain ⟨rfl, rfl⟩ := h
          exact ⟨.same _, rfl⟩
        · cases h
        · cases h
        · obtain ⟨rfl, rfl⟩ := h
          exact ⟨.same _, rfl⟩
  · rintro ⟨h, hnan⟩
    cases h with
    | zeros s t => rfl
    | same =>
      cases u with
      | notANumber => cases hnan
      | infinity s => cases s <;> rfl
      | zero s => rfl
      | finite s m e hm => cases s <;> simp [UnpackedFloat.compare]

theorem Alike.neg (h : Alike u v) : Alike u.neg v.neg := by
  cases h with
  | same => exact .same _
  | zeros s t => exact .zeros _ _

theorem Alike.abs (h : Alike u v) : Alike u.abs v.abs := by
  cases h with
  | same => exact .same _
  | zeros s t => exact .same _

theorem sub_eq_add_neg (u v : UnpackedFloat) :
    UnpackedFloat.sub Format.binary64 u v = UnpackedFloat.add Format.binary64 u v.neg := by
  cases u with
  | notANumber => rfl
  | infinity s => cases v <;> rfl
  | zero s => cases v <;> rfl
  | finite s m e hm =>
    cases v with
    | finite t m' e' hm' =>
      simp only [UnpackedFloat.sub, UnpackedFloat.add, UnpackedFloat.neg]
      cases t <;> simp only [Sign.apply, Int.sub_eq_add_neg, Int.neg_neg]
    | _ => rfl

theorem Alike.sub (hu : Alike u u') (hv : Alike v v') :
    Alike (UnpackedFloat.sub Format.binary64 u v) (UnpackedFloat.sub Format.binary64 u' v') := by
  rw [sub_eq_add_neg, sub_eq_add_neg]
  exact hu.add hv.neg

theorem Alike.mul (hu : Alike u u') (hv : Alike v v') :
    Alike (UnpackedFloat.mul Format.binary64 u v) (UnpackedFloat.mul Format.binary64 u' v') := by
  cases hu with
  | same u =>
    cases hv with
    | same v => exact .same _
    | zeros s t => cases u <;> first | exact .same _ | exact .zeros _ _
  | zeros s t =>
    cases hv with
    | same v => cases v <;> first | exact .same _ | exact .zeros _ _
    | zeros s' t' => exact .zeros _ _

/-- Quotients are alike unless the divisor is a zero. -/
theorem Alike.div (hu : Alike u u') (hv : Alike v v') (h : ∀ s, v ≠ .zero s) :
    Alike (UnpackedFloat.div Format.binary64 u v) (UnpackedFloat.div Format.binary64 u' v') := by
  cases hv with
  | zeros s t => exact absurd rfl (h s)
  | same v =>
    cases hu with
    | same u => exact .same _
    | zeros s t =>
      cases v with
      | zero r => exact absurd rfl (h r)
      | notANumber => exact .same _
      | _ => exact .zeros _ _

theorem Alike.sqrt (h : Alike u v) :
    Alike (UnpackedFloat.sqrt Format.binary64 u) (UnpackedFloat.sqrt Format.binary64 v) := by
  cases h with
  | same => exact .same _
  | zeros s t => exact .zeros _ _

/-! ### Neutral operands -/

theorem zero_add_alike (s : Sign) (v : UnpackedFloat) :
    Alike (UnpackedFloat.add Format.binary64 (.zero s) v) v := by
  cases v with
  | zero t => cases s <;> cases t <;> exact .zeros _ _
  | _ => exact .same _

theorem add_zero_alike (u : UnpackedFloat) (s : Sign) :
    Alike (UnpackedFloat.add Format.binary64 u (.zero s)) u := by
  cases u with
  | zero t => cases s <;> cases t <;> exact .zeros _ _
  | _ => exact .same _

theorem mul_comm (u v : UnpackedFloat) :
    UnpackedFloat.mul Format.binary64 u v = UnpackedFloat.mul Format.binary64 v u := by
  have hsign (s t : Sign) : s * t = t * s := by cases s <;> cases t <;> rfl
  cases u <;> cases v <;> simp only [UnpackedFloat.mul, hsign, Nat.mul_comm, Int.add_comm]

/-! ## Numbers -/

/-- The same number, up to the sign of a zero. -/
def Agrees (a b : Binary64) : Prop := Alike a.unpacked b.unpacked

theorem Agrees.refl (a : Binary64) : a.Agrees a := Alike.same _

theorem Agrees.symm (h : a.Agrees b) : b.Agrees a := Alike.symm h

theorem Agrees.trans (h : a.Agrees b) (h' : b.Agrees c) : a.Agrees c := Alike.trans h h'

theorem isNaN_eq (a : Binary64) : a.isNaN = a.unpacked.isNaN := rfl

theorem isInfinite_eq (a : Binary64) : a.isInfinite = a.unpacked.isInf := rfl

theorem isFinite_eq (a : Binary64) : a.isFinite = a.unpacked.isFinite := rfl

/-- A number is finite exactly if it is a number and not beyond all numbers. -/
theorem isFinite_iff : a.isFinite = true ↔ a.isNaN = false ∧ a.isInfinite = false := by
  rw [isFinite_eq, isNaN_eq, isInfinite_eq]
  cases a.unpacked <;> simp [UnpackedFloat.isFinite, UnpackedFloat.isNaN, UnpackedFloat.isInf]

theorem eq_eq (a b : Binary64) : a.eq b = (a.unpacked.compare b.unpacked == some .eq) := rfl

theorem lt_eq (a b : Binary64) : a.lt b = (a.unpacked.compare b.unpacked == some .lt) := by
  show decide (decide (a.unpacked.lt b.unpacked = true) = true) = a.unpacked.lt b.unpacked
  rw [Bool.decide_eq_true, Bool.decide_eq_true]

theorem le_eq (a b : Binary64) : a.le b = (a.unpacked.compare b.unpacked).any (·.isLE) := by
  show decide (decide (a.unpacked.le b.unpacked = true) = true) = a.unpacked.le b.unpacked
  rw [Bool.decide_eq_true, Bool.decide_eq_true]

theorem eq_iff : a.eq b = true ↔ a.Agrees b ∧ a.isNaN = false := by
  rw [eq_eq, beq_iff_eq, compare_eq_some_eq]
  rfl

theorem Agrees.isNaN (h : a.Agrees b) : a.isNaN = b.isNaN := Alike.isNaN h

theorem Agrees.isInfinite (h : a.Agrees b) : a.isInfinite = b.isInfinite := Alike.isInf h

theorem Agrees.eq (ha : a.Agrees a') (hb : b.Agrees b') : a.eq b = a'.eq b' := by
  rw [eq_eq, eq_eq, Alike.compare ha hb]

theorem Agrees.lt (ha : a.Agrees a') (hb : b.Agrees b') : a.lt b = a'.lt b' := by
  rw [lt_eq, lt_eq, Alike.compare ha hb]

theorem Agrees.le (ha : a.Agrees a') (hb : b.Agrees b') : a.le b = a'.le b' := by
  rw [le_eq, le_eq, Alike.compare ha hb]

theorem unpacked_ofUnpacked_unpacked (a : Binary64) : (ofUnpacked a.unpacked).unpacked = a.unpacked :=
  congrArg (fun f => f.toModel.unpack) (float_ofUnpacked_unpacked a)

theorem agrees_ofUnpacked (h : Alike u v) : (ofUnpacked u).Agrees (ofUnpacked v) := by
  cases h with
  | same => exact .refl _
  | zeros s t =>
    rw [Agrees, unpacked_ofUnpacked_zero, unpacked_ofUnpacked_zero]
    exact .zeros s t

theorem agrees_of_alike (h : Alike u a.unpacked) : (ofUnpacked u).Agrees a := by
  have hpacked := agrees_ofUnpacked h
  rwa [Agrees, unpacked_ofUnpacked_unpacked] at hpacked

theorem Agrees.add (ha : a.Agrees a') (hb : b.Agrees b') : (a + b).Agrees (a' + b') :=
  agrees_ofUnpacked (Alike.add ha hb)

theorem Agrees.sub (ha : a.Agrees a') (hb : b.Agrees b') : (a - b).Agrees (a' - b') :=
  agrees_ofUnpacked (Alike.sub ha hb)

theorem Agrees.mul (ha : a.Agrees a') (hb : b.Agrees b') : (a * b).Agrees (a' * b') :=
  agrees_ofUnpacked (Alike.mul ha hb)

theorem Agrees.neg (h : a.Agrees b) : (-a).Agrees (-b) := agrees_ofUnpacked (Alike.neg h)

theorem Agrees.abs (h : a.Agrees b) : a.abs.Agrees b.abs := agrees_ofUnpacked (Alike.abs h)

theorem Agrees.sqrt (h : a.Agrees b) : a.sqrt.Agrees b.sqrt := agrees_ofUnpacked (Alike.sqrt h)

theorem unpacked_ofNat_zero : (ofNat 0).unpacked = .zero .positive := rfl

theorem unpacked_ofNat_one : (ofNat 1).unpacked = .finite .positive (2 ^ 52) (-52) (by decide) := rfl

theorem eq_ofNat_zero : a.eq (ofNat 0) = true ↔ ∃ s, a.unpacked = .zero s := by
  rw [eq_iff, Agrees, unpacked_ofNat_zero]
  constructor
  · rintro ⟨h, -⟩
    generalize a.unpacked = u at h ⊢
    cases h with
    | same => exact ⟨_, rfl⟩
    | zeros s t => exact ⟨s, rfl⟩
  · rintro ⟨s, hs⟩
    rw [isNaN_eq, hs]
    exact ⟨.zeros _ _, rfl⟩

theorem eq_ofNat_one : a.eq (ofNat 1) = true ↔ a.unpacked = .finite .positive (2 ^ 52) (-52) (by decide) := by
  rw [eq_iff, Agrees, unpacked_ofNat_one]
  constructor
  · rintro ⟨h, -⟩
    generalize a.unpacked = u at h ⊢
    cases h
    rfl
  · intro h
    rw [isNaN_eq, h]
    exact ⟨.same _, rfl⟩

/-- Multiplication by one is exact. -/
theorem one_mul_alike (b : Binary64) :
    Alike (UnpackedFloat.mul Format.binary64 (.finite .positive (2 ^ 52) (-52) (by decide)) b.unpacked)
      b.unpacked := by
  generalize hu : b.unpacked = u
  have hsign (s : Sign) : Sign.positive * s = s := by cases s <;> rfl
  cases u with
  | notANumber => exact .same _
  | infinity s => cases s <;> exact .same _
  | zero s => exact .zeros _ _
  | finite s m e hm =>
    have hexact : ((2 ^ 52 : ℕ) * 2 ^ (-52 : ℤ) * (m * 2 ^ e) : ℚ) = m * 2 ^ e := by norm_num
    have hrounds := RoundsTo.self m e
    rw [← hexact] at hrounds
    rw [mul_finite_eq _ hm (Nat.le_mul_of_pos_right _ hm) hm (canonical_of_finite hu) hrounds, hsign]
    exact .same _

/-- Division by one is exact. -/
theorem div_one_alike (a : Binary64) :
    Alike (UnpackedFloat.div Format.binary64 a.unpacked (.finite .positive (2 ^ 52) (-52) (by decide)))
      a.unpacked := by
  generalize hu : a.unpacked = u
  have hsign (s : Sign) : s / Sign.positive = s := by cases s <;> rfl
  cases u with
  | notANumber => exact .same _
  | infinity s => cases s <;> exact .same _
  | zero s => exact .zeros _ _
  | finite s m e hm =>
    have hexact : (m * 2 ^ e / ((2 ^ 52 : ℕ) * 2 ^ (-52 : ℤ)) : ℚ) = m * 2 ^ e := by norm_num
    have hrounds := RoundsTo.self m e
    rw [← hexact] at hrounds
    rw [div_finite_eq hm _ hm (canonical_of_finite hu) hrounds, hsign]
    exact .same _

theorem Agrees.div (ha : a.Agrees a') (hb : b.Agrees b') (h : b.eq (ofNat 0) = false) :
    (a / b).Agrees (a' / b') := by
  refine agrees_ofUnpacked (Alike.div ha hb fun s hs => ?_)
  rw [eq_ofNat_zero.2 ⟨s, hs⟩] at h
  cases h

/-! ## Neutral and absorbing numbers -/

theorem zero_add_agrees (ha : a.eq (ofNat 0) = true) (b : Binary64) : (a + b).Agrees b := by
  obtain ⟨s, hs⟩ := eq_ofNat_zero.1 ha
  refine agrees_of_alike (u := UnpackedFloat.add Format.binary64 a.unpacked b.unpacked) ?_
  rw [hs]
  exact zero_add_alike s _

theorem add_zero_agrees (a : Binary64) (hb : b.eq (ofNat 0) = true) : (a + b).Agrees a := by
  obtain ⟨s, hs⟩ := eq_ofNat_zero.1 hb
  refine agrees_of_alike (u := UnpackedFloat.add Format.binary64 a.unpacked b.unpacked) ?_
  rw [hs]
  exact add_zero_alike _ s

theorem sub_zero_agrees (a : Binary64) (hb : b.eq (ofNat 0) = true) : (a - b).Agrees a := by
  obtain ⟨s, hs⟩ := eq_ofNat_zero.1 hb
  refine agrees_of_alike (u := UnpackedFloat.sub Format.binary64 a.unpacked b.unpacked) ?_
  rw [hs, sub_eq_add_neg]
  exact add_zero_alike _ _

theorem zero_sub_agrees (ha : a.eq (ofNat 0) = true) (b : Binary64) : (a - b).Agrees (-b) := by
  obtain ⟨s, hs⟩ := eq_ofNat_zero.1 ha
  refine agrees_ofUnpacked (u := UnpackedFloat.sub Format.binary64 a.unpacked b.unpacked) ?_
  rw [hs, sub_eq_add_neg]
  exact zero_add_alike s _

theorem one_mul_agrees (ha : a.eq (ofNat 1) = true) (b : Binary64) : (a * b).Agrees b := by
  refine agrees_of_alike (u := UnpackedFloat.mul Format.binary64 a.unpacked b.unpacked) ?_
  rw [eq_ofNat_one.1 ha]
  exact one_mul_alike b

theorem mul_one_agrees (a : Binary64) (hb : b.eq (ofNat 1) = true) : (a * b).Agrees a := by
  refine agrees_of_alike (u := UnpackedFloat.mul Format.binary64 a.unpacked b.unpacked) ?_
  rw [mul_comm, eq_ofNat_one.1 hb]
  exact one_mul_alike a

theorem div_one_agrees (a : Binary64) (hb : b.eq (ofNat 1) = true) : (a / b).Agrees a := by
  refine agrees_of_alike (u := UnpackedFloat.div Format.binary64 a.unpacked b.unpacked) ?_
  rw [eq_ofNat_one.1 hb]
  exact div_one_alike a

theorem zero_mul_agrees (ha : a.eq (ofNat 0) = true) (hnan : (a * b).isNaN = false) :
    (a * b).Agrees (ofNat 0) := by
  obtain ⟨s, hs⟩ := eq_ofNat_zero.1 ha
  have hproduct : (a * b).unpacked =
      (ofUnpacked (UnpackedFloat.mul Format.binary64 (.zero s) b.unpacked)).unpacked := by
    rw [← hs]
    rfl
  have hnan' : (UnpackedFloat.mul Format.binary64 (.zero s) b.unpacked) ≠ .notANumber := by
    intro h
    rw [isNaN_eq, hproduct, h, unpacked_ofUnpacked_notANumber] at hnan
    cases hnan
  rw [Agrees, hproduct, unpacked_ofNat_zero]
  generalize b.unpacked = v at *
  cases v with
  | notANumber => exact absurd rfl hnan'
  | infinity t => exact absurd rfl hnan'
  | zero t => exact agrees_ofUnpacked (.zeros _ .positive)
  | finite t m e hm => exact agrees_ofUnpacked (.zeros _ .positive)

theorem mul_zero_agrees (hb : b.eq (ofNat 0) = true) (hnan : (a * b).isNaN = false) :
    (a * b).Agrees (ofNat 0) := by
  have hcomm : (a * b).float = (b * a).float :=
    congrArg (fun u => (ofUnpacked u).float) (mul_comm a.unpacked b.unpacked)
  have hunpacked : (a * b).unpacked = (b * a).unpacked := congrArg (fun f => f.toModel.unpack) hcomm
  rw [isNaN_eq, hunpacked] at hnan
  rw [Agrees, hunpacked]
  exact zero_mul_agrees hb hnan

/-! ## Opposite numbers -/

theorem unpacked_neg (a : Binary64) : (-a).unpacked = a.unpacked.neg := by
  show (ofUnpacked a.unpacked.neg).unpacked = _
  generalize hu : a.unpacked = u
  cases u with
  | notANumber => rfl
  | infinity s => exact unpacked_ofUnpacked_infinity _
  | zero s => exact unpacked_ofUnpacked_zero _
  | finite s m e hm => exact unpacked_ofUnpacked_finite (canonical_of_finite hu)

theorem isNaN_neg (a : Binary64) : (-a).isNaN = a.isNaN := by
  rw [isNaN_eq, isNaN_eq, unpacked_neg]
  cases a.unpacked <;> rfl

theorem isInfinite_neg (a : Binary64) : (-a).isInfinite = a.isInfinite := by
  rw [isInfinite_eq, isInfinite_eq, unpacked_neg]
  cases a.unpacked <;> rfl

theorem neg_neg_agrees (a : Binary64) : (- -a).Agrees a := by
  have hsign (s : Sign) : - -s = s := by cases s <;> rfl
  rw [Agrees, unpacked_neg, unpacked_neg]
  cases a.unpacked <;> simp only [UnpackedFloat.neg, hsign] <;> exact .same _

/-! ## Remainders and whole numbers -/

theorem Agrees.float_eq_or (h : a.Agrees b) :
    a.float = b.float ∨ ∃ s t, a.unpacked = .zero s ∧ b.unpacked = .zero t := by
  generalize hu : a.unpacked = u
  generalize hv : b.unpacked = v
  rw [Agrees, hu, hv] at h
  cases h with
  | same => exact .inl (float_eq_of_unpacked (hu.trans hv.symm))
  | zeros s t => exact .inr ⟨s, t, rfl, rfl⟩

theorem word_congr (h : a.float = b.float) : a.word = b.word := by rw [word, word, h]

theorem exponentField_congr (h : a.float = b.float) : a.exponentField = b.exponentField := by
  rw [exponentField, exponentField, word_congr h]

theorem fractionField_congr (h : a.float = b.float) : a.fractionField = b.fractionField := by
  rw [fractionField, fractionField, word_congr h]

theorem Agrees.significand (h : a.Agrees b) : a.significand = b.significand := by
  rcases h.float_eq_or with h | ⟨s, t, ha, hb⟩
  · rw [Binary64.significand, Binary64.significand, exponentField_congr h, fractionField_congr h]
  · rw [(fields_of_zero ha).2.1, (fields_of_zero hb).2.1]

theorem Agrees.exponent (h : a.Agrees b) : a.exponent = b.exponent := by
  rcases h.float_eq_or with h | ⟨s, t, ha, hb⟩
  · rw [Binary64.exponent, Binary64.exponent, exponentField_congr h]
  · rw [(fields_of_zero ha).2.2, (fields_of_zero hb).2.2]

theorem Agrees.isFinite (h : a.Agrees b) : a.isFinite = b.isFinite := Alike.isFinite h

theorem Agrees.isWhole (h : a.Agrees b) : a.isWhole = b.isWhole := by
  rw [Binary64.isWhole, Binary64.isWhole, h.isFinite, h.significand, h.exponent]

theorem round_zero (s : Sign) (e : Int) : UnpackedFloat.round Format.binary64 s 0 e = .zero s := by
  have hshift (n : Nat) : (ExtendedMantissa.ofMantissaAndAccuracy 0 .exact) >>> n =
      ExtendedMantissa.ofMantissaAndAccuracy 0 .exact := by
    show n.repeat ExtendedMantissa.shiftRightOne _ = _
    induction n with
    | zero => rfl
    | succ n ih => rw [Nat.repeat, ih]; rfl
  have hrounded : (ExtendedMantissa.ofMantissaAndAccuracy 0 .exact).roundedMantissa = 0 := rfl
  simp only [UnpackedFloat.round, decreaseExponent, Nat.zero_shiftLeft, roundWithAccuracy, shiftToTargetExponent,
    shiftToExponent, hshift, hrounded]
  rfl

theorem ofScaled_zero_agrees (negative negative' : Bool) (q : Int) :
    (ofScaled negative 0 q).Agrees (ofScaled negative' 0 q) := by
  refine agrees_ofUnpacked (u := UnpackedFloat.round Format.binary64 _ 0 q) ?_
  rw [round_zero, round_zero]
  exact .zeros _ _

theorem Agrees.remainder (ha : a.Agrees a') (hb : b.Agrees b') : (remainder a b).Agrees (remainder a' b') := by
  unfold Binary64.remainder
  rw [ha.isNaN, hb.isNaN, ha.isInfinite, hb.isInfinite, hb.significand, ha.exponent, hb.exponent]
  split
  · exact .refl _
  next hnumbers =>
    split
    · exact ha
    · rcases ha.float_eq_or with h | ⟨s, t, hs, ht⟩
      · have hnan : a'.isNaN = false := by
          simp only [Bool.or_eq_true, not_or, Bool.not_eq_true] at hnumbers
          exact hnumbers.1.1.1
        have hsign : a.isNegative = a'.isNegative := by
          rw [isNegative, isNegative, ha.isNaN, hnan, word_congr h]
          rfl
        rw [hsign, ha.significand]
        exact .refl _
      · simp only [(fields_of_zero hs).2.1, (fields_of_zero ht).2.1, Nat.zero_mul, Nat.zero_mod]
        exact ofScaled_zero_agrees _ _ _

theorem Agrees.factorial (h : a.Agrees b) : factorial a = factorial b := by
  have hround : a.roundAbs = b.roundAbs := by rw [roundAbs, roundAbs, h.significand, h.exponent]
  have hdistance : (a - ofNat b.roundAbs).abs.Agrees (b - ofNat b.roundAbs).abs := (h.sub (.refl _)).abs
  simp only [Binary64.factorial]
  rw [hround, h.isFinite, h.lt (.refl _), Agrees.lt (.refl _) hdistance]

end PocketCalc.Binary64
