import Mathlib
import PocketCalc.Binary64.Basic

/-!
# Words and what they stand for

* `unpack_eq` — a word is read from its three fields, and `toNat_pack_finite` says how they are put together;
* `Canonical` — the significands and exponents that numbers have;
* `unpacked`, `ofUnpacked` — a number as a sign, a significand and an exponent, and back;
* `unpacked_ofUnpacked`, `ofUnpacked_unpacked` — nothing is lost either way;
* `fields_of_finite`, `fields_of_zero` — what the functions on the machine word give.
-/

namespace PocketCalc.Binary64

open Float.Model Float.Model.UnpackedFloat

/-! ## The fields of a word -/

theorem toNat_unpackMantissa (b : BitVec 64) : (@unpackMantissa Format.binary64 b).toNat = b.toNat % 2 ^ 52 := by
  simp [unpackMantissa, BitVec.extractLsb, BitVec.extractLsb']

theorem toNat_unpackExponent (b : BitVec 64) :
    (@unpackExponent Format.binary64 b).toNat = b.toNat / 2 ^ 52 % 2 ^ 11 := by
  simp [unpackExponent, BitVec.extractLsb, BitVec.extractLsb', Nat.shiftRight_eq_div_pow]

theorem toNat_unpackSign (b : BitVec 64) : (@unpackSign Format.binary64 b).toNat = b.toNat / 2 ^ 63 := by
  have hb := b.isLt
  simp [unpackSign, BitVec.extractLsb, BitVec.extractLsb', Nat.shiftRight_eq_div_pow]
  omega

theorem toNat_packComponents (s : Sign) (e : BitVec 11) (m : BitVec 52) :
    (packComponents Format.binary64 s e m).toNat = s.toBitVec.toNat * 2 ^ 63 + e.toNat * 2 ^ 52 + m.toNat := by
  have he := e.isLt
  have hm := m.isLt
  simp only [packComponents, BitVec.toNat_append]
  rw [← Nat.shiftLeft_add_eq_or_of_lt hm, ← Nat.shiftLeft_add_eq_or_of_lt he]
  simp only [Nat.shiftLeft_eq]
  omega

/-- A finite number has 53 binary places, unless its exponent is the least one. -/
structure Canonical (m : Nat) (e : Int) : Prop where
  lt : m < 2 ^ 53
  le : -1074 ≤ e
  le' : e ≤ 971
  full : 2 ^ 52 ≤ m ∨ e = -1074

theorem sign_ofBitVec (b : BitVec 1) : (Sign.ofBitVec b).toBitVec = b := by
  rcases BitVec.eq_zero_or_eq_one b with rfl | rfl <;> rfl

theorem toNat_pack_finite {s : Sign} {m : Nat} {e : Int} (h : 0 < m) (hc : Canonical m e) :
    (UnpackedFloat.pack Format.binary64 (.finite s m e h)).toNat =
      s.toBitVec.toNat * 2 ^ 63 + if m < 2 ^ 52 then m else (e + 1075).toNat * 2 ^ 52 + (m - 2 ^ 52) := by
  obtain ⟨hlt, hle, hge, hfull⟩ := hc
  have hbias : (e + (Format.binary64.exponentBias : Int) + (52 : Nat)).toNat = (e + 1075).toNat := by
    simp only [Format.exponentBias]
    omega
  rw [UnpackedFloat.pack]
  simp only [hbias]
  rw [if_neg (by omega)]
  split
  next hlog =>
    have hm : 2 ^ 52 ≤ m := (Nat.le_log2 (Nat.ne_of_gt h)).1 (by simp only [Format.mantissaBits] at hlog; omega)
    rw [toNat_packComponents, if_neg (by omega)]
    simp only [BitVec.toNat_ofNat]
    omega
  next hlog =>
    have hm : m < 2 ^ 52 := by
      rcases Nat.lt_or_ge m (2 ^ 52) with hm | hm
      · exact hm
      · have hlow := (Nat.le_log2 (Nat.ne_of_gt h)).2 hm
        have hhigh := (Nat.log2_lt (Nat.ne_of_gt h)).2 hlt
        simp only [Format.mantissaBits] at hlog
        omega
    rw [toNat_packComponents, if_pos hm]
    simp only [BitVec.toNat_ofNat]
    omega


/-- What unpacking a word gives, in terms of its three fields. -/
theorem unpack_eq (b : BitVec 64) {s : Sign} {e m : Nat} (hs : Sign.ofBitVec (@unpackSign Format.binary64 b) = s)
    (he : b.toNat / 2 ^ 52 % 2 ^ 11 = e) (hm : b.toNat % 2 ^ 52 = m) :
    UnpackedFloat.unpack Format.binary64 b =
      if e = 2047 then if m = 0 then .infinity s else .notANumber
      else if e = 0 then if h : m = 0 then .zero s else .finite s m (-1074) (Nat.pos_of_ne_zero h)
      else .finite s (2 ^ 52 + m) (e - 1075) (by omega) := by
  subst hs he hm
  have hones : @unpackExponent Format.binary64 b = -1#_ ↔ b.toNat / 2 ^ 52 % 2 ^ 11 = 2047 := by
    rw [← BitVec.toNat_inj, toNat_unpackExponent]
    rfl
  have hexp0 : @unpackExponent Format.binary64 b = 0#_ ↔ b.toNat / 2 ^ 52 % 2 ^ 11 = 0 := by
    rw [← BitVec.toNat_inj, toNat_unpackExponent]
    rfl
  have hman0 : @unpackMantissa Format.binary64 b = 0#_ ↔ b.toNat % 2 ^ 52 = 0 := by
    rw [← BitVec.toNat_inj, toNat_unpackMantissa]
    rfl
  have hbias : (Format.binary64.exponentBias : Int) + (52 : Nat) = 1075 := rfl
  rw [UnpackedFloat.unpack]
  simp only [hones, hexp0, hman0, toNat_unpackExponent, toNat_unpackMantissa, hbias]
  split
  · rfl
  · split
    next h => simp only [h, Int.ofNat_zero, Int.zero_sub]; rfl
    next h =>
      congr 1
      rw [BitVec.toNat_append, ← Nat.shiftLeft_add_eq_or_of_lt (@unpackMantissa Format.binary64 b).isLt,
        toNat_unpackMantissa]
      rfl

theorem pack_unpack {b : BitVec 64} (h : Format.binary64.Valid b) :
    UnpackedFloat.pack Format.binary64 (UnpackedFloat.unpack Format.binary64 b) = b := by
  have hb := b.isLt
  have hsign := toNat_unpackSign b
  rw [unpack_eq b rfl rfl rfl]
  split
  next he =>
    split
    next hm =>
      rw [← BitVec.toNat_inj, UnpackedFloat.pack, packedInfinity, toNat_packComponents, sign_ofBitVec, hsign]
      simp
      omega
    next hm => 
      refine (h.eq_packedNaN ?_ ?_).symm
      · rw [← BitVec.toNat_inj, toNat_unpackExponent, he]
        rfl
      · rw [ne_eq, ← BitVec.toNat_inj, toNat_unpackMantissa]
        exact hm
  next he =>
    split
    next he0 =>
      split
      next hm =>
        rw [← BitVec.toNat_inj, UnpackedFloat.pack, packedZero, toNat_packComponents, sign_ofBitVec, hsign]
        simp
        omega
      next hm =>
        rw [← BitVec.toNat_inj, toNat_pack_finite _ ⟨by omega, by omega, by omega, by omega⟩, sign_ofBitVec, hsign,
          if_pos (by omega)]
        omega
    next he0 =>
      rw [← BitVec.toNat_inj, toNat_pack_finite _ ⟨by omega, by omega, by omega, by omega⟩, sign_ofBitVec, hsign,
        if_neg (by omega)]
      omega


theorem sign_ofBitVec_unpackSign {b : BitVec 64} {s : Sign} {n : Nat} (hb : b.toNat = s.toBitVec.toNat * 2 ^ 63 + n)
    (hn : n < 2 ^ 63) : Sign.ofBitVec (@unpackSign Format.binary64 b) = s := by
  have hs : @unpackSign Format.binary64 b = s.toBitVec := by
    rw [← BitVec.toNat_inj, toNat_unpackSign]
    have := s.toBitVec.isLt
    omega
  rw [hs]
  cases s <;> rfl

theorem unpack_pack_finite {s : Sign} {m : Nat} {e : Int} (h : 0 < m) (hc : Canonical m e) :
    UnpackedFloat.unpack Format.binary64 (UnpackedFloat.pack Format.binary64 (.finite s m e h)) =
      .finite s m e h := by
  have hword := toNat_pack_finite (s := s) h hc
  obtain ⟨hlt, hle, hge, hfull⟩ := hc
  generalize UnpackedFloat.pack Format.binary64 (.finite s m e h) = b at hword
  have hs := s.toBitVec.isLt
  split at hword
  next hm =>
    rw [unpack_eq b (sign_ofBitVec_unpackSign hword (by omega)) (e := 0) (m := m) (by omega) (by omega),
      if_neg (by omega),
      if_pos rfl, dif_neg (by omega)]
    rw [UnpackedFloat.finite.injEq]
    exact ⟨rfl, rfl, by omega⟩
  next hm =>
    rw [unpack_eq b (sign_ofBitVec_unpackSign hword (by omega)) (e := (e + 1075).toNat) (m := m - 2 ^ 52)
      (by omega) (by omega), if_neg (by omega), if_neg (by omega), UnpackedFloat.finite.injEq]
    exact ⟨rfl, by omega, by omega⟩

/-! ## Numbers -/

/-- What a number stands for. -/
def unpacked (a : Binary64) : UnpackedFloat := a.float.toModel.unpack

/-- The number that stands for this. -/
def ofUnpacked (u : UnpackedFloat) : Binary64 := ofFloat (.ofModel (Float.Model.pack u))

/-- The sign that the word of a number has. -/
def sign (a : Binary64) : Sign := if Nat.pow 2 63 ≤ a.word then .negative else .positive

theorem unpacked_eq (a : Binary64) : a.unpacked =
    if a.exponentField = 2047 then if a.fractionField = 0 then .infinity a.sign else .notANumber
    else if a.exponentField = 0 then
      if h : a.fractionField = 0 then .zero a.sign else .finite a.sign a.fractionField (-1074) (Nat.pos_of_ne_zero h)
    else .finite a.sign (2 ^ 52 + a.fractionField) (a.exponentField - 1075) (by omega) := by
  refine unpack_eq a.float.toModel.toBits.toBitVec ?_ rfl rfl
  have hsign := toNat_unpackSign a.float.toModel.toBits.toBitVec
  have hword : a.word = a.float.toModel.toBits.toBitVec.toNat := rfl
  have hlt := a.float.toModel.toBits.toBitVec.isLt
  rw [sign, hword]
  rcases Nat.lt_or_ge a.float.toModel.toBits.toBitVec.toNat (Nat.pow 2 63) with hpos | hneg
  · rw [if_neg (by omega)]
    have h0 : (@unpackSign Format.binary64 a.float.toModel.toBits.toBitVec) = 0#1 := by
      rw [← BitVec.toNat_inj, hsign]
      exact Nat.div_eq_of_lt hpos
    rw [h0]
    rfl
  · rw [if_pos hneg]
    have h1 : (@unpackSign Format.binary64 a.float.toModel.toBits.toBitVec) = 1#1 := by
      rw [← BitVec.toNat_inj, hsign]
      have hneg' : 2 ^ 63 ≤ a.float.toModel.toBits.toBitVec.toNat := hneg
      show _ = 1
      omega
    rw [h1]
    rfl

theorem exponentField_lt (a : Binary64) : a.exponentField < 2048 := Nat.mod_lt _ (by decide)

theorem fractionField_lt (a : Binary64) : a.fractionField < 2 ^ 52 := Nat.mod_lt _ (by decide)

variable {a b : Binary64} {s : Sign} {m : Nat} {e : Int} {hm : 0 < m}

theorem unpacked_ofUnpacked_finite (hc : Canonical m e) :
    (ofUnpacked (.finite s m e hm)).unpacked = .finite s m e hm :=
  unpack_pack_finite hm hc

theorem unpacked_ofUnpacked_zero (s : Sign) : (ofUnpacked (.zero s)).unpacked = .zero s := by cases s <;> rfl

theorem unpacked_ofUnpacked_infinity (s : Sign) : (ofUnpacked (.infinity s)).unpacked = .infinity s := by
  cases s <;> rfl

/-- A word cannot hold an exponent above 971; it is the infinity instead. -/
theorem unpacked_ofUnpacked_of_lt_exponent (hlow : 2 ^ 52 ≤ m) (he : 971 < e) :
    (ofUnpacked (.finite s m e hm)).unpacked = .infinity s := by
  have hpack : UnpackedFloat.pack Format.binary64 (.finite s m e hm) = packedInfinity Format.binary64 s := by
    have hlog := (Nat.le_log2 hm.ne').2 hlow
    simp only [UnpackedFloat.pack]
    refine if_pos ?_
    simp only [Format.exponentBias]
    omega
  rw [← unpacked_ofUnpacked_infinity]
  exact congrArg (UnpackedFloat.unpack Format.binary64) hpack

theorem unpacked_ofUnpacked_notANumber : (ofUnpacked .notANumber).unpacked = .notANumber := rfl

theorem float_ofUnpacked_unpacked (a : Binary64) : (ofUnpacked a.unpacked).float = a.float := by
  have hbits := pack_unpack a.float.toModel.valid
  show Float.ofModel (Float.Model.pack a.float.toModel.unpack) = a.float
  rcases a with ⟨⟨⟨bits, hvalid⟩⟩, negated⟩
  simp only [Float.Model.pack, Float.Model.unpack] at hbits ⊢
  simp only [hbits]

theorem float_eq_of_unpacked (h : a.unpacked = b.unpacked) : a.float = b.float := by
  rw [← float_ofUnpacked_unpacked a, h, float_ofUnpacked_unpacked]

/-- The functions on the word of a finite number other than zero. -/
theorem fields_of_finite (h : a.unpacked = .finite s m e hm) :
    a.sign = s ∧ a.significand = m ∧ a.exponent = e ∧ Canonical m e ∧
      (a.isNarrowBelow = true ↔ m = 2 ^ 52 ∧ -1074 < e) := by
  have hexp := a.exponentField_lt
  have hfrac := a.fractionField_lt
  rw [unpacked_eq] at h
  simp only [significand, exponent, isNarrowBelow, Nat.pow_eq, Bool.and_eq_true, decide_eq_true_eq]
  split at h
  · split at h <;> cases h
  next hfinite =>
    split at h
    next hexp0 =>
      split at h
      · cases h
      · rw [UnpackedFloat.finite.injEq] at h
        obtain ⟨rfl, rfl, rfl⟩ := h
        rw [if_pos hexp0]
        exact ⟨rfl, rfl, by omega, ⟨by omega, by omega, by omega, by omega⟩, by omega⟩
    next hexp0 =>
      rw [UnpackedFloat.finite.injEq] at h
      obtain ⟨rfl, rfl, rfl⟩ := h
      rw [if_neg hexp0]
      exact ⟨rfl, rfl, by omega, ⟨by omega, by omega, by omega, by omega⟩, by omega⟩

/-- The functions on the word of a zero. -/
theorem fields_of_zero (h : a.unpacked = .zero s) : a.sign = s ∧ a.significand = 0 ∧ a.exponent = -1074 := by
  rw [unpacked_eq] at h
  simp only [significand, exponent]
  split at h
  · split at h <;> cases h
  · split at h
    next hexp0 =>
      split at h
      next hfrac =>
        cases h
        simp [hexp0, hfrac]
      · cases h
    · cases h

theorem canonical_of_finite (h : a.unpacked = .finite s m e hm) : Canonical m e := (fields_of_finite h).2.2.2.1

end PocketCalc.Binary64
