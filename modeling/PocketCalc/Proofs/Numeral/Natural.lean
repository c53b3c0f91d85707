import PocketCalc.Proofs.Decimal.Reading
import PocketCalc.Proofs.Numeral.Spelling

/-!
# The texts of numbers are read back

* `exists_spelling_positional`, `exists_spelling_scientific` — both layouts are written numbers;
* `exists_spelling_toPositional`, `exists_spelling_toScientific` — those of a decimal have its value;
* `exists_spelling_natural`, `exists_spelling_plain` — the texts of a finite number without minus sign are written
  numbers, and they are read as that number;
* `natural_neg` — a minus sign stands in front of the text of the number without it.
-/

namespace PocketCalc

open Decimal

/-! ## The two layouts -/

theorem ofDigitChars_padded (width n : ℕ) : Nat.ofDigitChars 10 (padded width n) 0 = n := by
  rw [padded, Nat.ofDigitChars_append, Nat.ofDigitChars_replicate_zero, mul_zero, ofDigitChars_digitsOf]

theorem isDigit_padded {width n : ℕ} : ∀ c ∈ padded width n, c.isDigit = true := by
  intro c hc
  rcases List.mem_append.1 hc with hc | hc
  · obtain rfl := (List.mem_replicate.1 hc).2
    rfl
  · exact isDigit_digitsOf hc

theorem exists_spelling_positional (n places : ℕ) :
    ∃ s : Spelling, s.text = positional n places ∧ s.decimal = ⟨n, -places⟩ := by
  unfold positional
  split
  next h =>
    refine ⟨⟨digitsOf n, none, none, digitsOf_ne_nil n, fun c => isDigit_digitsOf, nofun⟩, ?_, ?_⟩
    · simp [Spelling.text, Spelling.fractionText, Spelling.powerText]
    · simp [Spelling.decimal, Spelling.places, ofDigitChars_digitsOf, h]
  next h =>
    have hlength := length_padded (places + 1) n
    simp only
    generalize hds : padded (places + 1) n = ds at *
    have hdigits : ∀ c ∈ ds, c.isDigit = true := hds ▸ isDigit_padded
    refine ⟨⟨ds.take (ds.length - places), some (ds.drop (ds.length - places)), none, ?_, ?_, ?_⟩, ?_, ?_⟩
    · refine List.ne_nil_of_length_pos ?_
      rw [List.length_take]
      omega
    · exact fun c hc => hdigits c (List.mem_of_mem_take hc)
    · intro t ht c hc
      obtain rfl := Option.mem_some_iff.1 ht
      exact hdigits c (List.mem_of_mem_drop hc)
    · simp [Spelling.text, Spelling.fractionText, Spelling.powerText]
    · have hplaces : ds.length - (ds.length - places) = places := by omega
      simp only [Spelling.decimal, Spelling.places, Option.getD_some, Option.getD_none, List.take_append_drop,
        List.length_drop, hplaces, zero_sub]
      rw [← hds, ofDigitChars_padded]

/-- A decimal without exponent has the same value. -/
theorem value_toPositional (d : Decimal) :
    (⟨d.digits * Nat.pow 10 d.exponent.toNat, -(-d.exponent).toNat⟩ : Decimal).value = d.value := by
  have hten := zpow_mul_toNat (by norm_num : (10 : ℚ) ≠ 0) d.exponent
  have hinv : (10 : ℚ) ^ (-((-d.exponent).toNat : ℤ)) = ((10 : ℚ) ^ (-d.exponent).toNat)⁻¹ := by
    rw [zpow_neg, zpow_natCast]
  rw [value, hinv, value, Nat.pow_eq, Nat.cast_mul, Nat.cast_pow, Nat.cast_ofNat, ← hten]
  field_simp

theorem exists_spelling_toPositional (d : Decimal) :
    ∃ s : Spelling, s.text = d.toPositional ∧ s.decimal.value = d.value := by
  obtain ⟨s, htext, hdecimal⟩ :=
    exists_spelling_positional (d.digits * Nat.pow 10 d.exponent.toNat) (-d.exponent).toNat
  exact ⟨s, htext, by rw [hdecimal, value_toPositional]⟩

theorem exists_spelling_scientific {ds : Text} (hne : ds ≠ []) (hdigits : ∀ c ∈ ds, c.isDigit = true) (e : ℤ) :
    ∃ s : Spelling, s.text = scientific true ds e ∧
      s.decimal.value = (⟨Nat.ofDigitChars 10 ds 0, e + 1 - ds.length⟩ : Decimal).value := by
  unfold scientific
  match ds with
  | [] => exact absurd rfl hne
  | [c] =>
    refine ⟨⟨[c], none, some e, by simp, hdigits, nofun⟩, ?_, ?_⟩
    · simp [Spelling.text, Spelling.fractionText, Spelling.powerText]
    · simp [Spelling.decimal, Spelling.places]
  | c :: c' :: ds =>
    refine ⟨⟨[c], some (c' :: ds), some e, by simp, ?_, ?_⟩, ?_, ?_⟩
    · intro x hx
      exact hdigits x (by simp_all)
    · intro t ht x hx
      obtain rfl := Option.mem_some_iff.1 ht
      exact hdigits x (List.mem_cons_of_mem _ hx)
    · simp [Spelling.text, Spelling.fractionText, Spelling.powerText]
    · simp only [Spelling.decimal, Spelling.places, Option.getD_some, List.singleton_append, value, List.length_cons]
      congr 2
      omega

theorem exists_spelling_toScientific (d : Decimal) :
    ∃ s : Spelling, s.text = d.toScientific true ∧ s.decimal.value = d.value := by
  obtain ⟨s, htext, hvalue⟩ := exists_spelling_scientific (digitsOf_ne_nil d.digits) (fun c => isDigit_digitsOf)
    (d.exponent + (digitsOf d.digits).length - 1)
  have hexponent : d.exponent + (digitsOf d.digits).length - 1 + 1 - (digitsOf d.digits).length = d.exponent := by omega
  exact ⟨s, htext, by rw [hvalue, ofDigitChars_digitsOf, hexponent]⟩

/-! ## The text of a finite number -/

open Binary64 Float.Model Float.Model.UnpackedFloat

variable {v w : Binary64} {s : Sign} {m : ℕ} {q : ℤ} {hm : 0 < m}

namespace Numeral

theorem natural_of_finite (hu : v.unpacked = .finite s m q hm) :
    natural v = signed v (if isPlain v then (shortest v).toPositional else (shortest v).toScientific true) := by
  obtain ⟨-, hsignificand, -⟩ := fields_of_finite hu
  obtain ⟨hnan, hinf⟩ := kinds_of_finite hu
  unfold natural
  rw [hnan, hinf, hsignificand, if_neg (by decide), if_neg (by decide), if_neg hm.ne']
  split <;> rfl

theorem natural_of_zero (hu : v.unpacked = .zero s) : natural v = "0".toList := by
  obtain ⟨-, hsignificand, -⟩ := fields_of_zero hu
  obtain ⟨hnan, hinf⟩ := kinds_of_zero hu
  unfold natural
  rw [hnan, hinf, hsignificand, if_neg (by decide), if_neg (by decide), if_pos rfl]

/-- The shortest decimal depends on the size only. -/
theorem shortest_congr (hm : v.significand = w.significand) (hq : v.exponent = w.exponent)
    (hnarrow : v.isNarrowBelow = w.isNarrowBelow) : shortest v = shortest w := by
  have hfraction : fraction v = fraction w := by
    funext e
    rw [fraction, fraction, hm, hq]
  have hreads : readsBack v = readsBack w := by
    funext d
    simp only [readsBack, hm, hq, hnarrow]
  have hgrid : onGrid? v = onGrid? w := by
    funext e
    simp only [onGrid?, hfraction, hreads]
  have hexact : exact v = exact w := by rw [exact, exact, hm, hq]
  rw [shortest, shortest, hfraction, hgrid, hexact]

/-- A minus sign stands in front of the text of the number without it. -/
theorem natural_neg (hu : v.unpacked = .finite .negative m q hm) : natural v = '-' :: natural (-v) := by
  have hneg := unpacked_neg_of_negative hu
  obtain ⟨-, hm₁, hq₁, -, hnarrow₁⟩ := fields_of_finite hu
  obtain ⟨-, hm₂, hq₂, -, hnarrow₂⟩ := fields_of_finite hneg
  have hshortest : shortest v = shortest (-v) :=
    shortest_congr (hm₁.trans hm₂.symm) (hq₁.trans hq₂.symm) (Bool.eq_iff_iff.2 (hnarrow₁.trans hnarrow₂.symm))
  have habs : v.abs = (-v).abs := by
    show ofUnpacked v.unpacked.abs = ofUnpacked (-v).unpacked.abs
    rw [hu, hneg]
    rfl
  have hplain : isPlain v = isPlain (-v) := by rw [isPlain, isPlain, habs]
  rw [natural_of_finite hu, natural_of_finite hneg, hshortest, hplain, signed, signed, isNegative_of_negative hu,
    isNegative_of_positive hneg]
  rfl

theorem plain_of_finite (hu : v.unpacked = .finite s m q hm) : plain v = signed v (shortest v).toPositional := by
  obtain ⟨-, hsignificand, -⟩ := fields_of_finite hu
  obtain ⟨hnan, hinf⟩ := kinds_of_finite hu
  unfold plain
  rw [hnan, hinf, hsignificand, if_neg (by decide), if_neg (by decide), if_neg hm.ne']

/-- The digit zero is read as the zero without minus sign. -/
theorem exists_spelling_zero (hu : v.unpacked = .zero .positive) :
    ∃ t : Spelling, t.text = "0".toList ∧ t.decimal.toBinary64 = v := by
  refine ⟨⟨digitsOf 0, none, none, digitsOf_ne_nil 0, fun c => isDigit_digitsOf, nofun⟩, rfl, ?_⟩
  rw [eq_zero_of_unpacked hu]
  rfl

/-- A text is read as a number without minus sign, if it is the digit zero for a zero, and has the value of the shortest
decimal otherwise. -/
theorem exists_spelling_of_value {text : Text} (h : v.isFinite = true) (hs : v.sign = .positive)
    (hzero : v.unpacked = .zero .positive → text = "0".toList)
    (hfinite : ∀ m q hm, v.unpacked = .finite .positive m q hm →
      ∃ t : Spelling, t.text = text ∧ t.decimal.value = (shortest v).value) :
    ∃ t : Spelling, t.text = text ∧ t.decimal.toBinary64 = v := by
  rcases finite_cases h with ⟨s, hu⟩ | ⟨s, m, q, hm, hu⟩
  · obtain ⟨hsign, -⟩ := fields_of_zero hu
    rw [hs] at hsign
    subst hsign
    rw [hzero hu]
    exact exists_spelling_zero hu
  · obtain ⟨hsign, -⟩ := fields_of_finite hu
    rw [hs] at hsign
    subst hsign
    obtain ⟨t, htext, hvalue⟩ := hfinite m q hm hu
    exact ⟨t, htext, toBinary64_of_roundsTo hu (hvalue ▸ shortest_roundsTo hu)⟩

/-- **The text of a finite number without minus sign is read as that number.** -/
theorem exists_spelling_natural (h : v.isFinite = true) (hs : v.sign = .positive) :
    ∃ t : Spelling, t.text = natural v ∧ t.decimal.toBinary64 = v := by
  refine exists_spelling_of_value h hs natural_of_zero fun m q hm hu => ?_
  rw [natural_of_finite hu, signed, isNegative_of_positive hu, if_neg (by decide)]
  split
  · exact exists_spelling_toPositional _
  · exact exists_spelling_toScientific _

/-- And so is its text without exponent. -/
theorem exists_spelling_plain (h : v.isFinite = true) (hs : v.sign = .positive) :
    ∃ t : Spelling, t.text = plain v ∧ t.decimal.toBinary64 = v := by
  refine exists_spelling_of_value h hs (fun hu => ?_) fun m q hm hu => ?_
  · rw [eq_zero_of_unpacked hu]
    decide +kernel
  · rw [plain_of_finite hu, signed, isNegative_of_positive hu, if_neg (by decide)]
    exact exists_spelling_toPositional _

end Numeral

end PocketCalc
