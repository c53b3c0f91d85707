import PocketCalc.Proofs.Numeral.Natural

/-!
# The shape of the texts of numbers

* `IsNumeral` — a written number, maybe with a minus sign; the texts of a finite number are such, fitted into any
  width;
* `fitted_of_not_finite` — the words for what is not finite;
* `Presentable` — a text with at most one point and no capital `E`; all texts of numbers are.
-/

namespace PocketCalc.Numeral

open Binary64 Decimal

/-- A written number, maybe with a minus sign. -/
def IsNumeral (t : Text) : Prop := ∃ s : Spelling, t = s.text ∨ t = '-' :: s.text

variable {v : Binary64} {t : Text} {width places : ℕ}

/-! ## Finite numbers -/

theorem isNumeral_signed (v : Binary64) (s : Spelling) : IsNumeral (signed v s.text) := by
  unfold signed
  split
  · exact ⟨s, .inr rfl⟩
  · exact ⟨s, .inl rfl⟩

theorem isNumeral_natural (h : v.isFinite = true) : IsNumeral (natural v) := by
  rcases finite_cases h with ⟨s, hu⟩ | ⟨s, m, q, hm, hu⟩
  · obtain ⟨t, htext, -⟩ := exists_spelling_positional 0 0
    refine ⟨t, .inl ?_⟩
    rw [natural_of_zero hu, htext]
    rfl
  · rw [natural_of_finite hu]
    split
    · obtain ⟨t, htext, -⟩ := exists_spelling_toPositional (shortest v)
      exact htext ▸ isNumeral_signed v t
    · obtain ⟨t, htext, -⟩ := exists_spelling_toScientific (shortest v)
      exact htext ▸ isNumeral_signed v t

theorem isNumeral_fixed (h : v.isFinite = true) (places : ℕ) : IsNumeral (fixed v places) := by
  obtain ⟨t, htext, -⟩ := exists_spelling_positional (toPlaces v places) places
  rw [fixed, if_pos h, ← htext]
  exact isNumeral_signed v t

theorem isNumeral_exponential (h : v.isFinite = true) (places : ℕ) : IsNumeral (exponential v places) := by
  have hscientific {ds : Text} (hne : ds ≠ []) (hdigits : ∀ c ∈ ds, c.isDigit = true) (e : ℤ) :
      IsNumeral (signed v (Decimal.scientific true ds e)) := by
    obtain ⟨t, htext, -⟩ := exists_spelling_scientific hne hdigits e
    exact htext ▸ isNumeral_signed v t
  unfold exponential
  rw [h]
  simp only [Bool.not_true, Bool.false_eq_true, if_false]
  split
  · have hzeros : ∀ c ∈ List.replicate (places + 1) '0', c.isDigit = true := by
      intro c hc
      obtain rfl := (List.mem_replicate.1 hc).2
      rfl
    exact hscientific (List.cons_ne_nil _ _) hzeros 0
  · exact hscientific (digitsOf_ne_nil _) (fun c => isDigit_digitsOf) _

theorem isNumeral_fixedWithin (h : v.isFinite = true) (width places : ℕ) : IsNumeral (fixedWithin v width places) := by
  induction places with
  | zero => exact isNumeral_fixed h 0
  | succ places ih =>
    simp only [fixedWithin]
    split
    · exact isNumeral_fixed h (places + 1)
    · exact ih

/-- **The text of a finite number is a written number**, however wide it may be. -/
theorem isNumeral_fitted (h : v.isFinite = true) (width : ℕ) : IsNumeral (fitted v width) := by
  unfold fitted
  simp only
  split
  · exact isNumeral_natural h
  · split
    · exact isNumeral_exponential h _
    · split
      · exact isNumeral_exponential h _
      · exact isNumeral_fixedWithin h _ _

/-! ## What is not finite -/

/-- The words for what is not a finite number. -/
def specialWords : List Text := ["NaN".toList, "Infinity".toList, "-Infinity".toList]

theorem natural_of_not_finite (h : v.isFinite = false) : natural v ∈ specialWords := by
  have hkinds : v.isNaN = true ∨ v.isInfinite = true := by
    by_contra hneither
    simp only [not_or, Bool.not_eq_true] at hneither
    rw [isFinite_iff.2 hneither] at h
    cases h
  unfold natural signed
  by_cases hnan : v.isNaN = true
  · rw [if_pos hnan]
    decide
  · rw [if_neg hnan, if_pos (hkinds.resolve_left hnan)]
    split <;> decide

theorem fitted_of_not_finite (h : v.isFinite = false) (width : ℕ) : fitted v width ∈ specialWords := by
  have hnatural := natural_of_not_finite h
  have hexponential (n : ℕ) : exponential v n = natural v := by simp [exponential, h]
  have hpoint : beforePoint? (natural v) = none := by
    have hnone : ∀ t ∈ specialWords, beforePoint? t = none := by decide
    exact hnone _ hnatural
  unfold fitted
  simp only [hpoint, hexponential, ite_self]
  exact hnatural

/-! ## Points and capitals -/

/-- A text with something in it, at most one point, and no capital `E`. -/
structure Presentable (t : Text) : Prop where
  ne_nil : t ≠ []
  point : t.count '.' ≤ 1
  capital : 'E' ∉ t

theorem presentable_text (s : Spelling) : Presentable s.text where
  ne_nil := by
    obtain ⟨c, t, htext, -⟩ := s.exists_text
    rw [htext]
    exact List.cons_ne_nil c t
  point := by
    have hpower : s.powerText.count '.' = 0 := by
      refine List.count_eq_zero.2 fun hmem => ?_
      have hcases := Spelling.mem_powerText hmem
      revert hcases
      decide
    have hbody := s.count_point
    rw [Spelling.text, List.count_append]
    omega
  capital := by
    intro hmem
    rcases List.mem_append.1 hmem with hbody | hpower
    · have hnumeric := s.isNumeric_body 'E' hbody
      cases hnumeric
    · have hcases := Spelling.mem_powerText hpower
      revert hcases
      decide

theorem IsNumeral.presentable (h : IsNumeral t) : Presentable t := by
  obtain ⟨s, rfl | rfl⟩ := h
  · exact presentable_text s
  · obtain ⟨-, hpoint, hcapital⟩ := presentable_text s
    exact ⟨List.cons_ne_nil _ _, by simpa using hpoint, by simpa using hcapital⟩

theorem presentable_of_mem_words (h : t ∈ specialWords) : Presentable t := by
  simp only [specialWords, List.mem_cons, List.not_mem_nil, or_false] at h
  rcases h with rfl | rfl | rfl <;> exact ⟨by decide, by decide, by decide⟩

/-- The text of a number, finite or not, is presentable. -/
theorem presentable_natural (v : Binary64) : Presentable (natural v) := by
  cases h : v.isFinite with
  | true => exact (isNumeral_natural h).presentable
  | false => exact presentable_of_mem_words (natural_of_not_finite h)

theorem presentable_fitted (v : Binary64) (width : ℕ) : Presentable (fitted v width) := by
  cases h : v.isFinite with
  | true => exact (isNumeral_fitted h width).presentable
  | false => exact presentable_of_mem_words (fitted_of_not_finite h width)

end PocketCalc.Numeral
