import Mathlib
import PocketCalc.Token.Lexer

/-!
# Written numbers

* `Spelling` — the parts of a written number: digits, maybe a point and more digits, maybe an exponent;
* `Spelling.read?_text` — such a text is read as the number of its decimal;
* `Ends` — no number and no name goes on with a text;
* `Spelling.word_text` — in front of such a text, a written number is one word.
-/

namespace PocketCalc

/-! ## Prefixes of a kind -/

section Prefix

variable {p : Char → Bool} {t rest : Text}

theorem takeWhile_append_eq (ht : ∀ c ∈ t, p c = true) (hrest : ∀ c ∈ rest.head?, p c = false) :
    (t ++ rest).takeWhile p = t := by
  rw [List.takeWhile_append_of_pos ht]
  cases rest with
  | nil => simp
  | cons c rest => simp [hrest c rfl]

theorem dropWhile_append_eq (ht : ∀ c ∈ t, p c = true) (hrest : ∀ c ∈ rest.head?, p c = false) :
    (t ++ rest).dropWhile p = rest := by
  rw [List.dropWhile_append_of_pos ht]
  cases rest with
  | nil => rfl
  | cons c rest => simp [hrest c rfl]

end Prefix

/-! ## Digits -/

variable {c : Char}

theorem isDigit_iff : c.isDigit = true ↔ 48 ≤ c.toNat ∧ c.toNat ≤ 57 := by
  simp only [Char.isDigit, Bool.and_eq_true, decide_eq_true_eq, ge_iff_le, UInt32.le_iff_toNat_le]
  rfl

theorem isAlpha_of_isDigit (h : c.isDigit = true) : c.isAlpha = false := by
  rw [isDigit_iff] at h
  have hval : c.val.toNat = c.toNat := rfl
  have hupper : 'A'.val.toNat = 65 := rfl
  have hlower : 'a'.val.toNat = 97 := rfl
  simp only [Char.isAlpha, Char.isUpper, Char.isLower, ge_iff_le, UInt32.le_iff_toNat_le, Bool.or_eq_false_iff,
    Bool.and_eq_false_iff, decide_eq_false_iff_not]
  omega

theorem toLower_of_isDigit (h : c.isDigit = true) : c.toLower = c := by
  rw [isDigit_iff] at h
  have hval : c.val.toNat = c.toNat := rfl
  have hupper : 'A'.val.toNat = 65 := rfl
  rw [Char.toLower, dif_neg]
  simp only [ge_iff_le, UInt32.le_iff_toNat_le]
  omega

theorem ne_of_isDigit {d : Char} (h : c.isDigit = true) (hd : d.isDigit = false) : c ≠ d := by
  rintro rfl
  rw [h] at hd
  cases hd

theorem isDigit_digitsOf {n : Nat} (h : c ∈ Decimal.digitsOf n) : c.isDigit = true :=
  Nat.isDigit_of_mem_toDigits (by decide) (by decide) h

theorem digitsOf_ne_nil (n : Nat) : Decimal.digitsOf n ≠ [] := Nat.toDigits_ne_nil

theorem ofDigitChars_digitsOf (n : Nat) :
    Nat.ofDigitChars 10 (Decimal.digitsOf n) 0 = n := Nat.ofDigitChars_ten_toDigits

/-- A text that starts with a digit or a point is read as a number without sign. -/
theorem read?_of_isNumeric {t : Text} (hc : Token.isNumeric c = true) :
    Numeral.read? (c :: t) = Numeral.unsigned? (c :: t) := by
  have hlower : c.toLower = c := by
    simp only [Token.isNumeric, Bool.or_eq_true, decide_eq_true_eq] at hc
    rcases hc with hc | rfl
    · exact toLower_of_isDigit hc
    · rfl
  have hword (d : Char) (word : Text) (hd : Token.isNumeric d = false) : (c :: t).map Char.toLower ≠ d :: word := by
    rw [List.map_cons, hlower]
    intro heq
    rw [(List.cons.inj heq).1, hd] at hc
    cases hc
  unfold Numeral.read?
  split
  next h =>
    cases h
    cases hc
  next h =>
    cases h
    cases hc
  next =>
    unfold Numeral.magnitude?
    simp only
    have hinf : (c :: t).map Char.toLower ≠ "inf".toList := hword 'i' "nf".toList rfl
    have hinfinity : (c :: t).map Char.toLower ≠ "infinity".toList := hword 'i' "nfinity".toList rfl
    have hnan : (c :: t).map Char.toLower ≠ "nan".toList := hword 'n' "an".toList rfl
    rw [if_neg (not_or.2 ⟨hinf, hinfinity⟩), if_neg hnan]

/-! ## The parts of a written number -/

/-- Digits, maybe a point and more digits, maybe an exponent with its sign. -/
structure Spelling where
  whole : Text
  places? : Option Text
  exponent? : Option Int
  whole_ne_nil : whole ≠ []
  isDigit_whole : ∀ c ∈ whole, c.isDigit = true
  isDigit_places : ∀ t ∈ places?, ∀ c ∈ t, c.isDigit = true

namespace Spelling

variable (s : Spelling)

/-- The digits behind the point. -/
def places : Text := s.places?.getD []

/-- The point and the digits behind it. -/
def fractionText : Text :=
  match s.places? with
  | none => []
  | some t => '.' :: t

/-- The exponent with its mark. -/
def powerText : Text :=
  match s.exponent? with
  | none => []
  | some e => 'e' :: Decimal.exponentText true e

/-- The written number. -/
def text : Text := s.whole ++ s.fractionText ++ s.powerText

/-- What the written number stands for. -/
def decimal : Decimal := ⟨Nat.ofDigitChars 10 (s.whole ++ s.places) 0, s.exponent?.getD 0 - s.places.length⟩

/-! ## As a number -/

theorem digits?_digitsOf (n : Nat) : Numeral.digits? (Decimal.digitsOf n) = some n := by
  unfold Numeral.digits?
  rw [if_pos ⟨digitsOf_ne_nil n, List.all_eq_true.2 fun c => isDigit_digitsOf⟩, ofDigitChars_digitsOf]

theorem ending?_powerText : Numeral.ending? s.powerText = some (s.exponent?.getD 0) := by
  unfold powerText
  cases s.exponent? with
  | none => rfl
  | some e =>
    show Numeral.exponent? (Decimal.exponentText true e) = some e
    unfold Decimal.exponentText
    split
    next h =>
      simp only [Numeral.exponent?, digits?_digitsOf]
      show some (-(e.natAbs : Int)) = some e
      congr 1
      omega
    next h =>
      simp only [if_true, Numeral.exponent?, digits?_digitsOf]
      show some (e.natAbs : Int) = some e
      congr 1
      omega

theorem mem_exponentText {plus : Bool} {e : Int} (h : c ∈ Decimal.exponentText plus e) :
    c = '-' ∨ c = '+' ∨ c.isDigit = true := by
  unfold Decimal.exponentText at h
  split at h
  · rcases List.mem_cons.1 h with rfl | h
    · exact .inl rfl
    · exact .inr (.inr (isDigit_digitsOf h))
  · split at h
    · rcases List.mem_cons.1 h with rfl | h
      · exact .inr (.inl rfl)
      · exact .inr (.inr (isDigit_digitsOf h))
    · exact .inr (.inr (isDigit_digitsOf h))

/-- The characters of an exponent. -/
theorem mem_powerText {s : Spelling} (h : c ∈ s.powerText) : c = 'e' ∨ c = '-' ∨ c = '+' ∨ c.isDigit = true := by
  unfold powerText at h
  cases hs : s.exponent? with
  | none =>
    rw [hs] at h
    cases h
  | some e =>
    rw [hs] at h
    rcases List.mem_cons.1 h with rfl | h
    · exact .inl rfl
    · exact .inr (mem_exponentText h)

theorem head?_powerText : ∀ c ∈ s.powerText.head?, c = 'e' := by
  unfold powerText
  cases s.exponent? with
  | none => simp
  | some e => simp

theorem head?_fractionText : ∀ c ∈ (s.fractionText ++ s.powerText).head?, c.isDigit = false := by
  have hpower := s.head?_powerText
  unfold fractionText
  cases s.places? with
  | none =>
    intro c hc
    rw [hpower c hc]
    rfl
  | some t =>
    intro c hc
    cases hc
    rfl

theorem afterPoint_fractionText :
    Numeral.afterPoint (s.fractionText ++ s.powerText) = (s.places, s.powerText) := by
  have hpower : ∀ c ∈ s.powerText.head?, c.isDigit = false := by
    intro c hc
    rw [s.head?_powerText c hc]
    rfl
  unfold fractionText places
  cases hplaces : s.places? with
  | none =>
    show Numeral.afterPoint s.powerText = ([], s.powerText)
    unfold Numeral.afterPoint
    split
    next h =>
      have hmark := s.head?_powerText '.' (by rw [h]; rfl)
      cases hmark
    next => rfl
  | some t =>
    show ((t ++ s.powerText).takeWhile Char.isDigit, (t ++ s.powerText).dropWhile Char.isDigit) = _
    have hdigits := s.isDigit_places t hplaces
    rw [takeWhile_append_eq hdigits hpower, dropWhile_append_eq hdigits hpower]
    rfl

theorem unsigned?_text : Numeral.unsigned? s.text = some s.decimal.toBinary64 := by
  unfold Numeral.unsigned? text
  rw [List.append_assoc, takeWhile_append_eq s.isDigit_whole s.head?_fractionText,
    dropWhile_append_eq s.isDigit_whole s.head?_fractionText, s.afterPoint_fractionText]
  simp only [s.ending?_powerText]
  rw [if_neg fun h => s.whole_ne_nil h.1]
  rfl

/-- The first character is a digit. -/
theorem exists_text : ∃ c t, s.text = c :: t ∧ c.isDigit = true := by
  have hne := s.whole_ne_nil
  have hdigits := s.isDigit_whole
  unfold text
  cases hwhole : s.whole with
  | nil => exact absurd hwhole hne
  | cons c t =>
    rw [hwhole] at hdigits
    exact ⟨c, t ++ s.fractionText ++ s.powerText, rfl, hdigits c (List.mem_cons_self ..)⟩

/-- **A written number is read as the number of its decimal.** -/
theorem read?_text : Numeral.read? s.text = some s.decimal.toBinary64 := by
  obtain ⟨c, t, htext, hc⟩ := s.exists_text
  have hnumeric : Token.isNumeric c = true := by simp [Token.isNumeric, hc]
  have hunsigned := s.unsigned?_text
  rw [htext] at hunsigned ⊢
  rw [read?_of_isNumeric hnumeric, hunsigned]

/-! ## As a word -/

/-- The text is empty, or starts with a character that no name and no number goes on with. -/
def Ends (rest : Text) : Prop := ∀ c ∈ rest.head?, c = ' ' ∨ c = ')' ∨ c = '^'

variable {s} {c : Char} {t rest : Text}

theorem Ends.head? (h : Ends rest) {p : Char → Bool} (hblank : p ' ' = false) (hparen : p ')' = false)
    (hpow : p '^' = false) : ∀ c ∈ rest.head?, p c = false := by
  intro c hc
  rcases h c hc with rfl | rfl | rfl
  · exact hblank
  · exact hparen
  · exact hpow

theorem symbol?_of_isDigit (h : c.isDigit = true) : Token.symbol? c = none := by
  unfold Token.symbol?
  split
  all_goals first | rfl | exact absurd h (by decide)

theorem isBlank_of_isDigit (h : c.isDigit = true) : isBlank c = false := by
  rw [isDigit_iff] at h
  simp only [isBlank, blankRuns, List.any_cons, List.any_nil, Bool.or_false, Bool.or_eq_false_iff,
    Bool.and_eq_false_iff,
    decide_eq_false_iff_not]
  omega

/-- The exponent is split off from what follows it. -/
theorem splitExponent_powerText (s : Spelling) (hrest : Ends rest) :
    Token.splitExponent (s.powerText ++ rest) = (s.powerText, rest) := by
  unfold powerText
  cases s.exponent? with
  | none =>
    show Token.splitExponent rest = ([], rest)
    cases rest with
    | nil => rfl
    | cons c rest =>
      have hc := hrest.head? (p := Numeral.isExponentMark) rfl rfl rfl c rfl
      simp [Token.splitExponent, hc]
  | some e =>
    have hdigits : ∀ c ∈ Decimal.digitsOf e.natAbs, c.isDigit = true := fun c => isDigit_digitsOf
    have hends := hrest.head? (p := Char.isDigit) rfl rfl rfl
    have hsplit (sign : Char) (hsign : sign = '+' ∨ sign = '-') :
        Token.splitExponent ('e' :: sign :: (Decimal.digitsOf e.natAbs ++ rest)) =
          ('e' :: sign :: Decimal.digitsOf e.natAbs, rest) := by
      have hsplit : Token.splitSign (sign :: (Decimal.digitsOf e.natAbs ++ rest)) =
          ([sign], Decimal.digitsOf e.natAbs ++ rest) := by
        rcases hsign with rfl | rfl <;> rfl
      simp only [Token.splitExponent, hsplit]
      rw [takeWhile_append_eq hdigits hends, dropWhile_append_eq hdigits hends]
      simp [Numeral.isExponentMark, digitsOf_ne_nil]
    show Token.splitExponent ('e' :: (Decimal.exponentText true e ++ rest)) =
      ('e' :: Decimal.exponentText true e, rest)
    unfold Decimal.exponentText
    split
    · exact hsplit '-' (.inr rfl)
    · exact hsplit '+' (.inl rfl)

theorem count_point (s : Spelling) : (s.whole ++ s.fractionText).count '.' ≤ 1 := by
  have hdigits (t : Text) (ht : ∀ c ∈ t, c.isDigit = true) : t.count '.' = 0 := by
    refine List.count_eq_zero.2 fun hmem => ?_
    have hpoint := ht '.' hmem
    cases hpoint
  rw [List.count_append, hdigits s.whole s.isDigit_whole]
  unfold fractionText
  cases hplaces : s.places? with
  | none => exact Nat.zero_le _
  | some t => simp [hdigits t (s.isDigit_places t hplaces)]

theorem isNumeric_body (s : Spelling) : ∀ c ∈ s.whole ++ s.fractionText, Token.isNumeric c = true := by
  have hdigit (c : Char) (hc : c.isDigit = true) : Token.isNumeric c = true := by simp [Token.isNumeric, hc]
  intro c hc
  rcases List.mem_append.1 hc with hc | hc
  · exact hdigit c (s.isDigit_whole c hc)
  · unfold fractionText at hc
    cases hplaces : s.places? with
    | none => simp [hplaces] at hc
    | some t =>
      simp only [hplaces, List.mem_cons] at hc
      rcases hc with rfl | hc
      · rfl
      · exact hdigit c (s.isDigit_places t hplaces c hc)

theorem numberOf_body (s : Spelling) :
    Token.numberOf (s.whole ++ s.fractionText) s.powerText = .ok (.number s.decimal.toBinary64) := by
  have hread := s.read?_text
  rw [text] at hread
  unfold Token.numberOf
  rw [if_neg (Nat.not_lt.2 s.count_point), hread]

/-- **A written number is one word.** -/
theorem word_text (htext : s.text = c :: t) (hrest : Ends rest) :
    Token.word c (t ++ rest) = .ok (.number s.decimal.toBinary64, rest) := by
  have hnumber := s.numberOf_body
  have hnumeric := s.isNumeric_body
  have hpower : ∀ c ∈ (s.powerText ++ rest).head?, Token.isNumeric c = false := by
    intro d hd
    cases hp : s.powerText with
    | nil =>
      rw [hp] at hd
      exact hrest.head? rfl rfl rfl d hd
    | cons p power =>
      rw [hp] at hd
      rw [s.head?_powerText d (by rw [hp]; exact hd)]
      rfl
  cases hwhole : s.whole with
  | nil => exact absurd hwhole s.whole_ne_nil
  | cons d w =>
    have hdigit : d.isDigit = true := s.isDigit_whole d (by rw [hwhole]; exact List.mem_cons_self ..)
    rw [hwhole] at hnumeric hnumber
    rw [text, hwhole] at htext
    obtain ⟨rfl, rfl⟩ : d = c ∧ w ++ s.fractionText ++ s.powerText = t := by simpa using htext
    have hbody : ∀ c ∈ w ++ s.fractionText, Token.isNumeric c = true :=
      fun c hc => hnumeric c (List.mem_cons_of_mem _ hc)
    unfold Token.word
    rw [symbol?_of_isDigit hdigit]
    simp only [Token.startsName, Token.startsNumber, isAlpha_of_isDigit hdigit, hdigit,
      ne_of_isDigit hdigit (show '_'.isDigit = false from rfl), decide_false, Bool.or_self, Bool.false_eq_true,
      if_false, Bool.true_or, if_true]
    rw [List.append_assoc, takeWhile_append_eq hbody hpower, dropWhile_append_eq hbody hpower,
      s.splitExponent_powerText hrest]
    show Except.map _ (Token.numberOf (d :: w ++ s.fractionText) s.powerText) = _
    rw [hnumber]
    rfl

end Spelling

end PocketCalc
