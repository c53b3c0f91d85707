import PocketCalc.Proofs.Token.Append

/-!
# Zeros in front of a number

* `unsigned?_zero_cons`, `numberOf_zero_cons` — a zero in front of a number does not change the number;
* `tokens_zero_cons` — so the words are the same;
* `tokens_replicate_zero` — all zeros but one can be left out.
-/

namespace PocketCalc.Token

open Numeral Spelling

variable {c : Char} {t t' body power : Text} {ts : List Token} {token : Token} {r : Token × Text} {n : ℕ}

theorem isNumeric_of_isDigit (h : c.isDigit = true) : isNumeric c = true := by simp [isNumeric, h]

/-- A number starts with a digit, or with a point before a digit. -/
theorem startsNumber_iff : startsNumber c t = true ↔ c.isDigit = true ∨ c = '.' ∧ ∃ d ∈ t.head?, d.isDigit = true := by
  simp [startsNumber, Option.any_eq_true]

theorem isNumeric_of_startsNumber (h : startsNumber c t = true) : isNumeric c = true := by
  rcases startsNumber_iff.1 h with hc | ⟨rfl, -⟩
  · exact isNumeric_of_isDigit hc
  · rfl

theorem startsNumber_mono (h : startsNumber c t = true) (ht : t <+: t') : startsNumber c t' = true := by
  obtain ⟨rest, rfl⟩ := ht
  rcases startsNumber_iff.1 h with hc | ⟨hc, d, hd, hdigit⟩
  · exact startsNumber_iff.2 (.inl hc)
  · exact startsNumber_iff.2 (.inr ⟨hc, d, by rw [List.head?_append, Option.mem_def.1 hd]; rfl, hdigit⟩)

/-- The digit behind a point at the front goes on the number. -/
theorem startsNumber_takeWhile (h : startsNumber c t = true) : startsNumber c (t.takeWhile isNumeric) = true := by
  rcases startsNumber_iff.1 h with hc | ⟨hc, d, hd, hdigit⟩
  · exact startsNumber_iff.2 (.inl hc)
  · refine startsNumber_iff.2 (.inr ⟨hc, d, ?_, hdigit⟩)
    cases t with
    | nil => cases hd
    | cons d' t =>
      obtain rfl : d' = d := by simpa using hd
      rw [List.takeWhile_cons_of_pos (isNumeric_of_isDigit hdigit)]
      rfl

/-! ## Values -/

theorem unsigned?_zero_cons (h : startsNumber c t = true) : unsigned? ('0' :: c :: t) = unsigned? (c :: t) := by
  have hzero : '0'.isDigit = true := rfl
  have hdigits : ¬ ((c :: t).takeWhile Char.isDigit = [] ∧ (afterPoint ((c :: t).dropWhile Char.isDigit)).1 = []) := by
    rintro ⟨hwhole, hplaces⟩
    rcases startsNumber_iff.1 h with hc | ⟨rfl, d, hd, hdigit⟩
    · rw [List.takeWhile_cons_of_pos hc] at hwhole
      cases hwhole
    · cases t with
      | nil => cases hd
      | cons d' t =>
        obtain rfl : d' = d := by simpa using hd
        rw [List.dropWhile_cons_of_neg (by decide), afterPoint] at hplaces
        simp [hdigit] at hplaces
  simp only [unsigned?]
  rw [if_neg hdigits, List.takeWhile_cons_of_pos hzero, List.dropWhile_cons_of_pos hzero, if_neg (by simp)]
  rfl

/-- A zero in front of digits and points does not change the number that they make. -/
theorem numberOf_zero_cons (h : startsNumber c (body ++ power) = true) :
    numberOf ('0' :: c :: body) power = .ok token ↔ numberOf (c :: body) power = .ok token := by
  have hcount : ('0' :: c :: body).count '.' = (c :: body).count '.' := List.count_cons_of_ne (by decide)
  have hread : read? ('0' :: c :: body ++ power) = read? (c :: body ++ power) := by
    have hzero : isNumeric '0' = true := rfl
    simp only [List.cons_append]
    rw [read?_of_isNumeric hzero, read?_of_isNumeric (isNumeric_of_startsNumber h), unsigned?_zero_cons h]
  simp only [numberOf]
  rw [hcount, hread]
  split
  · simp
  · cases read? (c :: body ++ power) with
    | none => simp
    | some v => rfl

/-! ## Words -/

theorem word_of_startsNumber (h : startsNumber c t = true) : word c t =
    (numberOf (c :: t.takeWhile isNumeric) (splitExponent (t.dropWhile isNumeric)).1).map
      (·, (splitExponent (t.dropWhile isNumeric)).2) := by
  have hsymbol : symbol? c = none := by
    rcases startsNumber_iff.1 h with hc | ⟨rfl, -⟩
    · exact symbol?_of_isDigit hc
    · rfl
  have hname : startsName c = false := by
    rcases startsNumber_iff.1 h with hc | ⟨rfl, -⟩
    · simp [startsName, isAlpha_of_isDigit hc, ne_of_isDigit hc (show '_'.isDigit = false from rfl)]
    · rfl
  unfold word
  rw [hsymbol]
  simp only [hname, h, Bool.false_eq_true, if_false, if_true]

theorem isBlank_of_startsNumber (h : startsNumber c t = true) : isBlank c = false := by
  rcases startsNumber_iff.1 h with hc | ⟨rfl, -⟩
  · exact isBlank_of_isDigit hc
  · rfl

theorem word_zero_cons (h : startsNumber c t = true) : word '0' (c :: t) = .ok r ↔ word c t = .ok r := by
  have hzero : startsNumber '0' (c :: t) = true := startsNumber_iff.2 (.inl rfl)
  have hnumeric := isNumeric_of_startsNumber h
  have hstarts : startsNumber c (t.takeWhile isNumeric ++ (splitExponent (t.dropWhile isNumeric)).1) = true :=
    startsNumber_mono (startsNumber_takeWhile h) (List.prefix_append ..)
  rw [word_of_startsNumber hzero, word_of_startsNumber h, List.takeWhile_cons_of_pos hnumeric,
    List.dropWhile_cons_of_pos hnumeric, map_eq_ok, map_eq_ok]
  exact exists_congr fun token => and_congr_left fun _ => numberOf_zero_cons hstarts

theorem tokens_cons_eq_ok (hc : isBlank c = false) : tokens (c :: t) = .ok ts ↔
    ∃ token rest ts', word c t = .ok (token, rest) ∧ tokens rest = .ok ts' ∧ ts = token :: ts' := by
  rcases hword : word c t with err | ⟨token, rest⟩
  · simp [tokens_error hc hword]
  · rw [tokens_word hc hword, map_eq_ok]
    constructor
    · rintro ⟨ts', hrest, rfl⟩
      exact ⟨token, rest, ts', rfl, hrest, rfl⟩
    · rintro ⟨token', rest', ts', heq, hrest, rfl⟩
      cases heq
      exact ⟨ts', hrest, rfl⟩

/-- **A zero in front of a number does not change the words.** -/
theorem tokens_zero_cons (h : startsNumber c t = true) :
    tokens ('0' :: c :: t) = .ok ts ↔ tokens (c :: t) = .ok ts := by
  rw [tokens_cons_eq_ok (show isBlank '0' = false from rfl), tokens_cons_eq_ok (isBlank_of_startsNumber h)]
  simp only [word_zero_cons h]

/-- All zeros in front but one can be left out. -/
theorem tokens_replicate_zero (n : ℕ) (t : Text) :
    tokens (List.replicate (n + 1) '0' ++ t) = .ok ts ↔ tokens ('0' :: t) = .ok ts := by
  induction n with
  | zero => rfl
  | succ n ih =>
    have hzero : startsNumber '0' (List.replicate n '0' ++ t) = true := startsNumber_iff.2 (.inl rfl)
    rw [List.replicate_succ, List.replicate_succ, List.cons_append, List.cons_append, tokens_zero_cons hzero]
    rw [List.replicate_succ, List.cons_append] at ih
    exact ih

/-- A zero before something that no number goes on with. -/
theorem tokens_zero (hc : isNumeric c = false) (hmark : isExponentMark c = false) (t : Text) :
    tokens ('0' :: c :: t) = (tokens (c :: t)).map (.number 0 :: ·) := by
  refine tokens_word rfl ?_
  have hstarts : startsNumber '0' (c :: t) = true := startsNumber_iff.2 (.inl rfl)
  have hnumber : numberOf ['0'] [] = .ok (.number 0) := rfl
  have hsplit : splitExponent (c :: t) = ([], c :: t) := by simp [splitExponent, hmark]
  rw [word_of_startsNumber hstarts, List.takeWhile_cons_of_neg (by simp [hc]),
    List.dropWhile_cons_of_neg (by simp [hc]), hsplit, hnumber]
  rfl

end PocketCalc.Token
