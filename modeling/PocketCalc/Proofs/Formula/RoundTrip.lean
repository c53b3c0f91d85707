import PocketCalc.Proofs.Formula.Parsed
import PocketCalc.Proofs.Grammar.Words

/-!
# The text of a formula is read as that formula

* `Solid` — a text with no blank at its ends; the text of a formula is one;
* `parse_text` — it is read as the formula with negations in the place of the minus signs of its numbers, as far as
  the depth allows; a formula that was read before is read again.
-/

namespace PocketCalc

open Token PocketCalc.Expr

/-! ## Texts without blanks at their ends -/

/-- The text has a first and a last character, and neither is a blank. -/
structure Solid (t : Text) : Prop where
  first : ∃ c t', t = c :: t' ∧ isBlank c = false
  last : ∃ t' c, t = t' ++ [c] ∧ isBlank c = false

variable {t t' : Text} {e : Formula}

theorem Solid.trim (h : Solid t) : trim t = t := by
  obtain ⟨c, t₁, hfirst, hc⟩ := h.first
  obtain ⟨t₂, d, hlast, hd⟩ := h.last
  have hhead : t.dropWhile isBlank = t := by
    rw [hfirst, List.dropWhile_cons_of_neg (by rw [hc]; decide)]
  have htail : t.reverse.dropWhile isBlank = t.reverse := by
    rw [hlast, List.reverse_append, List.reverse_singleton, List.singleton_append,
      List.dropWhile_cons_of_neg (by rw [hd]; decide)]
  rw [PocketCalc.trim, hhead, htail, List.reverse_reverse]

theorem Solid.ne_nil (h : Solid t) : t ≠ [] := by
  obtain ⟨c, t₁, rfl, -⟩ := h.first
  exact List.cons_ne_nil _ _

theorem Solid.append (h : Solid t) (middle : Text) (h' : Solid t') : Solid (t ++ middle ++ t') := by
  obtain ⟨c, t₁, rfl, hc⟩ := h.first
  obtain ⟨t₂, d, rfl, hd⟩ := h'.last
  exact ⟨⟨c, t₁ ++ middle ++ (t₂ ++ [d]), rfl, hc⟩, ⟨c :: t₁ ++ middle ++ t₂, d, by simp, hd⟩⟩

theorem solid_of_all (hne : t ≠ []) (h : ∀ c ∈ t, isBlank c = false) : Solid t := by
  refine ⟨?_, t.dropLast, t.getLast hne, (List.dropLast_concat_getLast hne).symm, h _ (List.getLast_mem hne)⟩
  cases t with
  | nil => exact absurd rfl hne
  | cons c t => exact ⟨c, t, rfl, h c (List.mem_cons_self ..)⟩

theorem solid_singleton {c : Char} (hc : isBlank c = false) : Solid [c] := ⟨⟨c, [], rfl, hc⟩, ⟨[], c, rfl, hc⟩⟩

theorem solid_of_isName (h : isName t = true) : Solid t := by
  cases t with
  | nil => cases h
  | cons c t =>
    simp only [isName, Bool.and_eq_true, Bool.not_eq_true', decide_eq_true_eq, List.all_eq_true] at h
    obtain ⟨⟨⟨⟨hblank, -⟩, -⟩, hcontinues⟩, -⟩ := h
    refine solid_of_all (List.cons_ne_nil _ _) fun d hd => ?_
    rcases List.mem_cons.1 hd with rfl | hd
    · exact hblank
    · exact isBlank_of_continuesName (hcontinues d hd)

theorem Spelling.solid (s : Spelling) : Solid s.text := by
  obtain ⟨d, t, htext, -⟩ := s.exists_text
  refine solid_of_all (htext ▸ List.cons_ne_nil d t) fun c hc => ?_
  rcases List.mem_append.1 hc with hc | hc
  · have hnumeric := s.isNumeric_body c hc
    simp only [isNumeric, Bool.or_eq_true, decide_eq_true_eq] at hnumeric
    rcases hnumeric with hdigit | rfl
    · exact isBlank_of_isDigit hdigit
    · rfl
  · rcases mem_powerText hc with rfl | rfl | rfl | hdigit
    · rfl
    · rfl
    · rfl
    · exact isBlank_of_isDigit hdigit

theorem solid_parenthesized (t : Text) : Solid (parenthesized t) :=
  (solid_singleton (c := '(') rfl).append t (solid_singleton (c := ')') rfl)

theorem Solid.atLevel (h : Solid t) (asked given : ℕ) : Solid (atLevel asked given t) := by
  unfold Expr.atLevel
  split
  · exact solid_parenthesized t
  · exact h

/-- The text of a formula has no blank at its ends. -/
theorem solid_write (h : e.AllAtoms fun a => a.Writable ∧ a.Unsigned) (asked : ℕ) : Solid (e.write asked) := by
  induction e generalizing asked with
  | atom a =>
    refine Solid.atLevel ?_ asked _
    cases a with
    | number v =>
      obtain ⟨s, htext, -⟩ := Numeral.exists_spelling_natural h.1 h.2
      have hs := s.solid
      rw [htext] at hs
      exact hs
    | var name =>
      obtain rfl : name = boundName := h.1
      exact solid_of_isName (t := boundName) rfl
    | constant c => exact solid_of_isName (isName_constant c)
  | neg e ih => exact ((solid_singleton (c := '-') rfl).append [] (ih h negLevel)).atLevel asked _
  | call f e ih =>
    have hcall := (solid_of_isName (isName_function f)).append [] (solid_parenthesized (e.write 0))
    rwa [List.append_nil] at hcall
  | binary op a b iha ihb =>
    cases op with
    | pow =>
      have hpow := (iha h.1 topLevel).append ['^'] (ihb h.2 Operator.pow.level)
      rw [List.append_assoc] at hpow
      exact hpow.atLevel asked _
    | add | sub | mul | div | mod => exact ((iha h.1 _).append _ (ihb h.2 _)).atLevel asked _

/-! ## Reading what was written -/

namespace Formula

/-- The words of a formula without minus signs in its numbers, and their listing. -/
theorem tokens_text (h : e.AllAtoms fun a => a.Writable ∧ a.Unsigned) : Token.tokens e.text = .ok (words 0 e) := by
  have htokens := lexes_write h 0 [] ends_nil
  rw [List.append_nil, tokens_nil] at htokens
  rw [Expr.text, htokens]
  show Except.ok (words 0 e ++ []) = _
  rw [List.append_nil]

theorem parse_unsigned (h : e.AllAtoms fun a => a.Writable ∧ a.Unsigned) :
    parse e.text = if e.depth ≤ maxDepth then .ok e else .error .tooDeep := by
  have hsolid : Solid e.text := solid_write h 0
  have hitems := Grammar.ofTokens_words (h.imp fun _ ha => ha.1)
  simp only [parse]
  rw [hsolid.trim, if_neg hsolid.ne_nil, tokens_text h, ← Rpn.build_listing]
  show (Rpn.ofTokens (words 0 e) >>= Rpn.build) = _
  rw [hitems]
  rfl

/-- **A formula is read from its text.** The words of the text are listed as the formula with a negation for each
minus sign of a number, and that formula is read unless it is too deep. A formula that was read from some text is
read from its own text again. -/
theorem parse_text (e : Formula) (hnum : e.hasFiniteNumbers = true) :
    ((∀ name, e.contains name = true → name = boundName) →
      (∃ ts, Token.tokens e.text = .ok ts ∧ Rpn.ofTokens ts = .ok (Rpn.listing e.unsigned)) ∧
        parse e.text = if e.unsigned.depth ≤ maxDepth then .ok e.unsigned else .error .tooDeep) ∧
      ∀ source, parse source = .ok e → parse e.text = .ok e := by
  constructor
  · intro hvar
    have hwritable := allAtoms_writable hvar hnum
    have hunsigned := allAtoms_unsigned hwritable
    have htext : e.unsigned.text = e.text := write_unsigned hwritable 0
    rw [← htext]
    exact ⟨⟨words 0 e.unsigned, tokens_text hunsigned, Grammar.ofTokens_words (hunsigned.imp fun _ ha => ha.1)⟩,
      parse_unsigned hunsigned⟩
  · intro source hsource
    obtain ⟨hatoms, hdepth⟩ := sound_of_parse hsource
    rw [parse_unsigned (hatoms.writable hnum), if_pos hdepth]

/-- A power of a negative number, and the same power with a negation. -/
theorem parse_text_power :
    parse (Expr.text (.binary .pow (.number (-2)) x)) = .ok (.binary .pow (.neg (.number 2)) x) ∧
      parse (Expr.text (.binary .pow (.neg (.number 2)) x)) = .ok (.binary .pow (.neg (.number 2)) x) := by
  constructor
  · have hvar (name : Text) (h : (Expr.binary .pow (.number (-2 : Binary64)) x).contains name = true) :
        name = boundName := by
      simp only [contains, x, Bool.false_or, decide_eq_true_eq] at h
      exact h.symm
    rw [((parse_text (.binary .pow (.number (-2)) x) (by decide +kernel)).1 hvar).2]
    decide +kernel
  · have hread := (parse_text (.binary .pow (.neg (.number 2)) x) (by decide +kernel)).2
    exact hread "( -2 ) ^ x".toList (by decide +kernel)

end Formula

end PocketCalc
