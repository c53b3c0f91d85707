import PocketCalc.Proofs.Formula.Call
import PocketCalc.Proofs.Rpn.Building

/-!
# How deep a formula is that is read

* `exists_listing_of_ofTokens` — what is listed of words is the listing of a formula;
* `nested n t` — the text `t` in `n` pairs of parentheses;
* `parse_nested` — parentheses are no part of a formula, so that any number of them may stand around a text;
* `build_exact` — items build a formula exactly if they are its listing and it is at most 256 levels deep, and what is
  listed of words is refused for its depth only.
-/

namespace PocketCalc

namespace Rpn

/-- What is listed of words is the listing of a formula. -/
theorem exists_listing_of_ofTokens {ts : List Token} {items : List Item} (h : ofTokens ts = .ok items) :
    ∃ e, items = listing e := by
  cases hparse : Grammar.parse ts with
  | none =>
    have hgrammar := ofTokens_of_parse ts
    rw [hparse] at hgrammar
    obtain ⟨err, herr⟩ := hgrammar
    rw [h] at herr
    cases herr
  | some e => exact ⟨e, Except.ok.inj (h.symm.trans (ofTokens_eq_listing hparse))⟩

theorem build_eq_error {e : Formula} {err : ParseError} (h : build (listing e) = .error err) : err = .tooDeep := by
  rw [build_listing] at h
  split at h
  · cases h
  · exact (Except.error.inj h).symm

end Rpn

/-! ## Parentheses around a text -/

namespace Formula

variable {source : Text} {e : Formula}

/-- The text in `n` pairs of parentheses. -/
def nested : ℕ → Text → Text
  | 0, t => t
  | n + 1, t => '(' :: nested n t ++ [')']

theorem parse_parenthesized (h : parse source = .ok e) : parse ('(' :: source ++ [')']) = .ok e := by
  obtain ⟨ts, hts, hparse, hdepth⟩ := parse_eq_ok.1 h
  have hitems := Rpn.ofTokens_eq_listing hparse
  rw [parse_eq, tokens_parenthesized hts]
  show (Rpn.ofTokens _ >>= Rpn.build) = _
  rw [Rpn.ofTokens_parenthesized hitems]
  exact Rpn.build_eq_ok.2 ⟨rfl, hdepth⟩

/-- **Any number of parentheses** may stand around a text. -/
theorem parse_nested (h : parse source = .ok e) (n : ℕ) : parse (nested n source) = .ok e := by
  induction n with
  | zero => exact h
  | succ n ih => exact parse_parenthesized ih

end Formula

/-! ## The limit of the depth -/

namespace Rpn

/-- **Building is the inverse of listing, for formulas at most 256 levels deep.** Items build a formula exactly if they
are its listing and it is not deeper; the listing of a deeper one is refused for its depth, and so is whatever is listed
of words and refused. No formula that is read is deeper, whatever parentheses stand around its text. -/
theorem build_exact :
    (∀ items e, build items = .ok e ↔ items = listing e ∧ e.depth ≤ 256) ∧
      (∀ e, 256 < e.depth → build (listing e) = .error .tooDeep) ∧
      ParseError.tooDeep.message = "expression trop imbriquée (profondeur max 256)".toList ∧
      (∀ ts items err, ofTokens ts = .ok items → build items = .error err → err = .tooDeep) ∧
      ∀ source e, Formula.parse source = .ok e →
        e.depth ≤ 256 ∧ ∀ n, Formula.parse (Formula.nested n source) = .ok e := by
  refine ⟨fun items e => build_eq_ok, fun e hdeep => ?_, by decide, fun ts items err hitems herr => ?_,
    fun source e h => ⟨(sound_of_parse h).2, Formula.parse_nested h⟩⟩
  · have hdeep : ¬ e.depth ≤ maxDepth := Nat.not_le.2 hdeep
    rw [build_listing, if_neg hdeep]
  · obtain ⟨e, rfl⟩ := exists_listing_of_ofTokens hitems
    exact build_eq_error herr

/-- With 255 minus signs a variable is at the limit, and with 256 it is too deep. -/
theorem build_exact_negations :
    build (listing (Expr.neg^[255] Expr.x)) = .ok (Expr.neg^[255] Expr.x) ∧
      build (listing (Expr.neg^[256] Expr.x)) = .error .tooDeep :=
  ⟨(build_exact.1 _ _).2 ⟨rfl, by decide +kernel⟩, build_exact.2.1 _ (by decide +kernel)⟩

end Rpn

end PocketCalc
