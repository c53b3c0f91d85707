import PocketCalc.Proofs.Formula.Parsed
import PocketCalc.Window.Basic

/-!
# Opening the graph

What the display shows is drawn if it looks like a function, and that is found out by looking for some words in it.

* `exists_letter_of_tokens` — the name of the variable is only read where its letter stands, small or capital;
* `var_mem_listing` — a formula that contains a variable lists it;
* `looksLikeFunction_of_parse` — so the text of every formula with the variable looks like a function;
* `toggleGraph_of_parse` — opening the graph on such a display plots its formula.
-/

namespace PocketCalc

variable {t rest name : Text} {c : Char} {ts : List Token} {e : Formula} {w : Window}

namespace Token

/-- The name of the variable is one letter, small or capital. -/
theorem toLower_of_word (h : word c t = .ok (.name Expr.boundName, rest)) : c.toLower = 'x' := by
  unfold word at h
  split at h
  next token hsymbol =>
    obtain rfl : token = .name Expr.boundName := (Prod.mk.inj (Except.ok.inj h)).1
    unfold symbol? at hsymbol
    split at hsymbol <;> cases hsymbol
  next =>
    split at h
    · have hname : (c :: t.takeWhile continuesName).map Char.toLower = ['x'] :=
        Token.name.inj (Prod.mk.inj (Except.ok.inj h)).1
      exact (List.cons.inj hname).1
    · split at h
      · obtain ⟨token, hnumber, hpair⟩ := map_eq_ok.1 h
        obtain rfl : token = .name Expr.boundName := (Prod.mk.inj hpair).1
        simp only [numberOf] at hnumber
        split at hnumber
        · cases hnumber
        · split at hnumber <;> cases hnumber
      · cases h

/-- Where the name of the variable is among the words of a text, its letter stands in the text. -/
theorem exists_letter_of_tokens (h : tokens t = .ok ts) : .name Expr.boundName ∈ ts → ∃ c ∈ t, c.toLower = 'x' := by
  refine tokens_induction (P := fun t ts => .name Expr.boundName ∈ ts → ∃ c ∈ t, c.toLower = 'x') nofun ?_ ?_ h
  · intro c t ts _ ih hmem
    obtain ⟨d, hd, hletter⟩ := ih hmem
    exact ⟨d, List.mem_cons_of_mem _ hd, hletter⟩
  · intro c t token rest ts hword ih hmem
    rcases List.mem_cons.1 hmem with rfl | hmem
    · exact ⟨c, List.mem_cons_self .., toLower_of_word hword⟩
    · obtain ⟨taken, rfl, -⟩ := exists_of_word hword
      obtain ⟨d, hd, hletter⟩ := ih hmem
      exact ⟨d, List.mem_cons_of_mem _ (List.mem_append_right _ hd), hletter⟩

end Token

namespace Rpn

/-- A formula that contains a variable lists it. -/
theorem var_mem_listing (h : e.contains name = true) : .atom (.var name) ∈ listing e := by
  induction e with
  | atom a =>
    cases a with
    | var n =>
      obtain rfl : n = name := of_decide_eq_true h
      exact List.mem_singleton_self _
    | number v => cases h
    | constant k => cases h
  | neg e ih => exact List.mem_append_left _ (ih h)
  | call f e ih => exact List.mem_append_left _ (ih h)
  | binary op a b iha ihb =>
    rw [Expr.contains, Bool.or_eq_true] at h
    rcases h with ha | hb
    · exact List.mem_append_left _ (List.mem_append_left _ (iha ha))
    · exact List.mem_append_left _ (List.mem_append_right _ (ihb hb))

/-- Only the name of the variable is listed as the variable. -/
theorem eq_name_of_itemOf {token : Token} (h : ItemOf token (.atom (.var name))) : token = .name name := by
  cases h with
  | leaf hleaf =>
    cases token with
    | name word =>
      simp only [Grammar.leaf?] at hleaf
      split at hleaf
      · cases hleaf
        rfl
      · split at hleaf
        · cases hleaf
        · split at hleaf <;> cases hleaf
    | _ => cases hleaf

end Rpn

/-- **The text of a formula with the variable looks like a function.** -/
theorem looksLikeFunction_of_parse (h : Formula.parse t = .ok e) (hx : e.contains Expr.boundName = true) :
    looksLikeFunction t = true := by
  obtain ⟨ts, hts, hparse, -⟩ := Formula.parse_eq_ok.1 h
  obtain ⟨token, htoken, hitem⟩ :=
    Rpn.exists_word_of_ofTokens (Rpn.ofTokens_eq_listing hparse) _ (Rpn.var_mem_listing hx)
  obtain rfl := Rpn.eq_name_of_itemOf hitem
  obtain ⟨c, hc, hletter⟩ := Token.exists_letter_of_tokens hts htoken
  obtain ⟨before, behind, rfl⟩ := List.append_of_mem hc
  have hoccurs : occursIn ['x'] ((before ++ c :: behind).map Char.toLower) = true := by
    refine occursIn_iff.2 ⟨before.map Char.toLower, behind.map Char.toLower, ?_⟩
    rw [List.map_append, List.map_cons, hletter, List.append_assoc, List.singleton_append]
  exact List.any_eq_true.2 ⟨['x'], List.mem_cons_self .., hoccurs⟩

namespace Window

/-- **Opening the graph on a function plots that function.** Where the graph is closed and nothing is wrong with the range,
and the display is read as a formula with the variable: the display goes into the field of the graph, and the curve is
that of its formula over the range, under the text of the display without the blanks at its ends, and no fallback. The
calculator, the range and the focus stay as they are. -/
theorem toggleGraph_of_parse (hclosed : w.showsGraph = false) (hrange : w.range.fault? = none)
    (hparse : Formula.parse w.calculator.display = .ok e) (hx : e.contains Expr.boundName = true) :
    w.toggleGraph = { w with
      showsGraph := true
      showsHistory := false
      graphText := w.calculator.display
      curve := some ⟨trim w.calculator.display, false, sample e w.range⟩
      rangeError := none } := by
  have hcurve : Curve.ofText w.calculator.display w.range =
      ⟨trim w.calculator.display, false, sample e w.range⟩ := by
    rw [Curve.ofText, hparse]
  rw [toggleGraph, if_neg (Bool.eq_false_iff.1 hclosed), if_pos (looksLikeFunction_of_parse hparse hx), draw]
  simp only [hrange, hcurve]

/-- A capital letter behind a blank, while the history is open: the square is plotted, under its text without the
blank. -/
theorem toggleGraph_of_parse_capital :
    let e : Formula := .binary .pow .x (.number 2)
    let w : Window := { calculator := { display := " X^2".toList }, showsHistory := true }
    w.showsGraph = false ∧ w.range.fault? = none ∧ Formula.parse w.calculator.display = .ok e ∧
      e.contains Expr.boundName = true ∧
      w.toggleGraph = { w with
        showsGraph := true
        showsHistory := false
        graphText := " X^2".toList
        curve := some ⟨"X^2".toList, false, sample e w.range⟩ } := by
  intro e w
  have hrange : w.range.fault? = none := by decide +kernel
  have hparse : Formula.parse w.calculator.display = .ok e := by decide +kernel
  exact ⟨rfl, hrange, hparse, rfl, toggleGraph_of_parse rfl hrange hparse rfl⟩

end Window

end PocketCalc
