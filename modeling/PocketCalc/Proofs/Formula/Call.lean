import PocketCalc.Proofs.Formula.Parsed

/-!
# A function of a text

* `Reading.inside` — a reading inside of a parenthesis that another one has opened; it goes on in the same way;
* `ofTokens_parenthesized`, `ofTokens_call` — the listing of words in parentheses, without and with the name of a
  function in front;
* `parse_call` — the text of a formula in parentheses behind the name of a function stands for the function of that
  formula, unless that is too deep.
-/

namespace PocketCalc

/-! ## A reading inside of a parenthesis -/

namespace Rpn

open Reading

/-- The reading goes on inside of a parenthesis that `outer` has opened. -/
def Reading.inside (s outer : Reading) : Reading :=
  ⟨s.listed ++ outer.listed, s.pending ++ .paren :: outer.pending, s.awaiting⟩

variable {s s' outer : Reading} {t : Token} {ts : List Token} {pending pending' waiting : List Pending}
  {listed listed' items before : List Item}

theorem unwind_inside (op : Operator) (pending waiting : List Pending) (listed before : List Item) :
    unwind op (pending ++ .paren :: waiting) (listed ++ before) =
      ((unwind op pending listed).1 ++ .paren :: waiting, (unwind op pending listed).2 ++ before) := by
  induction pending generalizing listed with
  | nil => rfl
  | cons w pending ih =>
    cases w with
    | paren => rfl
    | operation o =>
      simp only [List.cons_append, unwind]
      split
      · exact ih (.operation o :: listed)
      · rfl

theorem close?_inside (h : close? pending listed = some (pending', listed')) :
    close? (pending ++ .paren :: waiting) (listed ++ before) =
      some (pending' ++ .paren :: waiting, listed' ++ before) := by
  induction pending generalizing listed with
  | nil => cases h
  | cons w pending ih =>
    cases w with
    | paren =>
      cases h
      rfl
    | operation o =>
      rw [close?] at h
      exact ih h

/-- What is listed at the end of the words is listed before the closing parenthesis. -/
theorem close?_of_drain? (h : drain? pending listed = some listed') :
    close? (pending ++ .paren :: waiting) (listed ++ before) = some (waiting, listed' ++ before) := by
  induction pending generalizing listed with
  | nil =>
    cases h
    rfl
  | cons w pending ih =>
    cases w with
    | paren => cases h
    | operation o =>
      rw [drain?] at h
      exact ih h

/-- A word does inside of a parenthesis what it does without one. -/
theorem step_inside (h : s.step t = .ok s') (outer : Reading) : (s.inside outer).step t = .ok (s'.inside outer) := by
  cases Grammar.Step.of_step h with
  | leaf hs hleaf => exact Grammar.step_leaf hs hleaf
  | function hs hfun => exact Grammar.step_function hs hfun
  | neg hs => exact Grammar.step_neg hs
  | leftParen hs => exact Grammar.step_leftParen hs
  | rightParen hs hclose =>
    have hinside : (s.inside outer).awaiting = false := hs
    simp only [Reading.step, hinside, Bool.false_eq_true, if_false]
    rw [inside, close?_inside hclose]
    rfl
  | operator op hs =>
    have hinside : (s.inside outer).awaiting = false := hs
    simp only [Reading.step, hinside, Bool.false_eq_true, if_false]
    rw [inside, unwind_inside]
    rfl

theorem foldlM_inside (h : ts.foldlM Reading.step s = .ok s') (outer : Reading) :
    ts.foldlM Reading.step (s.inside outer) = .ok (s'.inside outer) := by
  induction ts generalizing s with
  | nil =>
    cases h
    rfl
  | cons t ts ih =>
    obtain ⟨s₁, hstep, hts⟩ := foldlM_cons_eq_ok.1 h
    rw [foldlM_cons_ok (step_inside hstep outer)]
    exact ih hts

/-- Words in parentheses are listed as the words, and nothing of them waits. -/
theorem foldlM_parenthesized (h : ofTokens ts = .ok items) (houter : outer.awaiting = true) :
    (Token.leftParen :: ts ++ [Token.rightParen]).foldlM Reading.step outer =
      .ok ⟨items.reverse ++ outer.listed, outer.pending, false⟩ := by
  obtain ⟨s, hrun, hfinish⟩ := bind_eq_ok.1 (ofTokens_eq_ok.1 h)
  obtain ⟨hs, listed, hdrain, rfl⟩ := finish_eq_ok.1 hfinish
  have hopen : outer.step .leftParen = .ok (Reading.inside {} outer) := Grammar.step_leftParen houter
  have hclose : (s.inside outer).step .rightParen = .ok ⟨listed ++ outer.listed, outer.pending, false⟩ := by
    have hinside : (s.inside outer).awaiting = false := hs
    simp only [Reading.step, hinside, Bool.false_eq_true, if_false]
    rw [inside, close?_of_drain? hdrain]
  rw [List.cons_append, foldlM_cons_ok hopen, foldlM_append_ok (foldlM_inside hrun _), foldlM_cons_ok hclose,
    List.reverse_reverse]
  rfl

/-- The listing of words in parentheses is that of the words. -/
theorem ofTokens_parenthesized (h : ofTokens ts = .ok items) :
    ofTokens (.leftParen :: ts ++ [.rightParen]) = .ok items := by
  rw [ofTokens_eq_ok, Reading.run, foldlM_parenthesized h rfl]
  show Reading.finish ⟨items.reverse ++ [], [], false⟩ = _
  exact finish_eq_ok.2 ⟨rfl, items.reverse ++ [], rfl, by simp⟩

/-- **The listing of words in parentheses** behind the name of a function: that of the words, and then the
function. -/
theorem ofTokens_call (f : Function) (h : ofTokens ts = .ok items) :
    ofTokens (.name f.name :: .leftParen :: ts ++ [.rightParen]) = .ok (items ++ [.operation (.call f)]) := by
  have hstart : ({} : Reading).step (.name f.name) = .ok (Reading.afterCall {} f) :=
    Grammar.step_function rfl (Function.ofName?_name f)
  rw [ofTokens_eq_ok, List.cons_append, List.cons_append, run_cons_ok hstart, Reading.run, ← List.cons_append,
    foldlM_parenthesized h rfl]
  show Reading.finish ⟨items.reverse ++ [], [.operation (.call f)], false⟩ = _
  exact finish_eq_ok.2 ⟨rfl, .operation (.call f) :: (items.reverse ++ []), rfl, by simp⟩

end Rpn

/-! ## The text of a function of a text -/

namespace Formula

open Token

variable {source : Text} {e : Formula}

theorem tokens_parenthesized {ts : List Token} (h : tokens source = .ok ts) :
    tokens ('(' :: source ++ [')']) = .ok (.leftParen :: ts ++ [.rightParen]) := by
  have hclose : tokens [')'] = .ok [.rightParen] := by
    rw [tokens_rightParen, tokens_nil]
    rfl
  rw [List.cons_append, tokens_leftParen, tokens_append (stops_cons rfl _), h, hclose]
  rfl

theorem tokens_call {ts : List Token} (f : Function) (h : tokens source = .ok ts) :
    tokens (f.name ++ '(' :: source ++ [')']) = .ok (.name f.name :: .leftParen :: ts ++ [.rightParen]) := by
  have hname : ∀ c ∈ ('(' :: (source ++ [')'])).head?, continuesName c = false := by
    intro c hc
    cases hc
    rfl
  rw [List.append_assoc, List.cons_append, tokens_name (isName_function f) hname, ← List.cons_append,
    tokens_parenthesized h]
  rfl

/-- **The text of a function of a text** stands for the function of the formula, unless that is too deep. -/
theorem parse_call (f : Function) (h : parse source = .ok e) :
    parse (f.name ++ '(' :: source ++ [')']) = if e.depth < maxDepth then .ok (.call f e) else .error .tooDeep := by
  obtain ⟨ts, hts, hparse, -⟩ := parse_eq_ok.1 h
  have hitems := Rpn.ofTokens_eq_listing hparse
  rw [parse_eq, tokens_call f hts]
  show (Rpn.ofTokens _ >>= Rpn.build) = _
  rw [Rpn.ofTokens_call f hitems]
  exact Rpn.build_listing (.call f e)

/-- A text that is read has only readable characters. -/
theorem isReadable_of_parse (h : parse source = .ok e) : ∀ c ∈ source, isReadable c = true := by
  obtain ⟨ts, hts, -, -⟩ := parse_eq_ok.1 h
  exact isReadable_of_tokens hts

end Formula

end PocketCalc
