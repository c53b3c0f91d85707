import PocketCalc.Proofs.Calculator.Compute
import PocketCalc.Proofs.Grammar.ZeroMinus
import PocketCalc.Window.Frame

/-!
# Reading typed texts

* `IsTyped` — a text of characters that the keyboard sends; a formula of such a text calls no function;
* `withoutZeros` — a text without the zeros in front, as far as a display leaves them out;
* `ZerosBeforeOperator` — the zeros in front are the left operand of an operator that is no sign;
* `resultText_withoutZeros` — otherwise the text has the same result without them;
* `parse_operator` — an operator that is no sign starts no formula.
-/

namespace PocketCalc

/-- The text is made of characters that the keyboard sends. -/
def IsTyped (w : Text) : Prop := ∀ c ∈ w, c = '.' ∨ c ∈ typedCharacters

instance (w : Text) : Decidable (IsTyped w) :=
  decidable_of_iff (w.all fun c => c = '.' ∨ c ∈ typedCharacters) (by simp [IsTyped])

/-- The operators that are no signs. -/
def noSigns : List Operator := [.add, .mul, .div, .pow, .mod]

/-- A text without the zeros in front; a zero stays before a point, and at the end. A point in front gets one. -/
def withoutZeros (w : Text) : Text :=
  match w.dropWhile (· = '0') with
  | [] => ['0']
  | '.' :: t => '0' :: '.' :: t
  | t => t

/-- The text starts with zeros, and an operator that is no sign follows them. -/
def ZerosBeforeOperator (w : Text) : Prop :=
  ∃ n, ∃ op ∈ noSigns, ∃ t, w = List.replicate (n + 1) '0' ++ op.symbol :: t

variable {w t rest : Text} {c d : Char} {token : Token} {ts : List Token} {e s : Formula} {n width : ℕ} {shown : Text}

/-! ## Functions -/

/-- No function has a name that starts with the name of the variable. -/
theorem ofName?_x (t : Text) : Function.ofName? ('x' :: t) = none := by
  have hheads : ∀ entry ∈ (Function.all.map fun f => (f.name, f)) ++ Function.aliases, entry.1.head? ≠ some 'x' := by
    decide
  refine List.lookup_eq_none_iff.2 fun entry hentry => ?_
  refine bne_iff_ne.2 fun heq => hheads entry hentry ?_
  rw [← heq]
  rfl

/-- The kinds of characters that the keyboard sends, beside the point. -/
theorem typed_cases (hc : c ∈ typedCharacters) :
    c.isDigit = true ∨ c = '-' ∨ (∃ op ∈ noSigns, c = op.symbol) ∨ c ∈ ['(', ')', 'x'] := by
  have htyped : typedCharacters =
    ['0', '1', '2', '3', '4', '5', '6', '7', '8', '9', '+', '-', '*', '/', '^', '%', '(', ')', 'x'] := rfl
  rw [htyped] at hc
  simp only [List.mem_cons, List.not_mem_nil, or_false] at hc
  rcases hc with rfl | rfl | rfl | rfl | rfl | rfl | rfl | rfl | rfl | rfl | rfl | rfl | rfl | rfl | rfl | rfl | rfl |
    rfl | rfl
  all_goals simp [noSigns, Operator.symbol]

/-- A typed character is no function by itself, and of the typed characters only the variable starts a name. -/
theorem symbol?_of_typed (hc : c = '.' ∨ c ∈ typedCharacters) :
    (∀ token, Token.symbol? c = some token → Grammar.function? token = none) ∧
      (Token.startsName c = true → c.toLower = 'x') := by
  rcases hc with rfl | hc
  · exact ⟨fun _ => (Option.some_ne_none _).symm.elim, Bool.false_ne_true.elim⟩
  rcases typed_cases hc with hdigit | rfl | ⟨op, -, rfl⟩ | hoperand
  · have hname : Token.startsName c = false := by
      simp [Token.startsName, isAlpha_of_isDigit hdigit, ne_of_isDigit hdigit (show '_'.isDigit = false from rfl)]
    rw [Spelling.symbol?_of_isDigit hdigit, hname]
    exact ⟨fun _ => (Option.some_ne_none _).symm.elim, Bool.false_ne_true.elim⟩
  · exact ⟨fun token h => by cases h; rfl, Bool.false_ne_true.elim⟩
  · refine ⟨fun token h => ?_, fun h => ?_⟩
    · cases op <;> cases h <;> rfl
    · cases op <;> cases h
  · simp only [List.mem_cons, List.not_mem_nil, or_false] at hoperand
    rcases hoperand with rfl | rfl | rfl
    · exact ⟨fun token h => by cases h; rfl, Bool.false_ne_true.elim⟩
    · exact ⟨fun token h => by cases h; rfl, Bool.false_ne_true.elim⟩
    · exact ⟨fun _ => (Option.some_ne_none _).symm.elim, fun _ => rfl⟩

/-- A word of typed characters is no function. -/
theorem function?_of_typed (hc : c = '.' ∨ c ∈ typedCharacters) (h : Token.word c t = .ok (token, rest)) :
    Grammar.function? token = none := by
  obtain ⟨hsymbols, hname⟩ := symbol?_of_typed hc
  unfold Token.word at h
  split at h
  next symbol hsymbol =>
    cases h
    exact hsymbols _ hsymbol
  next =>
    split at h
    next hstarts =>
      cases h
      rw [Grammar.function?, List.map_cons, hname hstarts]
      exact ofName?_x _
    next =>
      split at h
      next =>
        obtain ⟨number, hnumber, heq⟩ := map_eq_ok.1 h
        obtain rfl : number = token := (Prod.mk.inj heq).1
        simp only [Token.numberOf] at hnumber
        split at hnumber
        · cases hnumber
        · split at hnumber
          · cases hnumber
            rfl
          · cases hnumber
      next => cases h

theorem function?_of_tokens (hw : IsTyped w) (h : Token.tokens w = .ok ts) : ∀ t ∈ ts, Grammar.function? t = none := by
  revert hw
  refine Token.tokens_induction (P := fun w ts => IsTyped w → ∀ t ∈ ts, Grammar.function? t = none) ?_ ?_ ?_ h
  · intro _
    nofun
  · intro c t ts _ ih hw
    exact ih fun d hd => hw d (List.mem_cons_of_mem _ hd)
  · intro c t token rest ts hword ih hw u hu
    rcases List.mem_cons.1 hu with rfl | hu
    · exact function?_of_typed (hw c (List.mem_cons_self ..)) hword
    · obtain ⟨taken, rfl, -⟩ := Token.exists_of_word hword
      exact ih (fun d hd => hw d (List.mem_cons_of_mem _ (List.mem_append_right _ hd))) u hu

theorem hasCalls_of_listing (h : ∀ f, Rpn.Item.operation (.call f) ∉ Rpn.listing e) : e.hasCalls = false := by
  induction e with
  | atom a => rfl
  | neg e ih => exact ih fun f hf => h f (by simp [Rpn.listing, hf])
  | call f e ih => exact absurd (by simp [Rpn.listing]) (h f)
  | binary op a b iha ihb =>
    rw [Expr.hasCalls, iha fun f hf => h f (by simp [Rpn.listing, hf]),
      ihb fun f hf => h f (by simp [Rpn.listing, hf])]
    rfl

/-- The formula of a typed text calls no function. -/
theorem hasCalls_of_typed (hw : IsTyped w) (h : Formula.parse w = .ok e) : e.hasCalls = false := by
  obtain ⟨ts, hts, hparse, -⟩ := Formula.parse_eq_ok.1 h
  have hitems := Rpn.ofTokens_eq_listing hparse
  refine hasCalls_of_listing fun f hf => ?_
  obtain ⟨t, ht, hitem⟩ := Rpn.exists_word_of_ofTokens hitems _ hf
  cases hitem with
  | function hfun =>
    rw [function?_of_tokens hw hts t ht] at hfun
    cases hfun

/-! ## Texts that are no formulas -/

/-- Behind a number, only an operator goes on. -/
theorem Grammar.parse_number_cons (v : Binary64) (ht : ∀ op, token ≠ .symbol op) (ts : List Token) :
    Grammar.parse (.number v :: token :: ts) = none := by
  have hatom : atom (.number v :: token :: ts) = some (.number v, ⟨token :: ts, Nat.lt_succ_self _⟩) := by
    simp [atom, leaf?]
  cases token with
  | symbol op => exact absurd rfl (ht op)
  | number | name | leftParen | rightParen | comma =>
    simp [Grammar.parse, sum, product, unary, power, applied, function?, hatom, powerTail, productTail, sumTail,
      Phrase.followedBy, Phrase.done]

/-- An operator that is no sign starts no formula. -/
theorem Grammar.parse_symbol {op : Operator} (hop : op ∈ noSigns) (ts : List Token) :
    Grammar.parse (.symbol op :: ts) = none := by
  have hatom : atom (.symbol op :: ts) = none := by simp [atom, leaf?]
  have hunary : unary (.symbol op :: ts) = power (.symbol op :: ts) := by
    refine unary.eq_2 _ fun ts' heq => ?_
    cases heq
    revert hop
    decide
  simp [Grammar.parse, sum, product, hunary, power, applied, function?, hatom, Phrase.followedBy]

theorem parse_operator {op : Operator} (hop : op ∈ noSigns) (t : Text) : Formula.parse (op.symbol :: t) ≠ .ok e := by
  intro h
  obtain ⟨ts, hts, hparse, -⟩ := Formula.parse_eq_ok.1 h
  rw [Token.tokens_symbol, map_eq_ok] at hts
  obtain ⟨ts, -, rfl⟩ := hts
  rw [Grammar.parse_symbol hop] at hparse
  cases hparse

/-- Behind a zero, no parenthesis and no variable goes on. -/
theorem parse_zero_operand (hc : c ∈ ['(', ')', 'x']) (t : Text) : Formula.parse ('0' :: c :: t) ≠ .ok e := by
  have hclass : Token.isNumeric c = false ∧ Numeral.isExponentMark c = false ∧ isBlank c = false ∧
      ∀ op rest, Token.word c t ≠ .ok (.symbol op, rest) := by
    simp only [List.mem_cons, List.not_mem_nil, or_false] at hc
    rcases hc with rfl | rfl | rfl
    · exact ⟨rfl, rfl, rfl, nofun⟩
    · exact ⟨rfl, rfl, rfl, nofun⟩
    · exact ⟨rfl, rfl, rfl, nofun⟩
  obtain ⟨hnumeric, hmark, hblank, hword⟩ := hclass
  intro h
  obtain ⟨ts, hts, hparse, -⟩ := Formula.parse_eq_ok.1 h
  rw [Token.tokens_zero hnumeric hmark, map_eq_ok] at hts
  obtain ⟨ts, hts, rfl⟩ := hts
  obtain ⟨token, rest, ts, htoken, -, rfl⟩ := (Token.tokens_cons_eq_ok hblank).1 hts
  rw [Grammar.parse_number_cons 0 fun op heq => hword op rest (heq ▸ htoken)] at hparse
  cases hparse

/-! ## Zeros in front -/

/-- A text with the same words has the same result. -/
theorem resultText_of_tokens (h : ∀ ts, Token.tokens w = .ok ts ↔ Token.tokens t = .ok ts) :
    Compute.resultText w width = .ok shown ↔ Compute.resultText t width = .ok shown := by
  have hparse (e : Formula) : Formula.parse w = .ok e ↔ Formula.parse t = .ok e := by
    rw [Formula.parse_eq_ok, Formula.parse_eq_ok]
    simp only [h]
  simp only [Compute.resultText_eq_ok, Compute.valueOf_eq_ok, hparse]

/-- Zero minus a typed product has the same result without the zero. -/
theorem resultText_zero_minus (hw : IsTyped ('0' :: '-' :: t)) (h : Formula.parse ('0' :: '-' :: t) = .ok s)
    (hwidth : 1 ≤ width) :
    Compute.resultText ('-' :: t) width = .ok shown ↔ Compute.resultText ('0' :: '-' :: t) width = .ok shown := by
  obtain ⟨s', hs', hdrops⟩ := Formula.parse_zero_minus h
  have hvalues := hdrops.evaluate (hasCalls_of_typed hw h)
  simp only [Compute.resultText_eq_ok, Compute.valueOf_eq_ok, h, hs', Except.ok.injEq, exists_eq_left']
  generalize s.evaluate none = x at hvalues
  generalize s'.evaluate none = x' at hvalues
  cases hvalues with
  | error err => simp
  | ok h => simp [fitted_congr hwidth h]

theorem exists_zeros (w : Text) : ∃ n, w = List.replicate n '0' ++ w.dropWhile (· = '0') := by
  refine ⟨(w.takeWhile (· = '0')).length, ?_⟩
  have hzeros : w.takeWhile (· = '0') = List.replicate (w.takeWhile (· = '0')).length '0' := by
    refine List.eq_replicate_iff.2 ⟨rfl, fun c hc => ?_⟩
    simpa using List.mem_takeWhile_imp hc
  rw [← hzeros, List.takeWhile_append_dropWhile]

/-- What follows the zeros does not start with one. -/
theorem head_dropWhile_zero (h : w.dropWhile (· = '0') = c :: t) : c ≠ '0' := by
  have hne : w.dropWhile (· = '0') ≠ [] := by
    rw [h]
    exact List.cons_ne_nil _ _
  have hhead := List.head_dropWhile_not (· = '0') hne
  simpa [h] using hhead

theorem parse_nil : Formula.parse [] ≠ .ok e := by
  intro h
  obtain ⟨ts, hts, hparse, -⟩ := Formula.parse_eq_ok.1 h
  rw [Token.tokens_nil] at hts
  cases hts
  simp [Grammar.parse, Grammar.sum, Grammar.product, Grammar.unary, Grammar.power, Grammar.applied,
    Grammar.Phrase.followedBy] at hparse

/-- A zero in front of a formula that starts with a point makes no difference. -/
theorem resultText_zero_point (h : Formula.parse ('.' :: t) = .ok e) :
    Compute.resultText ('0' :: '.' :: t) width = .ok shown ↔ Compute.resultText ('.' :: t) width = .ok shown := by
  obtain ⟨ts, hts, -, -⟩ := Formula.parse_eq_ok.1 h
  obtain ⟨token, rest, ts, hword, -, rfl⟩ := (Token.tokens_cons_eq_ok rfl).1 hts
  have hstarts : Token.startsNumber '.' t = true := by
    by_contra hstarts
    simp [Token.word, Token.symbol?, Token.startsName, Char.isAlpha, Char.isUpper, Char.isLower, hstarts] at hword
  exact resultText_of_tokens fun ts => Token.tokens_zero_cons hstarts

/-- A zero may be left out before a digit, and before a minus sign. -/
theorem resultText_zero_cons (hw : IsTyped ('0' :: c :: t)) (hpoint : c ≠ '.') (hop : ∀ op ∈ noSigns, c ≠ op.symbol)
    (h : Formula.parse ('0' :: c :: t) = .ok e) (hwidth : 1 ≤ width) :
    Compute.resultText (c :: t) width = .ok shown ↔ Compute.resultText ('0' :: c :: t) width = .ok shown := by
  have hc : c ∈ typedCharacters := (hw c (by simp)).resolve_left hpoint
  rcases typed_cases hc with hdigit | rfl | ⟨op, hmem, rfl⟩ | hoperand
  · exact (resultText_of_tokens fun ts => Token.tokens_zero_cons (Token.startsNumber_iff.2 (.inl hdigit))).symm
  · exact resultText_zero_minus hw h hwidth
  · exact absurd rfl (hop op hmem)
  · exact absurd h (parse_zero_operand hoperand t)

/-- **The zeros in front of a typed formula** do not change its result, unless they are the left operand of an operator
that is no sign. -/
theorem resultText_withoutZeros (hw : IsTyped w) (h : Formula.parse w = .ok e) (hzeros : ¬ ZerosBeforeOperator w)
    (hwidth : 1 ≤ width) :
    Compute.resultText (withoutZeros w) width = .ok shown ↔ Compute.resultText w width = .ok shown := by
  obtain ⟨n, hsplit⟩ := exists_zeros w
  unfold withoutZeros
  generalize w.dropWhile (· = '0') = rest at hsplit
  subst hsplit
  cases n with
  | zero =>
    -- without a zero in front, only a point gets one
    rw [List.replicate_zero, List.nil_append] at h ⊢
    split
    next => exact absurd h parse_nil
    next t => exact resultText_zero_point h
    next => rfl
  | succ n =>
    -- all zeros but one make no difference
    have hone (ts : List Token) : Token.tokens (List.replicate (n + 1) '0' ++ rest) = .ok ts ↔
        Token.tokens ('0' :: rest) = .ok ts := Token.tokens_replicate_zero n rest
    have hparse : Formula.parse ('0' :: rest) = .ok e := by
      obtain ⟨ts, hts, hgrammar⟩ := Formula.parse_eq_ok.1 h
      exact Formula.parse_eq_ok.2 ⟨ts, (hone ts).1 hts, hgrammar⟩
    rw [resultText_of_tokens hone]
    split
    next => rfl
    next => rfl
    next hnil hpoint =>
      cases rest with
      | nil => exact absurd rfl hnil
      | cons c t =>
        refine resultText_zero_cons (fun d hd => hw d ?_) ?_ ?_ hparse hwidth
        · rcases List.mem_cons.1 hd with rfl | hd
          · simp
          · exact List.mem_append_right _ hd
        · rintro rfl
          exact hpoint t rfl
        · rintro op hop rfl
          exact hzeros ⟨n, op, hop, t, rfl⟩

end PocketCalc
