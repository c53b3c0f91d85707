import PocketCalc.Proofs.Expr.ZeroMinus
import PocketCalc.Proofs.Formula.Parsed
import PocketCalc.Proofs.Token.LeadingZeros

/-!
# Reading zero minus a product

* `Phrase.Takes` — a phrase is a formula, and what follows it;
* `Chain` — a chain of operators, as sums and products are; what is true of its first operand and is kept by the
  operators is true of the whole chain;
* `parse_zero_sub`, `parse_zero_minus` — without the zero in front of a minus sign, words are read as the sum that
  drops the zero.
-/

namespace PocketCalc

namespace Grammar

variable {n m : ℕ} {ts rest : List Token} {a a' e e' s : Formula} {ops : List Operator} {op : Operator}

/-! ## Phrases -/

/-- The phrase is the formula `e`, and the words `rest` follow it. -/
def Phrase.Takes (p : Phrase n) (e : Formula) (rest : List Token) : Prop := ∃ h, p = some (e, ⟨rest, h⟩)

variable {p : Phrase n}

theorem takes_done : (Phrase.done e ts).Takes e' rest ↔ e = e' ∧ ts = rest := by
  constructor
  · rintro ⟨_, ⟨⟩⟩
    exact ⟨rfl, rfl⟩
  · rintro ⟨rfl, rfl⟩
    exact ⟨Nat.lt_succ_self _, rfl⟩

theorem takes_followedBy {tail : Formula → (rest : List Token) → Phrase (rest.length + 1)} :
    (p.followedBy fun a rest _ => tail a rest).Takes e rest ↔
      ∃ a rest', p.Takes a rest' ∧ (tail a rest').Takes e rest := by
  rcases p with _ | ⟨a, rest', h⟩
  · simp [Phrase.Takes, Phrase.followedBy]
  · simp only [Phrase.followedBy, Option.bind_eq_bind, Option.bind_some]
    rcases htail : tail a rest' with _ | ⟨b, rest'', h'⟩
    · simp only [Phrase.Takes, Option.bind_none]
      constructor
      · rintro ⟨-, ⟨⟩⟩
      · rintro ⟨a', r, ⟨-, ⟨⟩⟩, hlt, ht⟩
        rw [htail] at ht
        cases ht
    · simp only [Phrase.Takes, Option.bind_some]
      constructor
      · rintro ⟨hlt, ⟨⟩⟩
        exact ⟨a, rest', ⟨h, rfl⟩, h', htail⟩
      · rintro ⟨a', r, ⟨-, ⟨⟩⟩, hlt, ht⟩
        rw [htail] at ht
        cases ht
        exact ⟨by omega, rfl⟩

theorem takes_wrap {make : Formula → Formula} {h : n ≤ m} :
    (p.wrap make h).Takes e rest ↔ ∃ e', p.Takes e' rest ∧ make e' = e := by
  rcases p with _ | ⟨a, rest', hlt⟩
  · simp [Phrase.Takes, Phrase.wrap]
  · constructor
    · rintro ⟨_, ⟨⟩⟩
      exact ⟨a, ⟨hlt, rfl⟩, rfl⟩
    · rintro ⟨e', ⟨-, ⟨⟩⟩, rfl⟩
      exact ⟨Nat.lt_of_lt_of_le hlt h, rfl⟩

theorem parse_eq_some : parse ts = some e ↔ (sum ts).Takes e [] := by
  unfold parse
  rcases sum ts with _ | ⟨a, _ | ⟨t, rest⟩, h⟩
  · simp [Phrase.Takes]
  · simp only [Phrase.Takes, Option.some.injEq, Prod.mk.injEq]
    exact ⟨fun heq => ⟨h, heq, trivial⟩, fun ⟨_, heq, _⟩ => heq⟩
  · simp [Phrase.Takes]

/-! ## Chains of operators -/

/-- The function `tail` goes on with a chain of the operators `ops`, whose operands `operand` reads. -/
structure Chain (ops : List Operator) (operand : (ts : List Token) → Phrase ts.length)
    (tail : Formula → (ts : List Token) → Phrase (ts.length + 1)) : Prop where
  operator : ∀ a op ts, op ∈ ops → tail a (.symbol op :: ts) =
    ((operand ts).followedBy fun b rest _ => tail (.binary op a b) rest).wrap id (Nat.le_add_right _ 2)
  done : ∀ a ts, (∀ op ∈ ops, ∀ ts', ts ≠ .symbol op :: ts') → tail a ts = .done a ts

theorem chain_product : Chain productOperators unary productTail where
  operator a op ts hop := by rw [productTail, if_pos hop]
  done a ts hts := by
    by_cases h : ∃ op ts', ts = .symbol op :: ts'
    · obtain ⟨op, ts', rfl⟩ := h
      rw [productTail, if_neg fun hop => hts op hop ts' rfl]
    · exact productTail.eq_2 _ _ fun op ts' heq => h ⟨op, ts', heq⟩

theorem chain_sum : Chain sumOperators product sumTail where
  operator a op ts hop := by rw [sumTail, if_pos hop]
  done a ts hts := by
    by_cases h : ∃ op ts', ts = .symbol op :: ts'
    · obtain ⟨op, ts', rfl⟩ := h
      rw [sumTail, if_neg fun hop => hts op hop ts' rfl]
    · exact sumTail.eq_2 _ _ fun op ts' heq => h ⟨op, ts', heq⟩

variable {operand : (ts : List Token) → Phrase ts.length} {tail : Formula → (ts : List Token) → Phrase (ts.length + 1)}

theorem Chain.takes_operator (hc : Chain ops operand tail) (hop : op ∈ ops) :
    (tail a (.symbol op :: ts)).Takes e rest ↔
      ∃ b rest', (operand ts).Takes b rest' ∧ (tail (.binary op a b) rest').Takes e rest := by
  rw [hc.operator a op ts hop, takes_wrap]
  simp only [id_eq, exists_eq_right, takes_followedBy]

/-- What is true of the first operands of two chains, and is kept by the operators, is true of the chains. -/
theorem Chain.exists_takes (hc : Chain ops operand tail) {R : Formula → Formula → Prop}
    (hR : ∀ op ∈ ops, ∀ a a' b, R a a' → R (.binary op a b) (.binary op a' b)) (h : R a a')
    (he : (tail a ts).Takes e rest) : ∃ e', (tail a' ts).Takes e' rest ∧ R e e' := by
  obtain ⟨n, hn⟩ : ∃ n, ts.length = n := ⟨_, rfl⟩
  induction n using Nat.strongRecOn generalizing ts a a' with
  | ind n ih =>
    by_cases hts : ∃ op ∈ ops, ∃ ts', ts = .symbol op :: ts'
    · obtain ⟨op, hop, ts', rfl⟩ := hts
      obtain ⟨b, rest', hb, htail⟩ := (hc.takes_operator hop).1 he
      have hlt : rest'.length < ts'.length := hb.1
      have hlt' : rest'.length < n := by
        rw [List.length_cons] at hn
        omega
      obtain ⟨e', he', hR'⟩ := ih rest'.length hlt' (hR op hop a a' b h) htail rfl
      exact ⟨e', (hc.takes_operator hop).2 ⟨b, rest', hb, he'⟩, hR'⟩
    · have hdone (op : Operator) (hop : op ∈ ops) (ts' : List Token) : ts ≠ .symbol op :: ts' :=
        fun heq => hts ⟨op, hop, ts', heq⟩
      rw [hc.done a ts hdone, takes_done] at he
      obtain ⟨rfl, rfl⟩ := he
      refine ⟨a', ?_, h⟩
      rw [hc.done a' ts hdone, takes_done]
      exact ⟨rfl, rfl⟩

/-! ## Zero minus a product -/

/-- Before a minus sign, a number is all of a product. -/
theorem product_number (v : Binary64) (ts : List Token) :
    product (.number v :: .symbol .sub :: ts) = some (.number v, ⟨.symbol .sub :: ts, Nat.lt_succ_self _⟩) := by
  have hatom : atom (.number v :: .symbol .sub :: ts) = some (.number v, ⟨.symbol .sub :: ts, Nat.lt_succ_self _⟩) := by
    simp [atom, leaf?]
  simp [product, unary, power, applied, function?, hatom, powerTail, productTail, productOperators, Phrase.followedBy,
    Phrase.done]

/-- Without the zero, the words are read as the sum that drops the zero. -/
theorem parse_zero_sub (h : parse (.number 0 :: .symbol .sub :: ts) = some s) :
    ∃ s', parse (.symbol .sub :: ts) = some s' ∧ DropsZero s s' := by
  rw [parse_eq_some, sum, takes_followedBy] at h
  obtain ⟨a, rest, ⟨hlt, hnumber⟩, hsum⟩ := h
  rw [product_number] at hnumber
  cases hnumber
  obtain ⟨p, rest', hp, hs⟩ := (chain_sum.takes_operator (by decide)).1 hsum
  rw [product, takes_followedBy] at hp
  obtain ⟨u, rest'', hu, hp⟩ := hp
  obtain ⟨p', hp', hproduct⟩ :=
    chain_product.exists_takes (R := NegatesFirst) (fun op hop a a' b h => .chain hop h b) (.factor u) hp
  obtain ⟨s', hs', hdrops⟩ :=
    chain_sum.exists_takes (R := DropsZero) (fun op hop a a' b h => .chain hop h b) (.product hproduct) hs
  refine ⟨s', ?_, hdrops⟩
  rw [parse_eq_some, sum, takes_followedBy]
  refine ⟨p', rest', ?_, hs'⟩
  rw [product, takes_followedBy]
  refine ⟨.neg u, rest'', ?_, hp'⟩
  rw [unary, takes_wrap]
  exact ⟨u, hu, rfl⟩

end Grammar

/-- **A zero in front of a minus sign** can be left out: the text is read as the sum that drops the zero. -/
theorem Formula.parse_zero_minus {t : Text} {s : Formula} (h : parse ('0' :: '-' :: t) = .ok s) :
    ∃ s', parse ('-' :: t) = .ok s' ∧ DropsZero s s' := by
  obtain ⟨ts, htokens, hparse, hdepth⟩ := parse_eq_ok.1 h
  rw [Token.tokens_zero rfl rfl, map_eq_ok] at htokens
  obtain ⟨ts, htokens, rfl⟩ := htokens
  have hminus := htokens
  rw [show '-' = Operator.sub.symbol from rfl, Token.tokens_symbol, map_eq_ok] at hminus
  obtain ⟨ts, -, rfl⟩ := hminus
  obtain ⟨s', hs', hdrops⟩ := Grammar.parse_zero_sub hparse
  exact ⟨s', parse_eq_ok.2 ⟨_, htokens, hs', hdrops.depth_le.trans hdepth⟩, hdrops⟩

end PocketCalc
