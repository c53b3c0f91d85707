import PocketCalc.Proofs.Grammar.Agreement
import PocketCalc.Proofs.Token.Words

/-!
# The words of a formula are read as that formula

* `ReadsAs level ts e` — from a fresh state the words `ts` are read as `e`, and those of its operations that still
  wait bind at least as tightly as the level;
* `readsAs_words` — so are the words of a formula at a place that asks for the level;
* `ofTokens_words` — the listing of the words of a formula is that of the formula.
-/

namespace PocketCalc.Grammar

open Rpn Rpn.Reading Token PocketCalc.Expr

/-- From a fresh state the words are read as the formula, and those of its operations that still wait bind at least
as tightly as the level. -/
def ReadsAs (level : Nat) (ts : List Token) (e : Formula) : Prop :=
  ∀ s, Fresh level s →
    ∃ ops s', ts.foldlM Reading.step s = .ok s' ∧ Reads s e ops s' ∧ ∀ o ∈ ops, level ≤ o.precedence

variable {level asked given n m : Nat} {s s' : Reading} {t : Token} {ts ts' : List Token} {a b e : Formula}
  {op : Operator}

/-! ## One lemma for each kind of formula -/

theorem leaf?_atomWord {a : Atom Binary64} (ha : a.Writable) : leaf? (atomWord a) = some a := by
  cases a with
  | number v => rfl
  | var name =>
    obtain rfl : name = boundName := ha
    rfl
  | constant c => cases c <;> rfl

namespace ReadsAs

theorem atom {a : Atom Binary64} (ha : a.Writable) : ReadsAs level [atomWord a] (.atom a) := by
  intro s hs
  refine ⟨[], s.leaf a, ?_, Reads.leaf s a, nofun⟩
  rw [foldlM_cons_ok (step_leaf hs.awaiting (leaf?_atomWord ha))]
  rfl

theorem neg (h : ReadsAs negLevel ts e) : ReadsAs negLevel (.symbol .sub :: ts) (.neg e) := by
  intro s hs
  obtain ⟨ops, s', hrun, hr, hops⟩ := h s.afterNeg (fresh_of_operation rfl _ _)
  refine ⟨_, s', ?_, hr.neg, fun o ho => ?_⟩
  · rw [foldlM_cons_ok (step_neg hs.awaiting), hrun]
  · rcases List.mem_append.1 ho with ho | ho
    · exact hops o ho
    · obtain rfl := List.mem_singleton.1 ho
      exact le_rfl

/-- In parentheses nothing of the formula waits. -/
theorem exists_parenthesized (h : ReadsAs level ts e) (hs : s.awaiting = true) :
    ∃ s', (Token.leftParen :: ts ++ [Token.rightParen]).foldlM Reading.step s = .ok s' ∧ Reads s e [] s' := by
  obtain ⟨ops, s', hrun, hr, -⟩ := h s.afterParen (fresh_afterParen s)
  refine ⟨_, ?_, Reads.parenthesized s e⟩
  rw [List.cons_append, foldlM_cons_ok (step_leftParen hs), foldlM_append_ok hrun,
    foldlM_cons_ok hr.step_rightParen]
  rfl

/-- What binds less tightly than its place asks for is read in parentheses. -/
theorem atLevel (h : ReadsAs given ts e) (asked : Nat) : ReadsAs asked (wordsAt asked given ts) e := by
  intro s hs
  unfold wordsAt
  split
  next hlt =>
    obtain ⟨s', hrun, hr⟩ := h.exists_parenthesized hs.awaiting
    exact ⟨[], s', hrun, hr, nofun⟩
  next hle =>
    have hle : asked ≤ given := Nat.le_of_not_lt hle
    obtain ⟨ops, s', hrun, hr, hops⟩ := h s (hs.mono hle)
    exact ⟨ops, s', hrun, hr, fun o ho => Nat.le_trans hle (hops o ho)⟩

theorem call (f : Function) (h : ReadsAs level ts e) (hasked : asked ≤ topLevel) :
    ReadsAs asked (.name f.name :: .leftParen :: ts ++ [.rightParen]) (.call f e) := by
  intro s hs
  obtain ⟨s', hrun, hr⟩ := h.exists_parenthesized (s := s.afterCall f) rfl
  refine ⟨_, s', ?_, hr.call, fun o ho => ?_⟩
  · rw [List.cons_append, List.cons_append,
      foldlM_cons_ok (step_function (t := .name f.name) hs.awaiting (Function.ofName?_name f))]
    exact hrun
  · obtain rfl := List.mem_singleton.1 ho
    exact hasked

/-- The operations of the left operand are complete before the operator, and the operator is not complete before
the operators of the right operand. -/
theorem binary (ha : ReadsAs n ts a) (hb : ReadsAs m ts' b) (hn : op.level ≤ n) (hm : op.level ≤ m)
    (hleft : ∀ o : Operation, n ≤ o.precedence → o.endsAt op = true)
    (hright : ∀ op' : Operator, m ≤ op'.level → (Operation.binary op).endsAt op' = false) :
    ReadsAs op.level (ts ++ .symbol op :: ts') (.binary op a b) := by
  intro s hs
  obtain ⟨ops, s₁, hrun, hr, hops⟩ := ha s (hs.mono hn)
  have hstep := hr.step_symbol (fun o ho => hleft o (hops o ho)) (hs.blocks op le_rfl)
  have hfresh : Fresh m (s.afterOperator a op) := ⟨rfl, fun op' h => blocks_operation (hright op' h) _⟩
  obtain ⟨ops', s₂, hrun', hr', hops'⟩ := hb (s.afterOperator a op) hfresh
  refine ⟨_, s₂, ?_, hr'.binary, fun o ho => ?_⟩
  · rw [foldlM_append_ok hrun, foldlM_cons_ok hstep, hrun']
  · rcases List.mem_append.1 ho with ho | ho
    · exact Nat.le_trans hm (hops' o ho)
    · obtain rfl := List.mem_singleton.1 ho
      exact le_rfl

/-- The powers group from the right. -/
theorem pow (ha : ReadsAs topLevel ts a) (hb : ReadsAs Operator.pow.level ts' b) :
    ReadsAs Operator.pow.level (ts ++ .symbol .pow :: ts') (.binary .pow a b) := by
  refine ha.binary hb (by decide) le_rfl (fun o ho => ?_) (fun op' hop' => ?_)
  · exact decide_eq_true (show 4 < o.precedence from ho)
  · cases op' <;> first | rfl | exact absurd hop' (by decide)

/-- The other operators group from the left. -/
theorem operator (hop : op ≠ .pow) (ha : ReadsAs op.level ts a) (hb : ReadsAs (op.level + 1) ts' b) :
    ReadsAs op.level (ts ++ .symbol op :: ts') (.binary op a b) := by
  refine ha.binary hb le_rfl (Nat.le_succ _) (fun o ho => ?_) (fun op' hop' => ?_)
  · rw [Operation.endsAt, if_neg hop]
    exact decide_eq_true ho
  · unfold Operation.endsAt
    split
    all_goals
      refine decide_eq_false ?_
      simp only [Operation.precedence]
      omega

end ReadsAs

/-! ## The words of a formula -/

/-- **The words of a formula are read as that formula.** -/
theorem readsAs_words (h : e.AllAtoms Atom.Writable) (hasked : asked ≤ topLevel) :
    ReadsAs asked (words asked e) e := by
  induction e generalizing asked with
  | atom a => exact (ReadsAs.atom h).atLevel asked
  | neg e ih => exact (ih h (by decide)).neg.atLevel asked
  | call f e ih => exact (ih h (Nat.zero_le _)).call f hasked
  | binary op a b iha ihb =>
    -- the two ways to group ask their operands for different levels
    cases op with
    | pow => exact ((iha h.1 le_rfl).pow (ihb h.2 (by decide))).atLevel asked
    | add | sub | mul | div | mod =>
      refine ReadsAs.atLevel (ReadsAs.operator ?_ (iha h.1 ?_) (ihb h.2 ?_)) asked
      all_goals decide

/-- The listing of the words of a formula is that of the formula. -/
theorem ofTokens_words (h : e.AllAtoms Atom.Writable) : ofTokens (words 0 e) = .ok (listing e) := by
  obtain ⟨ops, s', hrun, hr, -⟩ := readsAs_words h (Nat.zero_le topLevel) {} ⟨rfl, fun op _ => blocks_nil op⟩
  rw [ofTokens_eq_ok, Reading.run, hrun]
  exact hr.finish

end PocketCalc.Grammar
