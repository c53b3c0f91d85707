import PocketCalc.Proofs.Grammar.Agreement

/-!
# Which words are read

* `Admissible` — no comma, no unknown name, no two operands side by side, every parenthesis has its partner;
* `run_append` — the words are read from left to right;
* `ofTokens_grammar` — the listing is that of the formula that the descent reads, as far as there is one; then the
  words are admissible.
-/

namespace PocketCalc.Grammar

open Rpn hiding step
open Rpn.Reading

/-- An operand can end with the word. -/
def endsOperand (t : Token) : Bool := (leaf? t).isSome || t = .rightParen

/-- An operand can start with the word, a minus sign aside. -/
def startsOperand : Token → Bool
  | .number _ | .name _ | .leftParen => true
  | _ => false

/-- What the words of a formula are like: no comma, no unknown name, no two operands side by side, and every
parenthesis has its partner. -/
structure Admissible (ts : List Token) : Prop where
  comma : Token.comma ∉ ts
  known : ∀ word, Token.name word ∈ ts → leaf? (.name word) ≠ none ∨ function? (.name word) ≠ none
  apart : ∀ before t u behind, ts = before ++ t :: u :: behind → ¬ (endsOperand t = true ∧ startsOperand u = true)
  opened : ∀ before behind, ts = before ++ behind → before.count .rightParen ≤ before.count .leftParen
  closed : ts.count .rightParen = ts.count .leftParen

/-! ## What a word does -/

/-- What one word does to the state of a reading, if it is not refused. -/
inductive Step (s : Reading) : Token → Reading → Prop where
  | leaf {t : Token} {a : Atom Binary64} (hs : s.awaiting = true) (h : leaf? t = some a) : Step s t (s.leaf a)
  | function {t : Token} {f : Function} (hs : s.awaiting = true) (h : function? t = some f) :
    Step s t (s.afterCall f)
  | neg (hs : s.awaiting = true) : Step s (.symbol .sub) s.afterNeg
  | leftParen (hs : s.awaiting = true) : Step s .leftParen s.afterParen
  | rightParen {pending : List Pending} {listed : List Item} (hs : s.awaiting = false)
    (h : close? s.pending s.listed = some (pending, listed)) : Step s .rightParen ⟨listed, pending, false⟩
  | operator (op : Operator) (hs : s.awaiting = false) :
    Step s (.symbol op) ⟨(unwind op s.pending s.listed).2,
      .operation (.binary op) :: (unwind op s.pending s.listed).1, true⟩

theorem Step.of_step {s s' : Reading} {t : Token} (h : s.step t = .ok s') : Step s t s' := by
  by_cases hs : s.awaiting = true
  · rcases hleaf : leaf? t with _ | a
    · rcases hfun : function? t with _ | f
      · by_cases hneg : t = .symbol .sub
        · subst hneg
          rw [step_neg hs] at h
          cases h
          exact .neg hs
        · by_cases hparen : t = .leftParen
          · subst hparen
            rw [step_leftParen hs] at h
            cases h
            exact .leftParen hs
          · obtain ⟨err, herr⟩ := step_error_of_awaiting hs hleaf hfun hneg hparen
            rw [herr] at h
            cases h
      · rw [step_function hs hfun] at h
        cases h
        exact .function hs hfun
    · rw [step_leaf hs hleaf] at h
      cases h
      exact .leaf hs hleaf
  · have hs : s.awaiting = false := by simpa using hs
    by_cases hop : ∃ op, t = .symbol op
    · obtain ⟨op, rfl⟩ := hop
      simp only [Reading.step, hs, Bool.false_eq_true, if_false] at h
      cases h
      exact .operator op hs
    · by_cases hparen : t = .rightParen
      · subst hparen
        simp only [Reading.step, hs, Bool.false_eq_true, if_false] at h
        split at h
        · rename_i hclose
          cases h
          exact .rightParen hs hclose
        · cases h
      · obtain ⟨err, herr⟩ := step_error_of_not_awaiting hs (fun op h => hop ⟨op, h⟩) hparen
        rw [herr] at h
        cases h

/-! ## Reading from left to right -/

theorem run_append {s : Reading} {before behind : List Token} {items : List Item}
    (h : s.run (before ++ behind) = .ok items) :
    ∃ s', before.foldlM step s = .ok s' ∧ s'.run behind = .ok items := by
  obtain ⟨s₂, hrun, hfinish⟩ := bind_eq_ok.1 h
  obtain ⟨s₁, hbefore, hbehind⟩ := foldlM_append_eq_ok.1 hrun
  exact ⟨s₁, hbefore, bind_eq_ok.2 ⟨s₂, hbehind, hfinish⟩⟩

theorem run_cons_eq_ok {s : Reading} {t : Token} {ts : List Token} {items : List Item}
    (h : s.run (t :: ts) = .ok items) : ∃ s', s.step t = .ok s' ∧ s'.run ts = .ok items := by
  rw [run_cons] at h
  exact bind_eq_ok.1 h

/-! ## Parentheses -/

theorem count_unwind (op : Operator) (pending : List Pending) (listed : List Item) :
    (unwind op pending listed).1.count .paren = pending.count .paren := by
  induction pending generalizing listed with
  | nil => rfl
  | cons p pending ih =>
    cases p with
    | paren => rfl
    | operation o =>
      simp only [unwind]
      split
      · rw [ih]
        simp
      · rfl

theorem count_close? {pending pending' : List Pending} {listed listed' : List Item}
    (h : close? pending listed = some (pending', listed')) : pending'.count .paren + 1 = pending.count .paren := by
  induction pending generalizing listed with
  | nil => cases h
  | cons p pending ih =>
    cases p with
    | paren =>
      cases h
      simp
    | operation o =>
      rw [close?] at h
      rw [ih h]
      simp

theorem count_of_drain? {pending : List Pending} {listed listed' : List Item}
    (h : drain? pending listed = some listed') : pending.count .paren = 0 := by
  induction pending generalizing listed with
  | nil => rfl
  | cons p pending ih =>
    cases p with
    | paren => cases h
    | operation o =>
      rw [drain?] at h
      simpa using ih h

/-- One word changes the number of open parentheses by what it opens and closes. -/
theorem count_step {s s' : Reading} {t : Token} (h : s.step t = .ok s') :
    s'.pending.count .paren + [t].count .rightParen = s.pending.count .paren + [t].count .leftParen := by
  cases Step.of_step h with
  | leaf hs hleaf => cases t <;> simp_all [leaf?, Reading.leaf]
  | function hs hfun => cases t <;> simp_all [function?, afterCall]
  | neg hs => simp [afterNeg]
  | leftParen hs => simp [afterParen]
  | rightParen hs hclose => simpa using count_close? hclose
  | operator op hs => simp [count_unwind]

theorem count_foldlM_step {s s' : Reading} {ts : List Token} (h : ts.foldlM step s = .ok s') :
    s'.pending.count .paren + ts.count .rightParen = s.pending.count .paren + ts.count .leftParen := by
  induction ts generalizing s with
  | nil =>
    cases h
    rfl
  | cons t ts ih =>
    obtain ⟨s₁, hs, hts⟩ := foldlM_cons_eq_ok.1 h
    have h₁ := count_step hs
    have h₂ := ih hts
    rw [List.count_cons, List.count_cons]
    simp only [List.count_cons, List.count_nil] at h₁
    omega

theorem count_of_run_nil {s : Reading} {items : List Item} (h : s.run [] = .ok items) :
    s.pending.count .paren = 0 := by
  rw [run_nil] at h
  unfold Reading.finish at h
  split at h
  · cases h
  · split at h
    · rename_i hdrain
      exact count_of_drain? hdrain
    · cases h

/-! ## Acceptance -/

theorem awaiting_of_step_endsOperand {s s' : Reading} {t : Token} (h : s.step t = .ok s')
    (ht : endsOperand t = true) : s'.awaiting = false := by
  cases Step.of_step h with
  | leaf hs h => rfl
  | function hs hfun =>
    simp only [endsOperand, leaf?_of_function? hfun, Option.isSome_none, Bool.false_or, decide_eq_true_eq] at ht
    subst ht
    cases hfun
  | neg hs => cases ht
  | leftParen hs => cases ht
  | rightParen hs h => rfl
  | operator op hs => cases ht

theorem awaiting_of_step_startsOperand {s s' : Reading} {t : Token} (h : s.step t = .ok s')
    (ht : startsOperand t = true) : s.awaiting = true := by
  cases Step.of_step h with
  | leaf hs h => exact hs
  | function hs h => exact hs
  | neg hs => exact hs
  | leftParen hs => exact hs
  | rightParen hs h => cases ht
  | operator op hs => cases ht

theorem admissible_of_run {ts : List Token} {items : List Item} (h : Reading.run {} ts = .ok items) :
    Admissible ts where
  comma hmem := by
    obtain ⟨before, behind, rfl⟩ := List.append_of_mem hmem
    obtain ⟨s, -, hs⟩ := run_append h
    obtain ⟨s', hs', -⟩ := run_cons_eq_ok hs
    cases hs'
  known word hmem := by
    obtain ⟨before, behind, rfl⟩ := List.append_of_mem hmem
    obtain ⟨s, -, hs⟩ := run_append h
    obtain ⟨s', hs', -⟩ := run_cons_eq_ok hs
    cases Step.of_step hs' with
    | leaf hs h => exact .inl (by simp [h])
    | function hs h => exact .inr (by simp [h])
  apart before t u behind hts := by
    rintro ⟨ht, hu⟩
    rw [hts] at h
    obtain ⟨s, -, hs⟩ := run_append h
    obtain ⟨s₁, h₁, hrest⟩ := run_cons_eq_ok hs
    obtain ⟨s₂, h₂, -⟩ := run_cons_eq_ok hrest
    have hfalse := awaiting_of_step_endsOperand h₁ ht
    rw [awaiting_of_step_startsOperand h₂ hu] at hfalse
    cases hfalse
  opened before behind hts := by
    rw [hts] at h
    obtain ⟨s, hb, -⟩ := run_append h
    have hcount := count_foldlM_step hb
    rw [List.count_nil] at hcount
    omega
  closed := by
    rw [← List.append_nil ts] at h
    obtain ⟨s, hb, hs⟩ := run_append h
    have hcount := count_foldlM_step hb
    rw [count_of_run_nil hs, List.count_nil] at hcount
    omega

/-- From the start, the listing is that of the formula that the descent reads, if it reads one. -/
theorem run_eq_parse (ts : List Token) :
    match parse ts with
    | some e => Reading.run {} ts = .ok (listing e)
    | none => ∃ err, Reading.run {} ts = .error err := by
  have h : Follows 1 {} (Reading.run {} ts) (sum ts) := (agrees ts).sum ⟨rfl, fun op _ => blocks_nil op⟩
  unfold parse
  generalize sum ts = p at h ⊢
  rcases p with _ | ⟨e, _ | ⟨t, rest⟩, hrest⟩
  · exact h
  · obtain ⟨ops, s', hr, -, hrun⟩ := h
    exact hrun.trans hr.finish
  · obtain ⟨ops, s', hr, hready, hrun⟩ := h
    by_cases ht : t = .rightParen
    · subst ht
      refine ⟨.unopened, hrun.trans (run_cons_error ?_ rest)⟩
      simp only [Reading.step, hr.awaiting, Bool.false_eq_true, if_false]
      rw [hr.pending, close?_operations]
      rfl
    · obtain ⟨err, herr⟩ := Reads.step_error hr hready ht
      exact ⟨err, hrun.trans (run_cons_error herr rest)⟩

/-- **The stack reads the grammar.** The words have a listing exactly if the descent reads all of them, and then it
is the listing of the formula that the descent reads; the formula is built from it unless it is too deep. Words with
a comma, an unknown name, two operands side by side or a parenthesis without partner have none. -/
theorem ofTokens_grammar (ts : List Token) (items : List Item) :
    (ofTokens ts = .ok items ↔ ∃ e, parse ts = some e ∧ items = listing e) ∧
    (∀ e, parse ts = some e → ofTokens ts >>= build = if e.depth ≤ maxDepth then .ok e else .error .tooDeep) ∧
    (ofTokens ts = .ok items → Admissible ts) := by
  by_cases hts : ts = []
  · subst hts
    have hparse : parse [] = none := by simp [parse, sum, product, unary, power, applied, Phrase.followedBy]
    rw [ofTokens_nil, hparse]
    simp
  · rw [ofTokens_eq_run hts]
    have hrun := run_eq_parse ts
    refine ⟨?_, ?_, admissible_of_run⟩
    · split at hrun
      · rename_i e he
        rw [hrun, he]
        constructor
        · rintro ⟨⟩
          exact ⟨e, rfl, rfl⟩
        · rintro ⟨e', ⟨⟩, rfl⟩
          rfl
      · rename_i he
        obtain ⟨err, herr⟩ := hrun
        rw [herr, he]
        simp
    · intro e he
      rw [he] at hrun
      rw [hrun]
      exact build_listing e

end PocketCalc.Grammar
