import PocketCalc.Proofs.Formula.Parsed

/-!
# Words are refused as early as possible

* `Reading.RefusesAt s ts k err` — from the state `s` on, the words before number `k` are read, and that word is refused;
* `missing` — what still has to come behind words that are read: an operand if one is awaited, and a closing
  parenthesis for every open one;
* `ofTokens_missing` — words that are read have a listing as soon as that comes;
* `viable_iff` — so that words are the beginning of words with a listing exactly if they are read;
* `ofTokens_refused` — a word is refused as soon as nothing that has a listing begins with the words up to it, and
  then for every continuation alike.
-/

namespace PocketCalc.Rpn

open Grammar hiding Step

variable {s s' : Reading} {t : Token} {ts before behind : List Token} {pending : List Pending} {listed items : List Item}
  {err : ParseError} {v : Binary64} {k : ℕ}

/-! ## What is missing -/

theorem exists_close? (listed : List Item) (h : 0 < pending.count .paren) :
    ∃ pending' listed', Reading.close? pending listed = some (pending', listed') := by
  induction pending generalizing listed with
  | nil => exact absurd h (Nat.lt_irrefl 0)
  | cons p pending ih =>
    cases p with
    | paren => exact ⟨pending, listed, rfl⟩
    | operation o => exact ih (.operation o :: listed) (by simpa using h)

theorem exists_drain? (listed : List Item) (h : pending.count .paren = 0) :
    ∃ listed', Reading.drain? pending listed = some listed' := by
  induction pending generalizing listed with
  | nil => exact ⟨listed, rfl⟩
  | cons p pending ih =>
    cases p with
    | paren => simp at h
    | operation o => exact ih (.operation o :: listed) (by simpa using h)

/-- Behind an operand, each closing parenthesis closes one, and with the last one the listing is complete. -/
theorem run_rightParens {n : ℕ} (hs : s.awaiting = false) (hn : s.pending.count .paren = n) :
    ∃ items, s.run (List.replicate n .rightParen) = .ok items := by
  induction n generalizing s with
  | zero =>
    obtain ⟨listed, hdrain⟩ := exists_drain? s.listed hn
    exact ⟨listed.reverse, finish_eq_ok.2 ⟨hs, listed, hdrain, rfl⟩⟩
  | succ n ih =>
    have hopen : 0 < s.pending.count .paren := hn ▸ Nat.succ_pos n
    obtain ⟨pending, listed, hclose⟩ := exists_close? s.listed hopen
    have hstep : s.step .rightParen = .ok ⟨listed, pending, false⟩ := by
      simp only [Reading.step, hs, hclose, Bool.false_eq_true, if_false]
    have hcount := count_close? hclose
    rw [List.replicate_succ, Reading.run_cons_ok hstep]
    exact ih rfl (by simp only; omega)

/-- What still has to come behind the words: the number `v` if an operand is awaited, and a closing parenthesis for
every open one. -/
def missing (awaiting : Bool) (ts : List Token) (v : Binary64) : List Token :=
  (if awaiting then [.number v] else []) ++ List.replicate (ts.count .leftParen - ts.count .rightParen) .rightParen

theorem run_append_ok (h : before.foldlM Reading.step s = .ok s') (behind : List Token) :
    s.run (before ++ behind) = s'.run behind := by
  rw [Reading.run, foldlM_append_ok h]
  rfl

/-- **Words that are read have a listing as soon as what is missing comes.** -/
theorem ofTokens_missing (h : ts.foldlM Reading.step {} = .ok s) (v : Binary64) :
    ∃ items, ofTokens (ts ++ missing s.awaiting ts v) = .ok items := by
  have hcount := count_foldlM_step h
  rw [List.count_nil] at hcount
  have hopen : s.pending.count .paren = ts.count .leftParen - ts.count .rightParen := by omega
  simp only [ofTokens_eq_ok, run_append_ok h, missing]
  cases hs : s.awaiting with
  | false => exact run_rightParens hs hopen
  | true =>
    have hstep : s.step (.number v) = .ok (s.leaf (.number v)) := step_leaf hs rfl
    simp only [if_true, List.singleton_append, Reading.run_cons_ok hstep]
    exact run_rightParens rfl hopen

/-- The words are the beginning of words that have a listing. -/
def Viable (ts : List Token) : Prop := ∃ behind items, ofTokens (ts ++ behind) = .ok items

/-- **Words are the beginning of words with a listing exactly if they are read.** -/
theorem viable_iff : Viable ts ↔ ∃ s, ts.foldlM Reading.step {} = .ok s := by
  constructor
  · rintro ⟨behind, items, h⟩
    obtain ⟨s, hs, -⟩ := run_append (ofTokens_eq_ok.1 h)
    exact ⟨s, hs⟩
  · rintro ⟨s, hs⟩
    exact ⟨_, ofTokens_missing hs 0⟩

/-! ## The word that is refused -/

/-- From the state `s` on, the words before number `k` are read, and that word is refused. -/
def Reading.RefusesAt (s : Reading) (ts : List Token) (k : ℕ) (err : ParseError) : Prop :=
  ∃ s' t, (ts.take k).foldlM Reading.step s = .ok s' ∧ ts[k]? = some t ∧ s'.step t = .error err

theorem exists_refusesAt (h : ts.foldlM Reading.step s = .error err) : ∃ k, s.RefusesAt ts k err := by
  induction ts generalizing s with
  | nil => cases h
  | cons t ts ih =>
    cases hstep : s.step t with
    | error err' =>
      rw [List.foldlM_cons, hstep] at h
      cases h
      exact ⟨0, s, t, rfl, rfl, hstep⟩
    | ok s₁ =>
      rw [foldlM_cons_ok hstep] at h
      obtain ⟨k, s', t', hread, ht', herr⟩ := ih h
      exact ⟨k + 1, s', t', by rw [List.take_succ_cons, foldlM_cons_ok hstep, hread], ht', herr⟩

/-- The refusal is that of all words that begin in the same way. -/
theorem Reading.RefusesAt.run_eq (h : s.RefusesAt ts k err) (behind : List Token) :
    s.run (ts.take (k + 1) ++ behind) = .error err := by
  obtain ⟨s', t, hread, ht, herr⟩ := h
  rw [List.take_add_one, ht, List.append_assoc, run_append_ok hread]
  exact Reading.run_cons_error herr behind

theorem Reading.RefusesAt.ofTokens_eq {us : List Token} (h : Reading.RefusesAt {} ts k err)
    (hus : ts.take (k + 1) <+: us) : ofTokens us = .error err := by
  obtain ⟨behind, rfl⟩ := hus
  have hne : ts.take (k + 1) ++ behind ≠ [] := by
    obtain ⟨s', t, -, ht, -⟩ := h
    rw [List.take_add_one, ht]
    simp
  rw [ofTokens_eq_run hne]
  exact h.run_eq behind

/-- **Words are refused as early as possible.** If the word number `k` is refused, the words before it are the beginning
of words with a listing; with that word they are not, and whatever follows is refused with the same error. Words of
which none is refused have a listing as soon as what is missing comes; they are refused only for what is missing. -/
theorem ofTokens_refused (ts : List Token) :
    (∀ k err, Reading.RefusesAt {} ts k err →
        Viable (ts.take k) ∧ ¬ Viable (ts.take (k + 1)) ∧
          ∀ us, ts.take (k + 1) <+: us → ofTokens us = .error err) ∧
      (∀ s v, ts.foldlM Reading.step {} = .ok s → ∃ items, ofTokens (ts ++ missing s.awaiting ts v) = .ok items) ∧
      ∀ err, ofTokens ts = .error err → (∃ k, Reading.RefusesAt {} ts k err) ∨ Viable ts := by
  refine ⟨fun k err h => ⟨?_, ?_, fun us => h.ofTokens_eq⟩, fun s v h => ofTokens_missing h v, fun err h => ?_⟩
  · obtain ⟨s, t, hread, -⟩ := h
    exact viable_iff.2 ⟨s, hread⟩
  · rintro ⟨behind, items, hitems⟩
    rw [h.ofTokens_eq (List.prefix_append _ behind)] at hitems
    cases hitems
  · cases hread : ts.foldlM Reading.step {} with
    | ok s => exact .inr (viable_iff.2 ⟨s, hread⟩)
    | error err' =>
      obtain ⟨k, hk⟩ := exists_refusesAt hread
      have herr := hk.ofTokens_eq (List.take_prefix (k + 1) ts)
      rw [h] at herr
      cases herr
      exact .inl ⟨k, hk⟩

/-- The words of `(1 + * 2`: the word `*` is refused. -/
theorem ofTokens_refused_operator :
    let ts : List Token := [.leftParen, .number 1, .symbol .add, .symbol .mul, .number 2]
    Reading.RefusesAt {} ts 3 .missingOperand ∧ Viable (ts.take 3) ∧ ¬ Viable (ts.take 4) ∧
      ∀ us, ts.take 4 <+: us → ofTokens us = .error .missingOperand := by
  intro ts
  have h : Reading.RefusesAt {} ts 3 .missingOperand := ⟨_, _, rfl, rfl, rfl⟩
  exact ⟨h, (ofTokens_refused ts).1 3 .missingOperand h⟩

end PocketCalc.Rpn
