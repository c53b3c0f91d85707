import PocketCalc.Proofs.Grammar.Descent
import PocketCalc.Proofs.Rpn.Listing
import PocketCalc.Proofs.Rpn.Reading

/-!
# The stack reads the grammar

The reader with a stack and the recursive descent take the same words for the same formula.  The invariant of a
phrase of some level (`1` for sums, `2` for products, `3` for signed powers, `5` for what a function applies to):

* `Fresh level s` — an operand comes next, and what waits in `s` is not complete before operators of the level;
* `Ready level ops ts` — an operator at the front of `ts` binds less tightly than the level, and the operations
  `ops` of the phrase are complete before it;
* `Follows` — from a fresh state the reader fails where the descent has no phrase, and else stands behind the
  phrase with its operations ready.

There is one lemma for each symbol of the grammar, by the recursion of the descent.
-/

namespace PocketCalc.Grammar

open Rpn Rpn.Reading

/-! ## Words and steps -/

section Steps

variable {s : Reading} {t : Token} {word : Text}

theorem nameMeaning_of_leaf? {a : Atom Binary64} (h : leaf? (.name word) = some a) :
    nameMeaning word = .ok (.inl a) := by
  simp only [leaf?] at h
  unfold nameMeaning
  by_cases hx : word = Expr.boundName
  · rw [if_pos hx] at h ⊢
    cases h
    rfl
  rw [if_neg hx] at h ⊢
  by_cases hpi : word = Constant.pi.name
  · rw [if_pos hpi] at h ⊢
    cases h
    rfl
  rw [if_neg hpi] at h ⊢
  by_cases he : word = Constant.e.name
  · rw [if_pos he] at h ⊢
    cases h
    rfl
  rw [if_neg he] at h
  cases h

theorem nameMeaning_of_leaf?_eq_none (h : leaf? (.name word) = none) :
    nameMeaning word = match Function.ofName? word with
      | some f => .ok (.inr f)
      | none => .error (.unknownName word) := by
  simp only [leaf?] at h
  unfold nameMeaning
  by_cases hx : word = Expr.boundName
  · rw [if_pos hx] at h
    cases h
  rw [if_neg hx] at h ⊢
  by_cases hpi : word = Constant.pi.name
  · rw [if_pos hpi] at h
    cases h
  rw [if_neg hpi] at h ⊢
  by_cases he : word = Constant.e.name
  · rw [if_pos he] at h
    cases h
  exact if_neg he

/-- No word is both a leaf and a function. -/
theorem leaf?_of_function? {f : Function} (h : function? t = some f) : leaf? t = none := by
  cases t with
  | name word =>
    have hx : Function.ofName? Expr.boundName = none := by decide
    have hpi : Function.ofName? Constant.pi.name = none := by decide
    have he : Function.ofName? Constant.e.name = none := by decide
    simp only [function?] at h
    have hne : ∀ w, Function.ofName? w = none → word ≠ w := by
      rintro w hw rfl
      rw [hw] at h
      cases h
    simp only [leaf?, if_neg (hne _ hx), if_neg (hne _ hpi), if_neg (hne _ he)]
  | _ => cases h

theorem step_leaf {a : Atom Binary64} (hs : s.awaiting = true) (h : leaf? t = some a) :
    s.step t = .ok (s.leaf a) := by
  cases t with
  | number v =>
    cases h
    simp [Reading.step, hs]
  | name word => simp [Reading.step, hs, nameMeaning_of_leaf? h]
  | _ => cases h

theorem step_function {f : Function} (hs : s.awaiting = true) (h : function? t = some f) :
    s.step t = .ok (s.afterCall f) := by
  have hleaf := leaf?_of_function? h
  cases t with
  | name word =>
    rw [function?] at h
    simp [Reading.step, hs, nameMeaning_of_leaf?_eq_none hleaf, h, afterCall]
  | _ => cases h

theorem step_neg (hs : s.awaiting = true) : s.step (.symbol .sub) = .ok s.afterNeg := by
  simp [Reading.step, hs, afterNeg]

theorem step_leftParen (hs : s.awaiting = true) : s.step .leftParen = .ok s.afterParen := by
  simp [Reading.step, hs, afterParen]

/-- Where an operand has to come, a word fails unless it is a leaf, a function, a minus sign or an opening
parenthesis. -/
theorem step_error_of_awaiting (hs : s.awaiting = true) (hleaf : leaf? t = none) (hfun : function? t = none)
    (hneg : t ≠ .symbol .sub) (hparen : t ≠ .leftParen) : ∃ err, s.step t = .error err := by
  cases t with
  | number v => cases hleaf
  | name word =>
    rw [function?] at hfun
    refine ⟨.unknownName word, ?_⟩
    simp [Reading.step, hs, nameMeaning_of_leaf?_eq_none hleaf, hfun]
  | symbol op =>
    have hop : op ≠ .sub := fun h => hneg (h ▸ rfl)
    exact ⟨.missingOperand, by simp [Reading.step, hs, hop]⟩
  | leftParen => exact absurd rfl hparen
  | rightParen => exact ⟨.missingOperand, by simp [Reading.step, hs]⟩
  | comma => exact ⟨.comma, rfl⟩

/-- Behind an operand a word fails unless it is an operator or a closing parenthesis. -/
theorem step_error_of_not_awaiting (hs : s.awaiting = false) (hop : ∀ op, t ≠ .symbol op)
    (hparen : t ≠ .rightParen) : ∃ err, s.step t = .error err := by
  cases t with
  | number v => exact ⟨_, by simp only [Reading.step, hs]; rfl⟩
  | name word => exact ⟨_, by simp only [Reading.step, hs]; rfl⟩
  | symbol op => exact absurd rfl (hop op)
  | leftParen => exact ⟨_, by simp only [Reading.step, hs]; rfl⟩
  | rightParen => exact absurd rfl hparen
  | comma => exact ⟨.comma, rfl⟩

end Steps

/-! ## The invariant -/

/-- An operand comes next, and what waits is not complete before operators of the level. -/
structure Fresh (level : Nat) (s : Reading) : Prop where
  awaiting : s.awaiting = true
  blocks : ∀ op : Operator, level ≤ op.level → Blocks s.pending op

/-- An operator at the front binds less tightly than the level, and the operations are complete before it. -/
def Ready (level : Nat) (ops : List Operation) (ts : List Token) : Prop :=
  ∀ op rest, ts = .symbol op :: rest → op.level < level ∧ ∀ o ∈ ops, o.endsAt op = true

/-- The reading with the result `result` fails if there is no phrase; otherwise it has read the formula of the
phrase since `s`, and goes on behind it. -/
def Follows (level : Nat) (s : Reading) (result : Except ParseError (List Item)) {n : Nat} : Phrase n → Prop
  | none => ∃ err, result = .error err
  | some (e, ⟨rest, _⟩) => ∃ ops s', Reads s e ops s' ∧ Ready level ops rest ∧ result = s'.run rest

section Invariant

variable {level level' n m : Nat} {s s' : Reading} {ts : List Token} {e : Formula} {ops : List Operation}
  {result : Except ParseError (List Item)} {p : Phrase n}

theorem Fresh.mono (h : Fresh level s) (hl : level ≤ level') : Fresh level' s :=
  ⟨h.awaiting, fun op hop => h.blocks op (Nat.le_trans hl hop)⟩

/-- A signed power is fresh behind an operation that ends at no power. -/
theorem fresh_of_operation {o : Operation} (h : o.endsAt .pow = false) (listed : List Item)
    (pending : List Pending) : Fresh 3 ⟨listed, .operation o :: pending, true⟩ := by
  refine ⟨rfl, fun op hop => ?_⟩
  have : op = .pow := by cases op <;> simp [Operator.level] at hop ⊢
  exact blocks_operation (this ▸ h) _

theorem fresh_afterParen (s : Reading) : Fresh level s.afterParen := ⟨rfl, fun _ _ => blocks_paren _ _⟩

theorem Ready.append (h : Ready level ops ts) {o : Operation}
    (ho : ∀ op : Operator, op.level < level → o.endsAt op = true) : Ready level (ops ++ [o]) ts := by
  intro op rest hts
  obtain ⟨hlevel, hops⟩ := h op rest hts
  refine ⟨hlevel, fun o' ho' => ?_⟩
  rcases List.mem_append.1 ho' with ho' | ho'
  · exact hops o' ho'
  · rw [List.mem_singleton.1 ho']
    exact ho op hlevel

theorem Ready.mono (h : Ready level ops ts) (hl : level ≤ level') : Ready level' ops ts := fun op rest hts =>
  ⟨Nat.lt_of_lt_of_le (h op rest hts).1 hl, (h op rest hts).2⟩

theorem Follows.done (h : Reads s e ops s') (hready : Ready level ops ts) :
    Follows level s (s'.run ts) (.done e ts) := ⟨ops, s', h, hready, rfl⟩

theorem Follows.followedBy {s₁ : Reading}
    {tail : Formula → (rest : List Token) → rest.length < n → Phrase (rest.length + 1)}
    (hp : Follows level s₁ result p)
    (ht : ∀ a rest h ops s', Reads s₁ a ops s' → Ready level ops rest →
      Follows level' s (s'.run rest) (tail a rest h)) : Follows level' s result (p.followedBy tail) := by
  rcases p with _ | ⟨a, rest, h⟩
  · exact hp
  · obtain ⟨ops, s', hr, hready, rfl⟩ := hp
    have ht' := ht a rest h ops s' hr hready
    simp only [Phrase.followedBy, Option.bind_eq_bind, Option.bind_some]
    generalize tail a rest h = q at ht'
    rcases q with _ | ⟨e, rest', h'⟩
    · exact ht'
    · exact ht'

theorem Follows.wrap {s₁ : Reading} {make : Formula → Formula} (hp : Follows level s₁ result p)
    (hmake : ∀ e ops s' rest, Reads s₁ e ops s' → Ready level ops rest →
      ∃ ops', Reads s (make e) ops' s' ∧ Ready level' ops' rest) (h : n ≤ m) :
    Follows level' s result (p.wrap make h) := by
  rcases p with _ | ⟨e, rest, hrest⟩
  · exact hp
  · obtain ⟨ops, s', hr, hready, rfl⟩ := hp
    obtain ⟨ops', hr', hready'⟩ := hmake e ops s' rest hr hready
    exact ⟨ops', s', hr', hready', rfl⟩

theorem Follows.mono (hp : Follows level s result p) (hl : level ≤ level') : Follows level' s result p := by
  rcases p with _ | ⟨e, rest, h⟩
  · exact hp
  · obtain ⟨ops, s', hr, hready, hresult⟩ := hp
    exact ⟨ops, s', hr, hready.mono hl, hresult⟩

/-- A chain of operators goes on with one more of them and its right operand. -/
theorem Follows.operator {op : Operator} {a : Formula} {k : Nat}
    {tail : Formula → (rest : List Token) → rest.length < n → Phrase (rest.length + 1)}
    (hr : Reads s a ops s') (hready : Ready k ops (.symbol op :: ts)) (hblocks : Blocks s.pending op)
    (hp : Follows level' (s.afterOperator a op) ((s.afterOperator a op).run ts) p)
    (hend : ∀ op' : Operator, op'.level < level' → (Operation.binary op).endsAt op' = true)
    (ht : ∀ b rest h ops s', Reads s (.binary op a b) ops s' → Ready level' ops rest →
      Follows level s (s'.run rest) (tail b rest h)) (h : n ≤ m) :
    Follows level s (s'.run (.symbol op :: ts)) ((p.followedBy tail).wrap id h) := by
  rw [run_cons_ok (hr.step_symbol (hready op ts rfl).2 hblocks)]
  have hchain : Follows level s ((s.afterOperator a op).run ts) (p.followedBy tail) :=
    hp.followedBy fun b rest h ops s' hr hready => ht b rest h _ s' hr.binary (hready.append hend)
  exact hchain.wrap (fun e ops s' rest hr hready => ⟨ops, hr, hready⟩) h

/-- Behind a sum the reader fails, unless a parenthesis is closed. -/
theorem Reads.step_error {t : Token} {rest : List Token} (h : Reads s e ops s') (hready : Ready 1 ops (t :: rest))
    (hparen : t ≠ .rightParen) : ∃ err, s'.step t = .error err := by
  refine step_error_of_not_awaiting h.awaiting ?_ hparen
  rintro op rfl
  have hlevel := (hready op rest rfl).1
  cases op <;> simp [Operator.level] at hlevel

theorem Follows.closed (hp : Follows 1 s.afterParen result p) (h : n ≤ m) :
    Follows 5 s result (p.closed h) := by
  rcases p with _ | ⟨e, _ | ⟨t, rest⟩, hrest⟩
  · exact hp
  · obtain ⟨ops, s', hr, -, rfl⟩ := hp
    exact ⟨.unclosed, hr.finish_afterParen⟩
  · obtain ⟨ops, s', hr, hready, rfl⟩ := hp
    by_cases ht : t = .rightParen
    · subst ht
      exact ⟨[], _, .parenthesized s e, fun op rest hts => by cases op <;> simp [Operator.level],
        run_cons_ok hr.step_rightParen rest⟩
    · obtain ⟨err, herr⟩ := Reads.step_error hr hready ht
      cases t <;> first | exact absurd rfl ht | exact ⟨err, run_cons_error herr rest⟩

end Invariant

/-! ## The symbols of the grammar -/

theorem endsAt_sum {op op' : Operator} (h : op ∈ sumOperators) (hlevel : op'.level < 2) :
    (Operation.binary op).endsAt op' = true := by
  cases op <;> cases op' <;> simp_all [sumOperators, Operator.level, Operation.endsAt, Operation.precedence]

theorem endsAt_product {op op' : Operator} (h : op ∈ productOperators) (hlevel : op'.level < 3) :
    (Operation.binary op).endsAt op' = true := by
  cases op <;> cases op' <;> simp_all [productOperators, Operator.level, Operation.endsAt, Operation.precedence]

theorem endsAt_pow {op : Operator} (hlevel : op.level < 3) : (Operation.binary .pow).endsAt op = true := by
  cases op <;> simp_all [Operator.level, Operation.endsAt, Operation.precedence]

theorem endsAt_neg {op : Operator} (hlevel : op.level < 3) : Operation.neg.endsAt op = true := by
  cases op <;> simp_all [Operator.level, Operation.endsAt, Operation.precedence]

theorem endsAt_call (f : Function) (op : Operator) : (Operation.call f).endsAt op = true := by
  cases op <;> simp [Operator.level, Operation.endsAt, Operation.precedence]

theorem level_lt_five (op : Operator) : op.level < 5 := by cases op <;> decide

/-- Behind an operator of a sum, products are fresh. -/
theorem fresh_afterOperator_sum {op : Operator} (h : op ∈ sumOperators) (s : Reading) (a : Formula) :
    Fresh 2 (s.afterOperator a op) := by
  refine ⟨rfl, fun op' hop' => blocks_operation ?_ _⟩
  cases op <;> cases op' <;> simp_all [sumOperators, Operator.level, Operation.endsAt, Operation.precedence]

theorem fresh_afterOperator_product {op : Operator} (h : op ∈ productOperators) (s : Reading) (a : Formula) :
    Fresh 3 (s.afterOperator a op) := by
  refine fresh_of_operation ?_ _ _
  cases op <;> simp_all [productOperators, Operator.level, Operation.endsAt, Operation.precedence]

theorem Follows.neg {n m : Nat} {p : Phrase n} {ts : List Token} {s : Reading} (hs : s.awaiting = true)
    (hp : Follows 3 s.afterNeg (s.afterNeg.run ts) p) (h : n ≤ m) :
    Follows 3 s (s.run (.symbol .sub :: ts)) (p.wrap .neg h) := by
  rw [run_cons_ok (step_neg hs)]
  refine hp.wrap (fun e ops s' rest hr hready => ?_) h
  exact ⟨_, hr.neg, hready.append fun op hop => endsAt_neg hop⟩

/-- The reader follows every symbol of the grammar that starts at `ts`. -/
structure Agrees (ts : List Token) : Prop where
  sum {s : Reading} (hs : Fresh 1 s) : Follows 1 s (s.run ts) (sum ts)
  sumTail {s s' : Reading} {a : Formula} {ops : List Operation} (hs : Fresh 1 s) (hr : Reads s a ops s')
    (hready : Ready 2 ops ts) : Follows 1 s (s'.run ts) (sumTail a ts)
  product {s : Reading} (hs : Fresh 2 s) : Follows 2 s (s.run ts) (product ts)
  productTail {s s' : Reading} {a : Formula} {ops : List Operation} (hs : Fresh 2 s) (hr : Reads s a ops s')
    (hready : Ready 3 ops ts) : Follows 2 s (s'.run ts) (productTail a ts)
  unary {s : Reading} (hs : Fresh 3 s) : Follows 3 s (s.run ts) (unary ts)
  powerTail {s s' : Reading} {a : Formula} {ops : List Operation} (hs : Fresh 3 s) (hr : Reads s a ops s')
    (hready : Ready 5 ops ts) : Follows 3 s (s'.run ts) (powerTail a ts)
  argument {s : Reading} (hs : s.awaiting = true) : Follows 5 s (s.run ts) (argument ts)

section Symbols

variable {ts : List Token} {s s' : Reading} {a : Formula} {ops : List Operation}

theorem atom_follows {t : Token} (ih : Agrees ts) (hs : s.awaiting = true) (hfun : function? t = none)
    (hneg : t ≠ .symbol .sub) : Follows 5 s (s.run (t :: ts)) (atom (t :: ts)) := by
  by_cases ht : t = .leftParen
  · subst ht
    rw [atom, run_cons_ok (step_leftParen hs)]
    exact (ih.sum (fresh_afterParen s)).closed _
  · rw [atom.eq_2 _ _ ht]
    rcases hleaf : leaf? t with _ | a
    · obtain ⟨err, herr⟩ := step_error_of_awaiting hs hleaf hfun hneg ht
      exact ⟨err, run_cons_error herr ts⟩
    · exact ⟨[], s.leaf a, .leaf s a, fun op rest _ => ⟨level_lt_five op, by simp⟩,
        run_cons_ok (step_leaf hs hleaf) ts⟩

variable (ih : ∀ ts' : List Token, ts'.length < ts.length → Agrees ts')
include ih

theorem applied_follows (hs : s.awaiting = true) (hts : ∀ ts', ts ≠ .symbol .sub :: ts') :
    Follows 5 s (s.run ts) (applied ts) := by
  rcases ts with _ | ⟨t, ts⟩
  · rw [applied]
    exact ⟨.missingOperand, by simp [run_nil, Reading.finish, hs]⟩
  · have ih' : Agrees ts := ih ts (Nat.lt_succ_self _)
    rw [applied]
    split
    · rename_i f hf
      rw [run_cons_ok (step_function hs hf)]
      refine (ih'.argument (s := s.afterCall f) rfl).wrap (fun e ops s' rest hr hready => ?_) _
      exact ⟨_, hr.call, hready.append fun op _ => endsAt_call f op⟩
    · rename_i hf
      exact atom_follows ih' hs hf fun ht => hts ts (ht ▸ rfl)

theorem argument_follows (hs : s.awaiting = true) : Follows 5 s (s.run ts) (argument ts) := by
  by_cases hts : ∃ ts', ts = .symbol .sub :: ts'
  · obtain ⟨ts', rfl⟩ := hts
    rw [argument]
    have hu := (ih ts' (Nat.lt_succ_self _)).unary (s := s.afterNeg) (fresh_of_operation (by decide) _ _)
    exact (Follows.neg hs hu _).mono (by decide)
  · have hts' : ∀ ts', ts ≠ .symbol .sub :: ts' := fun ts' h => hts ⟨ts', h⟩
    rw [argument.eq_2 _ hts']
    exact applied_follows ih hs hts'

theorem powerTail_follows (hs : Fresh 3 s) (hr : Reads s a ops s') (hready : Ready 5 ops ts) :
    Follows 3 s (s'.run ts) (powerTail a ts) := by
  by_cases hts : ∃ ts', ts = .symbol .pow :: ts'
  · obtain ⟨ts', rfl⟩ := hts
    have hblocks : Blocks s.pending .pow := hs.blocks .pow (by decide)
    rw [powerTail, run_cons_ok (hr.step_symbol (hready .pow ts' rfl).2 hblocks)]
    have hu := (ih ts' (Nat.lt_succ_self _)).unary (s := s.afterOperator a .pow)
      (fresh_of_operation (by decide) _ _)
    refine hu.wrap (fun e ops s' rest hr hready => ?_) _
    exact ⟨_, hr.binary, hready.append fun op hop => endsAt_pow hop⟩
  · rw [powerTail.eq_2 _ _ fun ts' h => hts ⟨ts', h⟩]
    refine Follows.done hr ?_
    rintro op rest rfl
    refine ⟨?_, (hready op rest rfl).2⟩
    cases op <;> simp_all [Operator.level]

theorem power_follows (hs : Fresh 3 s) (hts : ∀ ts', ts ≠ .symbol .sub :: ts') :
    Follows 3 s (s.run ts) (power ts) := by
  rw [power]
  exact (applied_follows ih hs.awaiting hts).followedBy fun a rest h ops s' hr hready =>
    (ih rest h).powerTail hs hr hready

theorem unary_follows (hs : Fresh 3 s) : Follows 3 s (s.run ts) (unary ts) := by
  by_cases hts : ∃ ts', ts = .symbol .sub :: ts'
  · obtain ⟨ts', rfl⟩ := hts
    rw [unary]
    have hu := (ih ts' (Nat.lt_succ_self _)).unary (s := s.afterNeg) (fresh_of_operation (by decide) _ _)
    exact Follows.neg hs.awaiting hu _
  · have hts' : ∀ ts', ts ≠ .symbol .sub :: ts' := fun ts' h => hts ⟨ts', h⟩
    rw [unary.eq_2 _ hts']
    exact power_follows ih hs hts'

theorem productTail_follows (hs : Fresh 2 s) (hr : Reads s a ops s') (hready : Ready 3 ops ts) :
    Follows 2 s (s'.run ts) (productTail a ts) := by
  by_cases hts : ∃ op ts', ts = .symbol op :: ts'
  · obtain ⟨op, ts', rfl⟩ := hts
    obtain ⟨hlevel, hops⟩ := hready op ts' rfl
    rw [productTail]
    split
    · rename_i hop
      have hblocks : Blocks s.pending op := hs.blocks op (by
        cases op <;> simp_all [productOperators, Operator.level])
      have hu := (ih ts' (Nat.lt_succ_self _)).unary (fresh_afterOperator_product hop s a)
      exact Follows.operator hr hready hblocks hu (fun op' => endsAt_product hop)
        (fun b rest h ops s' => (ih rest (Nat.lt_succ_of_lt h)).productTail hs) _
    · rename_i hop
      refine Follows.done hr ?_
      rintro op' rest' ⟨⟩
      cases op <;> simp_all [productOperators, Operator.level]
  · rw [productTail.eq_2 _ _ fun op ts' h => hts ⟨op, ts', h⟩]
    exact Follows.done hr fun op rest h => absurd ⟨op, rest, h⟩ hts

theorem product_follows (hs : Fresh 2 s) : Follows 2 s (s.run ts) (product ts) := by
  rw [product]
  exact (unary_follows ih (hs.mono (by decide))).followedBy fun a rest h ops s' hr hready =>
    (ih rest h).productTail hs hr hready

theorem sumTail_follows (hs : Fresh 1 s) (hr : Reads s a ops s') (hready : Ready 2 ops ts) :
    Follows 1 s (s'.run ts) (sumTail a ts) := by
  by_cases hts : ∃ op ts', ts = .symbol op :: ts'
  · obtain ⟨op, ts', rfl⟩ := hts
    obtain ⟨hlevel, hops⟩ := hready op ts' rfl
    rw [sumTail]
    split
    · rename_i hop
      have hblocks : Blocks s.pending op := hs.blocks op (by cases op <;> decide)
      have hp := (ih ts' (Nat.lt_succ_self _)).product (fresh_afterOperator_sum hop s a)
      exact Follows.operator hr hready hblocks hp (fun op' => endsAt_sum hop)
        (fun b rest h ops s' => (ih rest (Nat.lt_succ_of_lt h)).sumTail hs) _
    · rename_i hop
      refine Follows.done hr ?_
      rintro op' rest' ⟨⟩
      cases op <;> simp_all [sumOperators, Operator.level]
  · rw [sumTail.eq_2 _ _ fun op ts' h => hts ⟨op, ts', h⟩]
    exact Follows.done hr fun op rest h => absurd ⟨op, rest, h⟩ hts

theorem sum_follows (hs : Fresh 1 s) : Follows 1 s (s.run ts) (sum ts) := by
  rw [sum]
  exact (product_follows ih (hs.mono (by decide))).followedBy fun a rest h ops s' hr hready =>
    (ih rest h).sumTail hs hr hready

end Symbols

/-- The reader follows the descent, by induction on the number of words. -/
theorem agrees (ts : List Token) : Agrees ts := by
  induction hn : ts.length using Nat.strongRecOn generalizing ts with
  | ind n ih =>
    have ih' : ∀ ts' : List Token, ts'.length < ts.length → Agrees ts' := fun ts' h =>
      ih ts'.length (hn ▸ h) ts' rfl
    exact {
      sum := sum_follows ih'
      sumTail := sumTail_follows ih'
      product := product_follows ih'
      productTail := productTail_follows ih'
      unary := unary_follows ih'
      powerTail := powerTail_follows ih'
      argument := argument_follows ih' }

end PocketCalc.Grammar
