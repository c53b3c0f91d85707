import PocketCalc.Proofs.Outcome
import PocketCalc.Rpn.Stack

/-!
# What a reading has read

* `Reading.run` — the words are read from a state on, and the reading is finished;
* `Blocks` — what waits keeps waiting when an operator comes;
* `Reads s e ops s'` — between the states `s` and `s'` the formula `e` was read: the operations `ops` still wait
  above what waited before, and with them the listing of `e` is complete.  One lemma for each way in which a
  formula is read says how the next state arises.
-/

namespace PocketCalc.Rpn

open Reading

namespace Reading

/-- The words are read one after the other, and the reading is finished. -/
def run (s : Reading) (ts : List Token) : Except ParseError (List Item) := do
  (← ts.foldlM step s).finish

theorem run_nil (s : Reading) : s.run [] = s.finish := rfl

theorem run_cons (s : Reading) (t : Token) (ts : List Token) :
    s.run (t :: ts) = s.step t >>= fun s' => s'.run ts := by
  simp only [run, List.foldlM_cons, bind_assoc]

theorem run_cons_ok {s s' : Reading} {t : Token} (h : s.step t = .ok s') (ts : List Token) :
    s.run (t :: ts) = s'.run ts := by
  rw [run_cons, h]
  rfl

theorem run_cons_error {s : Reading} {t : Token} {err : ParseError} (h : s.step t = .error err)
    (ts : List Token) : s.run (t :: ts) = .error err := by
  rw [run_cons, h]
  rfl

end Reading

theorem ofTokens_nil : ofTokens [] = .error .empty := rfl

theorem ofTokens_eq_run {ts : List Token} (h : ts ≠ []) : ofTokens ts = Reading.run {} ts := by
  unfold ofTokens
  rw [if_neg h]
  rfl

/-- Words with a listing are read from the start. -/
theorem ofTokens_eq_ok {ts : List Token} {items : List Item} :
    ofTokens ts = .ok items ↔ Reading.run {} ts = .ok items := by
  cases ts with
  | nil => exact iff_of_false nofun nofun
  | cons t ts => rw [ofTokens_eq_run (List.cons_ne_nil t ts)]

/-! ## The stack of what waits -/

/-- What waits keeps waiting when the operator `op` comes. -/
def Blocks (pending : List Pending) (op : Operator) : Prop :=
  ∀ listed, unwind op pending listed = (pending, listed)

theorem blocks_nil (op : Operator) : Blocks [] op := fun _ => rfl

theorem blocks_paren (pending : List Pending) (op : Operator) : Blocks (.paren :: pending) op := fun _ => rfl

theorem blocks_operation {o : Operation} {op : Operator} (h : o.endsAt op = false) (pending : List Pending) :
    Blocks (.operation o :: pending) op := by
  intro listed
  simp [unwind, h]

/-- Operations that are complete before `op` are listed, and then what lies below them is looked at. -/
theorem unwind_operations {op : Operator} {ops : List Operation} (h : ∀ o ∈ ops, o.endsAt op = true)
    (pending : List Pending) (listed : List Item) :
    unwind op (ops.map .operation ++ pending) listed =
      unwind op pending ((ops.map .operation).reverse ++ listed) := by
  induction ops generalizing listed with
  | nil => rfl
  | cons o ops ih =>
    have ho : o.endsAt op = true := h o (List.mem_cons_self ..)
    simp only [List.map_cons, List.cons_append, unwind, ho, if_true]
    rw [ih fun o' ho' => h o' (List.mem_cons_of_mem _ ho')]
    simp

theorem close?_operations (ops : List Operation) (pending : List Pending) (listed : List Item) :
    close? (ops.map .operation ++ pending) listed = close? pending ((ops.map .operation).reverse ++ listed) := by
  induction ops generalizing listed with
  | nil => rfl
  | cons o ops ih =>
    simp only [List.map_cons, List.cons_append, close?]
    rw [ih]
    simp

theorem drain?_operations (ops : List Operation) (pending : List Pending) (listed : List Item) :
    drain? (ops.map .operation ++ pending) listed = drain? pending ((ops.map .operation).reverse ++ listed) := by
  induction ops generalizing listed with
  | nil => rfl
  | cons o ops ih =>
    simp only [List.map_cons, List.cons_append, drain?]
    rw [ih]
    simp

/-! ## A formula that was read -/

/-- Between `s` and `s'` the formula `e` was read, and the operations `ops` of it still wait. -/
structure Reads (s : Reading) (e : Formula) (ops : List Operation) (s' : Reading) : Prop where
  pending : s'.pending = ops.map .operation ++ s.pending
  listed : (ops.map .operation).reverse ++ s'.listed = (listing e).reverse ++ s.listed
  awaiting : s'.awaiting = false

/-- The state after a negation sign, before its operand. -/
def Reading.afterNeg (s : Reading) : Reading := ⟨s.listed, .operation .neg :: s.pending, true⟩

/-- The state after the name of a function, before its argument. -/
def Reading.afterCall (s : Reading) (f : Function) : Reading :=
  ⟨s.listed, .operation (.call f) :: s.pending, true⟩

/-- The state after an opening parenthesis. -/
def Reading.afterParen (s : Reading) : Reading := ⟨s.listed, .paren :: s.pending, true⟩

/-- The state after a left operand and its operator. -/
def Reading.afterOperator (s : Reading) (a : Formula) (op : Operator) : Reading :=
  ⟨(listing a).reverse ++ s.listed, .operation (.binary op) :: s.pending, true⟩

namespace Reads

variable {s s' : Reading} {e a b : Formula} {ops : List Operation} {op : Operator}

theorem leaf (s : Reading) (a : Atom Binary64) : Reads s (.atom a) [] (s.leaf a) := ⟨rfl, rfl, rfl⟩

theorem neg (h : Reads s.afterNeg e ops s') : Reads s (.neg e) (ops ++ [.neg]) s' where
  pending := by rw [h.pending, afterNeg]; simp
  listed := by
    have hl := h.listed
    rw [afterNeg] at hl
    simp only [List.map_append, List.reverse_append, listing]
    rw [List.append_assoc, hl]
    rfl
  awaiting := h.awaiting

theorem call {f : Function} (h : Reads (s.afterCall f) e ops s') : Reads s (.call f e) (ops ++ [.call f]) s' where
  pending := by rw [h.pending, afterCall]; simp
  listed := by
    have hl := h.listed
    rw [afterCall] at hl
    simp only [List.map_append, List.reverse_append, listing]
    rw [List.append_assoc, hl]
    rfl
  awaiting := h.awaiting

theorem binary (h : Reads (s.afterOperator a op) b ops s') :
    Reads s (.binary op a b) (ops ++ [.binary op]) s' where
  pending := by rw [h.pending, afterOperator]; simp
  listed := by
    have hl := h.listed
    rw [afterOperator] at hl
    simp only [List.map_append, List.reverse_append, listing]
    rw [List.append_assoc, hl]
    simp
  awaiting := h.awaiting

/-- An operator behind a formula that is complete. -/
theorem step_symbol (h : Reads s a ops s') (hops : ∀ o ∈ ops, o.endsAt op = true) (hs : Blocks s.pending op) :
    s'.step (.symbol op) = .ok (s.afterOperator a op) := by
  simp only [Reading.step, h.awaiting, Bool.false_eq_true, if_false]
  rw [h.pending, unwind_operations hops, h.listed, hs]
  rfl

/-- The parenthesis behind a formula in parentheses. -/
theorem step_rightParen (h : Reads s.afterParen e ops s') :
    s'.step .rightParen = .ok ⟨(listing e).reverse ++ s.listed, s.pending, false⟩ := by
  simp only [Reading.step, h.awaiting, Bool.false_eq_true, if_false]
  rw [h.pending, close?_operations, h.listed]
  rfl

theorem parenthesized (s : Reading) (e : Formula) :
    Reads s e [] ⟨(listing e).reverse ++ s.listed, s.pending, false⟩ := ⟨rfl, rfl, rfl⟩

/-- At the end of the words the listing is that of the formula. -/
theorem finish (h : Reads {} e ops s') : s'.finish = .ok (listing e) := by
  simp only [Reading.finish, h.awaiting, Bool.false_eq_true, if_false]
  rw [h.pending, drain?_operations, h.listed]
  simp [drain?]

/-- At the end of the words an open parenthesis is missed. -/
theorem finish_afterParen (h : Reads s.afterParen e ops s') : s'.finish = .error .unclosed := by
  simp only [Reading.finish, h.awaiting, Bool.false_eq_true, if_false]
  rw [h.pending, drain?_operations, afterParen]
  rfl

end Reads

end PocketCalc.Rpn
