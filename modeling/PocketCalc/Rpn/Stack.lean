import PocketCalc.Rpn.Basic

/-!
# From words to a listing

The words of a formula are read once, from left to right. Leaves are listed at once; operations and opening
parentheses wait on a stack until everything that binds more tightly has been listed.

* `Pending` — what waits: an operation or an opening parenthesis;
* `Reading` — the listing so far, what waits, and whether an operand has to come next;
* `Reading.step` — one more word; two operands side by side are refused, and so is an operator without its
  left operand, except for the minus sign, which is then a negation;
* `ofTokens` — the listing of the words.
-/

namespace PocketCalc.Rpn

/-- What waits for what follows it. -/
inductive Pending where
  | operation (o : Operation)
  | paren
deriving DecidableEq

/-- The state between two words. -/
structure Reading where
  /-- The items listed so far, the last one first. -/
  listed : List Item := []
  /-- What waits, the last one first. -/
  pending : List Pending := []
  /-- An operand has to come next. -/
  awaiting : Bool := true
deriving DecidableEq

/-- How tightly an operation binds: a function most of all, a negation between products and powers. -/
def Operation.precedence : Operation → Nat
  | .binary op => op.level
  | .neg => 3
  | .call _ => 5

/-- The operation is complete once the operator `op` follows its operand: it binds more tightly, or as
tightly as an operator that groups from the left. -/
def Operation.endsAt (op : Operator) (o : Operation) : Bool :=
  if op = .pow then op.level < o.precedence else op.level ≤ o.precedence

/-- What a name stands for: a leaf or a function. -/
def nameMeaning (word : Text) : Except ParseError (Atom Binary64 ⊕ Function) :=
  if word = Expr.boundName then .ok (.inl (.var word))
  else if word = Constant.pi.name then .ok (.inl (.constant .pi))
  else if word = Constant.e.name then .ok (.inl (.constant .e))
  else
    match Function.ofName? word with
    | some f => .ok (.inr f)
    | none => .error (.unknownName word)

namespace Reading

/-- A leaf is listed, and no operand has to come next. -/
def leaf (s : Reading) (a : Atom Binary64) : Reading := ⟨.atom a :: s.listed, s.pending, false⟩

/-- The operations that are complete before the operator `op` are listed. -/
def unwind (op : Operator) : List Pending → List Item → List Pending × List Item
  | .operation o :: pending, listed =>
    if o.endsAt op then unwind op pending (.operation o :: listed) else (.operation o :: pending, listed)
  | pending, listed => (pending, listed)

/-- The operations inside of the last open parenthesis are listed; none if there is no open parenthesis. -/
def close? : List Pending → List Item → Option (List Pending × List Item)
  | .operation o :: pending, listed => close? pending (.operation o :: listed)
  | .paren :: pending, listed => some (pending, listed)
  | [], _ => none

/-- All operations are listed; none if a parenthesis is open. -/
def drain? : List Pending → List Item → Option (List Item)
  | .operation o :: pending, listed => drain? pending (.operation o :: listed)
  | .paren :: _, _ => none
  | [], listed => some listed

/-- One more word. -/
def step (s : Reading) (token : Token) : Except ParseError Reading :=
  match token with
  | .number v => if s.awaiting then .ok (s.leaf (.number v)) else .error (.unexpectedToken token)
  | .name word =>
    if s.awaiting then
      match nameMeaning word with
      | .ok (.inl a) => .ok (s.leaf a)
      | .ok (.inr f) => .ok ⟨s.listed, .operation (.call f) :: s.pending, true⟩
      | .error e => .error e
    else .error (.unexpectedToken token)
  | .leftParen =>
    if s.awaiting then .ok ⟨s.listed, .paren :: s.pending, true⟩ else .error (.unexpectedToken token)
  | .rightParen =>
    if s.awaiting then .error .missingOperand
    else
      match close? s.pending s.listed with
      | some (pending, listed) => .ok ⟨listed, pending, false⟩
      | none => .error .unopened
  | .comma => .error .comma
  | .symbol op =>
    if s.awaiting then
      if op = .sub then .ok ⟨s.listed, .operation .neg :: s.pending, true⟩ else .error .missingOperand
    else
      let unwound := unwind op s.pending s.listed
      .ok ⟨unwound.2, .operation (.binary op) :: unwound.1, true⟩

/-- The listing, once all words are read. -/
def finish (s : Reading) : Except ParseError (List Item) :=
  if s.awaiting then .error .missingOperand
  else
    match drain? s.pending s.listed with
    | some listed => .ok listed.reverse
    | none => .error .unclosed

end Reading

/-- The listing of the words of a formula. -/
def ofTokens (ts : List Token) : Except ParseError (List Item) :=
  if ts = [] then .error .empty
  else do
    let s ← ts.foldlM Reading.step {}
    s.finish

end PocketCalc.Rpn
