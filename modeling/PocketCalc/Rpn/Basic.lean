import PocketCalc.Formula.Error

/-!
# Formulas with every operator behind its operands

* `Operation`, `Item` — the items of such a listing: leaves, and operations on the operands before them;
* `listing` — the listing of a formula: left operand, right operand, operator;
* `build` — the formula that a listing describes, if it describes one of at most `maxDepth`;
* `length_listing` — a listing has one item for each node.
-/

namespace PocketCalc.Rpn

/-- What a formula does with operands. -/
inductive Operation where
  | neg
  | call (f : Function)
  | binary (op : Operator)
deriving DecidableEq

/-- The items of a listing. -/
inductive Item where
  | atom (a : Atom Binary64)
  | operation (o : Operation)
deriving DecidableEq

/-- The text of an operation. -/
def Operation.text : Operation → Text
  | .neg => "neg".toList
  | .call f => f.name
  | .binary op => [op.symbol]

/-- The text of an item. -/
def Item.text : Item → Text
  | .atom a => Expr.text (.atom a)
  | .operation o => o.text

/-- The texts of the items, with a blank between two. -/
def join (items : List Item) : Text := [' '].intercalate (items.map Item.text)

/-- The listing of a formula. -/
def listing : Formula → List Item
  | .atom a => [.atom a]
  | .neg e => listing e ++ [.operation .neg]
  | .call f e => listing e ++ [.operation (.call f)]
  | .binary op a b => listing a ++ listing b ++ [.operation (.binary op)]

theorem length_listing (e : Formula) : (listing e).length = e.size := by
  induction e with
  | atom _ => rfl
  | neg e ih => simp [listing, Expr.size, ih]
  | call f e ih => simp [listing, Expr.size, ih]
  | binary op a b iha ihb => simp [listing, Expr.size, iha, ihb, Nat.add_assoc]

/-! ## Reading a listing -/

/-- A formula on the stack of operands, with its depth. -/
structure Operand where
  formula : Formula
  depth : Nat
deriving DecidableEq

/-- The formula on top of the stack, unless it is too deep. -/
def push (e : Formula) (depth : Nat) (stack : List Operand) : Except ParseError (List Operand) :=
  if maxDepth < depth then .error .tooDeep else .ok (⟨e, depth⟩ :: stack)

/-- One item: a leaf goes onto the stack, an operation replaces its operands. -/
def step (stack : List Operand) : Item → Except ParseError (List Operand)
  | .atom a => .ok (⟨.atom a, 1⟩ :: stack)
  | .operation .neg =>
    match stack with
    | e :: stack => push (.neg e.formula) (e.depth + 1) stack
    | [] => .error .missingOperand
  | .operation (.call f) =>
    match stack with
    | e :: stack => push (.call f e.formula) (e.depth + 1) stack
    | [] => .error .missingOperand
  | .operation (.binary op) =>
    match stack with
    | b :: a :: stack => push (.binary op a.formula b.formula) (max a.depth b.depth + 1) stack
    | _ => .error .missingOperand

/-- The formula that is left on the stack, if it is the only one. -/
def finish : List Operand → Except ParseError Formula
  | [] => .error .empty
  | [e] => .ok e.formula
  | e :: _ => .error (.leftOver e.formula)

/-- The formula that a listing describes. -/
def build (items : List Item) : Except ParseError Formula := do
  finish (← items.foldlM step [])

end PocketCalc.Rpn
