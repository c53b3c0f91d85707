import PocketCalc.Proofs.Outcome
import PocketCalc.Proofs.Rpn.Listing

/-!
# What a listing is built as

* `Holds items stack` — the operands of a stack, each of them with its own depth and not too deep, are those that the
  items list one after the other;
* `Holds.step`, `Holds.run` — one more item, and a run over items, keep that;
* `build_eq_ok` — so that items build a formula exactly if they are its listing and it is not too deep.
-/

namespace PocketCalc.Rpn

variable {items more : List Item} {stack stack' : List Operand} {item : Item} {e : Formula} {n : Nat}

/-- The items list the operands of the stack, from the lowest one to the one on top. -/
inductive Holds : List Item → List Operand → Prop where
  | nil : Holds [] []
  | push {items : List Item} {stack : List Operand} (h : Holds items stack) (e : Formula) (hdepth : e.depth ≤ maxDepth) :
    Holds (items ++ listing e) (⟨e, e.depth⟩ :: stack)

theorem push_eq_ok : push e n stack = .ok stack' ↔ n ≤ maxDepth ∧ ⟨e, n⟩ :: stack = stack' := by
  rw [push_eq]
  split <;> simp [*]

/-- An operation takes the listings of its operands, which are the last ones, and puts itself behind them. -/
theorem Holds.step (h : Holds items stack) (hstep : step stack item = .ok stack') :
    Holds (items ++ [item]) stack' := by
  cases item with
  | atom a =>
    cases hstep
    exact h.push (.atom a) (show 1 ≤ maxDepth by decide)
  | operation o =>
    cases o with
    | neg =>
      cases h with
      | nil => cases hstep
      | push h e _ =>
        obtain ⟨hdepth, rfl⟩ := push_eq_ok.1 hstep
        rw [List.append_assoc]
        exact h.push (.neg e) hdepth
    | call f =>
      cases h with
      | nil => cases hstep
      | push h e _ =>
        obtain ⟨hdepth, rfl⟩ := push_eq_ok.1 hstep
        rw [List.append_assoc]
        exact h.push (.call f e) hdepth
    | binary op =>
      cases h with
      | nil => cases hstep
      | push h b _ =>
        cases h with
        | nil => cases hstep
        | push h a _ =>
          obtain ⟨hdepth, rfl⟩ := push_eq_ok.1 hstep
          rw [List.append_assoc, List.append_assoc, ← List.append_assoc (listing a)]
          exact h.push (.binary op a b) hdepth

theorem Holds.run (h : Holds items stack) (hrun : more.foldlM Rpn.step stack = .ok stack') :
    Holds (items ++ more) stack' := by
  induction more generalizing items stack with
  | nil =>
    cases hrun
    rwa [List.append_nil]
  | cons item more ih =>
    obtain ⟨stack₁, hstep, hmore⟩ := foldlM_cons_eq_ok.1 hrun
    rw [← List.singleton_append, ← List.append_assoc]
    exact ih (h.step hstep) hmore

theorem finish_eq_ok_iff : finish stack = .ok e ↔ ∃ n, stack = [⟨e, n⟩] := by
  rcases stack with _ | ⟨⟨e', n⟩, _ | ⟨o, stack⟩⟩ <;> simp [finish]

/-- **Building is the inverse of listing**, as far as the depth allows. -/
theorem build_eq_ok : build items = .ok e ↔ items = listing e ∧ e.depth ≤ maxDepth := by
  constructor
  · intro h
    obtain ⟨stack, hrun, hfinish⟩ := bind_eq_ok.1 h
    obtain ⟨n, rfl⟩ := finish_eq_ok_iff.1 hfinish
    have hholds : Holds items [⟨e, n⟩] := Holds.nil.run hrun
    cases hholds with
    | push h e hdepth =>
      cases h
      exact ⟨rfl, hdepth⟩
  · rintro ⟨rfl, hdepth⟩
    rw [build_listing, if_pos hdepth]

end PocketCalc.Rpn
