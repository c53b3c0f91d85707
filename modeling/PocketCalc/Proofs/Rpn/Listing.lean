import PocketCalc.Rpn.Basic

/-!
# Reading a listing back

`build_listing` — the listing of a formula builds that formula, unless it is deeper than `maxDepth`; then it is
refused for its depth and for nothing else.
-/

namespace PocketCalc.Rpn

theorem push_eq (e : Formula) (n : Nat) (stack : List Operand) :
    push e n stack = if n ≤ maxDepth then .ok (⟨e, n⟩ :: stack) else .error .tooDeep := by
  unfold push
  by_cases h : n ≤ maxDepth
  · rw [if_neg (by omega), if_pos h]
  · rw [if_pos (by omega), if_neg h]

/-- An operation with one operand, behind the listing of the operand. -/
theorem foldlM_one {e e' : Formula} {o : Operation} {items : List Item} {stack : List Operand}
    (he : items.foldlM step stack = if e.depth ≤ maxDepth then .ok (⟨e, e.depth⟩ :: stack) else .error .tooDeep)
    (hstep : step (⟨e, e.depth⟩ :: stack) (.operation o) = push e' (e.depth + 1) stack)
    (hdepth : e'.depth = e.depth + 1) :
    (items ++ [Item.operation o]).foldlM step stack =
      if e'.depth ≤ maxDepth then .ok (⟨e', e'.depth⟩ :: stack) else .error .tooDeep := by
  rw [List.foldlM_append, he, hdepth]
  by_cases h : e.depth ≤ maxDepth
  · rw [if_pos h]
    exact (bind_pure _).trans (hstep.trans (push_eq ..))
  · rw [if_neg h, if_neg (by omega)]
    rfl

/-- The formula of a listing is put on the stack with its depth, above whatever lies there. -/
theorem foldlM_listing (e : Formula) (stack : List Operand) :
    (listing e).foldlM step stack =
      if e.depth ≤ maxDepth then .ok (⟨e, e.depth⟩ :: stack) else .error .tooDeep := by
  induction e generalizing stack with
  | atom a => rfl
  | neg e ih => exact foldlM_one (o := .neg) (ih stack) rfl rfl
  | call f e ih => exact foldlM_one (o := .call f) (ih stack) rfl rfl
  | binary op a b iha ihb =>
    rw [listing, List.foldlM_append, List.foldlM_append, iha, Expr.depth]
    by_cases ha : a.depth ≤ maxDepth
    · rw [if_pos ha]
      by_cases hb : b.depth ≤ maxDepth
      · have hstep : (listing b).foldlM step (⟨a, a.depth⟩ :: stack) =
            .ok (⟨b, b.depth⟩ :: ⟨a, a.depth⟩ :: stack) := by rw [ihb, if_pos hb]
        show ((listing b).foldlM step (⟨a, a.depth⟩ :: stack) >>= _) = _
        rw [hstep]
        exact (bind_pure _).trans (push_eq ..)
      · show ((listing b).foldlM step (⟨a, a.depth⟩ :: stack) >>= _) = _
        rw [ihb, if_neg hb, if_neg (by omega)]
        rfl
    · rw [if_neg ha, if_neg (by omega)]
      rfl

/-- **A listing builds its formula**, as far as the depth allows. -/
theorem build_listing (e : Formula) :
    build (listing e) = if e.depth ≤ maxDepth then .ok e else .error .tooDeep := by
  unfold build
  rw [foldlM_listing]
  split <;> rfl

end PocketCalc.Rpn
