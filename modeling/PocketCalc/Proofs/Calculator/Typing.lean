import PocketCalc.Proofs.Calculator.Run
import PocketCalc.Proofs.Formula.Typed

/-!
# What typing computes

A text that is typed on the keyboard need not be the text on the display.

* `typed` — the calculator after a typed text;
* `onePoint` — a text with its first point alone: a point is not shown if the display has one, even in another number;
* `shows_typed` — the display shows `onePoint` of the text, without the zeros in front;
* `answerOf_typed` — when that has the value of the text that is typed, and when it is an error.
-/

namespace PocketCalc.Calculator

/-- The calculator after a typed text. -/
def typed (w : Text) : Calculator := ({} : Calculator).pressAll (Event.text w).keys

/-- What the display shows for a text after the key of equals. -/
def screen (t : Text) (width : ℕ) : Text :=
  match Compute.resultText t width with
  | .ok shown => shown
  | .error _ => errorText

/-- The display after a typed text and the key of equals. -/
def answerOf (w : Text) : Text := ((typed w).press .equals).display

/-- A text without the points behind its first one. -/
def onePoint : Text → Text
  | [] => []
  | c :: t => if c = '.' then c :: t.filter (· ≠ '.') else c :: onePoint t

variable {w t : Text} {c : Char} {e : Formula} {width : ℕ}

/-! ## Points -/

theorem onePoint_cons (hc : c ≠ '.') (t : Text) : onePoint (c :: t) = c :: onePoint t := if_neg hc

@[simp] theorem point_mem_onePoint : '.' ∈ onePoint w ↔ '.' ∈ w := by
  induction w with
  | nil => rfl
  | cons c t ih =>
    by_cases hc : c = '.'
    · simp [onePoint, hc]
    · rw [onePoint_cons hc, List.mem_cons, List.mem_cons, ih]

/-- A point behind another one is left out. -/
theorem onePoint_concat_point (h : '.' ∈ w) : onePoint (w ++ ['.']) = onePoint w := by
  induction w with
  | nil => cases h
  | cons c t ih =>
    by_cases hc : c = '.'
    · simp [onePoint, hc]
    · have ht : '.' ∈ t := (List.mem_cons.1 h).resolve_left fun heq => hc heq.symm
      rw [List.cons_append, onePoint_cons hc, onePoint_cons hc, ih ht]

/-- Any other character is kept. -/
theorem onePoint_concat (h : c = '.' → '.' ∉ w) : onePoint (w ++ [c]) = onePoint w ++ [c] := by
  induction w with
  | nil => simp [onePoint]
  | cons d t ih =>
    by_cases hd : d = '.'
    · have hc : c ≠ '.' := fun hc => h hc (hd ▸ List.mem_cons_self ..)
      simp [onePoint, hd, hc]
    · rw [List.cons_append, onePoint_cons hd, onePoint_cons hd, ih fun hc ht => h hc (List.mem_cons_of_mem _ ht)]
      rfl

/-- A text with one point at most keeps it. -/
theorem onePoint_of_count (h : w.count '.' ≤ 1) : onePoint w = w := by
  induction w with
  | nil => rfl
  | cons c t ih =>
    by_cases hc : c = '.'
    · subst hc
      rw [List.count_cons_self] at h
      have hpoints : t.filter (· ≠ '.') = t := by
        refine List.filter_eq_self.2 fun d hd => ?_
        have hnone : '.' ∉ t := List.count_eq_zero.1 (by omega)
        simpa using fun heq : d = '.' => hnone (heq ▸ hd)
      rw [onePoint, if_pos rfl, hpoints]
    · rw [List.count_cons_of_ne hc] at h
      rw [onePoint_cons hc, ih h]

theorem onePoint_replicate_append (hc : c ≠ '.') (n : ℕ) (t : Text) :
    onePoint (List.replicate n c ++ t) = List.replicate n c ++ onePoint t := by
  induction n with
  | zero => rfl
  | succ n ih => rw [List.replicate_succ, List.cons_append, onePoint_cons hc, ih, List.cons_append]

/-! ## Zeros in front -/

theorem dropWhile_zeros (hc : c ≠ '0') (n : ℕ) (t : Text) :
    (List.replicate n '0' ++ c :: t).dropWhile (· = '0') = c :: t := by
  rw [List.dropWhile_append_of_pos fun d hd => by simpa using List.eq_of_mem_replicate hd]
  simp [hc]

theorem dropWhile_zero_concat (w : Text) (c : Char) :
    (w ++ [c]).dropWhile (· = '0') =
      if w.dropWhile (· = '0') = [] then (if c = '0' then [] else [c]) else w.dropWhile (· = '0') ++ [c] := by
  simp [List.dropWhile_append, List.dropWhile_cons]

theorem withoutZeros_eq_blank : withoutZeros w = blank ↔ w.dropWhile (· = '0') = [] := by
  have hhead {c : Char} {t : Text} (hrest : w.dropWhile (· = '0') = c :: t) : c ≠ '0' := head_dropWhile_zero hrest
  unfold withoutZeros blank
  generalize w.dropWhile (· = '0') = rest at hhead
  split
  · simp
  · simp
  next hne _ =>
    exact ⟨fun heq => absurd rfl (hhead heq), fun heq => absurd heq hne⟩

/-- A lone zero is replaced by any character but a point. -/
theorem withoutZeros_concat (w : Text) (c : Char) :
    withoutZeros (w ++ [c]) = if withoutZeros w = blank ∧ c ≠ '.' then [c] else withoutZeros w ++ [c] := by
  simp only [withoutZeros_eq_blank]
  unfold withoutZeros
  rw [dropWhile_zero_concat]
  generalize w.dropWhile (· = '0') = rest
  match rest with
  | [] =>
    by_cases hzero : c = '0'
    · simp [hzero]
    · by_cases hpoint : c = '.'
      · simp [hpoint]
      · simp [hzero, hpoint]
  | d :: t =>
    by_cases hd : d = '.'
    · simp [hd]
    · simp [hd]

theorem point_mem_withoutZeros : '.' ∈ withoutZeros w ↔ '.' ∈ w := by
  obtain ⟨n, hsplit⟩ := exists_zeros w
  have hmem : '.' ∈ w ↔ '.' ∈ w.dropWhile (· = '0') := by
    conv_lhs => rw [hsplit]
    simp [List.mem_append, List.mem_replicate]
  rw [hmem]
  unfold withoutZeros
  split
  next h => simp [h]
  next h => simp [h]
  next => rfl

/-! ## The display -/

/-- The key of a typed character. -/
theorem keyOfChar?_of_typed (hc : c = '.' ∨ c ∈ typedCharacters) :
    keyOfChar? c = some (if c = '.' then .point else .character c) := by
  rcases hc with rfl | hc
  · rfl
  · have hpoint : ¬ (c = '.' ∨ c = ',') := by
      rintro (rfl | rfl)
      · revert hc
        decide
      · revert hc
        decide
    rw [keyOfChar?, if_neg hpoint, if_pos hc, if_neg fun h => hpoint (.inl h)]

theorem typed_concat (hc : c = '.' ∨ c ∈ typedCharacters) :
    typed (w ++ [c]) = (typed w).press (if c = '.' then .point else .character c) := by
  simp [typed, Event.keys, pressAll, List.filterMap_append, keyOfChar?_of_typed hc]

/-- The calculator shows a typed text: a point is left out behind another one, and zeros are left out in front. -/
structure Shows (k : Calculator) (w : Text) : Prop where
  display : k.display = withoutZeros (onePoint w)
  isDone : k.isDone = false
  settings : k.settings = {}

variable {k : Calculator}

theorem Shows.typeChar (h : k.Shows w) (hc : c ≠ '.') : (k.typeChar c).Shows (w ++ [c]) := by
  have hnext : withoutZeros (onePoint (w ++ [c])) = if k.display = blank then [c] else k.display ++ [c] := by
    rw [onePoint_concat fun heq => absurd heq hc, withoutZeros_concat, h.display]
    simp only [hc, ne_eq, not_false_eq_true, and_true]
  rw [Calculator.typeChar, h.isDone]
  simp only [Bool.false_eq_true, or_false]
  by_cases hblank : k.display = blank
  · rw [if_pos hblank] at hnext ⊢
    exact ⟨hnext.symm, rfl, h.settings⟩
  · rw [if_neg hblank] at hnext ⊢
    exact ⟨hnext.symm, rfl, h.settings⟩

theorem Shows.typePoint (h : k.Shows w) : k.typePoint.Shows (w ++ ['.']) := by
  have hmem : '.' ∈ k.display ↔ '.' ∈ w := by rw [h.display, point_mem_withoutZeros, point_mem_onePoint]
  rw [Calculator.typePoint, if_neg (by simp [h.isDone])]
  by_cases hpoint : '.' ∈ w
  · rw [if_pos (hmem.2 hpoint)]
    exact ⟨by rw [onePoint_concat_point hpoint]; exact h.display, h.isDone, h.settings⟩
  · rw [if_neg fun hdisplay => hpoint (hmem.1 hdisplay)]
    refine ⟨?_, h.isDone, h.settings⟩
    rw [onePoint_concat fun _ => hpoint, withoutZeros_concat, if_neg fun hand => hand.2 rfl, h.display]

theorem shows_typed (hw : IsTyped w) : (typed w).Shows w := by
  induction w using List.reverseRecOn with
  | nil => exact ⟨rfl, rfl, rfl⟩
  | append_singleton w c ih =>
    have hbefore : (typed w).Shows w := ih fun d hd => hw d (List.mem_append_left _ hd)
    rw [typed_concat (hw c (List.mem_append_right _ (List.mem_singleton_self c)))]
    by_cases hc : c = '.'
    · subst hc
      exact hbefore.typePoint
    · rw [if_neg hc]
      exact hbefore.typeChar hc

/-! ## The key of equals -/

theorem press_equals_display (k : Calculator) : (k.press .equals).display = screen k.display k.settings.width := by
  unfold press screen answer
  cases Compute.resultText k.display k.settings.width with
  | ok shown => rfl
  | error err => rfl

theorem screen_congr (h : ∀ shown, Compute.resultText w width = .ok shown ↔ Compute.resultText t width = .ok shown) :
    screen w width = screen t width := by
  unfold screen
  cases hw : Compute.resultText w width with
  | ok shown => rw [(h shown).1 hw]
  | error err =>
    cases ht : Compute.resultText t width with
    | ok shown =>
      rw [(h shown).2 ht] at hw
      cases hw
    | error err' => rfl

/-- A text that is no formula has no result. -/
theorem screen_of_parse (h : ∀ e, Formula.parse t ≠ .ok e) : screen t width = errorText := by
  unfold screen
  cases hresult : Compute.resultText t width with
  | ok shown =>
    obtain ⟨v, hv, -⟩ := Compute.resultText_eq_ok.1 hresult
    obtain ⟨e, he, -⟩ := Compute.valueOf_eq_ok.1 hv
    exact absurd he (h e)
  | error err => rfl

/-- Without the zeros, the display starts with their operator. -/
theorem withoutZeros_operator {op : Operator} (n : ℕ) (t : Text) :
    withoutZeros (onePoint (List.replicate n '0' ++ op.symbol :: t)) = op.symbol :: onePoint t := by
  have hpoint : op.symbol ≠ '.' := by cases op <;> decide
  have hzero : op.symbol ≠ '0' := by cases op <;> decide
  rw [onePoint_replicate_append (by decide), onePoint_cons hpoint, withoutZeros, dropWhile_zeros hzero]
  split
  next h => cases h
  next h => exact absurd (List.cons.inj h).1 hpoint
  next => rfl

/-- **What a typed formula computes.** The display shows the text without the points behind its first one and without
the zeros in front, and the key of equals shows the result of that. It is the result of the text that is typed if this
has one point at most and does not start with zeros before an operator that is no sign; it is an error if it does. -/
theorem answerOf_typed (hw : IsTyped w) (h : Formula.parse w = .ok e) :
    (typed w).display = withoutZeros (onePoint w) ∧
      answerOf w = screen (withoutZeros (onePoint w)) ({} : Settings).width ∧
      (w.count '.' ≤ 1 → ¬ ZerosBeforeOperator w → answerOf w = screen w ({} : Settings).width) ∧
      (ZerosBeforeOperator w → answerOf w = errorText) := by
  have hshows := shows_typed hw
  have hanswer : answerOf w = screen (withoutZeros (onePoint w)) ({} : Settings).width := by
    rw [answerOf, press_equals_display, hshows.display, hshows.settings]
  refine ⟨hshows.display, hanswer, fun hpoints hzeros => ?_, ?_⟩
  · rw [hanswer, onePoint_of_count hpoints]
    exact screen_congr fun shown => resultText_withoutZeros hw h hzeros (by decide)
  · rintro ⟨n, op, hop, t, rfl⟩
    rw [hanswer, withoutZeros_operator]
    exact screen_of_parse fun e => parse_operator hop _

/-- A text with a point and with zeros in front that make no difference, and one with zeros that do. -/
theorem answerOf_typed_zeros :
    answerOf "00-.5*4".toList = "-2".toList ∧ screen "00-.5*4".toList 10 = "-2".toList ∧
      answerOf "00*3".toList = errorText := by
  have htyped : IsTyped "00-.5*4".toList ∧ IsTyped "00*3".toList := by decide +kernel
  have hminus : Compute.resultText "00-.5*4".toList 10 = .ok "-2".toList := by decide +kernel
  have hscreen : screen "00-.5*4".toList 10 = "-2".toList := by rw [screen, hminus]
  obtain ⟨v, hv, -⟩ := Compute.resultText_eq_ok.1 hminus
  obtain ⟨e, he, -⟩ := Compute.valueOf_eq_ok.1 hv
  have htimes : Formula.parse "00*3".toList = .ok (.binary .mul (.number 0) (.number 3)) := by decide +kernel
  have hzeros : ¬ ZerosBeforeOperator "00-.5*4".toList := by
    rintro ⟨n, op, hop, t, heq⟩
    have hdrop := congrArg (List.dropWhile (· = '0')) heq
    rw [dropWhile_zeros (by revert hop; cases op <;> decide)] at hdrop
    have hsign : '-' = op.symbol := (List.cons.inj hdrop).1
    revert hop hsign
    cases op <;> decide
  refine ⟨((answerOf_typed htyped.1 he).2.2.1 (by decide) hzeros).trans hscreen, hscreen, ?_⟩
  exact (answerOf_typed htyped.2 htimes).2.2.2 ⟨1, .mul, by decide, ['3'], rfl⟩

/-- **Not every formula has its value shown.** The second point of a sum is left out, and the zero that a sum starts
with is replaced by the operator. -/
theorem answerOf_typed_points :
    (answerOf "1.5+2.5".toList = "26.5".toList ∧ screen "1.5+2.5".toList 10 = "4".toList) ∧
      (answerOf "0+1".toList = errorText ∧ screen "0+1".toList 10 = "1".toList) ∧
      ¬ ∀ w e, IsTyped w → Formula.parse w = .ok e → answerOf w = screen w ({} : Settings).width := by
  have hpoints : answerOf "1.5+2.5".toList = "26.5".toList ∧ screen "1.5+2.5".toList 10 = "4".toList := by
    decide +kernel
  have hzero : answerOf "0+1".toList = errorText ∧ screen "0+1".toList 10 = "1".toList := by decide +kernel
  have hparse : Formula.parse "0+1".toList = .ok (.binary .add (.number 0) (.number 1)) := by decide +kernel
  refine ⟨hpoints, hzero, fun hall => ?_⟩
  have hequal := hall _ _ (by decide +kernel) hparse
  rw [hzero.1] at hequal
  exact absurd (hequal.trans hzero.2) (by decide)

end PocketCalc.Calculator
