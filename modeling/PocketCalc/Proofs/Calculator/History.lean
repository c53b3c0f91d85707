import Mathlib.Data.List.DropRight
import PocketCalc.Proofs.Calculator.Run
import PocketCalc.Proofs.Formula.Call

/-!
# The history

* `Step`, `steps` — the steps of a run: a calculator and what happens to it;
* `Step.asked?`, `Step.entry?` — the text that a key has shown the value of, and what the history keeps of it;
* `history_handle` — one step adds its entry, or clears the history;
* `Step.resultText_asked` — the text of an entry has the result of the entry;
* `history_run` — the history of a run is the entries of its steps since it was last cleared, and their texts have
  the results that stand there.
-/

namespace PocketCalc.Calculator

/-! ## Steps -/

/-- A step of a run: a calculator, and what happens to it. -/
structure Step where
  before : Calculator
  input : Input
deriving DecidableEq

/-- The steps of a run. -/
def steps (c : Calculator) : List Input → List Step
  | [] => []
  | i :: inputs => ⟨c, i⟩ :: steps (c.handle i) inputs

/-- The steps behind the last one that clears the history. -/
def sinceCleared (run : List Step) : List Step := run.rtakeWhile fun s => s.input ≠ .key .clearHistory

theorem steps_concat (c : Calculator) (inputs : List Input) (i : Input) :
    steps c (inputs ++ [i]) = steps c inputs ++ [⟨c.run inputs, i⟩] := by
  induction inputs generalizing c with
  | nil => rfl
  | cons j inputs ih => simp only [List.cons_append, steps, ih, run_cons]

namespace Step

/-- The calculator after the step. -/
def after (s : Step) : Calculator := s.before.handle s.input

/-- The text whose value the step shows: the display, for the equals sign, or a function of it. There is none for
other keys, and none if the computation fails. -/
def asked? (s : Step) : Option Text :=
  let display := s.before.display
  match s.input with
  | .key .equals => if (Compute.resultText display s.before.settings.width).isOk then some display else none
  | .key (.task t) =>
    if (t.resultText display s.before.settings).isOk then some (t.name ++ '(' :: display ++ [')']) else none
  | _ => none

/-- The entry of the step: the text, and the display after it. -/
def entry? (s : Step) : Option Text := s.asked?.map fun asked => asked ++ " = ".toList ++ s.after.display

/-- The step shows the value of a formula that can be read: for a function key, the function of the formula on the
display may not be too deep. -/
def Replayable (s : Step) : Prop :=
  s.input = .key .equals ∨
    ∃ f e, s.input = .key (.task (.function f)) ∧ Formula.parse s.before.display = .ok e ∧ e.depth ≤ 255

end Step

/-! ## One step -/

variable {c : Calculator} {asked t : Text} {last : LastKey} {result : Except CalcError Text} {s : Step}

theorem history_answer (c : Calculator) (asked : Text) (last : LastKey) (result : Except CalcError Text) :
    (c.answer asked last result).history = c.history ++
      ((if result.isOk then some asked else none).map fun text =>
        text ++ " = ".toList ++ (c.answer asked last result).display).toList := by
  cases result with
  | ok t => rfl
  | error err => simp [answer, fail, Except.isOk, Except.toBool]

theorem history_press_memory {k : Key} (hk : k ∈ memoryKeys) : (c.press k).history = c.history := by
  rcases press_memory_cases hk c with ⟨m, heq⟩ | heq
  · rw [heq]
  · rw [heq]
    rfl

/-- Only a key that computes and the key that clears the history change the history. -/
theorem history_press_of_silent {k : Key} (hequals : k ≠ .equals) (htask : ∀ t, k ≠ .task t)
    (hclear : k ≠ .clearHistory) : (c.press k).history = c.history := by
  cases k with
  | equals => exact absurd rfl hequals
  | task t => exact absurd rfl (htask t)
  | clearHistory => exact absurd rfl hclear
  | character ch =>
    simp only [press, typeChar]
    split
    · rfl
    · rfl
  | point =>
    simp only [press, typePoint]
    split
    · rfl
    · split
      · rfl
      · rfl
  | memoryRecall =>
    simp only [press]
    split
    · rfl
    · rfl
  | memoryStore | memoryClear | memoryAdd | memorySubtract => exact history_press_memory (by decide)
  | sign => rfl
  | clearAll => rfl
  | clearEntry => rfl
  | backspace => rfl
  | constant k => rfl

/-- One step adds its entry to the history, or clears the history. -/
theorem history_handle (s : Step) :
    s.after.history = if s.input = .key .clearHistory then [] else s.before.history ++ s.entry?.toList := by
  obtain ⟨c, i⟩ := s
  have hsilent (h : (c.handle i).history = c.history) (hasked : Step.asked? ⟨c, i⟩ = none) :
      (c.handle i).history = c.history ++ (Step.entry? ⟨c, i⟩).toList := by
    rw [h, Step.entry?, hasked]
    exact (List.append_nil _).symm
  simp only [Step.after]
  by_cases hclear : i = .key .clearHistory
  · rw [if_pos hclear, hclear]
    rfl
  rw [if_neg hclear]
  cases i with
  | setting s => exact hsilent rfl rfl
  | key k =>
    by_cases hequals : k = .equals
    · subst hequals
      exact history_answer c _ _ _
    by_cases htask : ∃ t, k = .task t
    · obtain ⟨t, rfl⟩ := htask
      exact history_answer c _ _ _
    have htask (t : Compute.Task) : k ≠ .task t := fun h => htask ⟨t, h⟩
    refine hsilent (history_press_of_silent hequals htask fun h => hclear (congrArg Input.key h)) ?_
    unfold Step.asked?
    split
    next heq => exact absurd (Input.key.inj heq) hequals
    next t heq => exact absurd (Input.key.inj heq) (htask t)
    next => rfl

/-! ## The text of an entry -/

theorem display_answer (h : result = .ok t) : (c.answer asked last result).display = t := by
  subst h
  rfl

theorem exists_of_isOk (h : result.isOk = true) : ∃ t, result = .ok t := by
  cases result with
  | ok t => exact ⟨t, rfl⟩
  | error err => cases h

/-- The text of an entry is made of the display, and that is a formula. -/
theorem Step.exists_of_asked? (h : s.asked? = some asked) :
    (s.input = .key .equals ∧ asked = s.before.display ∧
        Compute.resultText s.before.display s.before.settings.width = .ok s.after.display) ∨
      ∃ task : Compute.Task, s.input = .key (.task task) ∧ asked = task.name ++ '(' :: s.before.display ++ [')'] ∧
        task.resultText s.before.display s.before.settings = .ok s.after.display := by
  obtain ⟨c, i⟩ := s
  unfold Step.asked? at h
  simp only at h
  split at h
  · split at h
    next hok =>
      obtain ⟨t, ht⟩ := exists_of_isOk hok
      refine .inl ⟨rfl, (Option.some.inj h).symm, ?_⟩
      rw [ht]
      exact congrArg Except.ok (display_answer ht).symm
    next => cases h
  next task =>
    split at h
    next hok =>
      obtain ⟨t, ht⟩ := exists_of_isOk hok
      refine .inr ⟨task, rfl, (Option.some.inj h).symm, ?_⟩
      rw [ht]
      exact congrArg Except.ok (display_answer ht).symm
    next => cases h
  next => cases h

/-- A task has a result only on a text that is a formula. -/
theorem exists_parse_of_resultText {task : Compute.Task} {settings : Settings} {shown : Text}
    (h : task.resultText t settings = .ok shown) : ∃ e, Formula.parse t = .ok e := by
  obtain ⟨v, hvalue, -⟩ := Compute.Task.resultText_eq_ok.1 h
  cases task with
  | function f =>
    obtain ⟨w, hw, -⟩ := Compute.value_function_eq_ok.1 hvalue
    obtain ⟨e, he, -⟩ := Compute.valueOf_eq_ok.1 hw
    exact ⟨e, he⟩
  | derivative =>
    obtain ⟨e, he, -⟩ := bind_eq_ok.1 hvalue
    exact ⟨e, mapError_eq_ok.1 he⟩
  | integral =>
    obtain ⟨e, he, -⟩ := bind_eq_ok.1 hvalue
    exact ⟨e, mapError_eq_ok.1 he⟩

/-- A text that is read has no equals sign. -/
theorem equals_not_mem_of_parse {e : Formula} (h : Formula.parse t = .ok e) : '=' ∉ t := by
  intro hmem
  have hreadable := Formula.isReadable_of_parse h '=' hmem
  revert hreadable
  decide

theorem equals_not_mem_name (task : Compute.Task) : '=' ∉ task.name := by
  cases task with
  | function f => cases f <;> decide
  | derivative => decide
  | integral => decide

/-- The text of an entry ends before the equals sign of the entry. -/
theorem Step.equals_not_mem_asked (h : s.asked? = some asked) : '=' ∉ asked := by
  rcases Step.exists_of_asked? h with ⟨-, rfl, hresult⟩ | ⟨task, -, rfl, hresult⟩
  · obtain ⟨v, hv, -⟩ := Compute.resultText_eq_ok.1 hresult
    obtain ⟨e, he, -⟩ := Compute.valueOf_eq_ok.1 hv
    exact equals_not_mem_of_parse he
  · obtain ⟨e, he⟩ := exists_parse_of_resultText hresult
    have hname := equals_not_mem_name task
    have hdisplay := equals_not_mem_of_parse he
    simp [hname, hdisplay]

/-- The result of a function key is that of the text of the function, if that can be read. -/
theorem resultText_call {f : Function} {e : Formula} {settings : Settings} {shown : Text}
    (he : Formula.parse t = .ok e) (hdepth : e.depth < maxDepth)
    (h : (Compute.Task.function f).resultText t settings = .ok shown) :
    Compute.resultText (f.name ++ '(' :: t ++ [')']) settings.width = .ok shown := by
  obtain ⟨v, hvalue, hshown⟩ := Compute.Task.resultText_eq_ok.1 h
  obtain ⟨w, hw, happly⟩ := Compute.value_function_eq_ok.1 hvalue
  obtain ⟨e', he', heval⟩ := Compute.valueOf_eq_ok.1 hw
  obtain rfl : e = e' := Except.ok.inj (he.symm.trans he')
  have hcall : Formula.parse (f.name ++ '(' :: t ++ [')']) = .ok (.call f e) := by
    rw [Formula.parse_call f he, if_pos hdepth]
  have hvalue : (Expr.call f e).evaluate none = .ok v := bind_eq_ok.2 ⟨w, heval, happly⟩
  exact Compute.resultText_eq_ok.2 ⟨v, Compute.valueOf_eq_ok.2 ⟨_, hcall, hvalue⟩, hshown⟩

/-- **The text of an entry has the result of the entry.** -/
theorem Step.resultText_asked (h : s.asked? = some asked) (hs : s.Replayable) :
    Compute.resultText asked s.before.settings.width = .ok s.after.display := by
  rcases Step.exists_of_asked? h with ⟨-, rfl, hresult⟩ | ⟨task, htask, rfl, hresult⟩
  · exact hresult
  · rcases hs with hequals | ⟨f, e, hf, he, hdepth⟩
    · rw [htask] at hequals
      cases hequals
    · obtain rfl : task = .function f := by
        rw [htask] at hf
        injections
      exact resultText_call he (Nat.lt_succ_of_le hdepth) hresult

/-! ## A run -/

theorem history_eq (inputs : List Input) :
    (run {} inputs).history = (sinceCleared (steps {} inputs)).filterMap Step.entry? := by
  induction inputs using List.reverseRecOn with
  | nil => rfl
  | append_singleton inputs i ih =>
    have hstep := history_handle ⟨run {} inputs, i⟩
    rw [run_append, steps_concat, sinceCleared, List.rtakeWhile_concat]
    simp only [run_cons, run_nil]
    by_cases hi : i = .key .clearHistory
    · simp only [hi, ne_eq, not_true_eq_false, decide_false, Bool.false_eq_true, if_false]
      rfl
    · simp only [hi, if_false, Step.after] at hstep
      simp only [hi, ne_eq, not_false_eq_true, decide_true, if_true]
      rw [hstep, ih, List.filterMap_append]
      congr 1

/-- **The history is a log that can be replayed.** It is the entries of the steps since it was last cleared: the text
that a key has shown the value of, and that value as it was shown. The text ends where the equals sign stands, and if
it is the display or a function of it that can be read, then its result is the one that the entry has. -/
theorem history_run (inputs : List Input) :
    (run {} inputs).history = (sinceCleared (steps {} inputs)).filterMap Step.entry? ∧
      ∀ s ∈ steps {} inputs, ∀ asked, s.asked? = some asked →
        '=' ∉ asked ∧
          (s.Replayable → Compute.resultText asked s.before.settings.width = .ok s.after.display) :=
  ⟨history_eq inputs, fun _ _ _ h => ⟨Step.equals_not_mem_asked h, Step.resultText_asked h⟩⟩

/-- A result that is cleared, a root, and a display that is cleared. -/
theorem history_run_root :
    let typed : List Input :=
      [.key (.character '1'), .key .equals, .key .clearHistory, .key (.character '9'), .key (.character '+'),
        .key (.character '7')]
    (run {} (typed ++ [.key (.task (.function .sqrt)), .key .clearAll])).history = ["sqrt(9+7) = 4".toList] ∧
      Compute.resultText "sqrt(9+7)".toList 10 = .ok "4".toList := by
  intro typed
  obtain ⟨hhistory, hreplay⟩ := history_run (typed ++ [.key (.task (.function .sqrt)), .key .clearAll])
  refine ⟨hhistory.trans (by decide +kernel), ?_⟩
  let root : Step := ⟨run {} typed, .key (.task (.function .sqrt))⟩
  have hmem : root ∈ steps {} (typed ++ [.key (.task (.function .sqrt)), .key .clearAll]) := by decide +kernel
  have hasked : root.asked? = some "sqrt(9+7)".toList := by decide +kernel
  have hroot : root.Replayable := by
    refine .inr ⟨.sqrt, .binary .add (.number 9) (.number 7), rfl, ?_, ?_⟩
    · decide +kernel
    · decide
  have hresult := (hreplay root hmem _ hasked).2 hroot
  have hdisplay : root.after.display = "4".toList := by decide +kernel
  have hwidth : root.before.settings.width = 10 := by decide +kernel
  rw [hdisplay, hwidth] at hresult
  exact hresult

end PocketCalc.Calculator
