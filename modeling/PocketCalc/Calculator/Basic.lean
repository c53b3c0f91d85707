import PocketCalc.Calculator.Compute

/-!
# The calculator

* `Calculator` — the display, the memory, the history, the settings, and what the next character does;
* `Key` — everything that can be pressed;
* `press` — the calculator after a key. Every key has an effect on every calculator; a computation that
  fails shows an error and changes nothing else.
-/

namespace PocketCalc

/-- What was pressed last, as far as it is kept. -/
inductive LastKey where
  | none | character | point | equals | task
deriving DecidableEq

/-- The keys. -/
inductive Key where
  /-- A digit, or any other character that is shown as it is. -/
  | character (c : Char)
  | point
  | sign
  /-- Clears the display and forgets the last key. -/
  | clearAll
  /-- Clears the display. -/
  | clearEntry
  | backspace
  | equals
  | task (t : Compute.Task)
  | constant (c : Constant)
  | memoryStore
  | memoryRecall
  | memoryClear
  | memoryAdd
  | memorySubtract
  | clearHistory
deriving DecidableEq

/-- The state of the calculator. -/
structure Calculator where
  display : Text := ['0']
  memory : Option Binary64 := none
  /-- The display shows a result or an error, which the next character replaces. -/
  isDone : Bool := false
  lastKey : LastKey := .none
  /-- The computations, the oldest first. -/
  history : List Text := []
  settings : Settings := {}
deriving DecidableEq

namespace Calculator

/-- The empty display. -/
def blank : Text := ['0']

/-- The display after a failure. -/
def errorText : Text := "Error".toList

/-- A text for the display, which is never empty. -/
def orBlank (t : Text) : Text := if t = [] then blank else t

/-- The memory as it is shown. -/
def memoryText? (c : Calculator) : Option Text :=
  c.memory.map (Numeral.fitted · c.settings.width)

/-- A failure is shown. -/
def fail (c : Calculator) : Calculator := { c with display := errorText, isDone := true }

/-- The value of a text, for a computation that is no failure. -/
def withValue (c : Calculator) (f : Binary64 → Calculator) : Calculator :=
  match Compute.valueOf c.display with
  | .ok v => f v
  | .error _ => c.fail

/-- A result replaces the display; the history keeps it with the text `asked` that it belongs to. -/
def answer (c : Calculator) (asked : Text) (last : LastKey) (result : Except CalcError Text) : Calculator :=
  match result with
  | .ok t =>
    { c with
      display := t
      isDone := true
      lastKey := last
      history := c.history ++ [asked ++ " = ".toList ++ t] }
  | .error _ => c.fail

/-- The number that the memory holds after a sum: the sum as it is shown. -/
def rounded (c : Calculator) (v : Binary64) : Binary64 :=
  (Numeral.read? (Numeral.fitted v c.settings.width)).getD v

/-- A character is shown behind the display, or instead of it. -/
def typeChar (c : Calculator) (ch : Char) : Calculator :=
  if c.display = blank ∨ c.isDone then
    { c with display := [ch], isDone := false, lastKey := .character }
  else { c with display := c.display ++ [ch], lastKey := .character }

/-- A point is shown behind the display unless the display has one. -/
def typePoint (c : Calculator) : Calculator :=
  if c.isDone then { c with display := "0.".toList, isDone := false, lastKey := .point }
  else if '.' ∈ c.display then { c with lastKey := .point }
  else { c with display := c.display ++ ['.'], lastKey := .point }

/-- The text with a minus sign in front, or without the one that it has. -/
def withSign : Text → Text
  | '-' :: t => orBlank t
  | t => '-' :: t

/-- The calculator after a key. -/
def press (c : Calculator) : Key → Calculator
  | .character ch => c.typeChar ch
  | .point => c.typePoint
  | .sign => { c with display := withSign c.display }
  | .clearAll => { c with display := blank, isDone := false, lastKey := .none }
  | .clearEntry => { c with display := blank, isDone := false }
  | .backspace => { c with display := orBlank c.display.dropLast }
  | .equals => c.answer c.display .equals (Compute.resultText c.display c.settings.width)
  | .task t =>
    c.answer (t.name ++ '(' :: c.display ++ [')']) .task (t.resultText c.display c.settings)
  | .constant k => { c with display := Numeral.natural k.value }
  | .memoryStore => c.withValue fun v => { c with memory := some v }
  | .memoryRecall =>
    match c.memoryText? with
    | some t => { c with display := t, isDone := false }
    | none => c
  | .memoryClear => { c with memory := none }
  | .memoryAdd =>
    c.withValue fun v =>
      match c.memory with
      | some m => { c with memory := some (c.rounded (m + v)) }
      | none => { c with memory := some v }
  | .memorySubtract =>
    c.withValue fun v =>
      match c.memory with
      | some m => { c with memory := some (c.rounded (m - v)) }
      | none => { c with memory := some (c.rounded (-v)) }
  | .clearHistory => { c with history := [] }

/-- The calculator after a change of a setting. -/
def set (c : Calculator) (s : Setting) : Calculator := { c with settings := c.settings.set s }

/-- The keys for a typed text: a point is the key of the point, any other character stands for itself. -/
def keysOf (t : Text) : List Key := t.map fun ch => if ch = '.' then .point else .character ch

/-- The calculator after some keys. -/
def pressAll (c : Calculator) (keys : List Key) : Calculator := keys.foldl press c

end Calculator

end PocketCalc
