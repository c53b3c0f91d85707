import PocketCalc.Binary64.Whole
import PocketCalc.Numeral.Reader

/-!
# The toolkit of the window

The window is put together of the fields of a toolkit, and does not say itself how they treat what is in them.

* `Event` — the events of the keyboard;
* `Toolkit` — what the window leaves to its fields: numbers that are shown, numbers that are entered, the editing
  of a text, and the caret of a text that is edited no more;
* `EditedText` — a text with a caret, `readField?` — the number that a text stands for;
* `Toolkit.standard` — the toolkit of the program. A number in a field without limits is shown as it is, and one in
  a field with limits is moved into them.
-/

namespace PocketCalc

/-- A keyboard event. -/
inductive Event where
  | text (t : Text)
  | enter
  | backspace
  | escape
  /-- A key that nothing listens to, or the release of a key. -/
  | other
deriving DecidableEq

/-- What the fields of a window do. -/
structure Toolkit where
  /-- What a number becomes when it is shown in a field without limits. -/
  number : Binary64 → Binary64
  /-- What a whole number becomes when it is shown in a field between two limits. -/
  whole : (low high : Nat) → Nat → Nat
  /-- The number that a text makes in a field without limits, if it makes one. -/
  enterNumber? : Text → Option Binary64
  /-- The whole number that a text makes in a field between two limits, if it makes one. -/
  enterWhole? : (low high : Nat) → Text → Option Nat
  /-- The text of a field and its caret after some events; the caret is gone if an Enter has ended the input. -/
  edit : Text → (caret : Nat) → List Event → Text × Option Nat
  /-- The caret of a field that is left: by an Escape, by a click beside it, or since it is not shown any more. -/
  leave : Option Nat → Option Nat

/-! ## Texts -/

/-- A text with a caret in it. -/
structure EditedText where
  text : Text
  caret : Nat

namespace EditedText

/-- Line breaks end the input of a field; they are no text of it. -/
def isLineBreak (t : Text) : Bool := t = ['\n'] || t = ['\r']

/-- The text before the caret. -/
def before (s : EditedText) : Text := s.text.take s.caret

/-- The text behind the caret. -/
def behind (s : EditedText) : Text := s.text.drop s.caret

/-- A typed text goes in at the caret. -/
def type (s : EditedText) (t : Text) : EditedText :=
  if isLineBreak t then s else ⟨s.before ++ t ++ s.behind, s.before.length + t.length⟩

/-- The character before the caret goes away. -/
def erase (s : EditedText) : EditedText := ⟨s.before.dropLast ++ s.behind, s.before.length - 1⟩

/-- The text after some events and its caret, up to an Enter. -/
def edit (s : EditedText) : List Event → Text × Option Nat
  | [] => (s.text, some s.caret)
  | .text t :: events => (s.type t).edit events
  | .backspace :: events => s.erase.edit events
  | .enter :: _ => (s.text, none)
  | _ :: events => s.edit events

end EditedText

/-! ## Numbers -/

/-- The number in the text of a field. Blanks between its characters do not matter, and the minus sign
may be the mathematical one. -/
def readField? (t : Text) : Option Binary64 :=
  Numeral.read? ((t.filter fun c => !isBlank c).map fun c => if c = '−' then '-' else c)

/-- A number in a field without limits. What is no number is beyond all numbers, with the sign it has. -/
def Binary64.shown (v : Binary64) : Binary64 :=
  if v.isNaN then (if v.isNegative then -.infinity else .infinity) else v

/-- A number as a whole number between two limits; what is no number counts as beyond all numbers. -/
def Binary64.clampWhole (v : Binary64) (low high : Nat) : Nat :=
  let v := v.shown
  if v.le (.ofNat low) then low else if (Binary64.ofNat high).le v then high else v.floorAbs

/-- The toolkit of the program. -/
def Toolkit.standard : Toolkit where
  number := Binary64.shown
  whole low high n := max low (min n high)
  enterNumber? t := (readField? t).map Binary64.shown
  enterWhole? low high t := (readField? t).map fun v => v.clampWhole low high
  edit t caret events := EditedText.edit ⟨t, min caret t.length⟩ events
  leave _ := none

end PocketCalc
