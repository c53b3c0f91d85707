import PocketCalc.Formula.Error
import PocketCalc.Numeral.Reader

/-!
# Reading the words of a text

* `word` — the longest word at the front of a text, given its first character: a symbol, a name, or a number;
* `length_word_le` — a word takes at least its first character, so reading ends;
* `tokens` — all words of a text, without the blanks between them.
-/

namespace PocketCalc.Token

/-- The words of one character. -/
def symbol? : Char → Option Token
  | '(' => some .leftParen
  | ')' => some .rightParen
  | ',' => some .comma
  | '+' => some (.symbol .add)
  | '-' | '−' => some (.symbol .sub)
  | '*' | '×' => some (.symbol .mul)
  | '/' | '÷' => some (.symbol .div)
  | '^' => some (.symbol .pow)
  | '%' => some (.symbol .mod)
  | 'π' => some (.name "pi".toList)
  | '√' => some (.name "sqrt".toList)
  | _ => none

/-- A name starts with a letter or an underscore. -/
def startsName (c : Char) : Bool := c.isAlpha || c = '_'

/-- A name goes on with letters, digits and underscores. -/
def continuesName (c : Char) : Bool := c.isAlphanum || c = '_'

/-- A number is made of digits and points. -/
def isNumeric (c : Char) : Bool := c.isDigit || c = '.'

/-- A number starts with a digit, or with a point that a digit follows. -/
def startsNumber (c : Char) (t : Text) : Bool :=
  c.isDigit || c = '.' && (t.head?.any Char.isDigit)

/-- The sign at the front, and what follows it. -/
def splitSign : Text → Text × Text
  | c :: t => if c = '+' || c = '-' then ([c], t) else ([], c :: t)
  | [] => ([], [])

/-- The exponent at the front, and what follows it: an exponent mark, an optional sign and digits, or
nothing at all if there are no digits. -/
def splitExponent : Text → Text × Text
  | c :: t =>
    let sign := splitSign t
    let digits := sign.2.takeWhile Char.isDigit
    if Numeral.isExponentMark c && digits ≠ [] then
      (c :: sign.1 ++ digits, sign.2.dropWhile Char.isDigit)
    else ([], c :: t)
  | [] => ([], [])

/-- The number that the digits and points `body` and the exponent `power` make. -/
def numberOf (body power : Text) : Except ParseError Token :=
  if 1 < body.count '.' then .error (.badNumber (body ++ power))
  else
    match Numeral.read? (body ++ power) with
    | some v => .ok (.number v)
    | none => .error (.badNumber (body ++ power))

/-- The longest word at the front of the text `c :: t`, and what follows it. -/
def word (c : Char) (t : Text) : Except ParseError (Token × Text) :=
  match symbol? c with
  | some token => .ok (token, t)
  | none =>
    if startsName c then
      .ok (.name ((c :: t.takeWhile continuesName).map Char.toLower), t.dropWhile continuesName)
    else if startsNumber c t then
      let power := splitExponent (t.dropWhile isNumeric)
      (numberOf (c :: t.takeWhile isNumeric) power.1).map (·, power.2)
    else .error (.unexpectedChar c)

/-! ## Words take characters -/

theorem length_dropWhile_le (p : Char → Bool) (t : Text) : (t.dropWhile p).length ≤ t.length :=
  (List.dropWhile_suffix p).length_le

theorem length_splitSign_le (t : Text) : (splitSign t).2.length ≤ t.length := by
  unfold splitSign
  split
  · split <;> simp
  · simp

theorem length_splitExponent_le (t : Text) : (splitExponent t).2.length ≤ t.length := by
  unfold splitExponent
  split
  · rename_i c t
    have hdigits := length_dropWhile_le Char.isDigit (splitSign t).2
    have hsign := length_splitSign_le t
    simp only
    split
    · simp only [List.length_cons]; omega
    · exact Nat.le_refl _
  · exact Nat.le_refl _

/-- What follows a word is not longer than what follows its first character. -/
theorem length_word_le {c : Char} {t rest : Text} {token : Token} (h : word c t = .ok (token, rest)) :
    rest.length ≤ t.length := by
  unfold word at h
  split at h
  · cases h; exact Nat.le_refl _
  · split at h
    · cases h; exact length_dropWhile_le _ _
    · split at h
      · have hexp := length_splitExponent_le (t.dropWhile isNumeric)
        have hdrop := length_dropWhile_le isNumeric t
        cases hn : numberOf (c :: t.takeWhile isNumeric) (splitExponent (t.dropWhile isNumeric)).1 with
        | error e => simp [hn, Except.map] at h
        | ok v =>
          simp only [hn, Except.map, Except.ok.injEq, Prod.mk.injEq] at h
          obtain ⟨-, rfl⟩ := h
          exact Nat.le_trans hexp hdrop
      · cases h

/-- The words of a text, or the first place where none can be read. -/
def tokens : Text → Except ParseError (List Token)
  | [] => .ok []
  | c :: t =>
    if isBlank c then tokens t
    else
      match _h : word c t with
      | .error e => .error e
      | .ok (token, rest) => (tokens rest).map (token :: ·)
termination_by t => t.length
decreasing_by
  · exact Nat.lt_succ_self _
  · exact Nat.lt_succ_of_le (length_word_le _h)

example : (tokens "2*Sin( x )".toList).toOption =
    some [.number 2, .symbol .mul, .name "sin".toList, .leftParen, .name "x".toList, .rightParen] := by
  decide +kernel

end PocketCalc.Token
