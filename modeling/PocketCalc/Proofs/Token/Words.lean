import PocketCalc.Proofs.Expr.Unsigned
import PocketCalc.Proofs.Outcome

/-!
# The words of the text of a formula

* `Lexes t ts` — in front of everything that ends a word, the text `t` is read as the words `ts`;
* `words` — the words of a formula at a place that asks for a level, as `write` is its text;
* `lexes_write` — the text of a formula without minus signs in its numbers is read as its words.
-/

namespace PocketCalc.Token

open Spelling PocketCalc.Expr

variable {c : Char} {t t' rest : Text} {token : Token} {ts ts' : List Token} {e : Formula}

/-! ## One word -/

theorem tokens_nil : tokens [] = .ok [] := by rw [tokens]

theorem tokens_blank (hc : isBlank c = true) : tokens (c :: t) = tokens t := by rw [tokens, if_pos hc]

theorem tokens_word (hc : isBlank c = false) (h : word c t = .ok (token, rest)) :
    tokens (c :: t) = (tokens rest).map (token :: ·) := by
  rw [tokens, if_neg (by rw [hc]; decide)]
  split
  next err herr =>
    rw [h] at herr
    cases herr
  next token' rest' hok =>
    rw [h] at hok
    cases hok
    rfl

theorem tokens_leftParen (t : Text) : tokens ('(' :: t) = (tokens t).map (.leftParen :: ·) := tokens_word rfl rfl

theorem tokens_rightParen (t : Text) : tokens (')' :: t) = (tokens t).map (.rightParen :: ·) := tokens_word rfl rfl

theorem tokens_symbol (op : Operator) (t : Text) : tokens (op.symbol :: t) = (tokens t).map (.symbol op :: ·) := by
  cases op <;> exact tokens_word rfl rfl

theorem tokens_spelling (s : Spelling) (hrest : Ends rest) :
    tokens (s.text ++ rest) = (tokens rest).map (.number s.decimal.toBinary64 :: ·) := by
  obtain ⟨c, t, htext, hc⟩ := s.exists_text
  rw [htext]
  exact tokens_word (isBlank_of_isDigit hc) (s.word_text htext hrest)

theorem isBlank_of_continuesName (h : continuesName c = true) : isBlank c = false := by
  have hval : c.val.toNat = c.toNat := rfl
  have hA : 'A'.val.toNat = 65 := rfl
  have hZ : 'Z'.val.toNat = 90 := rfl
  have ha : 'a'.val.toNat = 97 := rfl
  have hz : 'z'.val.toNat = 122 := rfl
  have h0 : '0'.val.toNat = 48 := rfl
  have h9 : '9'.val.toNat = 57 := rfl
  simp only [continuesName, Char.isAlphanum, Char.isAlpha, Char.isUpper, Char.isLower, Char.isDigit, ge_iff_le,
    UInt32.le_iff_toNat_le, Bool.or_eq_true, Bool.and_eq_true, decide_eq_true_eq] at h
  rcases h with h | rfl
  · simp only [isBlank, blankRuns, List.any_cons, List.any_nil, Bool.or_false, Bool.or_eq_false_iff,
      Bool.and_eq_false_iff, decide_eq_false_iff_not]
    omega
  · rfl

/-- The text is a name in small letters. -/
def isName : Text → Bool
  | [] => false
  | c :: t =>
    !isBlank c && symbol? c = none && startsName c && t.all continuesName && (c :: t).map Char.toLower = c :: t

theorem isName_function (f : Function) : isName f.name = true := by cases f <;> rfl

theorem isName_constant (c : Constant) : isName c.name = true := by cases c <;> rfl

/-- A name is one word, unless it goes on. -/
theorem tokens_name (ht : isName t = true) (hrest : ∀ c ∈ rest.head?, continuesName c = false) :
    tokens (t ++ rest) = (tokens rest).map (.name t :: ·) := by
  cases t with
  | nil => cases ht
  | cons c t =>
    simp only [isName, Bool.and_eq_true, Bool.not_eq_true', decide_eq_true_eq, List.all_eq_true] at ht
    obtain ⟨⟨⟨⟨hblank, hsymbol⟩, hstarts⟩, hcontinues⟩, hlower⟩ := ht
    show tokens (c :: (t ++ rest)) = _
    refine tokens_word hblank ?_
    unfold word
    rw [hsymbol]
    simp only [hstarts, if_true]
    rw [takeWhile_append_eq hcontinues hrest, dropWhile_append_eq hcontinues hrest, hlower]

/-! ## Several words -/

/-- In front of everything that ends a word, the text is read as these words. -/
def Lexes (t : Text) (ts : List Token) :
    Prop := ∀ rest, Ends rest → tokens (t ++ rest) = (tokens rest).map (ts ++ ·)

theorem ends_nil : Ends [] := nofun

theorem ends_cons (hc : c = ' ' ∨ c = ')' ∨ c = '^') (t : Text) : Ends (c :: t) := by
  intro d hd
  cases hd
  exact hc

namespace Lexes

theorem spelling (s : Spelling) : Lexes s.text [.number s.decimal.toBinary64] :=
  fun _ hrest => tokens_spelling s hrest

theorem name (ht : isName t = true) : Lexes t [.name t] :=
  fun _ hrest => tokens_name ht (hrest.head? rfl rfl rfl)

theorem parenthesized (h : Lexes t ts) : Lexes (parenthesized t) (.leftParen :: ts ++ [.rightParen]) := by
  intro rest _
  have hinner := h (')' :: rest) (ends_cons (.inr (.inl rfl)) rest)
  simp only [Expr.parenthesized, List.cons_append, List.append_assoc, List.nil_append]
  rw [tokens_leftParen, hinner, tokens_rightParen, map_map, map_map]

theorem neg (h : Lexes t ts) : Lexes ('-' :: t) (.symbol .sub :: ts) := by
  intro rest hrest
  rw [List.cons_append, show '-' = Operator.sub.symbol from rfl, tokens_symbol, h rest hrest, map_map]
  rfl

theorem call (f : Function) (h : Lexes t ts) :
    Lexes (f.name ++ Expr.parenthesized t) (.name f.name :: .leftParen :: ts ++ [.rightParen]) := by
  intro rest hrest
  have hargument := h.parenthesized rest hrest
  rw [List.append_assoc, tokens_name (isName_function f), hargument, map_map]
  · rfl
  · intro c hc
    cases hc
    rfl

/-- An operator without blanks: only the powers have one that ends a number. -/
theorem pow (h : Lexes t ts) (h' : Lexes t' ts') : Lexes (t ++ '^' :: t') (ts ++ .symbol .pow :: ts') := by
  intro rest hrest
  simp only [List.append_assoc, List.cons_append]
  rw [h _ (ends_cons (.inr (.inr rfl)) _), show '^' = Operator.pow.symbol from rfl, tokens_symbol, h' rest hrest,
    map_map, map_map]

/-- An operator between blanks. -/
theorem operator (op : Operator) (h : Lexes t ts) (h' : Lexes t' ts') :
    Lexes (t ++ [' ', op.symbol, ' '] ++ t') (ts ++ .symbol op :: ts') := by
  intro rest hrest
  have hblank : isBlank ' ' = true := rfl
  simp only [List.append_assoc, List.cons_append, List.nil_append]
  rw [h _ (ends_cons (.inl rfl) _), tokens_blank hblank, tokens_symbol, tokens_blank hblank, h' rest hrest,
    map_map,
    map_map]

end Lexes

/-! ## The words of a formula -/

/-- The word of a leaf. -/
def atomWord : Atom Binary64 → Token
  | .number v => .number v
  | .var word => .name word
  | .constant c => .name c.name

/-- Words in parentheses, if what they say binds less tightly than its place asks for. -/
def wordsAt (asked given : ℕ) (ts : List Token) : List Token :=
  if given < asked then .leftParen :: ts ++ [.rightParen] else ts

/-- The words of a formula at a place that asks for a level. -/
def words (asked : ℕ) : Formula → List Token
  | .atom a => wordsAt asked (level (.atom a)) [atomWord a]
  | .neg e => wordsAt asked negLevel (.symbol .sub :: words negLevel e)
  | .call f e => .name f.name :: .leftParen :: words 0 e ++ [.rightParen]
  | .binary .pow a b =>
    wordsAt asked Operator.pow.level (words topLevel a ++ .symbol .pow :: words Operator.pow.level b)
  | .binary op a b => wordsAt asked op.level (words op.level a ++ .symbol op :: words (op.level + 1) b)

theorem Lexes.atLevel (h : Lexes t ts) (asked given : ℕ) :
    Lexes (atLevel asked given t) (wordsAt asked given ts) := by
  unfold Expr.atLevel wordsAt
  split
  · exact h.parenthesized
  · exact h

theorem lexes_atomText {a : Atom Binary64} (ha : a.Writable) (ha' : a.Unsigned) :
    Lexes (atomText a) [atomWord a] := by
  cases a with
  | number v =>
    obtain ⟨s, htext, hvalue⟩ := Numeral.exists_spelling_natural ha ha'
    have hs := Lexes.spelling s
    rw [htext, hvalue] at hs
    exact hs
  | var word =>
    obtain rfl : word = boundName := ha
    exact Lexes.name (t := boundName) rfl
  | constant c => exact Lexes.name (isName_constant c)

/-- **The text of a formula is read as its words.** -/
theorem lexes_write (h : e.AllAtoms fun a => a.Writable ∧ a.Unsigned) (asked : ℕ) :
    Lexes (e.write asked) (words asked e) := by
  induction e generalizing asked with
  | atom a => exact (lexes_atomText h.1 h.2).atLevel asked _
  | neg e ih => exact (ih h negLevel).neg.atLevel asked _
  | call f e ih => exact (ih h 0).call f
  | binary op a b iha ihb =>
    -- the powers ask for other levels, and have no blanks
    cases op with
    | pow => exact ((iha h.1 _).pow (ihb h.2 _)).atLevel asked _
    | add | sub | mul | div | mod => exact ((iha h.1 _).operator _ (ihb h.2 _)).atLevel asked _

end PocketCalc.Token
