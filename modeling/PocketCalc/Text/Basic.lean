/-!
# Texts

* `Text` — a text is the list of its characters;
* `isBlank` — the characters that separate words, by the Unicode property White_Space;
* `trim` — a text without the blanks at its two ends;
* `occursIn` — a text is part of another one.
-/

namespace PocketCalc

/-- A text, as the list of its characters. -/
abbrev Text := List Char

/-- The first and last code points of the runs of characters with the property White_Space. -/
def blankRuns : List (Nat × Nat) :=
  [(0x09, 0x0D), (0x20, 0x20), (0x85, 0x85), (0xA0, 0xA0), (0x1680, 0x1680), (0x2000, 0x200A),
    (0x2028, 0x2029), (0x202F, 0x202F), (0x205F, 0x205F), (0x3000, 0x3000)]

/-- The property has 25 characters. -/
example : blankRuns.foldl (fun n run => n + (run.2 + 1 - run.1)) 0 = 25 := by decide

/-- The character is white space. -/
def isBlank (c : Char) : Bool :=
  blankRuns.any fun run => run.1 ≤ c.toNat && c.toNat ≤ run.2

/-- The text without the blanks at its start and at its end. -/
def trim (t : Text) : Text :=
  ((t.dropWhile isBlank).reverse.dropWhile isBlank).reverse

/-- The text `part` stands somewhere in a text. -/
def occursIn (part : Text) : Text → Bool
  | [] => part.isEmpty
  | c :: t => part.isPrefixOf (c :: t) || occursIn part t

theorem occursIn_iff {part t : Text} : occursIn part t = true ↔ ∃ before behind, t = before ++ part ++ behind := by
  induction t with
  | nil => simp [occursIn, List.isEmpty_iff]
  | cons c t ih =>
    simp only [occursIn, Bool.or_eq_true, List.isPrefixOf_iff_prefix, ih]
    constructor
    · rintro (⟨behind, h⟩ | ⟨before, behind, h⟩)
      · exact ⟨[], behind, by simp [h]⟩
      · exact ⟨c :: before, behind, by simp [h]⟩
    · rintro ⟨_ | ⟨d, before⟩, behind, h⟩
      · exact .inl ⟨behind, by simpa using h.symm⟩
      · exact .inr ⟨before, behind, by simpa using (List.cons.inj h).2⟩

end PocketCalc
