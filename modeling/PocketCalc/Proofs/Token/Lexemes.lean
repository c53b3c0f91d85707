import PocketCalc.Proofs.Token.LeadingZeros

/-!
# The lexical grammar

* `IsIdentifier`, `IsNumber`, `Lexeme` — what can be a word: a symbol, a name, or a number;
* `exists_read_of_isNumber` — every text that is a number by the grammar is read as one;
* `Longest` — a word, such that none that starts at the same place is longer;
* `reads_word` — what the reader of one word takes, and why it fails;
* `Scans` — a text cut into blanks and longest words, from the left to the right;
* `tokens_scans` — the words of a text are those of such a cut, and reading fails exactly at the first place where
  no piece comes next.
-/

namespace PocketCalc.Token

open Numeral Spelling

variable {c d : Char} {t t' l l' rest rest' run run' power power' body : Text} {token token' : Token}
  {ts : List Token} {err : ParseError}

/-! ## Words by the grammar -/

/-- A letter or an underscore, and then letters, digits and underscores. -/
def IsIdentifier (t : Text) : Prop :=
  ∃ c t', t = c :: t' ∧ startsName c = true ∧ ∀ d ∈ t', continuesName d = true

/-- The text starts as a number does: with a digit, or with a point that a digit follows. -/
def StartsAsNumber (t : Text) : Prop := ∃ c t', t = c :: t' ∧ startsNumber c t' = true

/-- Digits with at most one point, with a digit at the front or behind the point at the front. -/
structure IsMantissa (t : Text) : Prop where
  start : StartsAsNumber t
  numeric : ∀ c ∈ t, isNumeric c = true
  point : t.count '.' ≤ 1

/-- A letter `e` of either case, a sign or none, and digits. -/
def IsExponent (t : Text) : Prop :=
  ∃ mark sign digits, t = mark :: (sign ++ digits) ∧ (mark = 'e' ∨ mark = 'E') ∧
    (sign = [] ∨ sign = ['+'] ∨ sign = ['-']) ∧ digits ≠ [] ∧ ∀ c ∈ digits, c.isDigit = true

/-- An exponent, or nothing. -/
def IsPower (t : Text) : Prop := t = [] ∨ IsExponent t

/-- Digits with at most one point, and an exponent or none. -/
def IsNumber (t : Text) : Prop := ∃ body power, t = body ++ power ∧ IsMantissa body ∧ IsPower power

/-- The text is a word: a symbol, a name, of which the letters are made small, or a number. -/
inductive Lexeme : Text → Token → Prop where
  | symbol {c : Char} {token : Token} (h : symbol? c = some token) : Lexeme [c] token
  | name {t : Text} (h : IsIdentifier t) : Lexeme t (.name (t.map Char.toLower))
  | number {t : Text} {v : Binary64} (h : IsNumber t) (hv : read? t = some v) : Lexeme t (.number v)

/-- The text `t` before `rest` is a word, and none that starts at the same place is longer. -/
structure Longest (t : Text) (token : Token) (rest : Text) : Prop where
  lexeme : Lexeme t token
  length_le : ∀ t' token', Lexeme t' token' → t' <+: t ++ rest → t'.length ≤ t.length

/-- The exponent `power` before `rest`, or nothing, such that no exponent there is longer. -/
structure LongestPower (power rest : Text) : Prop where
  isPower : IsPower power
  length_le : ∀ p, IsPower p → p <+: power ++ rest → p.length ≤ power.length

/-- All the digits and points before `rest`, which start as a number does, with two points or more. -/
structure BadRun (run rest : Text) : Prop where
  start : StartsAsNumber run
  numeric : ∀ c ∈ run, isNumeric c = true
  ends : ∀ c ∈ rest.head?, isNumeric c = false
  points : 2 ≤ run.count '.'

/-- At the front of the text are digits with two points or more among them. -/
def StartsBad (t : Text) : Prop := ∃ run rest, t = run ++ rest ∧ BadRun run rest

/-! ## First characters -/

theorem symbol?_of_startsName (h : startsName c = true) : symbol? c = none := by
  unfold symbol?
  split
  all_goals first | rfl | exact absurd h (by decide)

theorem isBlank_of_symbol? (h : symbol? c = some token) : isBlank c = false := by
  unfold symbol? at h
  split at h
  all_goals first | rfl | cases h

theorem startsName_of_isNumeric (h : isNumeric c = true) : startsName c = false := by
  simp only [isNumeric, Bool.or_eq_true, decide_eq_true_eq] at h
  rcases h with hdigit | rfl
  · simp [startsName, isAlpha_of_isDigit hdigit, ne_of_isDigit hdigit (show '_'.isDigit = false from rfl)]
  · rfl

theorem symbol?_of_isNumeric (h : isNumeric c = true) : symbol? c = none := by
  simp only [isNumeric, Bool.or_eq_true, decide_eq_true_eq] at h
  rcases h with hdigit | rfl
  · exact symbol?_of_isDigit hdigit
  · rfl

theorem continuesName_of_startsName (h : startsName c = true) : continuesName c = true := by
  simp only [startsName, Bool.or_eq_true] at h
  simp only [continuesName, Char.isAlphanum, Bool.or_eq_true]
  exact h.imp_left .inl

/-- The first character of a word tells of which kind it is. -/
theorem Lexeme.first (h : Lexeme t token) :
    ∃ c t', t = c :: t' ∧ (symbol? c = some token ∧ t' = [] ∨
      startsName c = true ∧ (∀ d ∈ t', continuesName d = true) ∧ token = .name (t.map Char.toLower) ∨
      startsNumber c t' = true ∧ IsNumber t ∧ ∃ v, token = .number v ∧ read? t = some v) := by
  cases h with
  | symbol h => exact ⟨_, [], rfl, .inl ⟨h, rfl⟩⟩
  | name h =>
    obtain ⟨c, t', rfl, hstarts, hcontinues⟩ := h
    exact ⟨c, t', rfl, .inr (.inl ⟨hstarts, hcontinues, rfl⟩)⟩
  | @number _ v h hv =>
    obtain ⟨body, power, rfl, hbody, hpower⟩ := id h
    obtain ⟨c, t', rfl, hstarts⟩ := hbody.start
    exact ⟨c, t' ++ power, rfl,
      .inr (.inr ⟨startsNumber_mono hstarts (List.prefix_append ..), h, v, rfl, hv⟩)⟩

section Kinds

variable {symbol : Token}

theorem Lexeme.of_symbol (h : Lexeme (c :: t) token) (hc : symbol? c = some symbol) : t = [] ∧ token = symbol := by
  obtain ⟨c', t', heq, hkind⟩ := h.first
  cases heq
  rcases hkind with ⟨hsymbol, ht⟩ | ⟨hname, -⟩ | ⟨hnumber, -⟩
  · exact ⟨ht, Option.some.inj (hsymbol.symm.trans hc)⟩
  · rw [symbol?_of_startsName hname] at hc
    cases hc
  · rw [symbol?_of_isNumeric (isNumeric_of_startsNumber hnumber)] at hc
    cases hc

theorem Lexeme.of_startsName (h : Lexeme (c :: t) token) (hc : startsName c = true) :
    (∀ d ∈ t, continuesName d = true) ∧ token = .name ((c :: t).map Char.toLower) := by
  obtain ⟨c', t', heq, hkind⟩ := h.first
  cases heq
  rcases hkind with ⟨hsymbol, -⟩ | ⟨-, hname⟩ | ⟨hnumber, -⟩
  · rw [symbol?_of_startsName hc] at hsymbol
    cases hsymbol
  · exact hname
  · rw [startsName_of_isNumeric (isNumeric_of_startsNumber hnumber)] at hc
    cases hc

theorem Lexeme.of_isNumeric (h : Lexeme (c :: t) token) (hc : isNumeric c = true) :
    startsNumber c t = true ∧ IsNumber (c :: t) ∧ ∃ v, token = .number v ∧ read? (c :: t) = some v := by
  obtain ⟨c', t', heq, hkind⟩ := h.first
  cases heq
  rcases hkind with ⟨hsymbol, -⟩ | ⟨hname, -⟩ | hnumber
  · rw [symbol?_of_isNumeric hc] at hsymbol
    cases hsymbol
  · rw [startsName_of_isNumeric hc] at hname
    cases hname
  · exact hnumber

end Kinds

/-- A text is one word at most. -/
theorem Lexeme.eq (h : Lexeme t token) (h' : Lexeme t token') : token = token' := by
  obtain ⟨c, t', rfl, ⟨hsymbol, -⟩ | ⟨hname, -, htoken⟩ | ⟨hnumber, -, v, htoken, hv⟩⟩ := h.first
  · exact (h'.of_symbol hsymbol).2.symm
  · exact htoken.trans (h'.of_startsName hname).2.symm
  · obtain ⟨-, -, v', htoken', hv'⟩ := h'.of_isNumeric (isNumeric_of_startsNumber hnumber)
    rw [htoken, htoken', Option.some.inj (hv.symm.trans hv')]

theorem Lexeme.isBlank (h : Lexeme (c :: t) token) : isBlank c = false := by
  obtain ⟨c', t', heq, hkind⟩ := h.first
  cases heq
  rcases hkind with ⟨hsymbol, -⟩ | ⟨hname, -⟩ | ⟨hnumber, -⟩
  · exact isBlank_of_symbol? hsymbol
  · exact isBlank_of_continuesName (continuesName_of_startsName hname)
  · exact isBlank_of_startsNumber hnumber

/-! ## Runs and exponents -/

theorem prefix_takeWhile {p : Char → Bool} (hp : ∀ c ∈ l, p c = true) (h : l <+: t) : l <+: t.takeWhile p := by
  obtain ⟨rest, rfl⟩ := h
  rw [List.takeWhile_append_of_pos hp]
  exact List.prefix_append ..

theorem head?_dropWhile (p : Char → Bool) (t : Text) : ∀ c ∈ (t.dropWhile p).head?, p c = false := by
  intro c hc
  have hnot := List.head?_dropWhile_not p t
  rw [Option.mem_def.1 hc] at hnot
  simpa using hnot

theorem IsExponent.head? (h : IsExponent t) : ∀ c ∈ t.head?, isNumeric c = false := by
  obtain ⟨mark, sign, digits, rfl, hmark, -⟩ := h
  intro c hc
  cases hc
  rcases hmark with rfl | rfl
  · rfl
  · rfl

theorem isPower_splitExponent (t : Text) : IsPower (splitExponent t).1 := by
  have hsign (t : Text) : (splitSign t).1 = [] ∨ (splitSign t).1 = ['+'] ∨ (splitSign t).1 = ['-'] := by
    unfold splitSign
    split
    next c t =>
      split
      next hc =>
        simp only [Bool.or_eq_true, decide_eq_true_eq] at hc
        rcases hc with rfl | rfl
        · exact .inr (.inl rfl)
        · exact .inr (.inr rfl)
      next => exact .inl rfl
    next => exact .inl rfl
  unfold splitExponent
  split
  next c t =>
    simp only
    split
    next hmark =>
      simp only [Bool.and_eq_true, isExponentMark, Bool.or_eq_true, decide_eq_true_eq] at hmark
      exact .inr ⟨c, _, _, rfl, hmark.1, hsign t, hmark.2, fun d => List.mem_takeWhile_imp⟩
    next => exact .inl rfl
  next => exact .inl rfl

/-- The exponent that is split off is the longest. -/
theorem longestPower_splitExponent (t : Text) : LongestPower (splitExponent t).1 (splitExponent t).2 := by
  refine ⟨isPower_splitExponent t, fun p hp hfront => ?_⟩
  rw [append_splitExponent] at hfront
  rcases hp with rfl | ⟨mark, sign, digits, rfl, hmark, hsign, hne, hdigits⟩
  · exact Nat.zero_le _
  · obtain ⟨rest, rfl⟩ := hfront
    have hmark : isExponentMark mark = true := by
      rcases hmark with rfl | rfl
      · rfl
      · rfl
    have hsplit : splitSign (sign ++ digits ++ rest) = (sign, digits ++ rest) := by
      rcases hsign with rfl | rfl | rfl
      · cases digits with
        | nil => exact absurd rfl hne
        | cons d digits =>
          have hdigit := hdigits d (List.mem_cons_self ..)
          have hplus := ne_of_isDigit hdigit (show '+'.isDigit = false from rfl)
          have hminus := ne_of_isDigit hdigit (show '-'.isDigit = false from rfl)
          simp [splitSign, hplus, hminus]
      · rfl
      · rfl
    have htake : (digits ++ rest).takeWhile Char.isDigit = digits ++ rest.takeWhile Char.isDigit :=
      List.takeWhile_append_of_pos hdigits
    rw [List.cons_append, splitExponent]
    simp only [hsplit, htake]
    rw [if_pos (by simp [hmark, hne])]
    simp only [List.length_cons, List.length_append]
    omega

/-- Two longest exponents at the same place are the same. -/
theorem LongestPower.unique (h : LongestPower power rest) (h' : LongestPower power' rest')
    (heq : power ++ rest = power' ++ rest') : power = power' ∧ rest = rest' := by
  have hle := h'.length_le power h.isPower (heq ▸ List.prefix_append ..)
  have hge := h.length_le power' h'.isPower (heq ▸ List.prefix_append ..)
  exact List.append_inj heq (Nat.le_antisymm hle hge)

theorem BadRun.run_eq (h : BadRun run rest) : (run ++ rest).takeWhile isNumeric = run :=
  takeWhile_append_eq h.numeric h.ends

/-- Two runs at the same place are the same. -/
theorem BadRun.unique (h : BadRun run rest) (h' : BadRun run' rest') (heq : run ++ rest = run' ++ rest') :
    run = run' ∧ rest = rest' := by
  have hrun : run = run' := by rw [← h.run_eq, ← h'.run_eq, heq]
  subst hrun
  exact ⟨rfl, List.append_cancel_left heq⟩

theorem StartsBad.count (h : StartsBad t) : 2 ≤ (t.takeWhile isNumeric).count '.' := by
  obtain ⟨run, rest, rfl, hrun⟩ := h
  rw [hrun.run_eq]
  exact hrun.points

theorem StartsBad.startsNumber (h : StartsBad (c :: t)) : startsNumber c t = true := by
  obtain ⟨run, rest, heq, ⟨c', t', rfl, hstarts⟩, -⟩ := h
  cases heq
  exact startsNumber_mono hstarts (List.prefix_append ..)

/-- A number takes the digits and points that are there, and then the exponent; so none is longer. -/
theorem length_number_le (hrun : ∀ c ∈ run, isNumeric c = true) (hends : ∀ c ∈ (power ++ rest).head?, isNumeric c = false)
    (hpower : LongestPower power rest) (hl : IsNumber l) (hfront : l <+: run ++ (power ++ rest)) :
    l.length ≤ (run ++ power).length := by
  obtain ⟨body, p, rfl, hbody, hp⟩ := hl
  have hbodyRun : body <+: run := by
    have htake := prefix_takeWhile hbody.numeric ((List.prefix_append body p).trans hfront)
    rwa [takeWhile_append_eq hrun hends] at htake
  obtain ⟨more, rfl⟩ := hbodyRun
  rw [List.append_assoc, List.prefix_append_right_inj] at hfront
  cases more with
  | nil =>
    have hle := hpower.length_le p hp hfront
    simp only [List.length_append, List.length_nil]
    omega
  | cons d more =>
    rcases hp with rfl | hp
    · simp only [List.length_append, List.length_nil]
      omega
    · -- an exponent does not start inside of a run
      obtain ⟨mark, sign, digits, rfl, -⟩ := id hp
      obtain ⟨x, hx⟩ := hfront
      obtain rfl : mark = d := (List.cons.inj hx).1
      have hnumeric := hrun mark (List.mem_append_right _ (List.mem_cons_self ..))
      rw [hp.head? mark rfl] at hnumeric
      cases hnumeric

/-! ## Reading numbers -/

/-- The digits in front of the point, and the point with the digits behind it. -/
theorem IsMantissa.exists_parts (h : IsMantissa body) :
    ∃ whole, (∀ c ∈ whole, c.isDigit = true) ∧ (body = whole ∧ whole ≠ [] ∨
      ∃ places, body = whole ++ '.' :: places ∧ (∀ c ∈ places, c.isDigit = true) ∧ (whole ≠ [] ∨ places ≠ [])) := by
  obtain ⟨⟨c, t, rfl, hstarts⟩, hnumeric, hpoint⟩ := h
  generalize hbody : c :: t = body at *
  have hparts : body.takeWhile Char.isDigit ++ body.dropWhile Char.isDigit = body := List.takeWhile_append_dropWhile
  have hdigits : ∀ c ∈ body.takeWhile Char.isDigit, c.isDigit = true := fun c => List.mem_takeWhile_imp
  have hhead := head?_dropWhile Char.isDigit body
  refine ⟨body.takeWhile Char.isDigit, hdigits, ?_⟩
  cases hdrop : body.dropWhile Char.isDigit with
  | nil =>
    rw [hdrop, List.append_nil] at hparts
    exact .inl ⟨hparts.symm, by rw [hparts, ← hbody]; exact List.cons_ne_nil c t⟩
  | cons d places =>
    rw [hdrop] at hparts hhead
    have hmem {x : Char} (hx : x ∈ d :: places) : isNumeric x = true :=
      hnumeric x (hparts ▸ List.mem_append_right _ hx)
    -- what stops the digits is the only point
    have hd : d = '.' := by
      have hnum := hmem (List.mem_cons_self ..)
      simp only [isNumeric, hhead d rfl, Bool.false_or, decide_eq_true_eq] at hnum
      exact hnum
    subst hd
    have hnone : '.' ∉ places := by
      rw [← hparts, List.count_append, List.count_cons_self] at hpoint
      exact List.count_eq_zero.1 (by omega)
    refine .inr ⟨places, hparts.symm, fun x hx => ?_, ?_⟩
    · have hnum := hmem (List.mem_cons_of_mem _ hx)
      simp only [isNumeric, Bool.or_eq_true, decide_eq_true_eq] at hnum
      exact hnum.resolve_right fun heq => hnone (heq ▸ hx)
    · by_contra hempty
      simp only [not_or, not_not] at hempty
      obtain ⟨hwhole, rfl⟩ := hempty
      rw [hwhole, ← hbody] at hparts
      cases hparts
      cases hstarts

theorem exists_digits? (hne : l ≠ []) (hl : ∀ c ∈ l, c.isDigit = true) : ∃ n, digits? l = some n :=
  ⟨_, if_pos ⟨hne, List.all_eq_true.2 hl⟩⟩

/-- An exponent has a number. -/
theorem IsPower.exists_ending? (h : IsPower power) : ∃ e, ending? power = some e := by
  rcases h with rfl | ⟨mark, sign, digits, rfl, hmark, hsign, hne, hdigits⟩
  · exact ⟨0, rfl⟩
  · obtain ⟨n, hn⟩ := exists_digits? hne hdigits
    have hending : ending? (mark :: (sign ++ digits)) = Numeral.exponent? (sign ++ digits) := by
      rcases hmark with rfl | rfl
      · rfl
      · rfl
    rw [hending]
    rcases hsign with rfl | rfl | rfl
    · cases digits with
      | nil => exact absurd rfl hne
      | cons d digits =>
        have hdigit := hdigits d (List.mem_cons_self ..)
        refine ⟨n, ?_⟩
        rw [List.nil_append]
        unfold Numeral.exponent?
        split
        next heq =>
          cases heq
          cases hdigit
        next heq =>
          cases heq
          cases hdigit
        next => rw [hn]; rfl
    · refine ⟨n, ?_⟩
      simp only [List.singleton_append, Numeral.exponent?, hn]
      rfl
    · refine ⟨-n, ?_⟩
      simp only [List.singleton_append, Numeral.exponent?, hn]
      rfl

/-- **Every number of the grammar is read as a number.** -/
theorem exists_read_of_isNumber (h : IsNumber t) : ∃ v, read? t = some v := by
  obtain ⟨body, power, rfl, hbody, hpower⟩ := h
  obtain ⟨e, he⟩ := hpower.exists_ending?
  obtain ⟨whole, hwhole, hparts⟩ := hbody.exists_parts
  have hhead : ∀ c ∈ power.head?, c.isDigit = false ∧ c ≠ '.' := by
    intro c hc
    rcases hpower with rfl | hpower
    · cases hc
    · have hnumeric := hpower.head? c hc
      simpa [isNumeric] using hnumeric
  have hunsigned : ∃ v, unsigned? (body ++ power) = some v := by
    rcases hparts with ⟨rfl, hne⟩ | ⟨places, rfl, hplaces, hne⟩
    · have hafter : afterPoint power = ([], power) := by
        unfold afterPoint
        split
        next => exact absurd rfl (hhead '.' rfl).2
        next => rfl
      have hdigit : ∀ c ∈ power.head?, c.isDigit = false := fun c hc => (hhead c hc).1
      simp only [unsigned?]
      rw [takeWhile_append_eq hwhole hdigit, dropWhile_append_eq hwhole hdigit, hafter, if_neg fun h => hne h.1, he]
      exact ⟨_, rfl⟩
    · have hdigit : ∀ c ∈ power.head?, c.isDigit = false := fun c hc => (hhead c hc).1
      have hpoint : ∀ c ∈ ('.' :: (places ++ power)).head?, c.isDigit = false := by
        intro c hc
        cases hc
        rfl
      simp only [unsigned?, List.append_assoc, List.cons_append]
      rw [takeWhile_append_eq hwhole hpoint, dropWhile_append_eq hwhole hpoint]
      simp only [afterPoint]
      rw [takeWhile_append_eq hplaces hdigit, dropWhile_append_eq hplaces hdigit, if_neg (not_and_or.2 hne), he]
      exact ⟨_, rfl⟩
  obtain ⟨v, hv⟩ := hunsigned
  obtain ⟨⟨c, t, rfl, hstarts⟩, -, -⟩ := hbody
  exact ⟨v, by rwa [List.cons_append, read?_of_isNumeric (isNumeric_of_startsNumber hstarts)]⟩

/-! ## One word -/

/-- Two longest words at the same place are the same. -/
theorem Longest.unique (h : Longest t token rest) (h' : Longest t' token' rest') (heq : t ++ rest = t' ++ rest') :
    t = t' ∧ token = token' ∧ rest = rest' := by
  have hle := h'.length_le t token h.lexeme (heq ▸ List.prefix_append ..)
  have hge := h.length_le t' token' h'.lexeme (heq ▸ List.prefix_append ..)
  obtain ⟨rfl, rfl⟩ := List.append_inj heq (Nat.le_antisymm hle hge)
  exact ⟨rfl, h.lexeme.eq h'.lexeme, rfl⟩

/-- A word at the front of a text, with its first character. -/
theorem Lexeme.exists_cons (h : Lexeme l token) (hl : l <+: c :: t) : ∃ t', l = c :: t' ∧ t' <+: t := by
  obtain ⟨c', t', rfl, -⟩ := h.first
  obtain ⟨rfl, ht⟩ := List.cons_prefix_cons.1 hl
  exact ⟨t', rfl, ht⟩

theorem longest_symbol (h : symbol? c = some token) (t : Text) : Longest [c] token t := by
  refine ⟨.symbol h, fun l token' hl hfront => ?_⟩
  obtain ⟨t', rfl, -⟩ := hl.exists_cons hfront
  rw [(hl.of_symbol h).1]

theorem longest_name (h : startsName c = true) (t : Text) :
    Longest (c :: t.takeWhile continuesName) (.name ((c :: t.takeWhile continuesName).map Char.toLower))
      (t.dropWhile continuesName) := by
  refine ⟨.name ⟨c, _, rfl, h, fun d => List.mem_takeWhile_imp⟩, fun l token hl hfront => ?_⟩
  rw [List.cons_append, List.takeWhile_append_dropWhile] at hfront
  obtain ⟨t', rfl, ht⟩ := hl.exists_cons hfront
  exact Nat.succ_le_succ (prefix_takeWhile (hl.of_startsName h).1 ht).length_le

/-- The digits and points at the front of a text that starts as a number does, and what follows them. -/
theorem startsAsNumber_takeWhile (h : startsNumber c t = true) : StartsAsNumber (c :: t.takeWhile isNumeric) :=
  ⟨c, _, rfl, startsNumber_takeWhile h⟩

theorem isNumeric_of_mem_takeWhile (h : startsNumber c t = true) : ∀ d ∈ c :: t.takeWhile isNumeric, isNumeric d = true := by
  intro d hd
  rcases List.mem_cons.1 hd with rfl | hd
  · exact isNumeric_of_startsNumber h
  · exact List.mem_takeWhile_imp hd

theorem longest_number {v : Binary64} (hstart : StartsAsNumber run) (hrun : ∀ c ∈ run, isNumeric c = true)
    (hends : ∀ c ∈ (power ++ rest).head?, isNumeric c = false) (hpoint : run.count '.' ≤ 1)
    (hpower : LongestPower power rest) (hv : read? (run ++ power) = some v) :
    Longest (run ++ power) (.number v) rest := by
  have hnumber : IsNumber (run ++ power) := ⟨run, power, rfl, ⟨hstart, hrun, hpoint⟩, hpower.isPower⟩
  refine ⟨.number hnumber hv, fun l token hl hfront => ?_⟩
  obtain ⟨c, t, rfl, hc⟩ := hstart
  rw [List.append_assoc] at hfront
  obtain ⟨t', rfl, -⟩ := hl.exists_cons hfront
  exact length_number_le hrun hends hpower (hl.of_isNumeric (isNumeric_of_startsNumber hc)).2.1 hfront

/-- What is read at the front of a text, or why nothing is. -/
inductive Reads (c : Char) (t : Text) : Except ParseError (Token × Text) → Prop where
  /-- The longest word. -/
  | taken {l rest : Text} {token : Token} (heq : c :: t = l ++ rest) (hl : Longest l token rest)
      (hbad : ¬ StartsBad (c :: t)) : Reads c t (.ok (token, rest))
  /-- No word starts here. -/
  | stuck (hbad : ¬ StartsBad (c :: t)) (hnone : ∀ l token, Lexeme l token → ¬ l <+: c :: t) :
      Reads c t (.error (.unexpectedChar c))
  /-- Too many points are in the digits. -/
  | bad {run power rest : Text} (heq : c :: t = run ++ (power ++ rest)) (hrun : BadRun run (power ++ rest))
      (hpower : LongestPower power rest) : Reads c t (.error (.badNumber (run ++ power)))

/-- What is read where a number starts is the longest number there, unless two points are in its digits. -/
theorem reads_number (h : startsNumber c t = true) : Reads c t (word c t) := by
  have hstart := startsAsNumber_takeWhile h
  have hrun := isNumeric_of_mem_takeWhile h
  have hends := head?_dropWhile isNumeric t
  have hpower := longestPower_splitExponent (t.dropWhile isNumeric)
  have hparts : c :: t = c :: t.takeWhile isNumeric ++ t.dropWhile isNumeric := by
    rw [List.cons_append, List.takeWhile_append_dropWhile]
  rw [word_of_startsNumber h]
  rw [← append_splitExponent (t.dropWhile isNumeric)] at hends hparts
  generalize splitExponent (t.dropWhile isNumeric) = split at *
  generalize c :: t.takeWhile isNumeric = run at *
  by_cases hpoints : 1 < run.count '.'
  · rw [numberOf, if_pos hpoints]
    exact .bad hparts ⟨hstart, hrun, hends, hpoints⟩ hpower
  · have hpoint : run.count '.' ≤ 1 := Nat.not_lt.1 hpoints
    obtain ⟨v, hv⟩ := exists_read_of_isNumber ⟨run, split.1, rfl, ⟨hstart, hrun, hpoint⟩, hpower.isPower⟩
    rw [numberOf, if_neg hpoints, hv]
    refine .taken (by rw [hparts, List.append_assoc]) (longest_number hstart hrun hends hpoint hpower hv) fun hbad => ?_
    have hcount := hbad.count
    rw [hparts, takeWhile_append_eq hrun hends] at hcount
    exact hpoints hcount

/-- Where no word of any kind starts, nothing is read. -/
theorem reads_nothing (hsymbol : symbol? c = none) (hname : ¬ startsName c = true) (hnumber : ¬ startsNumber c t = true) :
    Reads c t (.error (.unexpectedChar c)) := by
  refine .stuck (fun hbad => hnumber hbad.startsNumber) fun l token hl hfront => ?_
  obtain ⟨t', rfl, ht⟩ := hl.exists_cons hfront
  obtain ⟨c', t'', heq, ⟨hsymbol', -⟩ | ⟨hname', -⟩ | ⟨hnumber', -⟩⟩ := hl.first
  · cases heq
    rw [hsymbol] at hsymbol'
    cases hsymbol'
  · cases heq
    exact hname hname'
  · cases heq
    exact hnumber (startsNumber_mono hnumber' ht)

/-- **What is read at the front of a text** is the longest word there, unless two points are in a run of digits and
points, or no word starts there. -/
theorem reads_word (c : Char) (t : Text) : Reads c t (word c t) := by
  by_cases hnumber : startsNumber c t = true
  · exact reads_number hnumber
  have hbad : ¬ StartsBad (c :: t) := fun hbad => hnumber hbad.startsNumber
  cases hsymbol : symbol? c with
  | some token =>
    have hword : word c t = .ok (token, t) := by rw [word, hsymbol]
    rw [hword]
    exact .taken rfl (longest_symbol hsymbol t) hbad
  | none =>
    by_cases hname : startsName c = true
    · have hword : word c t =
          .ok (.name ((c :: t.takeWhile continuesName).map Char.toLower), t.dropWhile continuesName) := by
        rw [word, hsymbol]
        exact if_pos hname
      rw [hword]
      refine .taken ?_ (longest_name hname t) hbad
      rw [List.cons_append, List.takeWhile_append_dropWhile]
    · have hword : word c t = .error (.unexpectedChar c) := by
        rw [word, hsymbol]
        simp only [hname, hnumber, Bool.false_eq_true, if_false]
      rw [hword]
      exact reads_nothing hsymbol hname hnumber

/-! ## A cut into pieces -/

/-- A piece of a text: a blank, or a word with its token. -/
structure Piece where
  text : Text
  token? : Option Token

/-- The piece is what comes next, in front of `rest`: a blank, or the longest word, unless there are digits with too
many points. -/
inductive Takes : Piece → Text → Prop where
  | blank {c : Char} {rest : Text} (h : isBlank c = true) : Takes ⟨[c], none⟩ rest
  | word {t rest : Text} {token : Token} (h : Longest t token rest) (hbad : ¬ StartsBad (t ++ rest)) :
      Takes ⟨t, some token⟩ rest

/-- No piece comes next at the front of the text. -/
def Stuck (t : Text) : Prop := ∀ p rest, Takes p rest → p.text ++ rest ≠ t

/-- The text of the pieces, one after another. -/
def textOf (ps : List Piece) : Text := ps.flatMap Piece.text

/-- The tokens of the pieces, without the blanks. -/
def wordsOf (ps : List Piece) : List Token := ps.filterMap Piece.token?

/-- Every one of the pieces comes next, in front of those behind it and of `rest`. -/
def Scans : List Piece → Text → Prop
  | [], _ => True
  | p :: ps, rest => Takes p (textOf ps ++ rest) ∧ Scans ps rest

variable {p : Piece} {ps : List Piece} {s : Text}

theorem textOf_cons (p : Piece) (ps : List Piece) (rest : Text) :
    textOf (p :: ps) ++ rest = p.text ++ (textOf ps ++ rest) := by
  rw [textOf, List.flatMap_cons, List.append_assoc]
  rfl

/-- What comes next is read first. -/
theorem Takes.tokens_eq (h : Takes p rest) : tokens (p.text ++ rest) = (tokens rest).map (wordsOf [p] ++ ·) := by
  cases h with
  | @blank c _ hblank =>
    show tokens (c :: rest) = (tokens rest).map id
    rw [tokens_blank hblank, Except.map_id, id]
  | @word t _ token h hbad =>
    obtain ⟨c, t', rfl, -⟩ := h.lexeme.first
    show tokens (c :: (t' ++ rest)) = (tokens rest).map (token :: ·)
    have hread := reads_word c (t' ++ rest)
    cases hword : Token.word c (t' ++ rest) with
    | ok found =>
      rw [hword] at hread
      cases hread with
      | taken heq hlongest =>
        obtain ⟨-, rfl, rfl⟩ := h.unique hlongest heq
        exact tokens_word h.lexeme.isBlank hword
    | error err =>
      rw [hword] at hread
      cases hread with
      | stuck _ hnone => exact absurd (List.prefix_append ..) (hnone _ _ h.lexeme)
      | bad heq hrun => exact absurd ⟨_, _, heq, hrun⟩ hbad

/-- The tokens of the pieces are read first, and then what follows them. -/
theorem Scans.tokens_eq (h : Scans ps rest) : tokens (textOf ps ++ rest) = (tokens rest).map (wordsOf ps ++ ·) := by
  induction ps with
  | nil => exact (congrFun Except.map_id (tokens rest)).symm
  | cons p ps ih =>
    have hwords (ts : List Token) : wordsOf (p :: ps) ++ ts = wordsOf [p] ++ (wordsOf ps ++ ts) := by
      have happend : wordsOf ([p] ++ ps) = wordsOf [p] ++ wordsOf ps := List.filterMap_append
      rw [← List.append_assoc, ← happend]
      rfl
    rw [textOf_cons, h.1.tokens_eq, ih h.2, map_map]
    simp only [hwords]

/-- Where no piece comes next, either digits have too many points, or no word starts. -/
theorem Stuck.tokens_eq (h : Stuck (c :: t)) :
    ¬ StartsBad (c :: t) ∧ tokens (c :: t) = .error (.unexpectedChar c) ∨
      ∃ run power rest, c :: t = run ++ (power ++ rest) ∧ BadRun run (power ++ rest) ∧ LongestPower power rest ∧
        tokens (c :: t) = .error (.badNumber (run ++ power)) := by
  have hblank : isBlank c = false := by
    by_contra hblank
    exact h ⟨[c], none⟩ t (.blank (by simpa using hblank)) rfl
  have hread := reads_word c t
  cases hword : word c t with
  | ok found =>
    rw [hword] at hread
    cases hread with
    | taken heq hlongest hbad => exact absurd heq.symm (h ⟨_, some _⟩ _ (.word hlongest (heq ▸ hbad)))
  | error err =>
    rw [hword] at hread
    have htokens := tokens_error hblank hword
    cases hread with
    | stuck hbad => exact .inl ⟨hbad, htokens⟩
    | bad heq hrun hpower => exact .inr ⟨_, _, _, heq, hrun, hpower, htokens⟩

/-- Every text is cut into pieces, up to its end or up to a place where no piece comes next. -/
theorem exists_scans (s : Text) :
    ∃ ps rest, Scans ps rest ∧ textOf ps ++ rest = s ∧ (rest = [] ∨ ∃ c t, rest = c :: t ∧ Stuck (c :: t)) := by
  induction s using tokens.induct with
  | case1 => exact ⟨[], [], trivial, rfl, .inl rfl⟩
  | case2 c t hblank ih =>
    obtain ⟨ps, rest, hscans, rfl, hrest⟩ := ih
    exact ⟨⟨[c], none⟩ :: ps, rest, ⟨.blank hblank, hscans⟩, textOf_cons .., hrest⟩
  | case3 c t hblank err herr =>
    refine ⟨[], c :: t, trivial, rfl, .inr ⟨c, t, rfl, fun p rest hp heq => ?_⟩⟩
    have hread := reads_word c t
    rw [herr] at hread
    cases hp with
    | blank hc =>
      cases heq
      exact hblank hc
    | word h hbad =>
      cases hread with
      | stuck _ hnone => exact hnone _ _ h.lexeme (heq ▸ List.prefix_append ..)
      | bad hparts hrun => exact hbad ⟨_, _, heq.trans hparts, hrun⟩
  | case4 c t hblank token rest hok ih =>
    obtain ⟨ps, rest', hscans, rfl, hrest⟩ := ih
    have hread := reads_word c t
    rw [hok] at hread
    cases hread with
    | @taken l _ _ heq hlongest hbad =>
      exact ⟨⟨l, some token⟩ :: ps, rest', ⟨.word hlongest (heq ▸ hbad), hscans⟩, (textOf_cons ..).trans heq.symm, hrest⟩

/-- Where digits have too many points, no piece comes next. -/
theorem StartsBad.stuck (h : StartsBad t) : Stuck t := by
  rintro p rest hp rfl
  cases hp with
  | blank hc =>
    rw [isBlank_of_startsNumber h.startsNumber] at hc
    cases hc
  | word _ hbad => exact hbad h

/-- Digits with too many points are not read. -/
theorem BadRun.tokens_eq (h : BadRun run (power ++ rest)) (hpower : LongestPower power rest) :
    tokens (run ++ (power ++ rest)) = .error (.badNumber (run ++ power)) := by
  have hbad : StartsBad (run ++ (power ++ rest)) := ⟨_, _, rfl, h⟩
  obtain ⟨c, t, hrun, -⟩ := h.start
  have hcons : run ++ (power ++ rest) = c :: (t ++ (power ++ rest)) := by rw [hrun, List.cons_append]
  rw [hcons] at hbad ⊢
  rcases hbad.stuck.tokens_eq with ⟨hnot, -⟩ | ⟨run', power', rest', heq, h', hpower', htokens⟩
  · exact absurd hbad hnot
  · obtain ⟨rfl, hbehind⟩ := h.unique h' (hcons.trans heq)
    obtain ⟨rfl, -⟩ := hpower.unique hpower' hbehind
    exact htokens

theorem tokens_eq_ok_iff (s : Text) (ts : List Token) :
    tokens s = .ok ts ↔ ∃ ps, Scans ps [] ∧ textOf ps = s ∧ wordsOf ps = ts := by
  constructor
  · intro h
    obtain ⟨ps, rest, hscans, rfl, rfl | ⟨c, t, rfl, hstuck⟩⟩ := exists_scans s
    · rw [hscans.tokens_eq, tokens_nil] at h
      cases h
      exact ⟨ps, hscans, (List.append_nil _).symm, (List.append_nil _).symm⟩
    · rw [hscans.tokens_eq] at h
      rcases hstuck.tokens_eq with ⟨-, herr⟩ | ⟨_, _, _, -, -, -, herr⟩
      · rw [herr] at h
        cases h
      · rw [herr] at h
        cases h
  · rintro ⟨ps, hscans, rfl, rfl⟩
    have h := hscans.tokens_eq
    rw [tokens_nil, List.append_nil] at h
    rw [h]
    exact congrArg Except.ok (List.append_nil _)

/-- Where reading fails, the text is cut up to there. -/
theorem exists_scans_of_error (h : tokens s = .error err) :
    ∃ ps c t, Scans ps (c :: t) ∧ textOf ps ++ c :: t = s ∧ Stuck (c :: t) ∧ tokens (c :: t) = .error err := by
  obtain ⟨ps, rest, hscans, rfl, rfl | ⟨c, t, rfl, hstuck⟩⟩ := exists_scans s
  · rw [hscans.tokens_eq, tokens_nil] at h
    cases h
  · refine ⟨ps, c, t, hscans, rfl, hstuck, ?_⟩
    rw [hscans.tokens_eq] at h
    exact map_eq_error.1 h

/-- Reading fails with a character exactly if no piece comes next there, and that is not for the points of a number. -/
theorem tokens_eq_unexpectedChar_iff (s : Text) (c : Char) :
    tokens s = .error (.unexpectedChar c) ↔ ∃ ps rest, Scans ps (c :: rest) ∧ textOf ps ++ c :: rest = s ∧
      Stuck (c :: rest) ∧ ¬ StartsBad (c :: rest) := by
  constructor
  · intro h
    obtain ⟨ps, c', t, hscans, hs, hstuck, herr⟩ := exists_scans_of_error h
    rcases hstuck.tokens_eq with ⟨hbad, herr'⟩ | ⟨_, _, _, -, -, -, herr'⟩
    · rw [herr] at herr'
      cases herr'
      exact ⟨ps, t, hscans, hs, hstuck, hbad⟩
    · rw [herr] at herr'
      cases herr'
  · rintro ⟨ps, rest, hscans, rfl, hstuck, hbad⟩
    rcases hstuck.tokens_eq with ⟨-, herr⟩ | ⟨run, power, rest', heq, hrun, -⟩
    · rw [hscans.tokens_eq, herr]
      rfl
    · exact absurd ⟨_, _, heq, hrun⟩ hbad

/-- Reading fails with a number exactly if there are digits with too many points; the exponent behind them is named, too. -/
theorem tokens_eq_badNumber_iff (s text : Text) :
    tokens s = .error (.badNumber text) ↔ ∃ ps run power rest, Scans ps (run ++ (power ++ rest)) ∧
      textOf ps ++ (run ++ (power ++ rest)) = s ∧ BadRun run (power ++ rest) ∧ LongestPower power rest ∧
        text = run ++ power := by
  constructor
  · intro h
    obtain ⟨ps, c, t, hscans, hs, hstuck, herr⟩ := exists_scans_of_error h
    rcases hstuck.tokens_eq with ⟨-, herr'⟩ | ⟨run, power, rest, heq, hrun, hpower, herr'⟩
    · rw [herr] at herr'
      cases herr'
    · rw [herr] at herr'
      cases herr'
      rw [heq] at hscans hs
      exact ⟨ps, run, power, rest, hscans, hs, hrun, hpower, rfl⟩
  · rintro ⟨ps, run, power, rest, hscans, rfl, hrun, hpower, rfl⟩
    rw [hscans.tokens_eq, hrun.tokens_eq hpower]
    rfl

/-- **Reading a text is cutting it** into blanks and longest words, from the left to the right, without a gap. Reading
fails with a character where no piece comes next, and with a number where that is for its points; for nothing else:
every number of the grammar is one that can be read. -/
theorem tokens_scans (s : Text) :
    (∀ ts, tokens s = .ok ts ↔ ∃ ps, Scans ps [] ∧ textOf ps = s ∧ wordsOf ps = ts) ∧
    (∀ c, tokens s = .error (.unexpectedChar c) ↔ ∃ ps rest, Scans ps (c :: rest) ∧ textOf ps ++ c :: rest = s ∧
      Stuck (c :: rest) ∧ ¬ StartsBad (c :: rest)) ∧
    (∀ text, tokens s = .error (.badNumber text) ↔ ∃ ps run power rest, Scans ps (run ++ (power ++ rest)) ∧
      textOf ps ++ (run ++ (power ++ rest)) = s ∧ BadRun run (power ++ rest) ∧ LongestPower power rest ∧
        text = run ++ power) ∧
    (∀ err, tokens s = .error err → (∃ c, err = .unexpectedChar c) ∨ ∃ text, err = .badNumber text) ∧
    ∀ t, IsNumber t → ∃ v, read? t = some v := by
  refine ⟨tokens_eq_ok_iff s, tokens_eq_unexpectedChar_iff s, tokens_eq_badNumber_iff s, fun err h => ?_,
    fun t => exists_read_of_isNumber⟩
  obtain ⟨ps, c, t, -, -, hstuck, herr⟩ := exists_scans_of_error h
  rcases hstuck.tokens_eq with ⟨-, herr'⟩ | ⟨run, power, rest, -, -, -, herr'⟩
  · rw [herr] at herr'
    exact .inl ⟨c, Except.error.inj herr'⟩
  · rw [herr] at herr'
    exact .inr ⟨_, Except.error.inj herr'⟩

end PocketCalc.Token
