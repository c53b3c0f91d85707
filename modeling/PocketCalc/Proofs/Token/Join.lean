import PocketCalc.Proofs.Formula.Parsed
import PocketCalc.Proofs.Token.Lexemes

/-!
# Texts with blanks between them

* `tokens_append_gap` — two texts with blanks between them are read one after the other;
* `lexes_text_of_lexeme` — the text of a word that was read is one word again;
* `tokens_join` — the texts of the words of a text, with a blank between two, are read as the same words.
-/

namespace PocketCalc.Token

variable {c : Char} {gap s t rest : Text} {token : Token} {ts : List Token} {ps : List Piece}

/-- **What stands on one side of blanks is read without regard to the other side**, whether or not a word could go on
there. -/
theorem tokens_append_gap (hne : gap ≠ []) (hgap : ∀ c ∈ gap, isBlank c = true) (s t : Text) :
    tokens (s ++ gap ++ t) = (do
      let ts ← tokens s
      let ts' ← tokens t
      return ts ++ ts') := by
  have hstops : Stops (gap ++ t) := by
    intro c hc
    cases gap with
    | nil => exact absurd rfl hne
    | cons d gap =>
      cases hc
      exact goesOn_of_isBlank (hgap c (List.mem_cons_self ..))
  rw [List.append_assoc, tokens_append hstops, tokens_blanks_append hgap]
  cases tokens t with
  | error err => rfl
  | ok ts => rfl

/-- An exponent that a blank cuts off from its digits. -/
theorem tokens_append_gap_exponent :
    (∀ c ∈ [' '], isBlank c = true) ∧
      tokens ("1e".toList ++ [' '] ++ "5".toList) = .ok [.number 1, .name ['e'], .number 5] := by
  have hgap : ∀ c ∈ [' '], isBlank c = true := List.forall_mem_singleton.2 rfl
  refine ⟨hgap, ?_⟩
  rw [tokens_append_gap (List.cons_ne_nil ' ' []) hgap]
  decide +kernel

/-! ## The texts of words -/

theorem startsName_toLower (h : startsName c = true) : startsName c.toLower = true := by
  simp only [startsName, Bool.or_eq_true, decide_eq_true_eq] at h
  rcases h with halpha | rfl
  · simp [startsName, Char.isAlpha_toLower_eq_isAlpha, halpha]
  · rfl

theorem continuesName_toLower (h : continuesName c = true) : continuesName c.toLower = true := by
  simp only [continuesName, Char.isAlphanum, Bool.or_eq_true, decide_eq_true_eq] at h
  rcases h with (halpha | hdigit) | rfl
  · simp [continuesName, Char.isAlphanum, Char.isAlpha_toLower_eq_isAlpha, halpha]
  · simp [continuesName, Char.isAlphanum, toLower_of_isDigit hdigit, hdigit]
  · rfl

/-- A name with its letters made small is a name. -/
theorem IsIdentifier.isName_map_toLower (h : IsIdentifier t) : isName (t.map Char.toLower) = true := by
  obtain ⟨c, t, rfl, hstarts, hcontinues⟩ := h
  have hstarts := startsName_toLower hstarts
  have hblank := isBlank_of_continuesName (continuesName_of_startsName hstarts)
  have hall : ∀ d ∈ t, continuesName d.toLower = true := fun d hd => continuesName_toLower (hcontinues d hd)
  simpa [isName, symbol?_of_startsName hstarts, hstarts, hblank, Char.toLower_toLower_eq_toLower] using hall

/-- A number that is read where a number starts has no minus sign. -/
theorem IsNumber.sign_of_read? {v : Binary64} (h : IsNumber t) (hv : Numeral.read? t = some v) : v.sign = .positive := by
  obtain ⟨body, power, rfl, ⟨⟨c, t, rfl, hstarts⟩, -⟩, -⟩ := h
  refine PocketCalc.sign_of_read? ?_ hv
  rintro rfl
  cases hstarts

theorem lexes_symbol (op : Operator) : Lexes [op.symbol] [.symbol op] := fun rest _ => tokens_symbol op rest

/-- The text of a symbol is one word again; those of the two names among the symbols are, too. -/
theorem lexes_of_symbol? (h : symbol? c = some token) : Lexes token.text [token] := by
  unfold symbol? at h
  split at h
  · cases h
    exact fun rest _ => tokens_leftParen rest
  · cases h
    exact fun rest _ => tokens_rightParen rest
  · cases h
    exact fun rest _ => tokens_word rfl rfl
  · cases h
    exact lexes_symbol .add
  · cases h
    exact lexes_symbol .sub
  · cases h
    exact lexes_symbol .sub
  · cases h
    exact lexes_symbol .mul
  · cases h
    exact lexes_symbol .mul
  · cases h
    exact lexes_symbol .div
  · cases h
    exact lexes_symbol .div
  · cases h
    exact lexes_symbol .pow
  · cases h
    exact lexes_symbol .mod
  · cases h
    exact Lexes.name rfl
  · cases h
    exact Lexes.name rfl
  · cases h

/-- **The text of a word is one word again**, if the word is no number that is too large. -/
theorem lexes_text_of_lexeme (h : Lexeme t token) (hfinite : ∀ v, token = .number v → v.isFinite = true) :
    Lexes token.text [token] := by
  cases h with
  | symbol h => exact lexes_of_symbol? h
  | name h => exact Lexes.name h.isName_map_toLower
  | @number t v h hv =>
    obtain ⟨s, htext, hread⟩ := Numeral.exists_spelling_plain (hfinite v rfl) (h.sign_of_read? hv)
    have hlexes := Lexes.spelling s
    rw [htext, hread] at hlexes
    exact hlexes

/-- Every word of a text was read somewhere. -/
theorem Scans.exists_lexeme (h : Scans ps rest) (htoken : token ∈ wordsOf ps) : ∃ t, Lexeme t token := by
  induction ps with
  | nil => cases htoken
  | cons p ps ih =>
    obtain ⟨hp, hps⟩ := h
    cases hp with
    | blank => exact ih hps htoken
    | @word t _ found hlongest =>
      rcases List.mem_cons.1 htoken with rfl | htoken
      · exact ⟨t, hlongest.lexeme⟩
      · exact ih hps htoken

theorem exists_lexeme_of_tokens (h : tokens s = .ok ts) (htoken : token ∈ ts) : ∃ t, Lexeme t token := by
  obtain ⟨ps, hscans, -, rfl⟩ := (tokens_eq_ok_iff s ts).1 h
  exact hscans.exists_lexeme htoken

/-! ## The words with blanks between them -/

theorem join_singleton (token : Token) : join [token] = token.text := by simp [join]

/-- Words whose texts are words again are read from their texts with blanks between them. -/
theorem tokens_join_of_lexes (h : ∀ token ∈ ts, Lexes token.text [token]) : tokens (join ts) = .ok ts := by
  induction ts with
  | nil => exact tokens_nil
  | cons token ts ih =>
    have htoken := h token (List.mem_cons_self ..)
    cases ts with
    | nil =>
      have hread := htoken [] ends_nil
      rw [List.append_nil, tokens_nil] at hread
      rw [join_singleton, hread]
      rfl
    | cons next ts =>
      have hrest := ih fun token' h' => h token' (List.mem_cons_of_mem _ h')
      have hread := htoken (' ' :: join (next :: ts)) (ends_cons (.inl rfl) _)
      show tokens (token.text ++ ' ' :: join (next :: ts)) = _
      rw [hread, tokens_blank rfl, hrest]
      rfl

/-- **The words of a text are read again from their texts**, with a blank between two, if the numbers among them are
finite. -/
theorem tokens_join (h : tokens s = .ok ts) (hfinite : ∀ v, Token.number v ∈ ts → v.isFinite = true) :
    tokens (join ts) = .ok ts := by
  refine tokens_join_of_lexes fun token htoken => ?_
  obtain ⟨t, ht⟩ := exists_lexeme_of_tokens h htoken
  exact lexes_text_of_lexeme ht fun v hv => hfinite v (hv ▸ htoken)

/-- A name behind a number, symbols with another spelling, and a number with an exponent. -/
theorem tokens_join_symbols :
    tokens "2 E5√π×.5E3".toList = .ok [.number 2, .name "e5".toList, .name "sqrt".toList, .name "pi".toList,
      .symbol .mul, .number 500] ∧
    tokens (join [.number 2, .name "e5".toList, .name "sqrt".toList, .name "pi".toList, .symbol .mul, .number 500]) =
      .ok [.number 2, .name "e5".toList, .name "sqrt".toList, .name "pi".toList, .symbol .mul, .number 500] := by
  have h : tokens "2 E5√π×.5E3".toList = .ok [.number 2, .name "e5".toList, .name "sqrt".toList, .name "pi".toList,
      .symbol .mul, .number 500] := by decide +kernel
  refine ⟨h, tokens_join h fun v hv => ?_⟩
  simp only [List.mem_cons, Token.number.injEq, reduceCtorEq, List.not_mem_nil, or_false, false_or] at hv
  rcases hv with rfl | rfl
  · decide +kernel
  · decide +kernel

end PocketCalc.Token
