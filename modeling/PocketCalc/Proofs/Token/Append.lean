import PocketCalc.Proofs.Token.Words

/-!
# Texts put together

* `Stops` — no word goes on with a text;
* `tokens_induction` — an induction on the words of a text;
* `word_append`, `tokens_append` — what stands before such a text is read as if nothing stood behind it;
* `tokens_trim` — the blanks at the ends of a text change nothing;
* `isReadable_of_tokens` — the characters that a text of words is made of.
-/

namespace PocketCalc

/-! ## Prefixes of a kind, before something else -/

section Prefix

variable {p : Char → Bool} {rest : Text}

theorem takeWhile_append_of_head? (hrest : ∀ c ∈ rest.head?, p c = false) (t : Text) :
    (t ++ rest).takeWhile p = t.takeWhile p := by
  induction t with
  | nil => exact takeWhile_append_eq (t := []) nofun hrest
  | cons c t ih =>
    by_cases hc : p c = true
    · rw [List.cons_append, List.takeWhile_cons_of_pos hc, List.takeWhile_cons_of_pos hc, ih]
    · rw [List.cons_append, List.takeWhile_cons_of_neg hc, List.takeWhile_cons_of_neg hc]

theorem dropWhile_append_of_head? (hrest : ∀ c ∈ rest.head?, p c = false) (t : Text) :
    (t ++ rest).dropWhile p = t.dropWhile p ++ rest := by
  induction t with
  | nil => exact dropWhile_append_eq (t := []) nofun hrest
  | cons c t ih =>
    by_cases hc : p c = true
    · rw [List.cons_append, List.dropWhile_cons_of_pos hc, List.dropWhile_cons_of_pos hc, ih]
    · rw [List.cons_append, List.dropWhile_cons_of_neg hc, List.dropWhile_cons_of_neg hc, List.cons_append]

end Prefix

namespace Token

/-- A word can go on with the character. -/
def goesOn (c : Char) : Bool := continuesName c || c = '.' || c = '+' || c = '-'

/-- The text is empty, or starts with a character that no word goes on with. -/
def Stops (rest : Text) : Prop := ∀ c ∈ rest.head?, goesOn c = false

variable {c : Char} {t rest : Text} {ts : List Token}

theorem stops_cons (hc : goesOn c = false) (t : Text) : Stops (c :: t) := by
  intro d hd
  cases hd
  exact hc

theorem Stops.head? (h : Stops rest) {p : Char → Bool} (hp : ∀ c, p c = true → goesOn c = true) :
    ∀ c ∈ rest.head?, p c = false := by
  intro c hc
  have hstop := h c hc
  by_contra hpc
  rw [hp c (by simpa using hpc)] at hstop
  cases hstop

theorem goesOn_of_continuesName (h : continuesName c = true) : goesOn c = true := by simp [goesOn, h]

theorem goesOn_of_isDigit (h : c.isDigit = true) : goesOn c = true :=
  goesOn_of_continuesName (by simp [continuesName, Char.isAlphanum, h])

theorem goesOn_of_isNumeric (h : isNumeric c = true) : goesOn c = true := by
  simp only [isNumeric, Bool.or_eq_true, decide_eq_true_eq] at h
  rcases h with hdigit | rfl
  · exact goesOn_of_isDigit hdigit
  · rfl

theorem goesOn_of_isExponentMark (h : Numeral.isExponentMark c = true) : goesOn c = true := by
  simp only [Numeral.isExponentMark, Bool.or_eq_true, decide_eq_true_eq] at h
  rcases h with rfl | rfl
  · rfl
  · rfl

/-! ## One word -/

theorem splitSign_append (h : Stops rest) (t : Text) :
    splitSign (t ++ rest) = ((splitSign t).1, (splitSign t).2 ++ rest) := by
  cases t with
  | cons c t =>
    simp only [List.cons_append, splitSign]
    split
    · rfl
    · rfl
  | nil =>
    cases rest with
    | nil => rfl
    | cons c rest =>
      have hsign := h.head? (p := fun c => c = '+' || c = '-') (fun c hc => ?_) c rfl
      · simp [splitSign, hsign]
      · simp only [Bool.or_eq_true, decide_eq_true_eq] at hc
        rcases hc with rfl | rfl
        · rfl
        · rfl

theorem splitExponent_append (h : Stops rest) (t : Text) :
    splitExponent (t ++ rest) = ((splitExponent t).1, (splitExponent t).2 ++ rest) := by
  cases t with
  | cons c t =>
    have hdigit := h.head? fun _ => goesOn_of_isDigit
    simp only [List.cons_append, splitExponent, splitSign_append h, takeWhile_append_of_head? hdigit,
      dropWhile_append_of_head? hdigit]
    split
    · rfl
    · rfl
  | nil =>
    cases rest with
    | nil => rfl
    | cons c rest =>
      have hmark := h.head? (fun _ => goesOn_of_isExponentMark) c rfl
      simp [splitExponent, hmark]

theorem startsNumber_append (h : Stops rest) (c : Char) (t : Text) : startsNumber c (t ++ rest) = startsNumber c t := by
  cases t with
  | cons d t => rfl
  | nil =>
    cases rest with
    | nil => rfl
    | cons d rest =>
      have hdigit := h.head? (fun _ => goesOn_of_isDigit) d rfl
      simp [startsNumber, hdigit]

/-- **A word is not changed by what stands behind it**, if no word goes on with that. -/
theorem word_append (h : Stops rest) (c : Char) (t : Text) :
    word c (t ++ rest) = (word c t).map fun r => (r.1, r.2 ++ rest) := by
  have hname := h.head? fun _ => goesOn_of_continuesName
  have hnumeric := h.head? fun _ => goesOn_of_isNumeric
  unfold word
  cases symbol? c with
  | some token => rfl
  | none =>
    simp only
    split
    · rw [takeWhile_append_of_head? hname, dropWhile_append_of_head? hname]
      rfl
    · rw [startsNumber_append h]
      split
      · rw [takeWhile_append_of_head? hnumeric, dropWhile_append_of_head? hnumeric, splitExponent_append h, map_map]
      · rfl

/-! ## All words -/

theorem tokens_error {err : ParseError} (hc : isBlank c = false) (h : word c t = .error err) :
    tokens (c :: t) = .error err := by
  rw [tokens, if_neg (by rw [hc]; decide)]
  split
  next err' herr =>
    rw [h] at herr
    cases herr
    rfl
  next token rest hok =>
    rw [h] at hok
    cases hok

/-- What is true of the empty text and is kept by a blank or a word in front of a text, is true of a text and its
words. -/
theorem tokens_induction {P : Text → List Token → Prop} (nil : P [] [])
    (blank : ∀ c t ts, isBlank c = true → P t ts → P (c :: t) ts)
    (cons : ∀ c t token rest ts, word c t = .ok (token, rest) → P rest ts → P (c :: t) (token :: ts))
    (h : tokens t = .ok ts) : P t ts := by
  induction t using tokens.induct generalizing ts with
  | case1 =>
    rw [tokens_nil] at h
    cases h
    exact nil
  | case2 c t hblank ih =>
    rw [tokens_blank hblank] at h
    exact blank c t ts hblank (ih h)
  | case3 c t hblank err herr =>
    rw [tokens_error (by simpa using hblank) herr] at h
    cases h
  | case4 c t hblank token rest hok ih =>
    rw [tokens_word (by simpa using hblank) hok] at h
    obtain ⟨ts', hrest, rfl⟩ := map_eq_ok.1 h
    exact cons c t token rest ts' hok (ih hrest)

/-- **The words of a text come first**, and then those of the text behind it, if no word goes on with that. -/
theorem tokens_append (h : Stops rest) (t : Text) :
    tokens (t ++ rest) = tokens t >>= fun ts => (tokens rest).map (ts ++ ·) := by
  induction t using tokens.induct with
  | case1 =>
    rw [List.nil_append, tokens_nil]
    cases tokens rest with
    | error err => rfl
    | ok ts => rfl
  | case2 c t hblank ih => rw [List.cons_append, tokens_blank hblank, tokens_blank hblank, ih]
  | case3 c t hblank err herr =>
    have hblank : isBlank c = false := by simpa using hblank
    have hword := word_append h c t
    rw [herr] at hword
    rw [List.cons_append, tokens_error hblank hword, tokens_error hblank herr]
    rfl
  | case4 c t hblank token rest' hok ih =>
    have hblank : isBlank c = false := by simpa using hblank
    have hword := word_append h c t
    rw [hok] at hword
    rw [List.cons_append, tokens_word hblank hword, tokens_word hblank hok, ih]
    cases tokens rest' with
    | error err => rfl
    | ok ts => exact map_map _ _ _

/-! ## Blanks at the ends -/

theorem goesOn_of_isBlank (h : isBlank c = true) : goesOn c = false := by
  by_contra hgoes
  have hgoes : goesOn c = true := by simpa using hgoes
  simp only [goesOn, Bool.or_eq_true, decide_eq_true_eq] at hgoes
  rcases hgoes with ((hname | rfl) | rfl) | rfl
  · rw [isBlank_of_continuesName hname] at h
    cases h
  · cases h
  · cases h
  · cases h

theorem tokens_blanks_append {front : Text} (h : ∀ c ∈ front, isBlank c = true) (t : Text) :
    tokens (front ++ t) = tokens t := by
  induction front with
  | nil => rfl
  | cons c front ih =>
    rw [List.cons_append, tokens_blank (h c (List.mem_cons_self ..))]
    exact ih fun d hd => h d (List.mem_cons_of_mem _ hd)

theorem tokens_append_blanks {behind : Text} (h : ∀ c ∈ behind, isBlank c = true) (t : Text) :
    tokens (t ++ behind) = tokens t := by
  have hstops : Stops behind := fun c hc => goesOn_of_isBlank (h c (List.mem_of_mem_head? hc))
  have hbehind := tokens_blanks_append h []
  rw [List.append_nil, tokens_nil] at hbehind
  rw [tokens_append hstops, hbehind]
  cases tokens t with
  | error err => rfl
  | ok ts => exact congrArg Except.ok ts.append_nil

theorem exists_trim (t : Text) :
    ∃ front behind, t = front ++ trim t ++ behind ∧ (∀ c ∈ front, isBlank c = true) ∧
      ∀ c ∈ behind, isBlank c = true := by
  refine ⟨t.takeWhile isBlank, ((t.dropWhile isBlank).reverse.takeWhile isBlank).reverse, ?_, ?_, ?_⟩
  · rw [trim, List.append_assoc, ← List.reverse_append, List.takeWhile_append_dropWhile, List.reverse_reverse,
      List.takeWhile_append_dropWhile]
  · exact fun c => List.mem_takeWhile_imp
  · exact fun c hc => List.mem_takeWhile_imp (List.mem_reverse.1 hc)

/-- The blanks at the ends of a text change nothing. -/
theorem tokens_trim (t : Text) : tokens (trim t) = tokens t := by
  obtain ⟨front, behind, ht, hfront, hbehind⟩ := exists_trim t
  calc tokens (trim t) = tokens (front ++ trim t) := (tokens_blanks_append hfront _).symm
    _ = tokens (front ++ trim t ++ behind) := (tokens_append_blanks hbehind _).symm
    _ = tokens t := by rw [← ht]

/-! ## The characters of words -/

/-- The character can stand in a text of words. -/
def isReadable (c : Char) : Bool := isBlank c || (symbol? c).isSome || goesOn c

theorem isReadable_of_goesOn (h : goesOn c = true) : isReadable c = true := by simp [isReadable, h]

theorem append_splitSign (t : Text) : (splitSign t).1 ++ (splitSign t).2 = t := by
  unfold splitSign
  split
  · split
    · rfl
    · rfl
  · rfl

theorem goesOn_splitSign : ∀ c ∈ (splitSign t).1, goesOn c = true := by
  unfold splitSign
  intro c hc
  split at hc
  next d t =>
    split at hc
    next hd =>
      obtain rfl := List.mem_singleton.1 hc
      simp only [Bool.or_eq_true, decide_eq_true_eq] at hd
      rcases hd with rfl | rfl
      · rfl
      · rfl
    next => cases hc
  next => cases hc

theorem append_splitExponent (t : Text) : (splitExponent t).1 ++ (splitExponent t).2 = t := by
  unfold splitExponent
  split
  next c t =>
    simp only
    split
    · rw [List.cons_append, List.cons_append, List.append_assoc, List.takeWhile_append_dropWhile, append_splitSign]
    · rfl
  next => rfl

theorem goesOn_splitExponent : ∀ c ∈ (splitExponent t).1, goesOn c = true := by
  unfold splitExponent
  intro d hd
  split at hd
  next c t =>
    simp only at hd
    split at hd
    next hmark =>
      simp only [Bool.and_eq_true] at hmark
      rcases List.mem_append.1 hd with hd | hd
      · rcases List.mem_cons.1 hd with rfl | hd
        · exact goesOn_of_isExponentMark hmark.1
        · exact goesOn_splitSign d hd
      · exact goesOn_of_isDigit (List.mem_takeWhile_imp hd)
    next => cases hd
  next => cases hd

/-- A word takes readable characters from the front of the text. -/
theorem exists_of_word {token : Token} (h : word c t = .ok (token, rest)) :
    ∃ taken, t = taken ++ rest ∧ ∀ d ∈ c :: taken, isReadable d = true := by
  unfold word at h
  split at h
  next symbol hsymbol =>
    cases h
    refine ⟨[], rfl, fun d hd => ?_⟩
    obtain rfl := List.mem_singleton.1 hd
    simp [isReadable, hsymbol]
  next =>
    split at h
    next hstarts =>
      cases h
      refine ⟨t.takeWhile continuesName, (List.takeWhile_append_dropWhile ..).symm, fun d hd => ?_⟩
      refine isReadable_of_goesOn (goesOn_of_continuesName ?_)
      rcases List.mem_cons.1 hd with rfl | hd
      · simp only [startsName, Bool.or_eq_true] at hstarts
        simp only [continuesName, Char.isAlphanum, Bool.or_eq_true]
        exact hstarts.imp_left .inl
      · exact List.mem_takeWhile_imp hd
    next =>
      split at h
      next hstarts =>
        obtain ⟨token', -, htoken⟩ := map_eq_ok.1 h
        obtain ⟨-, rfl⟩ := Prod.mk.inj htoken
        refine ⟨t.takeWhile isNumeric ++ (splitExponent (t.dropWhile isNumeric)).1, ?_, fun d hd => ?_⟩
        · rw [List.append_assoc, append_splitExponent, List.takeWhile_append_dropWhile]
        · refine isReadable_of_goesOn ?_
          rcases List.mem_cons.1 hd with rfl | hd
          · simp only [startsNumber, Bool.or_eq_true, Bool.and_eq_true, decide_eq_true_eq] at hstarts
            rcases hstarts with hdigit | ⟨rfl, -⟩
            · exact goesOn_of_isDigit hdigit
            · rfl
          · rcases List.mem_append.1 hd with hd | hd
            · exact goesOn_of_isNumeric (List.mem_takeWhile_imp hd)
            · exact goesOn_splitExponent d hd
      next => cases h

/-- **A text that is read as words has only readable characters.** -/
theorem isReadable_of_tokens (h : tokens t = .ok ts) : ∀ c ∈ t, isReadable c = true := by
  refine tokens_induction (P := fun t _ => ∀ c ∈ t, isReadable c = true) nofun ?_ ?_ h
  · intro c t ts hblank ih d hd
    rcases List.mem_cons.1 hd with rfl | hd
    · simp [isReadable, hblank]
    · exact ih d hd
  · intro c t token rest ts hword ih d hd
    obtain ⟨taken, rfl, htaken⟩ := exists_of_word hword
    rw [← List.cons_append] at hd
    rcases List.mem_append.1 hd with hd | hd
    · exact htaken d hd
    · exact ih d hd

end Token

end PocketCalc
