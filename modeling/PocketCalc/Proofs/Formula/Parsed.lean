import PocketCalc.Formula.Parser
import PocketCalc.Proofs.Expr.Unsigned
import PocketCalc.Proofs.Grammar.Acceptance
import PocketCalc.Proofs.Token.Append

/-!
# The formulas that are read

* `sign_of_tokens` — the numbers among the words of a text have no minus sign;
* `ItemOf`, `exists_word_of_ofTokens` — every item of a listing comes from a word;
* `parse_eq_ok` — a text is read as a formula if the grammar makes that formula of its words, and it is not too deep;
* `sound_of_parse` — a formula that is read has no number with a minus sign and no variable but the bound one, and
  it is not too deep.
-/

namespace PocketCalc

open Binary64 Rpn

/-! ## The numbers among the words -/

section Numbers

variable {t rest : Text} {c : Char} {v : Binary64} {token : Token} {ts : List Token}

theorem sign_of_unsigned? (h : Numeral.unsigned? t = some v) : v.sign = .positive := by
  simp only [Numeral.unsigned?] at h
  split at h
  · cases h
  · obtain ⟨e, -, rfl⟩ := Option.map_eq_some_iff.1 h
    exact Decimal.sign_toBinary64 _

theorem sign_of_magnitude? (h : Numeral.magnitude? t = some v) : v.sign = .positive := by
  simp only [Numeral.magnitude?] at h
  split at h
  · cases h
    rfl
  · split at h
    · cases h
      rfl
    · exact sign_of_unsigned? h

/-- Only a minus sign in front makes a number with a minus sign. -/
theorem sign_of_read? (hc : c ≠ '-') (h : Numeral.read? (c :: t) = some v) : v.sign = .positive := by
  unfold Numeral.read? at h
  split at h
  next heq =>
    cases heq
    exact absurd rfl hc
  · exact sign_of_magnitude? h
  · exact sign_of_magnitude? h

theorem sign_of_word (h : Token.word c t = .ok (.number v, rest)) : v.sign = .positive := by
  unfold Token.word at h
  split at h
  next token hsymbol =>
    obtain rfl : token = .number v := (Prod.mk.inj (Except.ok.inj h)).1
    unfold Token.symbol? at hsymbol
    split at hsymbol <;> cases hsymbol
  next hsymbol =>
    have hc : c ≠ '-' := by
      rintro rfl
      cases hsymbol
    split at h
    · cases h
    · split at h
      · simp only [Token.numberOf] at h
        split at h
        · cases h
        · split at h
          next v' hread =>
            cases h
            exact sign_of_read? hc hread
          · cases h
      · cases h

theorem sign_of_tokens (h : Token.tokens t = .ok ts) : ∀ v, Token.number v ∈ ts → v.sign = .positive := by
  refine Token.tokens_induction (P := fun _ ts => ∀ v, Token.number v ∈ ts → v.sign = .positive) nofun ?_ ?_ h
  · intro c t ts _ ih
    exact ih
  · intro c t token rest ts hword ih v hv
    rcases List.mem_cons.1 hv with rfl | hv
    · exact sign_of_word hword
    · exact ih v hv

end Numbers

/-! ## The items of a listing -/

namespace Rpn

/-- The item is one that the word can be listed as. -/
inductive ItemOf (t : Token) : Item → Prop where
  | leaf {a : Atom Binary64} (h : Grammar.leaf? t = some a) : ItemOf t (.atom a)
  | function {f : Function} (h : Grammar.function? t = some f) : ItemOf t (.operation (.call f))
  | neg (h : t = .symbol .sub) : ItemOf t (.operation .neg)
  | operator {op : Operator} (h : t = .symbol op) : ItemOf t (.operation (.binary op))

/-- What is listed has the property, and what waits will have it. -/
structure Lists (p : Item → Prop) (pending : List Pending) (listed : List Item) : Prop where
  pending : ∀ o, .operation o ∈ pending → p (.operation o)
  listed : ∀ i ∈ listed, p i

variable {p : Item → Prop} {pending pending' : List Pending} {listed listed' items : List Item} {ts : List Token}
  {o : Operation} {i : Item} {w : Pending}

theorem Lists.list (h : Lists p pending listed) (hi : p i) : Lists p pending (i :: listed) := by
  refine ⟨h.pending, fun j hj => ?_⟩
  rcases List.mem_cons.1 hj with rfl | hj
  · exact hi
  · exact h.listed j hj

theorem Lists.wait (h : Lists p pending listed) (ho : p (.operation o)) :
    Lists p (.operation o :: pending) listed := by
  refine ⟨fun o' ho' => ?_, h.listed⟩
  rcases List.mem_cons.1 ho' with heq | ho'
  · cases heq
    exact ho
  · exact h.pending o' ho'

theorem Lists.tail (h : Lists p (w :: pending) listed) : Lists p pending listed :=
  ⟨fun o ho => h.pending o (List.mem_cons_of_mem _ ho), h.listed⟩

/-- An operation that waits is listed. -/
theorem Lists.move (h : Lists p (.operation o :: pending) listed) : Lists p pending (.operation o :: listed) :=
  h.tail.list (h.pending o (List.mem_cons_self ..))

theorem Lists.unwind (h : Lists p pending listed) (op : Operator) :
    Lists p (Reading.unwind op pending listed).1 (Reading.unwind op pending listed).2 := by
  induction pending generalizing listed with
  | nil => exact h
  | cons w pending ih =>
    cases w with
    | paren => exact h
    | operation o =>
      simp only [Reading.unwind]
      split
      · exact ih h.move
      · exact h

theorem Lists.close? (h : Lists p pending listed) (hclose : Reading.close? pending listed = some (pending', listed')) :
    Lists p pending' listed' := by
  induction pending generalizing listed with
  | nil => cases hclose
  | cons w pending ih =>
    cases w with
    | paren =>
      cases hclose
      exact h.tail
    | operation o => exact ih h.move hclose

theorem Lists.drain? (h : Lists p pending listed) (hdrain : Reading.drain? pending listed = some listed') :
    ∀ i ∈ listed', p i := by
  induction pending generalizing listed with
  | nil =>
    cases hdrain
    exact h.listed
  | cons w pending ih =>
    cases w with
    | paren => cases hdrain
    | operation o => exact ih h.move hdrain

/-- A word lists and keeps waiting what it can be listed as, and nothing else. -/
theorem Lists.step {s s' : Reading} {t : Token} (h : Lists p s.pending s.listed) (ht : ∀ i, ItemOf t i → p i)
    (hstep : s.step t = .ok s') : Lists p s'.pending s'.listed := by
  cases Grammar.Step.of_step hstep with
  | leaf hs hleaf => exact h.list (ht _ (.leaf hleaf))
  | function hs hfun => exact h.wait (ht _ (.function hfun))
  | neg hs => exact h.wait (ht _ (.neg rfl))
  | leftParen hs => exact ⟨fun o ho => h.pending o (by simpa [Reading.afterParen] using ho), h.listed⟩
  | rightParen hs hclose => exact h.close? hclose
  | operator op hs => exact (h.unwind op).wait (ht _ (.operator rfl))

theorem finish_eq_ok {s : Reading} : s.finish = .ok items ↔
    s.awaiting = false ∧ ∃ listed, Reading.drain? s.pending s.listed = some listed ∧ items = listed.reverse := by
  unfold Reading.finish
  cases s.awaiting with
  | true => simp
  | false =>
    cases Reading.drain? s.pending s.listed with
    | none => simp
    | some listed => simp [eq_comm]

/-- **Every item of a listing comes from a word.** -/
theorem exists_word_of_ofTokens (h : ofTokens ts = .ok items) : ∀ i ∈ items, ∃ t ∈ ts, ItemOf t i := by
  obtain ⟨s, hrun, hfinish⟩ := bind_eq_ok.1 (ofTokens_eq_ok.1 h)
  obtain ⟨-, listed, hdrain, rfl⟩ := finish_eq_ok.1 hfinish
  have hs : Lists (fun i => ∃ t ∈ ts, ItemOf t i) s.pending s.listed := by
    refine foldlM_invariant (fun s => Lists _ s.pending s.listed) (fun s t s' hmem hs => ?_) ⟨nofun, nofun⟩ hrun
    exact hs.step fun i hi => ⟨t, hmem, hi⟩
  intro i hi
  exact hs.drain? hdrain i (List.mem_reverse.1 hi)

/-- The words that the descent reads as a formula are listed as that formula; other words are refused. -/
theorem ofTokens_of_parse (ts : List Token) :
    match Grammar.parse ts with
    | some e => ofTokens ts = .ok (listing e)
    | none => ∃ err, ofTokens ts = .error err := by
  by_cases hts : ts = []
  · subst hts
    have hnone : Grammar.parse [] = none := by
      simp [Grammar.parse, Grammar.sum, Grammar.product, Grammar.unary, Grammar.power, Grammar.applied,
        Grammar.Phrase.followedBy]
    rw [hnone]
    exact ⟨.empty, rfl⟩
  · rw [ofTokens_eq_run hts]
    exact Grammar.run_eq_parse ts

theorem ofTokens_eq_listing {e : Formula} (h : Grammar.parse ts = some e) : ofTokens ts = .ok (listing e) := by
  have hgrammar := ofTokens_of_parse ts
  rwa [h] at hgrammar

theorem bind_build_eq_ok {e : Formula} :
    ofTokens ts >>= build = .ok e ↔ Grammar.parse ts = some e ∧ e.depth ≤ maxDepth := by
  have hgrammar := ofTokens_of_parse ts
  cases hparse : Grammar.parse ts with
  | none =>
    rw [hparse] at hgrammar
    obtain ⟨err, herr⟩ := hgrammar
    rw [herr]
    simp [bind, Except.bind]
  | some e' =>
    rw [hparse] at hgrammar
    rw [hgrammar]
    show build (listing e') = .ok e ↔ _
    rw [build_listing, Option.some.injEq]
    split
    next hdepth =>
      rw [Except.ok.injEq]
      exact ⟨fun h => ⟨h, h ▸ hdepth⟩, fun h => h.1⟩
    next hdepth =>
      simp only [reduceCtorEq, false_iff, not_and]
      exact fun h => h ▸ hdepth

end Rpn

theorem Expr.allAtoms_of_listing {p : Atom Binary64 → Prop} {e : Formula} (h : ∀ a, Item.atom a ∈ listing e → p a) :
    e.AllAtoms p := by
  induction e with
  | atom a => exact h a (by simp [listing])
  | neg e ih => exact ih fun a ha => h a (by simp [listing, ha])
  | call f e ih => exact ih fun a ha => h a (by simp [listing, ha])
  | binary op a b iha ihb =>
    exact ⟨iha fun a ha => h a (by simp [listing, ha]), ihb fun a ha => h a (by simp [listing, ha])⟩

/-! ## The formula of a text -/

/-- A leaf that words are read as: no number with a minus sign, and no variable but the bound one. -/
def Atom.Readable : Atom Binary64 → Prop
  | .number v => v.sign = .positive
  | .var name => name = Expr.boundName
  | .constant _ => True

theorem readable_of_leaf? {t : Token} {a : Atom Binary64} (hnum : ∀ v, t = .number v → v.sign = .positive)
    (h : Grammar.leaf? t = some a) : a.Readable := by
  cases t with
  | number v =>
    cases h
    exact hnum v rfl
  | name word =>
    simp only [Grammar.leaf?] at h
    split at h
    next hx =>
      cases h
      exact hx
    · split at h
      · cases h
        exact trivial
      · split at h
        · cases h
          exact trivial
        · cases h
  | _ => cases h

namespace Formula

variable {source : Text} {e : Formula}

/-- Reading a text is reading its words, their listing, and the formula. -/
theorem parse_eq (source : Text) :
    parse source = Token.tokens source >>= fun ts => Rpn.ofTokens ts >>= Rpn.build := by
  have htrim := Token.tokens_trim source
  simp only [parse]
  split
  next h =>
    rw [h, Token.tokens_nil] at htrim
    rw [← htrim]
    rfl
  next => rw [htrim]

/-- A text is read as a formula if its words are, and the formula is not too deep. -/
theorem parse_eq_ok : parse source = .ok e ↔
    ∃ ts, Token.tokens source = .ok ts ∧ Grammar.parse ts = some e ∧ e.depth ≤ maxDepth := by
  rw [parse_eq, bind_eq_ok]
  simp only [bind_build_eq_ok]

end Formula

/-- **A formula that is read has readable leaves, and it is not too deep.** -/
theorem sound_of_parse {source : Text} {e : Formula} (h : Formula.parse source = .ok e) :
    e.AllAtoms Atom.Readable ∧ e.depth ≤ maxDepth := by
  obtain ⟨ts, hts, hparse, hdepth⟩ := Formula.parse_eq_ok.1 h
  have hitems := ofTokens_eq_listing hparse
  have hnum := sign_of_tokens hts
  refine ⟨Expr.allAtoms_of_listing fun a ha => ?_, hdepth⟩
  obtain ⟨t, ht, hitem⟩ := exists_word_of_ofTokens hitems _ ha
  cases hitem with
  | leaf hleaf => exact readable_of_leaf? (fun v hv => hnum v (hv ▸ ht)) hleaf

/-- If its numbers are finite, it can be written. -/
theorem Expr.AllAtoms.writable {e : Formula} (h : e.AllAtoms Atom.Readable) (hnum : e.hasFiniteNumbers = true) :
    e.AllAtoms fun a => a.Writable ∧ a.Unsigned := by
  induction e with
  | atom a =>
    cases a with
    | number v => exact ⟨Expr.isFinite_of_arithmetic hnum, h⟩
    | var name => exact ⟨h, trivial⟩
    | constant c => exact ⟨trivial, trivial⟩
  | neg e ih => exact ih h hnum
  | call f e ih => exact ih h hnum
  | binary op a b iha ihb =>
    simp only [Expr.hasFiniteNumbers, Bool.and_eq_true] at hnum
    exact ⟨iha h.1 hnum.1, ihb h.2 hnum.2⟩

end PocketCalc
