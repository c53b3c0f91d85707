/-!
# Computations that may fail

* `bind_eq_ok`, `map_eq_ok`, `mapError_eq_ok` — what a computation in steps needs to have a result;
* `bind_eq_error`, `map_eq_error`, `mapError_eq_error` — and what it needs to fail;
* `foldlM_cons_ok`, `foldlM_append_ok` — a run whose first steps have a result goes on behind them;
* `foldlM_cons_eq_ok`, `foldlM_append_eq_ok` — and a run with a result has one after its first steps;
* `foldlM_range_succ` — a run over one number more ends with its step;
* `foldlM_invariant` — what every step of a run keeps, the run keeps;
* `Corresponds` — two computations that fail alike, or have related results.
-/

namespace PocketCalc

variable {ε α β γ σ : Type}

/-- A computation in two steps gives a value exactly if both steps do. -/
theorem bind_eq_ok {r : Except ε β} {f : β → Except ε γ} {u : γ} :
    r >>= f = .ok u ↔ ∃ v, r = .ok v ∧ f v = .ok u := by
  rcases r with err | v
  · constructor
    · rintro ⟨⟩
    · rintro ⟨v, ⟨⟩, h⟩
  · constructor
    · exact fun h => ⟨v, rfl, h⟩
    · rintro ⟨v', ⟨⟩, h⟩
      exact h

/-- It fails with its first step, or with its second one. -/
theorem bind_eq_error {r : Except ε β} {f : β → Except ε γ} {err : ε} :
    r >>= f = .error err ↔ r = .error err ∨ ∃ v, r = .ok v ∧ f v = .error err := by
  rcases r with err' | v
  · constructor
    · exact fun h => .inl (congrArg Except.error (Except.error.inj h))
    · rintro (h | ⟨v, h, -⟩)
      · exact congrArg Except.error (Except.error.inj h)
      · cases h
  · constructor
    · exact fun h => .inr ⟨v, rfl, h⟩
    · rintro (h | ⟨v', h, hf⟩)
      · cases h
      · cases h
        exact hf

theorem map_eq_ok {r : Except ε β} {f : β → γ} {u : γ} : r.map f = .ok u ↔ ∃ v, r = .ok v ∧ f v = u := by
  rcases r with err | v
  · constructor
    · rintro ⟨⟩
    · rintro ⟨v, ⟨⟩, h⟩
  · constructor
    · exact fun h => ⟨v, rfl, Except.ok.inj h⟩
    · rintro ⟨v', ⟨⟩, rfl⟩
      rfl

theorem map_eq_error {r : Except ε β} {f : β → γ} {err : ε} : r.map f = .error err ↔ r = .error err := by
  rcases r with err' | v
  · exact ⟨fun h => congrArg Except.error (Except.error.inj h), fun h => congrArg Except.error (Except.error.inj h)⟩
  · constructor <;> rintro ⟨⟩

theorem mapError_eq_ok {r : Except ε β} {f : ε → α} {u : β} : r.mapError f = .ok u ↔ r = .ok u := by
  rcases r with err | v
  · constructor <;> rintro ⟨⟩
  · constructor <;> rintro ⟨⟩ <;> rfl

theorem mapError_eq_error {err' : α} {r : Except ε β} {f : ε → α} :
    r.mapError f = .error err' ↔ ∃ err, r = .error err ∧ f err = err' := by
  rcases r with err | v
  · constructor
    · exact fun h => ⟨err, rfl, Except.error.inj h⟩
    · rintro ⟨err, ⟨⟩, rfl⟩
      rfl
  · constructor
    · rintro ⟨⟩
    · rintro ⟨err, ⟨⟩, -⟩

theorem map_map (r : Except ε α) (f : β → γ) (g : α → β) : (r.map g).map f = r.map fun v => f (g v) := by
  cases r <;> rfl

/-! ## Runs -/

section Runs

variable {step : σ → α → Except ε σ} {s s' : σ} {a : α} {l l' : List α}

theorem foldlM_cons_ok (h : step s a = .ok s') (l : List α) : (a :: l).foldlM step s = l.foldlM step s' := by
  rw [List.foldlM_cons, h]
  rfl

theorem foldlM_append_ok (h : l.foldlM step s = .ok s') (l' : List α) :
    (l ++ l').foldlM step s = l'.foldlM step s' := by
  rw [List.foldlM_append, h]
  rfl

theorem foldlM_cons_eq_ok :
    (a :: l).foldlM step s = .ok s' ↔ ∃ s₁, step s a = .ok s₁ ∧ l.foldlM step s₁ = .ok s' := by
  rw [List.foldlM_cons, bind_eq_ok]

theorem foldlM_append_eq_ok :
    (l ++ l').foldlM step s = .ok s' ↔ ∃ s₁, l.foldlM step s = .ok s₁ ∧ l'.foldlM step s₁ = .ok s' := by
  rw [List.foldlM_append, bind_eq_ok]

/-- The last step of a run over the first numbers. -/
theorem foldlM_range_succ (step : σ → Nat → Except ε σ) (s : σ) (n : Nat) :
    (List.range (n + 1)).foldlM step s = (List.range n).foldlM step s >>= fun s' => step s' n := by
  rw [List.range_succ, List.foldlM_append]
  simp only [List.foldlM_cons, List.foldlM_nil, bind_pure]

/-- What every step of a run keeps, the run keeps. -/
theorem foldlM_invariant (P : σ → Prop) (hstep : ∀ s a s', a ∈ l → P s → step s a = .ok s' → P s') (hs : P s)
    (h : l.foldlM step s = .ok s') : P s' := by
  induction l generalizing s with
  | nil =>
    cases h
    exact hs
  | cons a l ih =>
    obtain ⟨s₁, ha, hl⟩ := foldlM_cons_eq_ok.1 h
    have hs₁ : P s₁ := hstep s a s₁ (List.mem_cons_self ..) hs ha
    exact ih (fun s b s' hb => hstep s b s' (List.mem_cons_of_mem _ hb)) hs₁ hl

end Runs

/-! ## Two computations -/

/-- The computations fail alike, or have results in the relation. -/
inductive Corresponds (R : α → β → Prop) : Except ε α → Except ε β → Prop where
  | ok {v : α} {w : β} (h : R v w) : Corresponds R (.ok v) (.ok w)
  | error (err : ε) : Corresponds R (.error err) (.error err)

namespace Corresponds

variable {R : α → β → Prop} {S : γ → σ → Prop} {x : Except ε α} {y : Except ε β} {f : α → Except ε γ}
  {g : β → Except ε σ}

theorem bind (h : Corresponds R x y) (hf : ∀ v w, R v w → Corresponds S (f v) (g w)) :
    Corresponds S (x >>= f) (y >>= g) := by
  cases h with
  | ok h => exact hf _ _ h
  | error err => exact .error err

/-- A computation that both go on with may depend on what came before. -/
theorem bind_left {z : Except ε α} {f : α → Except ε γ} {g : α → Except ε σ} (h : ∀ v, Corresponds S (f v) (g v)) :
    Corresponds S (z >>= f) (z >>= g) := by
  cases z with
  | ok v => exact h v
  | error err => exact .error err

end Corresponds

end PocketCalc
