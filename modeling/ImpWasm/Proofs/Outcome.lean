set_option autoImplicit false

namespace ImpWasm

section Except

variable {ε α β : Type}

theorem bind_eq_ok {x : Except ε α} {f : α → Except ε β} {b : β} :
    x >>= f = .ok b ↔ ∃ a, x = .ok a ∧ f a = .ok b := by
  cases x with
  | error e => simp [bind, Except.bind]
  | ok a => simp [bind, Except.bind]

theorem pure_eq_ok {a b : α} : (pure a : Except ε α) = .ok b ↔ a = b := by simp [pure, Except.pure]

theorem throw_ne_ok {e : ε} {b : α} : (throw e : Except ε α) ≠ .ok b := by
  intro h
  cases h

theorem map_eq_ok {x : Except ε α} {f : α → β} {b : β} : x.map f = .ok b ↔ ∃ a, x = .ok a ∧ f a = b := by
  cases x with
  | error e => simp [Except.map]
  | ok a => simp [Except.map]

end Except

section Outcome

variable {ε σ α β : Type} {s : σ}

/-- How a computation ends when it is started in `s`, and the state it leaves. -/
def outcome (m : ExceptT ε (StateM σ) α) (s : σ) : Except ε α × σ := m.run.run s

theorem outcome_bind (m : ExceptT ε (StateM σ) α) (f : α → ExceptT ε (StateM σ) β) :
    outcome (m >>= f) s =
      match outcome m s with
      | (.ok a, t) => outcome (f a) t
      | (.error e, t) => (.error e, t) := by
  simp only [outcome, bind, ExceptT.bind, ExceptT.run, ExceptT.mk, StateT.bind, StateT.run, ExceptT.bindCont]
  rcases m s with ⟨_ | _, _⟩ <;> rfl

@[simp] theorem outcome_pure (a : α) : outcome (pure a : ExceptT ε (StateM σ) α) s = (.ok a, s) := rfl

@[simp] theorem outcome_throw (e : ε) : outcome (throw e : ExceptT ε (StateM σ) α) s = (.error e, s) := rfl

@[simp] theorem outcome_get : outcome (get : ExceptT ε (StateM σ) σ) s = (.ok s, s) := rfl

@[simp] theorem outcome_set (t : σ) : outcome (set t : ExceptT ε (StateM σ) PUnit) s = (.ok ⟨⟩, t) := rfl

@[simp] theorem outcome_modify (f : σ → σ) :
    outcome (modify f : ExceptT ε (StateM σ) PUnit) s = (.ok ⟨⟩, f s) := rfl

theorem outcome_bind_ok {m : ExceptT ε (StateM σ) α} {f : α → ExceptT ε (StateM σ) β} {a : α} {t : σ}
    (h : outcome m s = (.ok a, t)) : outcome (m >>= f) s = outcome (f a) t := by
  rw [outcome_bind, h]

theorem outcome_bind_error {m : ExceptT ε (StateM σ) α} {f : α → ExceptT ε (StateM σ) β} {e : ε} {t : σ}
    (h : outcome m s = (.error e, t)) : outcome (m >>= f) s = (.error e, t) := by
  rw [outcome_bind, h]

theorem outcome_bind_eq_ok {m : ExceptT ε (StateM σ) α} {f : α → ExceptT ε (StateM σ) β} {b : β} {u : σ} :
    outcome (m >>= f) s = (.ok b, u) ↔ ∃ a t, outcome m s = (.ok a, t) ∧ outcome (f a) t = (.ok b, u) := by
  rw [outcome_bind]
  rcases outcome m s with ⟨_ | a, t⟩
  · simp
  · constructor
    · exact fun h => ⟨a, t, rfl, h⟩
    · rintro ⟨_, _, hm, h⟩
      cases hm
      exact h

theorem outcome_ext {m n : ExceptT ε (StateM σ) α} (h : ∀ s, outcome m s = outcome n s) : m = n :=
  funext h

/-- Runs a computation to its end and returns how it ended. -/
def attempt (m : ExceptT ε (StateM σ) α) : ExceptT ε (StateM σ) (Except ε α) :=
  fun s => let (r, t) := outcome m s; (.ok r, t)

@[simp] theorem outcome_attempt (m : ExceptT ε (StateM σ) α) :
    outcome (attempt m) s = (.ok (outcome m s).1, (outcome m s).2) := rfl

theorem outcome_attempt_bind (m : ExceptT ε (StateM σ) α) (f : Except ε α → ExceptT ε (StateM σ) β) :
    outcome (attempt m >>= f) s = outcome (f (outcome m s).1) (outcome m s).2 :=
  outcome_bind_ok (outcome_attempt m)

end Outcome

end ImpWasm
