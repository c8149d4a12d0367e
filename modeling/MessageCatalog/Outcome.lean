namespace MessageCatalog

variable {ε α β : Type} {x : Except ε α} {f : α → Except ε β}

theorem Outcome.ok_bind (a : α) (f : α → Except ε β) : (.ok a >>= f) = f a :=
  rfl

@[simp]
theorem Outcome.bind_eq_ok {b : β} : (x >>= f) = .ok b ↔ ∃ a, x = .ok a ∧ f a = .ok b := by
  cases x <;> simp [bind, Except.bind]

@[simp]
theorem Outcome.bind_eq_error {e : ε} :
    (x >>= f) = .error e ↔ x = .error e ∨ ∃ a, x = .ok a ∧ f a = .error e := by
  cases x <;> simp [bind, Except.bind]

-- What comes last cannot fail if it only returns.
theorem Outcome.bind_pure_eq_error {e : ε} {g : α → β} :
    (x >>= fun a => pure (g a)) = .error e ↔ x = .error e := by
  cases x <;> simp [bind, Except.bind, pure, Except.pure]

@[simp]
theorem Outcome.pure_eq_ok {a b : α} : (pure a : Except ε α) = .ok b ↔ a = b := by
  simp [pure, Except.pure]

section Errors

variable {δ : Type} {g : ε → δ}

@[simp]
theorem Outcome.mapError_eq_ok {a : α} : x.mapError g = .ok a ↔ x = .ok a := by
  cases x
  case error => exact ⟨nofun, nofun⟩
  case ok b =>
    change Except.ok b = .ok a ↔ _
    simp

@[simp]
theorem Outcome.mapError_eq_error {d : δ} :
    x.mapError g = .error d ↔ ∃ e, x = .error e ∧ g e = d := by
  cases x
  case error e =>
    change Except.error (g e) = .error d ↔ _
    simp
  case ok => exact ⟨nofun, fun ⟨_, h, _⟩ => nomatch h⟩

end Errors

end MessageCatalog
