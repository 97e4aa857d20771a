import FluentShift.Log

/-!
# FluentShift.Proofs.Runs - what work that logs and may fail gives

`Gives r e`: whatever was logged before, the work `r` gives `e`.  No work of this program reads the log, so what a `Run`
gives is what the same steps give in `Except` (`Gives.bind`).
-/

namespace FluentShift

/-! ### Results that may be failures -/

namespace Except

variable {ε α β : Type}

theorem bind_eq_ok {x : Except ε α} {f : α → Except ε β} {b : β} :
    (x >>= f) = .ok b ↔ ∃ a, x = .ok a ∧ f a = .ok b := by
  cases x <;> simp [bind, Except.bind]

theorem map_eq_ok {x : Except ε α} {f : α → β} {b : β} : x.map f = .ok b ↔ ∃ a, x = .ok a ∧ f a = b := by
  cases x <;> simp [Except.map]

theorem bind_eq_error {x : Except ε α} {f : α → Except ε β} {e : ε} :
    (x >>= f) = .error e ↔ x = .error e ∨ ∃ a, x = .ok a ∧ f a = .error e := by
  cases x <;> simp [bind, Except.bind]

theorem eq_ok_of_toOption {x : Except ε α} {a : α} (h : x.toOption = some a) : x = .ok a := by
  cases x with
  | error e => cases h
  | ok b => cases h; rfl

end Except

namespace Run

variable {α β : Type}

/-- The work gives `e`, whatever was logged before. -/
def Gives (r : Run α) (e : Except Failure α) : Prop := ∀ l : Log, (StateT.run r l).1 = e

theorem Gives.value {r : Run α} {e : Except Failure α} (h : Gives r e) : r.value = e := h []

theorem gives_pure (a : α) : Gives (pure a) (.ok a) := fun _ => rfl

theorem gives_throw (f : Failure) : Gives (throw f : Run α) (.error f) := fun _ => rfl

theorem gives_log (level : Level) (text : String) : Gives (log level text) (.ok ()) := fun _ => rfl

theorem gives_ofExcept (e : Except Failure α) : Gives (ofExcept e) e := by
  cases e with
  | ok a => exact gives_pure a
  | error f => exact gives_throw f

theorem Gives.bind {r : Run α} {e : Except Failure α} {f : α → Run β} {g : α → Except Failure β}
    (hr : Gives r e) (hf : ∀ a, Gives (f a) (g a)) : Gives (r >>= f) (e >>= g) := by
  intro l
  have h := hr l
  show (StateT.run (ExceptT.run r >>= ExceptT.bindCont f) l).1 = _
  rw [StateT.run_bind]
  obtain ⟨a, l', hrun⟩ : ∃ a l', StateT.run (ExceptT.run r) l = (a, l') := ⟨_, _, rfl⟩
  rw [show (StateT.run r l).1 = a from congrArg Prod.fst hrun] at h
  rw [hrun, ← h]
  cases a with
  | error f => rfl
  | ok a => exact hf a l'

/-- Work in two steps, when the first one gives `a`. -/
theorem Gives.step {r : Run α} {a : α} {f : α → Run β} {e : Except Failure β} (hr : Gives r (.ok a))
    (hf : Gives (f a) e) : Gives (r >>= f) e := by
  intro l
  have h := hr l
  show (StateT.run (ExceptT.run r >>= ExceptT.bindCont f) l).1 = _
  rw [StateT.run_bind]
  obtain ⟨a', l', hrun⟩ : ∃ a l', StateT.run (ExceptT.run r) l = (a, l') := ⟨_, _, rfl⟩
  rw [show (StateT.run r l).1 = a' from congrArg Prod.fst hrun] at h
  rw [hrun, h]
  exact hf l'

theorem value_map (f : α → β) (r : Run α) : (f <$> r).value = f <$> r.value := by
  show (StateT.run (ExceptT.run (f <$> r)) []).1 = _
  rw [ExceptT.run_map, StateT.run_map]
  rfl

/-- The work can end with `a`, after some lines of the log. -/
def Ends (r : Run α) (a : α) : Prop := ∃ l : Log, (StateT.run r l).1 = .ok a

theorem ends_of_value {r : Run α} {a : α} (h : r.value = .ok a) : Ends r a := ⟨[], h⟩

theorem Gives.ends {r : Run α} {e : Except Failure α} {a : α} (hr : Gives r e) (h : Ends r a) : e = .ok a := by
  obtain ⟨l, hl⟩ := h
  rw [← hr l, hl]

/-- Work in two steps ends with what the second step makes of what the first one ended with. -/
theorem Ends.of_bind {r : Run α} {f : α → Run β} {b : β} (h : Ends (r >>= f) b) : ∃ a, Ends r a ∧ Ends (f a) b := by
  obtain ⟨l, hl⟩ := h
  have hl : (StateT.run (ExceptT.run r >>= ExceptT.bindCont f) l).1 = .ok b := hl
  rw [StateT.run_bind] at hl
  obtain ⟨a, l', hrun⟩ : ∃ a l', StateT.run (ExceptT.run r) l = (a, l') := ⟨_, _, rfl⟩
  rw [hrun] at hl
  cases a with
  | error f => cases hl
  | ok a => exact ⟨a, ⟨l, congrArg Prod.fst hrun⟩, l', hl⟩

end Run

end FluentShift
