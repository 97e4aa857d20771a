import FluentShift.Rewrite.Emission
import FluentShift.Proofs.Runs

/-!
# FluentShift.Proofs.Rewrite.Emission - what a chain is made of, and when there is none

`emit_ok` says everything that a chain tells about its call, `emit_error` what a refusal that leaves the call alone says.
-/

namespace FluentShift.Rewrite

open FluentShift.Source

variable {m : Mapping} {c : Classification} {call chain : Tree}

theorem acceptChain_ok {t : Tree} (h : acceptChain m c t = .ok chain) :
    chain = t ∧ leftSlot? (c.slots.map (·.1)) t = none ∧ t.isKind .call = true := by
  unfold acceptChain at h
  split at h
  · cases h
  · rename_i hleft
    split at h
    · rename_i hcall
      cases h
      exact ⟨rfl, hleft, hcall⟩
    · cases h

/-- A chain is a call made of the template and the arguments; its call has as many arguments as the form takes and no
comments around them. -/
theorem emit_ok (h : emit m c call = .ok chain) :
    call.arguments.length = c.shape.arity ∧ hasArgumentComments call = false ∧
      (∃ values t, slotValues c call.arguments = .ok values ∧ readTemplate m c = .ok t ∧
        chain = (substitute values t).unparen) ∧ chain.isKind .call = true := by
  unfold emit at h
  split at h
  · cases h
  · rename_i hlen
    split at h
    · cases h
    · rename_i hcom
      obtain ⟨values, hvalues, h⟩ := Except.bind_eq_ok.mp h
      obtain ⟨t, ht, h⟩ := Except.bind_eq_ok.mp h
      obtain ⟨rfl, -, hcall⟩ := acceptChain_ok h
      exact ⟨Decidable.not_not.mp hlen, by simpa using hcom, ⟨values, t, hvalues, ht, rfl⟩, hcall⟩

theorem pick_error {α : Type} {i : ArgumentIndex} {xs : List α} {f : Failure} (h : ArgumentIndex.pick i xs = .error f) :
    f.isTransformation = false := by
  unfold ArgumentIndex.pick at h
  split at h
  · cases h; rfl
  · simp only at h
    split at h
    · cases h
    · cases h; rfl

theorem slotValues_error {arguments : List Argument} {f : Failure} (h : slotValues c arguments = .error f) :
    f.isTransformation = false := by
  unfold slotValues at h
  generalize c.slots = slots at h
  induction slots with
  | nil => cases h
  | cons s slots ih =>
    rw [List.mapM_cons] at h
    rcases Except.bind_eq_error.mp h with h | ⟨v, -, h⟩
    · rcases Except.bind_eq_error.mp h with h | ⟨a, -, h⟩
      · exact pick_error h
      · cases h
    · rcases Except.bind_eq_error.mp h with h | ⟨vs, -, h⟩
      · exact ih h
      · cases h

theorem readTemplate_error {f : Failure} (h : readTemplate m c = .error f) : f.isTransformation = false := by
  unfold readTemplate at h
  split at h
  · cases h; rfl
  · split at h
    · cases h; rfl
    · cases h

/-- A call with comments around its arguments gets no chain, and is left alone. -/
theorem emit_commented (h : hasArgumentComments call = true) :
    ∃ f, emit m c call = .error f ∧ f.isTransformation = true := by
  unfold emit
  by_cases hlen : call.arguments.length ≠ c.shape.arity
  · rw [if_pos hlen]
    exact ⟨_, rfl, rfl⟩
  · rw [if_neg hlen, if_pos h]
    exact ⟨_, rfl, rfl⟩

/-- A refusal that leaves a call alone: the number of arguments is wrong, a comment would be lost, or the filled template
is no call. -/
theorem emit_error {f : Failure} (h : emit m c call = .error f) (hf : f.isTransformation = true)
    (hlen : call.arguments.length = c.shape.arity) :
    hasArgumentComments call = true ∨
      ∃ values t, slotValues c call.arguments = .ok values ∧ readTemplate m c = .ok t ∧
        (substitute values t).unparen.isKind .call = false := by
  unfold emit at h
  rw [if_neg (not_not_intro hlen)] at h
  split at h
  · rename_i hcom
    exact .inl hcom
  · right
    rcases Except.bind_eq_error.mp h with h | ⟨values, hvalues, h⟩
    · rw [slotValues_error h] at hf; cases hf
    · rcases Except.bind_eq_error.mp h with h | ⟨t, ht, h⟩
      · rw [readTemplate_error h] at hf; cases hf
      · refine ⟨values, t, hvalues, ht, ?_⟩
        unfold acceptChain at h
        split at h
        · cases h; cases hf
        · split at h
          · cases h
          · rename_i hcall
            simpa using hcall

end FluentShift.Rewrite
