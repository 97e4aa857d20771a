import FluentShift.Result

/-!
# FluentShift.Proofs.Result - going on with results

`Result.map` looks at the status and the data of a result, and at nothing else that one `map` could change before the next.
So two functions one after the other come to the same as both at once, as long as the first one gives data
(`map_map_iff`): without data the second one is not asked.
-/

namespace FluentShift.Result

variable {α β γ : Type} {r : Result α} {f : α → Except Failure (Option β)}

/-! ### The constructor -/

/-- The constructor accepts the parts of every result, and gives back that result. -/
theorem make_parts (r : Result α) : make r.status r.data r.error r.warnings r.metadata = .ok r := by
  rw [make, dif_pos r.flawless, dif_pos r.dataless]

/-! ### One function -/

/-- What an answer makes of a usable result with these warnings and this metadata. -/
def ofAnswer (answer : Except Failure (Option β)) (warnings : List String) (metadata : Metadata) : Result β :=
  match answer with
  | .error e => failure e metadata
  | .ok data => finish data warnings metadata

/-- A failed or skipped result only loses its data. -/
theorem map_of_stopped (h : (r.isError || r.isSkipped) = true) (f : α → Except Failure (Option β)) :
    r.map f = r.withoutData := by
  rw [map, if_pos h]

theorem map_of_none (h : (r.isError || r.isSkipped) = false) (hdata : r.data = none)
    (f : α → Except Failure (Option β)) :
    r.map f = failure (.mishap .value "Cannot map over None data") r.metadata := by
  rw [map, if_neg (by rw [h]; exact Bool.false_ne_true), hdata]

theorem map_of_some (h : (r.isError || r.isSkipped) = false) {a : α} (hdata : r.data = some a)
    (f : α → Except Failure (Option β)) : r.map f = ofAnswer (f a) r.warnings r.metadata := by
  rw [map, if_neg (by rw [h]; exact Bool.false_ne_true), hdata]
  rfl

/-! ### One function after the other -/

@[simp] theorem map_failure (e : Failure) (metadata : Metadata) (f : α → Except Failure (Option β)) :
    (failure e metadata : Result α).map f = failure e metadata := rfl

theorem map_withoutData (h : (r.isError || r.isSkipped) = true) (g : β → Except Failure (Option γ)) :
    (r.withoutData : Result β).map g = r.withoutData :=
  map_of_stopped (r := (r.withoutData : Result β)) h g

/-- The status of a result with data and these warnings does not matter: it is decided anew. -/
theorem map_finish (b : β) (warnings : List String) (metadata : Metadata) (g : β → Except Failure (Option γ)) :
    (finish (some b) warnings metadata).map g = ofAnswer (g b) warnings metadata := by
  cases warnings with
  | nil => rfl
  | cons w ws => rfl

/-- Without data the next function is not asked. -/
theorem map_finish_none (warnings : List String) (metadata : Metadata) (g : β → Except Failure (Option γ)) :
    (finish none warnings metadata).map g = failure (.mishap .value "Cannot map over None data") metadata := by
  cases warnings with
  | nil => rfl
  | cons w ws => rfl

theorem finish_ne_failure (data : Option γ) (warnings : List String) (metadata : Metadata) (e : Failure) :
    finish data warnings metadata ≠ failure e metadata := by
  cases warnings with
  | nil => exact fun h => by cases congrArg Result.status h
  | cons w ws => exact fun h => by cases congrArg Result.status h

/-- What two functions, one after the other, make of an answer of the first one that is not empty. -/
theorem map_ofAnswer {answer : Except Failure (Option β)} (h : answer ≠ .ok none) (warnings : List String)
    (metadata : Metadata) (g : Option β → Except Failure (Option γ)) :
    (ofAnswer answer warnings metadata).map (fun b => g (some b)) = ofAnswer (answer >>= g) warnings metadata := by
  cases answer with
  | error e => rfl
  | ok data =>
    cases data with
    | none => exact absurd rfl h
    | some b => exact map_finish b warnings metadata _

/-- Two functions one after the other come to the same as both at once, whatever the second one is, exactly when the first
one gives data wherever it is asked. -/
theorem map_map_iff :
    (∀ g : Option β → Except Failure (Option γ), (r.map f).map (fun b => g (some b)) = r.map fun a => f a >>= g) ↔
      ((r.isError || r.isSkipped) = false → ∀ a, r.data = some a → f a ≠ .ok none) := by
  constructor
  · intro h hgoing a hdata hnone
    have hempty := h fun _ => .ok none
    rw [map_of_some hgoing hdata, map_of_some hgoing hdata, hnone] at hempty
    exact finish_ne_failure none r.warnings r.metadata _ ((map_finish_none _ _ _).symm.trans hempty).symm
  · intro h g
    cases hstop : r.isError || r.isSkipped with
    | true => rw [map_of_stopped hstop, map_of_stopped hstop, map_withoutData hstop]
    | false =>
      cases hdata : r.data with
      | none => rw [map_of_none hstop hdata, map_of_none hstop hdata, map_failure]
      | some a => rw [map_of_some hstop hdata, map_of_some hstop hdata, map_ofAnswer (h hstop a hdata)]

/-- A function that never comes to nothing and then another one come to the same, one after the other and both at once. -/
theorem map_map (r : Result α) (hf : ∀ a, f a ≠ .ok none) (g : Option β → Except Failure (Option γ)) :
    (r.map f).map (fun b => g (some b)) = r.map fun a => f a >>= g :=
  map_map_iff.mpr (fun _ a _ => hf a) g

/-- A result that calls itself a success in spite of a warning becomes a result with warnings, one function after the other
and both at once. -/
theorem map_map_warned :
    let lower (n : Nat) : Except Failure (Option Nat) :=
      if n = 0 then .error (.mishap .value "nothing is lower") else .ok (some (n - 1))
    let halve (n : Option Nat) : Except Failure (Option Nat) :=
      match n with
      | some n => if n % 2 = 0 then .ok (some (n / 2)) else .ok none
      | none => .error (.mishap .wrongType "nothing to halve")
    ∃ r : Result Nat, make .success (some 5) none ["careful"] [("run", .text "r")] = .ok r ∧ (∀ n, lower n ≠ .ok none) ∧
      (r.map lower).map (fun n => halve (some n)) = r.map (fun n => lower n >>= halve) ∧
      (r.map fun n => lower n >>= halve) = warning 2 ["careful"] [("run", .text "r")] := by
  intro lower halve
  have hlower : ∀ n, lower n ≠ .ok none := by
    intro n
    by_cases hn : n = 0
    · rw [show lower n = _ from if_pos hn]
      exact fun h => by cases h
    · rw [show lower n = _ from if_neg hn]
      exact fun h => by cases h
  refine ⟨_, rfl, hlower, ?_, rfl⟩
  exact map_map _ hlower halve

end FluentShift.Result
