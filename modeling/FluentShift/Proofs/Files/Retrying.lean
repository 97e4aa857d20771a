import FluentShift.Files.Retry
import Mathlib.Order.Bounds.Basic

/-!
# FluentShift.Proofs.Files.Retrying - how often an operation is tried

An operation is tried until one attempt is not refused in a way that may pass, or no retries are left.  That last attempt
decides: its answer is the answer, and every attempt before it has left one warning in the log (`retry_tries`).  What
holds of any operation with a state (`retryFrom_eq`) is read off for one that follows a list of outcomes, whose state
counts the calls.
-/

namespace FluentShift.Files

/-! ### Attempts and what they leave in the log -/

/-- Whether an attempt was refused in a way that may pass. -/
def mayPass {α : Type} : Except Failure α → Bool
  | .ok _ => false
  | .error f => isPassing f

/-- The line that the last attempt leaves, if it was refused and might have passed; `attempts` were made. -/
def Attempted.lastLine {α : Type} (a : Attempted) (attempts : Nat) : Except Failure α → Log
  | .ok _ => []
  | .error f => if isPassing f then [a.giveUpLine f attempts] else []

/-- The lines that refused attempts leave, one each, counted after `tried` attempts before them. -/
def Attempted.retryLines (a : Attempted) (tried retries : Nat) (refusals : List Failure) : Log :=
  refusals.mapIdx fun i f => a.retryLine f (tried + i + 1) retries

/-- The state after a number of attempts. -/
def stateAfter {σ α : Type} (act : σ → Except Failure α × σ) : σ → Nat → σ
  | s, 0 => s
  | s, n + 1 => stateAfter act (act s).2 n

/-- The answer of the attempt with a number; the first one has the number zero. -/
def answerOf {σ α : Type} (act : σ → Except Failure α × σ) (s : σ) (n : Nat) : Except Failure α :=
  (act (stateAfter act s n)).1

section Lines

variable {α : Type} {a : Attempted} {tried retries : Nat}

theorem level_retryLines {refusals : List Failure} {l : LogLine} (h : l ∈ a.retryLines tried retries refusals) :
    l.level = .warning := by
  obtain ⟨i, hi, rfl⟩ := List.mem_mapIdx.mp h
  rfl

theorem level_lastLine {e : Except Failure α} {l : LogLine} (h : l ∈ a.lastLine tried e) : l.level = .error := by
  cases e with
  | ok x => cases h
  | error f =>
    rw [Attempted.lastLine] at h
    split at h
    · rw [List.mem_singleton.mp h]
      rfl
    · cases h

theorem lastLine_eq_nil_iff {e : Except Failure α} : a.lastLine tried e = [] ↔ mayPass e = false := by
  cases e with
  | ok x => exact iff_of_true rfl rfl
  | error f =>
    rw [Attempted.lastLine, mayPass]
    cases isPassing f <;> simp

end Lines

/-! ### Trying again -/

section Retrying

variable {σ α : Type}

/-- With `left` retries, the last attempt is the first one that cannot pass, or the one after all retries.  The attempts
before it were refused. -/
theorem retryFrom_eq (a : Attempted) (act : σ → Except Failure α × σ) (left tried : Nat) (s : σ) :
    ∃ k refusals, k ≤ left ∧ (mayPass (answerOf act s k) = false ∨ k = left) ∧
      (∀ f ∈ refusals, isPassing f = true) ∧ refusals.map .error = (List.range k).map (answerOf act s) ∧
      retryFrom a act left tried s = ⟨answerOf act s k, stateAfter act s (k + 1),
        a.retryLines tried (tried + left) refusals ++ a.lastLine (tried + k + 1) (answerOf act s k)⟩ := by
  -- by induction on the retries that are left; every attempt that may pass uses one up
  induction left generalizing tried s with
  | zero =>
    refine ⟨0, [], le_rfl, .inr rfl, nofun, rfl, ?_⟩
    rw [retryFrom, answerOf, stateAfter, stateAfter, stateAfter]
    obtain ⟨e, s', hact⟩ : ∃ e s', act s = (e, s') := ⟨_, _, rfl⟩
    rw [hact]
    cases e with
    | ok x => rfl
    | error f => cases hf : isPassing f <;> simp [Attempted.retryLines, Attempted.lastLine, hf]
  | succ left ih =>
    obtain ⟨e, s', hact⟩ : ∃ e s', act s = (e, s') := ⟨_, _, rfl⟩
    have hfirst : answerOf act s 0 = e := congrArg Prod.fst hact
    have hstate : stateAfter act s 1 = s' := congrArg Prod.snd hact
    have hstop : mayPass e = false → retryFrom a act (left + 1) tried s = ⟨e, s', []⟩ := by
      intro he
      rw [retryFrom, hact]
      cases e with
      | ok x => rfl
      | error f =>
        rw [mayPass] at he
        simp only [he, Bool.not_false, if_true]
    cases hpass : mayPass e with
    | false =>
      refine ⟨0, [], Nat.zero_le _, .inl (hfirst ▸ hpass), nofun, rfl, ?_⟩
      rw [hstop hpass, hfirst, hstate, lastLine_eq_nil_iff.mpr hpass]
      rfl
    | true =>
      cases e with
      | ok x => cases hpass
      | error f =>
        rw [mayPass] at hpass
        obtain ⟨k, refusals, hk, hend, hpassing, hrefusals, hrun⟩ := ih (tried + 1) s'
        have hnext : ∀ n, answerOf act s (n + 1) = answerOf act s' n := by
          intro n
          rw [answerOf, stateAfter, hact]
          rfl
        refine ⟨k + 1, f :: refusals, Nat.succ_le_succ hk, ?_, ?_, ?_, ?_⟩
        · rw [hnext]
          exact hend.imp_right (congrArg (· + 1))
        · rintro g hg
          rcases List.mem_cons.mp hg with rfl | hg
          · exact hpass
          · exact hpassing g hg
        · rw [List.range_succ_eq_map, List.map_cons, List.map_cons, List.map_map, hfirst, hrefusals]
          exact congrArg (_ :: ·) (List.map_congr_left fun n _ => (hnext n).symm)
        · have hlines : a.retryLines tried (tried + (left + 1)) (f :: refusals) =
              a.retryLine f (tried + 1) (tried + left + 1) :: a.retryLines (tried + 1) (tried + 1 + left) refusals := by
            rw [Attempted.retryLines, List.mapIdx_cons]
            refine congrArg₂ List.cons rfl (congrArg (List.mapIdx · refusals) (funext fun i => funext fun g => ?_))
            rw [show tried + (i + 1) = tried + 1 + i by omega, show tried + (left + 1) = tried + 1 + left by omega]
          rw [hnext, hlines, stateAfter, hact, retryFrom, hact]
          simp only [hpass, Bool.not_true, Bool.false_eq_true, if_false]
          rw [hrun, show tried + (k + 1) + 1 = tried + 1 + k + 1 by omega]
          rfl

/-- An operation that follows a list of outcomes and counts how often it is called. -/
def following (outcome : Nat → Except Failure α) (calls : Nat) : Except Failure α × Nat := (outcome calls, calls + 1)

theorem stateAfter_following (outcome : Nat → Except Failure α) (calls n : Nat) :
    stateAfter (following outcome) calls n = calls + n := by
  induction n generalizing calls with
  | zero => rfl
  | succ n ih =>
    rw [stateAfter, ih]
    show calls + 1 + n = _
    omega

theorem answerOf_following (outcome : Nat → Except Failure α) (n : Nat) :
    answerOf (following outcome) 0 n = outcome n := by
  rw [answerOf, stateAfter_following, Nat.zero_add]
  rfl

/-- Whatever the outcomes of the attempts and however many retries there are, trying ends.  With `k` the least number of an
attempt that is not refused in a way that may pass, or that no retry is left for, the operation is called `k + 1` times
and comes to outcome `k`; the log has the `k` warnings for the attempts before, and an error exactly if the last attempt
might have passed too. -/
theorem retry_tries (a : Attempted) (retries : Int) (outcome : Nat → Except Failure α) :
    ∃ k, IsLeast {k : Nat | mayPass (outcome k) = false ∨ max retries 0 ≤ (k : Int)} k ∧
      ∃ refusals : List Failure, refusals.map .error = (List.range k).map outcome ∧
        retry a retries (following outcome) 0 = ⟨outcome k, k + 1,
          a.retryLines 0 retries.toNat refusals ++ a.lastLine (k + 1) (outcome k)⟩ ∧
        ((∃ l ∈ (retry a retries (following outcome) 0).lines, l.level = .error) ↔ mayPass (outcome k) = true) := by
  obtain ⟨k, refusals, hk, hend, hpassing, hrefusals, hrun⟩ := retryFrom_eq a (following outcome) retries.toNat 0 0
  simp only [answerOf_following, stateAfter_following, Nat.zero_add] at hend hrun
  rw [funext (answerOf_following outcome)] at hrefusals
  refine ⟨k, ⟨?_, fun i hi => ?_⟩, refusals, hrefusals, hrun, ?_⟩
  · exact hend.imp_right fun heq => by rw [heq]; omega
  · -- an attempt before the last one was refused, and a retry was left for it
    by_contra hlt
    have hlt : i < k := by omega
    have hmem : outcome i ∈ refusals.map Except.error :=
      hrefusals ▸ List.mem_map_of_mem (List.mem_range.mpr hlt)
    obtain ⟨f, hf, hi'⟩ := List.mem_map.mp hmem
    rcases hi with hi | hi
    · rw [← hi', mayPass, hpassing f hf] at hi
      cases hi
    · omega
  · rw [retry, hrun]
    constructor
    · rintro ⟨l, hl, hlevel⟩
      rcases List.mem_append.mp hl with hl | hl
      · rw [level_retryLines hl] at hlevel
        cases hlevel
      · by_contra hpass
        rw [lastLine_eq_nil_iff.mpr (Bool.not_eq_true _ ▸ hpass)] at hl
        cases hl
    · intro hpass
      obtain ⟨l, hl⟩ := List.exists_mem_of_ne_nil (a.lastLine (k + 1) (outcome k)) fun hnil => by
        rw [lastLine_eq_nil_iff.mp hnil] at hpass
        cases hpass
      exact ⟨l, List.mem_append_right _ hl, level_lastLine hl⟩

end Retrying

end FluentShift.Files
