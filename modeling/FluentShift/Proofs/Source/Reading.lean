import FluentShift.Source.Parse

/-!
# FluentShift.Proofs.Source.Reading - what a grammar reads with enough fuel

`Reads N g ts r`: with fuel `N` or more, the grammar `g` reads `r` from the tokens `ts`.  A grammar that the next token
cannot begin reads nothing, whatever the fuel (`run_of_refuses`), so a reading is put together operator by operator.
-/

namespace FluentShift.Source

open Grammar

namespace Grammar

/-! ### One step of a run -/

section Steps

variable {R : Type} {rules : R → Grammar R} (n : Nat) (a b : Grammar R) (ts : List Token)

theorem run_want (w : Want) (t : Token) :
    run rules (n + 1) (.want w) (t :: ts) = (w.accept t.body).map fun ls => ((t.lead ++ ls).map .leaf, ts) := rfl

theorem run_nothing : run rules (n + 1) .nothing ts = some ([], ts) := rfl

theorem run_seq :
    run rules (n + 1) (.seq a b) ts =
      match run rules n a ts with
      | none => none
      | some (xs, ts) =>
        match run rules n b ts with
        | none => none
        | some (ys, ts) => some (xs ++ ys, ts) := rfl

theorem run_alt :
    run rules (n + 1) (.alt a b) ts =
      match run rules n a ts with
      | some r => some r
      | none => run rules n b ts := rfl

theorem run_many :
    run rules (n + 1) (.many a) ts =
      match run rules n a ts with
      | none => some ([], ts)
      | some (xs, us) =>
        if us.length < ts.length then
          match run rules n (.many a) us with
          | none => none
          | some (ys, vs) => some (xs ++ ys, vs)
        else some ([], ts) := rfl

theorem run_ahead :
    run rules (n + 1) (.ahead a) ts = if (run rules n a ts).isSome then some ([], ts) else none := rfl

theorem run_notAhead :
    run rules (n + 1) (.notAhead a) ts = if (run rules n a ts).isSome then none else some ([], ts) := rfl

theorem run_rule (q : R) : run rules (n + 1) (.rule q) ts = run rules n (rules q) ts := rfl

theorem run_tree (k : Kind) :
    run rules (n + 1) (.tree k a) ts = (run rules n a ts).map fun r => (wrap k r.1, r.2) := rfl

theorem run_graft :
    run rules (n + 1) (.graft a b) ts =
      match run rules n a ts with
      | none => none
      | some (xs, ts) => (run rules n b ts).map fun r => (join xs r.1, r.2) := rfl

theorem run_chain :
    run rules (n + 1) (.chain a b) ts =
      match run rules n a ts with
      | none => none
      | some (xs, ts) => run.runChain rules n b xs ts := rfl

theorem run_check (ok : List Tree → Bool) :
    run rules (n + 1) (.check ok a) ts =
      match run rules n a ts with
      | none => none
      | some r => if ok (r.1.filter (!·.isTrivia)) then some r else none := rfl

theorem runChain_succ (xs : List Tree) :
    run.runChain rules (n + 1) b xs ts =
      match run rules n b ts with
      | none => some (xs, ts)
      | some (ys, us) =>
        if us.length < ts.length then run.runChain rules n b (join xs ys) us else some (xs, ts) := rfl

end Steps

/-! ### Grammars that refuse a token -/

/-- Whether a grammar begins with something that is not the token `b`; rules are not looked into. -/
def refuses {R : Type} (b : TokenBody) : Grammar R → Bool
  | .want w => (w.accept b).isNone
  | .seq a _ | .tree _ a | .graft a _ | .chain a _ | .check _ a => refuses b a
  | .alt a c => refuses b a && refuses b c
  | _ => false

theorem run_of_refuses {R : Type} {rules : R → Grammar R} {g : Grammar R} {t : Token} (ts : List Token) (n : Nat)
    (h : refuses t.body g = true) : run rules n g (t :: ts) = none := by
  induction g generalizing n with
  -- a grammar begins with its first part, and that one refuses
  | want w =>
    cases n with
    | zero => rfl
    | succ n =>
      have hw : w.accept t.body = none := Option.isNone_iff_eq_none.mp h
      rw [run_want, hw]
      rfl
  | seq a b iha _ =>
    cases n with
    | zero => rfl
    | succ n => rw [run_seq, iha n h]
  | alt a b iha ihb =>
    cases n with
    | zero => rfl
    | succ n =>
      have hab := (Bool.and_eq_true _ _).mp h
      rw [run_alt, iha n hab.1]
      exact ihb n hab.2
  | tree k a iha =>
    cases n with
    | zero => rfl
    | succ n =>
      rw [run_tree, iha n h]
      rfl
  | graft a b iha _ =>
    cases n with
    | zero => rfl
    | succ n => rw [run_graft, iha n h]
  | chain a b iha _ =>
    cases n with
    | zero => rfl
    | succ n => rw [run_chain, iha n h]
  | check ok a iha =>
    cases n with
    | zero => rfl
    | succ n => rw [run_check, iha n h]
  | _ => cases h

/-! ### Reading -/

/-- With fuel `N` or more the grammar reads `r` from the tokens. -/
def Reads (N : Nat) (g : Grammar Rule) (ts : List Token) (r : List Tree × List Token) : Prop :=
  ∀ n, N ≤ n → run Rule.meaning n g ts = some r

section Reads

variable {N M : Nat} {a b g : Grammar Rule} {ts us vs : List Token} {xs ys : List Tree} {r : List Tree × List Token}
  {t : Token}

theorem Reads.mono (h : Reads N g ts r) (hNM : N ≤ M) : Reads M g ts r := fun n hn => h n (by omega)

theorem reads_want {w : Want} {lead ls : List Leaf} {body : TokenBody} (h : w.accept body = some ls) :
    Reads 1 (.want w) (⟨lead, body⟩ :: ts) ((lead ++ ls).map .leaf, ts) := by
  intro n hn
  obtain ⟨n, rfl⟩ : ∃ m, n = m + 1 := ⟨n - 1, by omega⟩
  rw [run_want, h]
  rfl

theorem Reads.seq (ha : Reads N a ts (xs, us)) (hb : Reads M b us (ys, vs)) :
    Reads (max N M + 1) (.seq a b) ts (xs ++ ys, vs) := by
  intro n hn
  obtain ⟨n, rfl⟩ : ∃ m, n = m + 1 := ⟨n - 1, by omega⟩
  rw [run_seq, ha n (by omega)]
  show (match run Rule.meaning n b us with | none => none | some (ys, ts) => some (xs ++ ys, ts)) = _
  rw [hb n (by omega)]

theorem Reads.left (ha : Reads N a ts r) : Reads (N + 1) (.alt a b) ts r := by
  intro n hn
  obtain ⟨n, rfl⟩ : ∃ m, n = m + 1 := ⟨n - 1, by omega⟩
  rw [run_alt, ha n (by omega)]

/-- The second choice is read when the first one is never read. -/
theorem Reads.right (ha : ∀ n, run Rule.meaning n a ts = none) (hb : Reads N b ts r) :
    Reads (N + 1) (.alt a b) ts r := by
  intro n hn
  obtain ⟨n, rfl⟩ : ∃ m, n = m + 1 := ⟨n - 1, by omega⟩
  rw [run_alt, ha n]
  exact hb n (by omega)

theorem reads_nothing : Reads 1 .nothing ts ([], ts) := by
  intro n hn
  obtain ⟨n, rfl⟩ : ∃ m, n = m + 1 := ⟨n - 1, by omega⟩
  rfl

theorem reads_opt_nothing (ha : ∀ n, run Rule.meaning n a ts = none) : Reads 2 (opt a) ts ([], ts) :=
  Reads.right ha reads_nothing

theorem reads_many_nothing (ha : ∀ n, run Rule.meaning n a ts = none) : Reads 1 (.many a) ts ([], ts) := by
  intro n hn
  obtain ⟨n, rfl⟩ : ∃ m, n = m + 1 := ⟨n - 1, by omega⟩
  rw [run_many, ha n]

theorem Reads.many_cons (ha : Reads N a ts (xs, us)) (hlt : us.length < ts.length) (hm : Reads M (.many a) us (ys, vs)) :
    Reads (max N M + 1) (.many a) ts (xs ++ ys, vs) := by
  intro n hn
  obtain ⟨n, rfl⟩ : ∃ m, n = m + 1 := ⟨n - 1, by omega⟩
  rw [run_many, ha n (by omega)]
  show (if us.length < ts.length then _ else _) = _
  rw [if_pos hlt, hm n (by omega)]

theorem reads_notAhead (ha : ∀ n, run Rule.meaning n a ts = none) : Reads 1 (.notAhead a) ts ([], ts) := by
  intro n hn
  obtain ⟨n, rfl⟩ : ∃ m, n = m + 1 := ⟨n - 1, by omega⟩
  rw [run_notAhead, ha n]
  rfl

theorem Reads.rule {q : Rule} (h : Reads N q.meaning ts r) : Reads (N + 1) (.rule q) ts r := by
  intro n hn
  obtain ⟨n, rfl⟩ : ∃ m, n = m + 1 := ⟨n - 1, by omega⟩
  rw [run_rule]
  exact h n (by omega)

theorem Reads.tree (k : Kind) (h : Reads N a ts (xs, us)) : Reads (N + 1) (.tree k a) ts (wrap k xs, us) := by
  intro n hn
  obtain ⟨n, rfl⟩ : ∃ m, n = m + 1 := ⟨n - 1, by omega⟩
  rw [run_tree, h n (by omega)]
  rfl

theorem Reads.graft (ha : Reads N a ts (xs, us)) (hb : Reads M b us (ys, vs)) :
    Reads (max N M + 1) (.graft a b) ts (join xs ys, vs) := by
  intro n hn
  obtain ⟨n, rfl⟩ : ∃ m, n = m + 1 := ⟨n - 1, by omega⟩
  rw [run_graft, ha n (by omega)]
  show (run Rule.meaning n b us).map _ = _
  rw [hb n (by omega)]
  rfl

theorem join_nil (xs : List Tree) : join xs [] = xs := List.append_nil xs

/-- A graft without its tail is its head. -/
theorem Reads.graft_nothing (ha : Reads N a ts (xs, us)) (hb : ∀ n, run Rule.meaning n b us = none) :
    Reads (N + 3) (.graft a (opt b)) ts (xs, us) := by
  have h := ha.graft (reads_opt_nothing hb)
  rw [join_nil] at h
  exact h.mono (by omega)

theorem Reads.check {ok : List Tree → Bool} (h : Reads N a ts (xs, us)) (hok : ok (xs.filter (!·.isTrivia)) = true) :
    Reads (N + 1) (.check ok a) ts (xs, us) := by
  intro n hn
  obtain ⟨n, rfl⟩ : ∃ m, n = m + 1 := ⟨n - 1, by omega⟩
  rw [run_check, h n (by omega)]
  exact if_pos hok

/-! ### Chains -/

/-- With fuel `N` or more the operators of a chain read `r` after the trees `xs`. -/
def Continues (N : Nat) (b : Grammar Rule) (xs : List Tree) (ts : List Token) (r : List Tree × List Token) : Prop :=
  ∀ n, N ≤ n → run.runChain Rule.meaning n b xs ts = some r

theorem continues_nothing (hb : ∀ n, run Rule.meaning n b ts = none) : Continues 1 b xs ts (xs, ts) := by
  intro n hn
  obtain ⟨n, rfl⟩ : ∃ m, n = m + 1 := ⟨n - 1, by omega⟩
  rw [runChain_succ, hb n]

theorem Continues.cons (hb : Reads N b ts (ys, us)) (hlt : us.length < ts.length)
    (hc : Continues M b (join xs ys) us r) : Continues (max N M + 1) b xs ts r := by
  intro n hn
  obtain ⟨n, rfl⟩ : ∃ m, n = m + 1 := ⟨n - 1, by omega⟩
  rw [runChain_succ, hb n (by omega)]
  show (if us.length < ts.length then _ else _) = _
  rw [if_pos hlt]
  exact hc n (by omega)

theorem Reads.chain (ha : Reads N a ts (xs, us)) (hc : Continues M b xs us r) :
    Reads (max N M + 1) (.chain a b) ts r := by
  intro n hn
  obtain ⟨n, rfl⟩ : ∃ m, n = m + 1 := ⟨n - 1, by omega⟩
  rw [run_chain, ha n (by omega)]
  exact hc n (by omega)

/-- A chain without operators is its head. -/
theorem Reads.chain_nothing (ha : Reads N a ts (xs, us)) (hb : ∀ n, run Rule.meaning n b us = none) :
    Reads (N + 2) (.chain a b) ts (xs, us) :=
  (ha.chain (continues_nothing hb)).mono (by omega)

end Reads

end Grammar

end FluentShift.Source
