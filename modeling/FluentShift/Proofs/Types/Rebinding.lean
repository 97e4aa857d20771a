import FluentShift.Proofs.Runs
import FluentShift.Proofs.Types.Walk
import FluentShift.Rewrite.Plan

/-!
# FluentShift.Proofs.Types.Rebinding - what the local oracle answers for a name

The oracle answers with the entry of the nearest scope that has one, and no statement of the module has left another type in
that entry (`local_answers`): a name whose bindings it has seen to differ is unknown.  It does not see the name that a
handler of exception groups binds, though, and answers as if that were no binding (`answered_groupText`).
-/

namespace FluentShift.Types

open FluentShift.Source FluentShift.Scope FluentShift.Rewrite FluentShift.Types.Bindings

/-! ### Answers for names -/

/-- The nearest scope that has an entry for a name says what it means. -/
theorem nearest_eq_some_iff {b : Bindings} {name : String} {ss : List TypeScope} {d : TypeDesc} :
    b.nearest name ss = some d ↔ ∃ nearer s farther, ss = nearer ++ s :: farther ∧
      (∀ s' ∈ nearer, b.entryIn name s' = none) ∧ b.entryIn name s = some (some d) := by
  unfold nearest
  rw [Option.join_eq_some_iff, List.findSome?_eq_some_iff]
  constructor
  · rintro ⟨nearer, s, farther, hss, hs, hnearer⟩
    exact ⟨nearer, s, farther, hss, hnearer, hs⟩
  · rintro ⟨nearer, s, farther, hss, hnearer, hs⟩
    exact ⟨nearer, s, farther, hss, hs, hnearer⟩

/-- An entry with a type had that type ever since it was there. -/
theorem entry_before (v : Vocabulary) (table : Table) (before after : List Tree) {k : Key} {d : TypeDesc}
    (h : (Typing.ofModule v table (.node .module (before ++ after))).bindings.entries.lookup k = some (some d)) :
    (Typing.ofModule v table (.node .module before)).bindings.entries.lookup k = none ∨
      (Typing.ofModule v table (.node .module before)).bindings.entries.lookup k = some (some d) := by
  cases hbefore : (Typing.ofModule v table (.node .module before)).bindings.entries.lookup k with
  | none => exact .inl rfl
  | some d' =>
    right
    rcases refines_ofModule v table before after k d' hbefore with hsame | hempty
    · rw [← hsame, h]
    · rw [h] at hempty
      cases hempty

/-- The local oracle answers for a name with a constant's type, or with the entry of the nearest scope around it that has
one; and an entry that has a type has not had another one after any of the statements before. -/
theorem local_answers (v : Vocabulary) (table : Table) (ts : List Tree) (p : Path) (name : String) :
    let b := (Typing.ofModule v table (.node .module ts)).bindings
    ∃ chain, Outwards b.scopes (b.names.lookup p) chain ∧
      (∀ d, (Oracle.local_.prepare v table (.node .module ts)).typeOf p (.leaf ⟨.name, name⟩) = some d ↔
        if name = "True" ∨ name = "False" then d = .bool
        else ∃ nearer s farther, visible chain = nearer ++ s :: farther ∧
          (∀ s' ∈ nearer, b.entryIn name s' = none) ∧ b.entryIn name s = some (some d)) ∧
      ∀ before after k d, ts = before ++ after → b.entries.lookup k = some (some d) →
        (Typing.ofModule v table (.node .module before)).bindings.entries.lookup k = none ∨
          (Typing.ofModule v table (.node .module before)).bindings.entries.lookup k = some (some d) := by
  intro b
  obtain ⟨-, hlookup⟩ := tables_ofModule v table (t := .node .module ts) rfl
  obtain ⟨chain, hchain, hnearest⟩ := hlookup p
  refine ⟨chain, hchain, fun d => ?_, ?_⟩
  · have hanswer : (Oracle.local_.prepare v table (.node .module ts)).typeOf p (.leaf ⟨.name, name⟩) =
        if name = "True" || name = "False" then some .bool else b.lookup p name := rfl
    rw [hanswer]
    by_cases hconstant : name = "True" ∨ name = "False"
    · rw [if_pos (by simpa using hconstant), if_pos hconstant, Option.some.injEq, eq_comm]
    · rw [if_neg (by simpa using hconstant), if_neg hconstant, hnearest, nearest_eq_some_iff]
  · rintro before after k d rfl h
    exact entry_before v table before after h

/-! ### A handler that the oracle passes over -/

/-- What is recorded about names when a part of a module is read alone. -/
def recorded (v : Vocabulary) (table : Table) (t : Tree) (p : Path) : Entries :=
  ((t.para collectLeaf (collectNode v table) p []).run .empty).2.entries

/-- A text that rebinds a number in a handler of exception groups, and then uses it. -/
def groupText : String := "d = 0.5\ntry:\n    pass\nexcept* ValueError as d:\n    check(d)\n"

/-- What the oracle says about a use of a name, how often the name is bound in the module, and what its second statement
does alone: how often it binds the name, and what the oracle records of it. -/
structure Rebound where
  answers : List (List (Option TypeDesc))
  bindings : Nat
  second : Nat
  entries : Entries
  deriving DecidableEq

/-- Reads a text and looks at a name in it. -/
def rebound (v : Vocabulary) (name text : String) : Option Rebound := do
  let f ← SourceFile.parse? text
  let statement ← f.tree.at? [1]
  let table := Table.ofModule f.tree
  let answerer := Oracle.local_.prepare v table f.tree
  return {
    answers := (allCalls f.tree).map fun c => argumentTypes answerer c.path c.call
    bindings := (table.lookup 0 name).length
    second := ((Table.ofModule (.node .module [statement])).lookup 0 name).length
    entries := recorded v table statement [1] }

theorem of_rebound {v : Vocabulary} {name text : String} {r : Rebound} (h : rebound v name text = some r) :
    ∃ f statement, SourceFile.parse? text = some f ∧ f.tree.at? [1] = some statement ∧
      ((allCalls f.tree).map fun c =>
        argumentTypes (Oracle.local_.prepare v (Table.ofModule f.tree) f.tree) c.path c.call) = r.answers ∧
      ((Table.ofModule f.tree).lookup 0 name).length = r.bindings ∧
      ((Table.ofModule (.node .module [statement])).lookup 0 name).length = r.second ∧
      recorded v (Table.ofModule f.tree) statement [1] = r.entries := by
  obtain ⟨f, hf, h⟩ := Option.bind_eq_some_iff.mp h
  obtain ⟨statement, hstatement, h⟩ := Option.bind_eq_some_iff.mp h
  cases h
  exact ⟨f, statement, hf, hstatement, rfl, rfl, rfl, rfl⟩

set_option maxRecDepth 100000 in
theorem rebound_groupText : rebound .standard "d" groupText = some ⟨[[some .float]], 2, 1, []⟩ := by decide +kernel

/-- In `groupText` the oracle answers for a name that is bound twice, and has seen only one of the two bindings: of the
statement that makes the other one it records nothing. -/
theorem answered_groupText :
    ∃ f statement, SourceFile.parse? groupText = some f ∧ f.tree.at? [1] = some statement ∧
      ((allCalls f.tree).map fun c =>
        argumentTypes (Oracle.local_.prepare .standard (Table.ofModule f.tree) f.tree) c.path c.call) =
          [[some .float]] ∧
      ((Table.ofModule f.tree).lookup 0 "d").length = 2 ∧
      ((Table.ofModule (.node .module [statement])).lookup 0 "d").length = 1 ∧
      recorded .standard (Table.ofModule f.tree) statement [1] = [] :=
  of_rebound rebound_groupText

end FluentShift.Types
