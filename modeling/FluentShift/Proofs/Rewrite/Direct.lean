import FluentShift.Proofs.Rewrite.Template
import FluentShift.Proofs.Rewrite.Walk

/-!
# FluentShift.Proofs.Rewrite.Direct - splicing without reading templates

A template without reserved marks is read as the tree of its form (`readTemplate_eq`).  The names of an accepted mapping
that have no underscore cannot run into the names of slots, so splicing can build chains right from the form
(`splice_eq_direct`).  Reading a template takes most of the work of a run, so runs on fixed texts are computed this way.
-/

namespace FluentShift.Rewrite

open FluentShift.Source FluentShift.Types

/-! ### Templates without underscores -/

/-- The names that chains are made of. -/
def chainNames (m : Mapping) : List String :=
  [m.entryPoint, m.equalityMethod, m.labelledMethod, m.deferredMethod, m.toleranceMethod, m.toleranceWrapper]

theorem chainNames_standard : ∀ n ∈ chainNames .standard, '_' ∉ n.toList := by decide

/-- A text without underscores is none that slots are made of. -/
theorem unmarked_of_underscore {s : String} (h : '_' ∉ s.toList) : Unmarked s := by
  intro r hr
  have hunderscore : ∀ r ∈ reservedMarks, '_' ∈ r.toList := by decide
  by_contra hmark
  exact h ((hasMark_iff.mp (eq_true_of_ne_false hmark)).subset (hunderscore r hr))

theorem unmarked_template {m : Mapping} (hplain : ∀ n ∈ chainNames m, '_' ∉ n.toList) (c : Classification) :
    Unmarked (template m c) := by
  refine unmarked_of_underscore ?_
  have hslot : ∀ s : Slot, '_' ∉ (slotMark s).toList := by
    intro s
    cases s <;> decide
  simp only [chainNames, List.mem_cons, List.not_mem_nil, or_false, forall_eq_or_imp, forall_eq] at hplain
  obtain ⟨hentry, hequality, hlabelled, hdeferred, htolerance, hwrapper⟩ := hplain
  unfold template templateWith
  cases c.shape.hasMessage <;> cases c.shape.hasTolerance <;> by_cases hstyle : c.style = some .labelled <;>
    simp [String.toList_append, *]

/-- The template of a chain is read, as the tree of its form. -/
theorem readTemplate_eq {m : Mapping} {c : Classification} (hm : m.Accepted) (hc : c.slots = slotsOf m c.shape)
    (htemplate : Unmarked (template m c)) :
    readTemplate m c = .ok (chainTree m c fun s => Term.nameLeaf (slotName s)) := by
  have hmarks : ¬(reservedMarks.any fun r => hasMark r.toList (template m c).toList) = true := by
    rw [List.any_eq_true]
    rintro ⟨r, hr, hmark⟩
    rw [htemplate r hr] at hmark
    cases hmark
  rw [readTemplate, if_neg hmarks, templateText_eq hm hc, Term.parseExpression?_term (all_chainTerm hm), tree_chainTerm]

/-! ### Chains right from their form -/

/-- The value of the argument that belongs in a slot. -/
def slotValue (c : Classification) (arguments : List Argument) (s : Slot) : Tree :=
  ((slotItem c arguments s).map (·.value)).getD (Term.nameLeaf "")

/-- The chain for a call as its form says, or why it cannot be written. -/
def directEmit (m : Mapping) (c : Classification) (call : Tree) : Except Failure Tree :=
  if call.arguments.length ≠ c.shape.arity then emit m c call
  else if hasArgumentComments call then emit m c call
  else slotValues c call.arguments >>= fun _ => acceptChain m c (chainTree m c (slotValue c call.arguments))

theorem emit_eq_direct {m : Mapping} {c : Classification} (hm : m.Accepted) (hc : c.slots = slotsOf m c.shape)
    (htemplate : Unmarked (template m c)) (call : Tree) : emit m c call = directEmit m c call := by
  unfold directEmit
  split
  · rfl
  · rename_i hlen
    split
    · rfl
    · rename_i hcom
      -- past the two refusals both fill the same chain, slot by slot
      rw [emit, if_neg hlen, if_neg hcom, fillTemplate]
      cases hvalues : slotValues c call.arguments with
      | error e => rfl
      | ok values =>
        show (readTemplate m c >>= fun t => acceptChain m c (substitute values t).unparen) = acceptChain m c _
        have ht := readTemplate_eq hm hc htemplate
        rw [ht]
        show acceptChain m c (substitute values _).unparen = _
        rw [unparen_substitute hm hc hvalues ht]
        congr 1
        refine chainTree_congr hc fun s i hs => ?_
        obtain ⟨a, ha, hlookup⟩ := lookup_slotValues (slotValues_ok hvalues) (hc ▸ nodup_slotsOf m c.shape) hs
        rw [substitute_name, hlookup, slotValue, slotItem_of_pick hc hs ha]
        rfl

/-! ### Splicing -/

/-- Splices one node whose children are spliced, with `emit` making the chains. -/
def spliceNodeBy (emit : Classification → Tree → Except Failure Tree) (plans : List (Path × Classification)) (k : Kind)
    (p : Path) (ts : List Tree) (applied : List Path) (failed : List (Path × String)) : Except Failure Spliced :=
  match spacingClash k ts with
  | some message => .error (.source .node message)
  | none =>
    match plans.lookup p with
    | none => .ok ⟨.node k ts, applied, failed⟩
    | some c =>
      match emit c (.node k ts) with
      | .ok chain => .ok ⟨chain, applied ++ [p], failed⟩
      | .error f =>
        if f.isTransformation then .ok ⟨.node k ts, applied, failed ++ [(p, f.message)]⟩ else .error f

/-- Puts the chains of the planned calls into a tree, with `emit` making them. -/
def spliceBy (emit : Classification → Tree → Except Failure Tree) (plans : List (Path × Classification)) (t : Tree) :
    Except Failure Spliced :=
  let leaf : Leaf → Path → Except Failure Spliced := fun l _ => .ok ⟨.leaf l, [], []⟩
  let node : Kind → List (Tree × (Path → Except Failure Spliced)) → Path → Except Failure Spliced := fun k ts p => do
    let r ← spliceAll (Tree.locate p (ts.map (·.2)))
    spliceNodeBy emit plans k p r.1 r.2.1 r.2.2
  Tree.para leaf node t []

theorem spliceNodeBy_congr {e e' : Classification → Tree → Except Failure Tree} {plans : List (Path × Classification)}
    (h : ∀ p c call, plans.lookup p = some c → e c call = e' c call) : spliceNodeBy e plans = spliceNodeBy e' plans := by
  funext k p ts applied failed
  unfold spliceNodeBy
  split
  · rfl
  · split
    · rfl
    · rename_i c hc
      rw [h p c _ hc]

theorem splice_eq_direct {m : Mapping} (hm : m.Accepted) (hplain : ∀ n ∈ chainNames m, '_' ∉ n.toList)
    {plans : List (Path × Classification)} (hslots : ∀ q c, plans.lookup q = some c → c.slots = slotsOf m c.shape)
    (t : Tree) : splice m plans t = spliceBy (directEmit m) plans t := by
  show spliceBy (emit m) plans t = _
  unfold spliceBy
  rw [spliceNodeBy_congr fun p c call hc => emit_eq_direct hm (hslots p c hc) (unmarked_template hplain c) call]

end FluentShift.Rewrite
