import FluentShift.Proofs.Imports.Pruning
import FluentShift.Proofs.Rewrite.Placement

/-!
# FluentShift.Proofs.Rewrite.Imports - the statements around the rewritten calls

Chains take the places of expressions, so the tree of a rewritten file is as well shaped as that of the file, and has the
same imports (`formed_rewriteCalls`).
-/

namespace FluentShift.Rewrite

open FluentShift.Source FluentShift.Source.Tree FluentShift.Imports

variable {m : Mapping} {chains : Path → Option Classification}

/-! ### Chains -/

/-- The nodes that a chain is made of are let through. -/
def LetsChains (barred : Kind → Bool) : Prop := barred .call = false ∧ barred .argument = false ∧ barred .attribute = false

section Without

variable {barred : Kind → Bool} (hbarred : LetsChains barred)

include hbarred

theorem without_callTree {e a : Tree} (he : Without barred e) (ha : Without barred a) : Without barred (callTree e a) := by
  refine .node hbarred.1 fun t ht => ?_
  simp only [List.mem_cons, List.not_mem_nil, or_false] at ht
  rcases ht with rfl | rfl | rfl | rfl
  · exact he
  · exact .leaf fun h => LeafKind.noConfusion h
  · exact .node hbarred.2.1 (List.forall_mem_singleton.mpr ha)
  · exact .leaf fun h => LeafKind.noConfusion h

theorem without_callTree₂ {e a b : Tree} (he : Without barred e) (ha : Without barred a) (hb : Without barred b) :
    Without barred (callTree₂ e a b) := by
  refine .node hbarred.1 fun t ht => ?_
  simp only [List.mem_cons, List.not_mem_nil, or_false] at ht
  rcases ht with rfl | rfl | rfl | rfl | rfl | rfl | rfl
  · exact he
  · exact .leaf fun h => LeafKind.noConfusion h
  · exact .node hbarred.2.1 (List.forall_mem_singleton.mpr ha)
  · exact .leaf fun h => LeafKind.noConfusion h
  · exact .leaf fun h => LeafKind.noConfusion h
  · exact .node hbarred.2.1 (List.forall_mem_singleton.mpr hb)
  · exact .leaf fun h => LeafKind.noConfusion h

theorem without_memberTree {e : Tree} (he : Without barred e) (s : String) : Without barred (memberTree e s) := by
  refine .node hbarred.2.2 fun t ht => ?_
  simp only [List.mem_cons, List.not_mem_nil, or_false] at ht
  rcases ht with rfl | rfl | rfl
  · exact he
  · exact .leaf fun h => LeafKind.noConfusion h
  · exact .leaf fun h => LeafKind.noConfusion h

/-- A chain has no barred nodes when its arguments have none. -/
theorem without_chainTree {c : Classification} {slot : Slot → Tree} (h : ∀ s, Without barred (slot s)) :
    Without barred (chainTree m c slot) := by
  have name : ∀ s, Without barred (Term.nameLeaf s) := fun s => .leaf fun h => LeafKind.noConfusion h
  have start : Without barred (startTree m c slot) := by
    unfold startTree
    have hentry := without_callTree hbarred (name m.entryPoint) (h .actual)
    dsimp only
    split
    · exact without_callTree hbarred (without_memberTree hbarred hentry _) (h .message)
    · exact hentry
  unfold chainTree
  split
  · exact without_callTree₂ hbarred (without_memberTree hbarred start _) (h .expected)
      (without_callTree hbarred (name m.toleranceWrapper) (h .delta))
  · exact without_callTree hbarred (without_memberTree hbarred start _) (h .expected)

/-- Replacing calls by chains brings no barred nodes in. -/
theorem without_migrated {t : Tree} (p : Path) (ht : Without barred t) : Without barred (migrated m chains t p) := by
  refine retell_induct chains (P := fun p t => Without barred t → Without barred (migrated m chains t p)) ?_ ?_ ?_ t p ht
  · intro p l hl
    rw [migrated, retell_leaf]
    exact hl
  · intro p k ts hp ih ht
    rw [migrated_kept hp]
    refine .node ht.self fun u hu => ?_
    obtain ⟨c, hc, rfl⟩ := List.mem_map.mp hu
    exact ih c hc (ht.child (mem_of_mem_locate hc))
  · intro p k ts c hp ih ht
    rw [migrated_chained hp]
    refine without_chainTree hbarred fun s => ?_
    cases hs : slotItem c ((Source.Tree.node k ts).argumentsAt p) s with
    | none => exact .leaf fun h => LeafKind.noConfusion h
    | some a =>
      have ha : a ∈ (Source.Tree.node k ts).argumentsAt p := mem_of_slotItem hs
      obtain ⟨i, j, -, hat⟩ := at?_argumentsAt ha
      exact ih a ha (ht.part hat)

end Without

/-! ### The statements around them -/

/-- A node that becomes a chain is a call. -/
theorem Planned.self {k : Kind} {ts : List Tree} {p : Path} (h : Planned m chains (.node k ts) p) (hk : k ≠ .call) :
    chains p = none := by
  by_contra hsome
  obtain ⟨c, hc⟩ := Option.ne_none_iff_exists'.mp hsome
  obtain ⟨us, hus⟩ := exists_of_isKind (h _ (mem_nodesFrom_self k ts p) c hc).1
  cases hus
  exact hk rfl

/-- The words of an import have no calls in them. -/
theorem migrated_worded {t : Tree} {p : Path} (hplan : Planned m chains t p) (ht : Worded t) :
    migrated m chains t p = t := by
  induction t using induct generalizing p with
  | leaf l => exact retell_leaf _ l p
  | node k ts ih =>
    have hk : k ≠ .call := fun h => by
      have hword := ht.self
      rw [h] at hword
      cases hword
    rw [migrated_kept (hplan.self hk)]
    congr 1
    conv_rhs => rw [← map_snd_locate p ts]
    exact List.map_congr_left fun c hc => ih c.2 (mem_of_mem_locate hc) (hplan.child hc) (ht.child (mem_of_mem_locate hc))

/-- Lines and imports stay what they are, and nothing becomes one. -/
theorem isLined_migrated {t : Tree} {p : Path} (hplan : Planned m chains t p) :
    (migrated m chains t p).isLined = t.isLined := by
  cases t with
  | leaf l => rw [migrated, retell_leaf]; rfl
  | node k ts =>
    cases hp : chains p with
    | none => rw [migrated_kept hp]; rfl
    | some c =>
      obtain rfl : k = .call := by
        by_contra hk
        rw [hplan.self hk] at hp
        cases hp
      rw [migrated_chained hp]
      obtain ⟨us, hus⟩ := exists_of_isKind (isKind_chainTree (m := m) (c := c) fun s =>
        ((slotItem c ((Source.Tree.node .call ts).argumentsAt p) s).map fun a => migrated m chains a.2.value a.1).getD default)
      rw [hus]
      rfl

/-- Replacing calls by chains keeps a tree well shaped, and its imports. -/
theorem formed_migrated {t : Tree} {p : Path} (hplan : Planned m chains t p) (ht : t.Formed) :
    (migrated m chains t p).Formed ∧ takenIn (migrated m chains t p) = takenIn t := by
  induction t using induct generalizing p with
  | leaf l =>
    rw [migrated, retell_leaf]
    exact ⟨ht, rfl⟩
  | node k ts ih =>
    cases hbarred : isBarred true k with
    | false =>
      -- outside of bodies there is no import, before and after
      have hmild : Mild true (.node k ts) := .node hbarred (ht.self.pure hbarred)
      have hmigrated : Mild true (migrated m chains (.node k ts) p) := without_migrated ⟨rfl, rfl, rfl⟩ p hmild
      rw [takenIn_mild hmild.impure, takenIn_mild hmigrated.impure]
      exact ⟨hmigrated.formed, rfl⟩
    | true =>
      have hp : chains p = none := hplan.self fun h => by rw [h] at hbarred; cases hbarred
      rw [migrated_kept hp]
      cases hloose : isLoose k with
      | false =>
        -- such a node holds only words and marks, which are no calls
        have hsame : (locate p ts).map (fun c => migrated m chains c.2 c.1) = ts := by
          conv_rhs => rw [← map_snd_locate p ts]
          exact List.map_congr_left fun c hc =>
            migrated_worded (hplan.child hc) (ht.self.worded hbarred hloose _ (mem_of_mem_locate hc))
        rw [hsame]
        exact ⟨ht, rfl⟩
      | true =>
        have hchild : ∀ c ∈ locate p ts, (migrated m chains c.2 c.1).Formed ∧ takenIn (migrated m chains c.2 c.1) = takenIn c.2 :=
          fun c hc => ih c.2 (mem_of_mem_locate hc) (hplan.child hc) (ht.child (mem_of_mem_locate hc))
        refine ⟨.node (shaped_loose hloose fun hcompound u hu => ?_) fun u hu => ?_, ?_⟩
        · obtain ⟨c, hc, rfl⟩ := List.mem_map.mp hu
          rw [isLined_migrated (hplan.child hc)]
          exact ht.self.flat hcompound c.2 (mem_of_mem_locate hc)
        · obtain ⟨c, hc, rfl⟩ := List.mem_map.mp hu
          exact (hchild c hc).1
        · have hother : (k = .importStmt || k = .importFrom) = false := by cases k <;> first | rfl | cases hloose
          rw [takenIn_node, takenIn_node, importStatement?_other hother, importStatement?_other hother, List.flatMap_map]
          conv_rhs => rw [← map_snd_locate p ts, List.flatMap_map]
          exact congrArg _ (List.flatMap_congr fun c hc => (hchild c hc).2)

/-- The tree of a rewritten file is a well shaped module with the imports of the file. -/
theorem formed_rewriteCalls {s : Setup} (hm : s.mapping.Accepted) {f : SourceFile} {ts : List Tree}
    (hts : f.tree = .node .module ts) (hformed : f.tree.Formed) {o : Outcome} (h : (rewriteCalls s f).value = .ok o) :
    ∃ us, o.file.tree = .node .module us ∧ o.file.tree.Formed ∧ takenIn o.file.tree = takenIn f.tree := by
  have hplan : Planned s.mapping o.chains f.tree [] := planned_chains h
  obtain ⟨hmigrated, htaken⟩ := formed_migrated hplan hformed
  rw [hts] at hplan
  have hkept : o.chains [] = none := hplan.self fun h => Kind.noConfusion h
  rw [tree_of_rewriteCalls hm h]
  refine ⟨(locate [] ts).map fun c => migrated s.mapping o.chains c.2 c.1, ?_, hmigrated, htaken⟩
  rw [hts, migrated_kept hkept]

end FluentShift.Rewrite
