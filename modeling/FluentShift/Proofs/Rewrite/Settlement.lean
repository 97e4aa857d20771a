import FluentShift.Proofs.Rewrite.Template
import FluentShift.Proofs.Rewrite.Walk
import Mathlib.Data.List.Perm.Basic
import Mathlib.Data.List.Perm.Lattice

/-!
# FluentShift.Proofs.Rewrite.Settlement - every planned call is settled once

Splicing a tree puts the path of every planned call into `applied` or into `failed`, once (`splice_covers`).  Which of the
two depends on the call as it was before anything was spliced: on the comments around its arguments
(`comments_of_splice`).
-/

namespace FluentShift.Rewrite

open FluentShift.Source FluentShift.Source.Tree

variable {m : Mapping} {plans : List (Path × Classification)}

/-! ### Settled once -/

theorem perm_flatMap_of_forall₂ {α β γ : Type} {f : α → List γ} {g : β → List γ} {as : List α} {bs : List β}
    (h : List.Forall₂ (fun a b => (g b).Perm (f a)) as bs) : (bs.flatMap g).Perm (as.flatMap f) := by
  induction h with
  | nil => exact List.Perm.refl _
  | cons hab _ ih =>
    rw [List.flatMap_cons, List.flatMap_cons]
    exact hab.append ih

/-- The paths of the planned nodes of a tree. -/
def plannedPaths (plans : List (Path × Classification)) (t : Tree) (p : Path) : List Path :=
  ((t.nodesFrom (fun _ => true) p).map Prod.fst).filter fun q => (plans.lookup q).isSome

theorem plannedPaths_node (k : Kind) (ts : List Tree) (p : Path) :
    plannedPaths plans (.node k ts) p =
      (if (plans.lookup p).isSome then [p] else []) ++ (locate p ts).flatMap fun c => plannedPaths plans c.2 c.1 := by
  unfold plannedPaths
  rw [nodesFrom_node, if_pos rfl, List.map_append, List.filter_append, List.map_flatMap, List.filter_flatMap]
  congr 1
  cases h : (plans.lookup p).isSome <;> simp [h]

/-- Every planned call is applied or failed, and none is both or twice. -/
theorem splice_covers {t : Tree} {p : Path} {s : Spliced} (haim : Aimed plans t p)
    (h : spliceFrom m plans t p = .ok s) :
    (s.applied ++ s.failed.map Prod.fst).Perm (plannedPaths plans t p) := by
  refine spliceFrom_induct
    (P := fun p t s => (s.applied ++ s.failed.map Prod.fst).Perm (plannedPaths plans t p)) ?_ ?_ haim h
  · intro p l
    exact List.Perm.refl _
  · intro p k ts ss s _ hss hs
    have hchildren : (ss.flatMap (·.applied) ++ (ss.flatMap (·.failed)).map Prod.fst).Perm
        ((locate p ts).flatMap fun c => plannedPaths plans c.2 c.1) := by
      rw [List.map_flatMap]
      refine (List.flatMap_append_perm ss _ _).trans ?_
      exact perm_flatMap_of_forall₂ (hss.imp fun c s h => h.2)
    rw [plannedPaths_node]
    cases hs with
    | kept hp =>
      rw [hp]
      exact hchildren
    | chained hp he =>
      rw [hp]
      show ((ss.flatMap (·.applied) ++ [p]) ++ _).Perm ([p] ++ _)
      rw [List.append_assoc]
      refine List.perm_append_comm_assoc _ _ _ |>.trans ?_
      exact hchildren.append_left [p]
    | refused hp he hf =>
      rw [hp, List.map_append, ← List.append_assoc]
      exact (hchildren.append_right [p]).trans List.perm_append_comm

theorem exists_of_mem_right {α β : Type} {R : α → β → Prop} {as : List α} {bs : List β}
    (h : List.Forall₂ (fun a b => a ∈ as ∧ R a b) as bs) {b : β} (hb : b ∈ bs) : ∃ a ∈ as, R a b := by
  obtain ⟨i, hi, rfl⟩ := List.mem_iff_getElem.mp hb
  have hget := h.get (by rw [h.length_eq]; exact hi) hi
  exact ⟨_, hget.1, hget.2⟩

theorem exists_of_mem_left {α β : Type} {R : α → β → Prop} {as : List α} {bs : List β} (h : List.Forall₂ R as bs)
    {a : α} (ha : a ∈ as) : ∃ b ∈ bs, R a b := by
  obtain ⟨i, hi, rfl⟩ := List.mem_iff_getElem.mp ha
  have hi' : i < bs.length := by rw [← h.length_eq]; exact hi
  exact ⟨_, List.getElem_mem hi', h.get hi hi'⟩

/-! ### What settles a call -/

/-- The nodes of a tree that are to become chains are calls, with as many arguments as their form takes. -/
def Planned (m : Mapping) (chains : Path → Option Classification) (t : Tree) (p : Path) : Prop :=
  ∀ n ∈ t.nodesFrom (fun _ => true) p, ∀ c, chains n.1 = some c →
    n.2.isKind .call = true ∧ c.slots = slotsOf m c.shape ∧ n.2.arguments.length = c.shape.arity

theorem Planned.aimed {t : Tree} {p : Path} (h : Planned m (plans.lookup ·) t p) : Aimed plans t p := by
  intro n hn hplan
  obtain ⟨c, hc⟩ := Option.isSome_iff_exists.mp hplan
  exact (h n hn c hc).1

theorem mem_nodesFrom_self (k : Kind) (ts : List Tree) (p : Path) :
    (p, Source.Tree.node k ts) ∈ (Source.Tree.node k ts).nodesFrom (fun _ => true) p := by
  rw [nodesFrom_node]
  exact List.mem_append_left _ (List.mem_singleton.mpr rfl)

theorem mem_nodesFrom_child {k : Kind} {ts : List Tree} {p : Path} {c n : Path × Tree} (hc : c ∈ locate p ts)
    (hn : n ∈ c.2.nodesFrom (fun _ => true) c.1) : n ∈ (Source.Tree.node k ts).nodesFrom (fun _ => true) p := by
  rw [nodesFrom_node]
  exact List.mem_append_right _ (List.mem_flatMap.mpr ⟨c, hc, hn⟩)

theorem Planned.child {chains : Path → Option Classification} {k : Kind} {ts : List Tree} {p : Path}
    (h : Planned m chains (.node k ts) p) {c : Path × Tree} (hc : c ∈ locate p ts) : Planned m chains c.2 c.1 :=
  fun n hn => h n (mem_nodesFrom_child hc hn)

/-- Splicing the children of a call changes neither the number of its arguments nor the comments around them. -/
theorem call_of_splice {p : Path} {ts : List Tree} {ss : List Spliced} (haim : Aimed plans (.node .call ts) p)
    (hss : List.Forall₂ (fun c s => spliceFrom m plans c.2 c.1 = .ok s) (locate p ts) ss) :
    (Source.Tree.node .call (ss.map (·.tree))).arguments.length = (Source.Tree.node .call ts).arguments.length ∧
      hasArgumentComments (.node .call (ss.map (·.tree))) = hasArgumentComments (.node .call ts) := by
  have hchildren := splicedTo_children haim hss
  have hlen := (arguments_of_splice hchildren).length_eq
  rw [length_argumentsAt] at hlen
  exact ⟨hlen.symm, (hasArgumentComments_of_splice hchildren).symm⟩

/-- An applied call has no comment around its arguments as it was before the splicing, a failed one has. -/
theorem comments_of_splice (hm : m.Accepted) {t : Tree} {p : Path} {s : Spliced} (hplan : Planned m (plans.lookup ·) t p)
    (h : spliceFrom m plans t p = .ok s) :
    (∀ q ∈ s.applied, ∃ n, (q, n) ∈ t.nodesFrom (fun _ => true) p ∧ hasArgumentComments n = false) ∧
      ∀ e ∈ s.failed, ∃ n, (e.1, n) ∈ t.nodesFrom (fun _ => true) p ∧ hasArgumentComments n = true := by
  refine spliceFrom_induct
    (P := fun p t s => Planned m (plans.lookup ·) t p →
      (∀ q ∈ s.applied, ∃ n, (q, n) ∈ t.nodesFrom (fun _ => true) p ∧ hasArgumentComments n = false) ∧
        ∀ e ∈ s.failed, ∃ n, (e.1, n) ∈ t.nodesFrom (fun _ => true) p ∧ hasArgumentComments n = true)
    ?_ ?_ hplan.aimed h hplan
  · intro p l _
    exact ⟨fun q hq => absurd hq List.not_mem_nil, fun e he => absurd he List.not_mem_nil⟩
  · intro p k ts ss s haim hss hs hplan
    -- what the children say about the calls inside them
    have happlied : ∀ q ∈ ss.flatMap (·.applied),
        ∃ n, (q, n) ∈ (Source.Tree.node k ts).nodesFrom (fun _ => true) p ∧ hasArgumentComments n = false := by
      intro q hq
      obtain ⟨u, hu, hqu⟩ := List.mem_flatMap.mp hq
      obtain ⟨c, hc, hcu⟩ := exists_of_mem_right (forall₂_mem hss) hu
      obtain ⟨n, hn, hcom⟩ := (hcu.2 (hplan.child hc)).1 q hqu
      exact ⟨n, mem_nodesFrom_child hc hn, hcom⟩
    have hfailed : ∀ e ∈ ss.flatMap (·.failed),
        ∃ n, (e.1, n) ∈ (Source.Tree.node k ts).nodesFrom (fun _ => true) p ∧ hasArgumentComments n = true := by
      intro e he
      obtain ⟨u, hu, heu⟩ := List.mem_flatMap.mp he
      obtain ⟨c, hc, hcu⟩ := exists_of_mem_right (forall₂_mem hss) hu
      obtain ⟨n, hn, hcom⟩ := (hcu.2 (hplan.child hc)).2 e heu
      exact ⟨n, mem_nodesFrom_child hc hn, hcom⟩
    have hself := mem_nodesFrom_self k ts p
    cases hs with
    | kept hp => exact ⟨happlied, hfailed⟩
    | chained hp he =>
      refine ⟨fun q hq => ?_, hfailed⟩
      rcases List.mem_append.mp hq with hq | hq
      · exact happlied q hq
      · cases List.mem_singleton.mp hq
        obtain ⟨hk, -, -⟩ := hplan _ hself _ hp
        cases isKind_node.mp hk
        have hcall := call_of_splice haim (hss.imp fun c s h => h.1)
        exact ⟨_, hself, hcall.2 ▸ (emit_ok he).2.1⟩
    | refused hp he hf =>
      refine ⟨happlied, fun e heq => ?_⟩
      rcases List.mem_append.mp heq with heq | heq
      · exact hfailed e heq
      · cases List.mem_singleton.mp heq
        obtain ⟨hk, hslots, hlen⟩ := hplan _ hself _ hp
        cases isKind_node.mp hk
        have hcall := call_of_splice haim (hss.imp fun c s h => h.1)
        refine ⟨_, hself, hcall.2 ▸ ?_⟩
        exact hasArgumentComments_of_emit_error hm hslots he hf (hcall.1.trans hlen)

end FluentShift.Rewrite
