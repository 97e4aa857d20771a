import FluentShift.Rewrite.Splice
import FluentShift.Proofs.Rewrite.Emission
import FluentShift.Proofs.Source.Paths

/-!
# FluentShift.Proofs.Rewrite.Walk - one splicing of a tree, step by step

`NodeSplice` lists the three things that can happen to a node whose children are spliced, and `spliceFrom_induct` is the
induction along a splicing that succeeds.  Every fact about spliced trees is derived from these two.
-/

namespace FluentShift.Rewrite

open FluentShift.Source FluentShift.Source.Tree

variable {m : Mapping} {plans : List (Path × Classification)}

/-! ### One node -/

/-- What can happen to a node whose children are spliced. -/
inductive NodeSplice (m : Mapping) (plans : List (Path × Classification)) (k : Kind) (p : Path) (ts : List Tree)
    (applied : List Path) (failed : List (Path × String)) : Spliced → Prop where
  /-- The node is not planned. -/
  | kept (hp : plans.lookup p = none) : NodeSplice m plans k p ts applied failed ⟨.node k ts, applied, failed⟩
  /-- The node becomes a chain. -/
  | chained {c : Classification} {chain : Tree} (hp : plans.lookup p = some c) (he : emit m c (.node k ts) = .ok chain) :
      NodeSplice m plans k p ts applied failed ⟨chain, applied ++ [p], failed⟩
  /-- The chain cannot be written, and the node stays. -/
  | refused {c : Classification} {f : Failure} (hp : plans.lookup p = some c)
      (he : emit m c (.node k ts) = .error f) (hf : f.isTransformation = true) :
      NodeSplice m plans k p ts applied failed ⟨.node k ts, applied, failed ++ [(p, f.message)]⟩

theorem spliceNode_ok {k : Kind} {p : Path} {ts : List Tree} {applied : List Path} {failed : List (Path × String)}
    {s : Spliced} (h : spliceNode m plans k p ts applied failed = .ok s) :
    NodeSplice m plans k p ts applied failed s := by
  unfold spliceNode at h
  split at h
  · cases h
  · split at h
    · rename_i hp
      cases h
      exact .kept hp
    · rename_i c hp
      split at h
      · rename_i chain he
        cases h
        exact .chained hp he
      · rename_i f he
        split at h
        · rename_i hf
          cases h
          exact .refused hp he hf
        · cases h

theorem spliceAll_ok {cs : List (Path × (Path → Except Failure Spliced))} {r : List Tree × List Path × List (Path × String)}
    (h : spliceAll cs = .ok r) :
    ∃ ss : List Spliced, List.Forall₂ (fun c s => c.2 c.1 = .ok s) cs ss ∧
      r = (ss.map (·.tree), ss.flatMap (·.applied), ss.flatMap (·.failed)) := by
  induction cs generalizing r with
  | nil =>
    cases h
    exact ⟨[], .nil, rfl⟩
  | cons c cs ih =>
    obtain ⟨s, hs, h⟩ := Except.bind_eq_ok.mp h
    obtain ⟨r', hr', h⟩ := Except.bind_eq_ok.mp h
    obtain ⟨ss, hss, rfl⟩ := ih hr'
    cases h
    exact ⟨s :: ss, .cons hs hss, rfl⟩

/-! ### A tree -/

/-- Puts the chains of the planned calls into a tree that stands at a path. -/
def spliceFrom (m : Mapping) (plans : List (Path × Classification)) (t : Tree) : Path → Except Failure Spliced :=
  let leaf : Leaf → Path → Except Failure Spliced := fun l _ => .ok ⟨.leaf l, [], []⟩
  let node : Kind → List (Tree × (Path → Except Failure Spliced)) → Path → Except Failure Spliced := fun k ts p => do
    let r ← spliceAll (locate p (ts.map (·.2)))
    spliceNode m plans k p r.1 r.2.1 r.2.2
  Tree.para leaf node t

theorem splice_eq (t : Tree) : splice m plans t = spliceFrom m plans t [] := rfl

theorem spliceFrom_node (k : Kind) (ts : List Tree) (p : Path) :
    spliceFrom m plans (.node k ts) p = (do
      let r ← spliceAll ((locate p ts).map fun c => (c.1, spliceFrom m plans c.2))
      spliceNode m plans k p r.1 r.2.1 r.2.2) := by
  rw [spliceFrom, para_node]
  show (do
    let r ← spliceAll (locate p ((ts.map _).map _))
    spliceNode m plans k p r.1 r.2.1 r.2.2) = _
  rw [List.map_map, locate_map]
  rfl

/-- The plans for the nodes of a tree that stands at a path are plans for calls. -/
def Aimed (plans : List (Path × Classification)) (t : Tree) (p : Path) : Prop :=
  ∀ n ∈ t.nodesFrom (fun _ => true) p, (plans.lookup n.1).isSome = true → n.2.isKind .call = true

theorem Aimed.child {k : Kind} {ts : List Tree} {p : Path} (h : Aimed plans (.node k ts) p) {c : Path × Tree}
    (hc : c ∈ locate p ts) : Aimed plans c.2 c.1 := by
  intro n hn
  refine h n ?_
  rw [nodesFrom_node]
  exact List.mem_append_right _ (List.mem_flatMap.mpr ⟨c, hc, hn⟩)

theorem Aimed.self {k : Kind} {ts : List Tree} {p : Path} (h : Aimed plans (.node k ts) p)
    (hp : (plans.lookup p).isSome = true) : k = .call := by
  refine isKind_node.mp (h (p, .node k ts) ?_ hp)
  rw [nodesFrom_node]
  exact List.mem_append_left _ (List.mem_singleton.mpr rfl)

theorem forall₂_mem {α β : Type} {R : α → β → Prop} {as : List α} {bs : List β} (h : List.Forall₂ R as bs) :
    List.Forall₂ (fun a b => a ∈ as ∧ R a b) as bs :=
  (List.forall₂_and_left as bs).mpr ⟨fun _ ha => ha, h⟩

/-- A spliced node: its children are spliced, and one of three things happens to the node. -/
theorem spliceFrom_node_ok {k : Kind} {ts : List Tree} {p : Path} {s : Spliced}
    (h : spliceFrom m plans (.node k ts) p = .ok s) :
    ∃ ss, List.Forall₂ (fun c s => spliceFrom m plans c.2 c.1 = .ok s) (locate p ts) ss ∧
      NodeSplice m plans k p (ss.map (·.tree)) (ss.flatMap (·.applied)) (ss.flatMap (·.failed)) s := by
  rw [spliceFrom_node] at h
  obtain ⟨r, hr, h⟩ := Except.bind_eq_ok.mp h
  obtain ⟨ss, hss, rfl⟩ := spliceAll_ok hr
  exact ⟨ss, List.forall₂_map_left_iff.mp hss, spliceNode_ok h⟩

/-- Induction along a splicing: a node may use the property of all its children. -/
theorem spliceFrom_induct {P : Path → Tree → Spliced → Prop}
    (leaf : ∀ p l, P p (.leaf l) ⟨.leaf l, [], []⟩)
    (node : ∀ p k ts ss s, Aimed plans (.node k ts) p →
      List.Forall₂ (fun c s => spliceFrom m plans c.2 c.1 = .ok s ∧ P c.1 c.2 s) (locate p ts) ss →
      NodeSplice m plans k p (ss.map (·.tree)) (ss.flatMap (·.applied)) (ss.flatMap (·.failed)) s →
      P p (.node k ts) s)
    {t : Tree} {p : Path} {s : Spliced} (haim : Aimed plans t p) (h : spliceFrom m plans t p = .ok s) : P p t s := by
  induction t using induct generalizing p s with
  | leaf l =>
    cases h
    exact leaf p l
  | node k ts ih =>
    obtain ⟨ss, hss, hs⟩ := spliceFrom_node_ok h
    refine node p k ts ss s haim ?_ hs
    refine (forall₂_mem hss).imp fun c s hc => ⟨hc.2, ?_⟩
    exact ih c.2 (mem_of_mem_locate hc.1) (haim.child hc.1) hc.2

/-! ### What splicing leaves as it was -/

/-- Both trees are the same leaf, or both are nodes and arguments at the same time. -/
inductive Alike : Tree → Tree → Prop where
  | leaf (l : Leaf) : Alike (.leaf l) (.leaf l)
  | node {k k' : Kind} {ts us : List Tree} (h : k = .argument ↔ k' = .argument) : Alike (.node k ts) (.node k' us)

namespace Alike

variable {t u : Tree}

theorem isTrivia_eq (h : Alike t u) : t.isTrivia = u.isTrivia := by cases h <;> rfl

theorem isComment_eq (h : Alike t u) : t.isComment = u.isComment := by cases h <;> rfl

theorem isMark_eq (h : Alike t u) (s : String) : t.isMark s = u.isMark s := by cases h <;> rfl

theorem name?_eq (h : Alike t u) : t.name? = u.name? := by cases h <;> rfl

theorem isArgument_eq (h : Alike t u) : t.isKind .argument = u.isKind .argument := by
  cases h with
  | leaf l => rfl
  | node h => simp [isKind, kind?, h]

end Alike

/-- Splicing keeps leaves, and a node stays a node and an argument an argument. -/
theorem alike_of_splice {t : Tree} {p : Path} {s : Spliced} (haim : Aimed plans t p)
    (h : spliceFrom m plans t p = .ok s) : Alike t s.tree := by
  refine spliceFrom_induct (P := fun _ t s => Alike t s.tree) (fun p l => .leaf l) ?_ haim h
  intro p k ts ss s haim _ hs
  cases hs with
  | kept hp => exact .node Iff.rfl
  | chained hp he =>
    obtain ⟨us, hus⟩ := exists_of_isKind (emit_ok he).2.2.2
    simp only [hus]
    refine .node ⟨?_, fun h => by cases h⟩
    rintro rfl
    cases haim.self (by rw [hp]; rfl)
  | refused hp he hf => exact .node Iff.rfl

/-! ### The arguments of a call after splicing -/

/-- A tree at a path and its spliced form. -/
def SplicedTo (m : Mapping) (plans : List (Path × Classification)) (c : Path × Tree) (u : Tree) : Prop :=
  Aimed plans c.2 c.1 ∧ ∃ s, spliceFrom m plans c.2 c.1 = .ok s ∧ s.tree = u

theorem SplicedTo.alike {c : Path × Tree} {u : Tree} (h : SplicedTo m plans c u) : Alike c.2 u := by
  obtain ⟨haim, s, hs, rfl⟩ := h
  exact alike_of_splice haim hs

theorem splicedTo_children {p : Path} {k : Kind} {ts : List Tree} {ss : List Spliced} (haim : Aimed plans (.node k ts) p)
    (hss : List.Forall₂ (fun c s => spliceFrom m plans c.2 c.1 = .ok s) (locate p ts) ss) :
    List.Forall₂ (SplicedTo m plans) (locate p ts) (ss.map (·.tree)) := by
  rw [List.forall₂_map_right_iff]
  exact (forall₂_mem hss).imp fun c s h => ⟨haim.child h.1, s, h.2, rfl⟩

/-- The parts of a node and of its spliced form correspond. -/
theorem splicedTo_parts {cs : List (Path × Tree)} {us : List Tree} (h : List.Forall₂ (SplicedTo m plans) cs us) :
    List.Forall₂ (SplicedTo m plans) (cs.filter (!·.2.isTrivia)) (us.filter (!·.isTrivia)) := by
  refine List.rel_filter (fun c u hcu => ?_) h
  show (!c.2.isTrivia) = true ↔ (!u.isTrivia) = true
  rw [hcu.alike.isTrivia_eq]

theorem parts_eq_map (k : Kind) (ts : List Tree) (p : Path) :
    (Source.Tree.node k ts).parts = ((locate p ts).filter (!·.2.isTrivia)).map Prod.snd := by
  have h : ts.filter (!·.isTrivia) = ((locate p ts).map Prod.snd).filter (!·.isTrivia) := by rw [map_snd_locate]
  rw [parts, children, h, List.filter_map]
  rfl

theorem argumentOf?_of_splice {cs : List (Path × Tree)} {us : List Tree} (h : List.Forall₂ (SplicedTo m plans) cs us) :
    Option.Rel (fun (a : Path × Argument) (b : Argument) =>
        b.passing = a.2.passing ∧ SplicedTo m plans (a.1, a.2.value) b.value)
      (match argumentOf? (cs.map Prod.snd), cs.getLast? with
        | some a, some v => some (v.1, a)
        | _, _ => none) (argumentOf? us) := by
  -- one, two or three parts make an argument, by the marks among them, which splicing keeps
  cases h with
  | nil => exact .none
  | @cons c₁ u₁ cs us h₁ h =>
    cases h with
    | nil => exact .some ⟨rfl, h₁⟩
    | @cons c₂ u₂ cs us h₂ h =>
      cases h with
      | nil =>
        simp only [List.map_cons, List.map_nil, argumentOf?, ← h₁.alike.isMark_eq]
        by_cases hstar : c₁.2.isMark "*" = true
        · simp only [hstar, if_true]
          exact .some ⟨rfl, h₂⟩
        · by_cases hdouble : c₁.2.isMark "**" = true
          · simp only [hstar, hdouble, if_true]
            exact .some ⟨rfl, h₂⟩
          · simp only [hstar, hdouble]
            exact .none
      | @cons c₃ u₃ cs us h₃ h =>
        cases h with
        | nil =>
          simp only [List.map_cons, List.map_nil, argumentOf?, ← h₂.alike.isMark_eq, ← h₁.alike.name?_eq]
          by_cases heq : c₂.2.isMark "=" = true
          · simp only [heq, if_true]
            cases c₁.2.name? with
            | none => exact .none
            | some n => exact .some ⟨rfl, h₃⟩
          · simp only [heq]
            exact .none
        | cons h₄ h => exact .none

/-- A spliced argument is an argument with its children spliced. -/
theorem splicedTo_argument {p : Path} {ts : List Tree} {u : Tree} (h : SplicedTo m plans (p, .node .argument ts) u) :
    ∃ us, u = .node .argument us ∧ List.Forall₂ (SplicedTo m plans) (locate p ts) us := by
  obtain ⟨haim, s, hs, rfl⟩ := h
  obtain ⟨ss, hss, hnode⟩ := spliceFrom_node_ok hs
  have hnone : plans.lookup p = none := by
    cases hp : plans.lookup p with
    | none => rfl
    | some c => cases haim.self (by rw [hp]; rfl)
  cases hnode with
  | chained hp => rw [hnone] at hp; cases hp
  | refused hp => rw [hnone] at hp; cases hp
  | kept _ => exact ⟨_, rfl, splicedTo_children haim hss⟩

/-- Splicing an argument keeps how it is passed, and splices its value. -/
theorem argument?_of_splice {c : Path × Tree} {u : Tree} (h : SplicedTo m plans c u) :
    Option.Rel (fun (a : Path × Argument) (b : Argument) =>
      b.passing = a.2.passing ∧ SplicedTo m plans (a.1, a.2.value) b.value) (argumentAt? c.1 c.2) u.argument? := by
  obtain ⟨p, t⟩ := c
  have halike : Alike t u := h.alike
  by_cases harg : t.isKind .argument = true
  · obtain ⟨ts, rfl⟩ := exists_of_isKind harg
    obtain ⟨us, rfl, hus⟩ := splicedTo_argument h
    have hparts := argumentOf?_of_splice (splicedTo_parts hus)
    rw [← parts_eq_map .argument ts p] at hparts
    exact hparts
  · have hu : u.isKind .argument = false := by rw [← halike.isArgument_eq]; simpa using harg
    simp only [argumentAt?, argument?, hu, harg]
    exact .none

/-! ### A call after splicing -/

theorem arguments_call (ts : List Tree) :
    (Source.Tree.node .call ts).arguments = ((ts.filter (!·.isTrivia)).drop 1).filterMap argument? := by
  have hcall : (Source.Tree.node .call ts).isKind .call = true := rfl
  simp only [arguments, call?, hcall, parts, children]
  cases ts.filter (!·.isTrivia) <;> rfl

/-- The arguments of a call are those of the call before its children were spliced, with their values spliced. -/
theorem arguments_of_splice {p : Path} {ts us : List Tree} (h : List.Forall₂ (SplicedTo m plans) (locate p ts) us) :
    List.Forall₂ (fun (a : Path × Argument) (b : Argument) =>
        b.passing = a.2.passing ∧ SplicedTo m plans (a.1, a.2.value) b.value)
      ((Source.Tree.node .call ts).argumentsAt p) (Source.Tree.node .call us).arguments := by
  rw [arguments_call]
  exact List.rel_filterMap (fun c u hcu => argument?_of_splice hcu) (List.forall₂_drop 1 (splicedTo_parts h))

theorem any_eq_of_forall₂ {α β : Type} {R : α → β → Prop} {f : α → Bool} {g : β → Bool}
    (hfg : ∀ a b, R a b → f a = g b) {as : List α} {bs : List β} (h : List.Forall₂ R as bs) : as.any f = bs.any g := by
  induction h with
  | nil => rfl
  | cons hab _ ih => rw [List.any_cons, List.any_cons, hfg _ _ hab, ih]

theorem anyComment_of_splice {p : Path} {ts us : List Tree} (h : List.Forall₂ (SplicedTo m plans) (locate p ts) us) :
    ts.any Tree.isComment = us.any Tree.isComment := by
  rw [← map_snd_locate p ts, List.any_map]
  exact any_eq_of_forall₂ (fun c u hcu => hcu.alike.isComment_eq) h

/-- Reading an argument at a path only adds the path of its value. -/
theorem map_snd_argumentAt? (p : Path) (t : Tree) : (argumentAt? p t).map Prod.snd = t.argument? := by
  unfold argumentAt?
  cases ha : t.argument? with
  | none => rfl
  | some a =>
    obtain ⟨ts, rfl⟩ : ∃ ts, t = .node .argument ts := by
      unfold argument? at ha
      split at ha
      · rename_i harg
        exact exists_of_isKind harg
      · cases ha
    have hparts : argumentOf? (((locate p ts).filter (!·.2.isTrivia)).map Prod.snd) = some a := by
      rw [← parts_eq_map .argument ts p]
      exact ha
    simp only [children]
    cases hlast : ((locate p ts).filter (!·.2.isTrivia)).getLast? with
    | some v => rfl
    | none =>
      rw [List.getLast?_eq_none_iff.mp hlast] at hparts
      cases hparts

theorem hasStarComment_of_splice {c : Path × Tree} {u : Tree} (h : SplicedTo m plans c u)
    (harg : c.2.isKind .argument = true) : hasStarComment c.2 = hasStarComment u := by
  obtain ⟨p, t⟩ := c
  obtain ⟨ts, rfl⟩ := exists_of_isKind harg
  have hpassing : (Source.Tree.node .argument ts).argument?.map Argument.passing = u.argument?.map Argument.passing := by
    rw [← map_snd_argumentAt? p, Option.map_map]
    have hrel := argument?_of_splice h
    generalize argumentAt? p (.node .argument ts) = a at hrel ⊢
    generalize u.argument? = b at hrel ⊢
    cases hrel with
    | none => rfl
    | some hab => exact congrArg some hab.1.symm
  obtain ⟨us, rfl, hus⟩ := splicedTo_argument h
  simp only [hasStarComment, hpassing, children, anyComment_of_splice hus]

/-- Splicing moves no comment in or out of the arguments of a call. -/
theorem hasArgumentComments_of_splice {p : Path} {ts us : List Tree}
    (h : List.Forall₂ (SplicedTo m plans) (locate p ts) us) :
    hasArgumentComments (.node .call ts) = hasArgumentComments (.node .call us) := by
  have hargs : List.Forall₂ (SplicedTo m plans) ((locate p ts).filter (·.2.isKind .argument))
      (us.filter (·.isKind .argument)) := by
    refine List.rel_filter (fun c u hcu => ?_) h
    show c.2.isKind .argument = true ↔ u.isKind .argument = true
    rw [hcu.alike.isArgument_eq]
  have hstars : ((locate p ts).filter (·.2.isKind .argument)).any (hasStarComment ·.2) =
      (us.filter (·.isKind .argument)).any hasStarComment := by
    refine any_eq_of_forall₂ (R := fun c u => c.2.isKind .argument = true ∧ SplicedTo m plans c u) ?_ ?_
    · intro c u hcu
      exact hasStarComment_of_splice hcu.2 hcu.1
    · exact (forall₂_mem hargs).imp fun c u hcu => ⟨by simpa using (List.mem_filter.mp hcu.1).2, hcu.2⟩
  have hleft : (ts.filter (·.isKind .argument)).any hasStarComment =
      ((locate p ts).filter (·.2.isKind .argument)).any (hasStarComment ·.2) := by
    rw [← map_snd_locate p ts, List.filter_map, List.any_map, map_snd_locate]
    rfl
  simp only [hasArgumentComments, children, anyComment_of_splice h, hleft, hstars]

/-- The arguments of a call at a path are its arguments. -/
theorem map_snd_argumentsAt (p : Path) (ts : List Tree) :
    ((Source.Tree.node .call ts).argumentsAt p).map Prod.snd = (Source.Tree.node .call ts).arguments := by
  have hparts : ts.filter (!·.isTrivia) = ((locate p ts).filter (!·.2.isTrivia)).map Prod.snd :=
    parts_eq_map .call ts p
  rw [arguments_call, argumentsAt, children, hparts, ← List.map_drop, List.filterMap_map, List.map_filterMap]
  congr 1
  funext c
  exact map_snd_argumentAt? c.1 c.2

theorem length_argumentsAt (p : Path) (ts : List Tree) :
    ((Source.Tree.node .call ts).argumentsAt p).length = (Source.Tree.node .call ts).arguments.length := by
  rw [← map_snd_argumentsAt p, List.length_map]

end FluentShift.Rewrite
