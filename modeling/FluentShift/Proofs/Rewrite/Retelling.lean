import FluentShift.Proofs.Rewrite.Settlement

/-!
# FluentShift.Proofs.Rewrite.Retelling - recursion over a tree some of whose calls are replaced

`retell` answers for a tree as it is after some calls became chains: a node answers from its children, a replaced call
only from the values of its arguments.  `retell_of_splice` is the induction that compares such answers with the tree
that splicing gives.
-/

namespace FluentShift.Rewrite

open FluentShift.Source FluentShift.Source.Tree

variable {m : Mapping} {plans : List (Path × Classification)}

/-! ### Where the arguments of a call stand -/

theorem getLast?_of_argumentOf? {ts : List Tree} {a : Argument} (h : argumentOf? ts = some a) :
    ts.getLast? = some a.value := by
  unfold argumentOf? at h
  split at h
  · cases h; rfl
  · split at h
    · cases h; rfl
    · split at h
      · cases h; rfl
      · cases h
  · split at h
    · obtain ⟨n, -, rfl⟩ := Option.map_eq_some_iff.mp h
      rfl
    · cases h
  · cases h

theorem exists_of_argument? {t : Tree} {a : Argument} (h : t.argument? = some a) :
    ∃ ts, t = .node .argument ts ∧ argumentOf? (ts.filter (!·.isTrivia)) = some a := by
  unfold argument? at h
  split at h
  · rename_i harg
    obtain ⟨ts, rfl⟩ := exists_of_isKind harg
    exact ⟨ts, rfl, h⟩
  · cases h

/-- The value of an argument is no trivia. -/
theorem isTrivia_value {t : Tree} {a : Argument} (h : t.argument? = some a) : a.value.isTrivia = false := by
  obtain ⟨ts, rfl, h⟩ := exists_of_argument? h
  have hmem := List.mem_of_getLast? (getLast?_of_argumentOf? h)
  simpa using (List.mem_filter.mp hmem).2

/-- The value of an argument is the last part of the argument. -/
theorem value_mem_locate {p : Path} {t : Tree} {a : Path × Argument} (h : argumentAt? p t = some a) :
    (a.1, a.2.value) ∈ locate p t.children := by
  unfold argumentAt? at h
  split at h
  · rename_i b v hb hv
    cases h
    obtain ⟨ts, rfl, hparts⟩ := exists_of_argument? hb
    have hlast := getLast?_of_argumentOf? hparts
    rw [show ts.filter (!·.isTrivia) = _ from parts_eq_map .argument ts p, List.getLast?_map, children] at *
    rw [hv] at hlast
    have hvalue : v.2 = b.value := Option.some.inj hlast
    rw [← hvalue]
    exact (List.mem_filter.mp (List.mem_of_getLast? hv)).1
  · cases h

/-- The value of an argument stands two steps below its call. -/
theorem exists_of_mem_argumentsAt {k : Kind} {ts : List Tree} {p : Path} {a : Path × Argument}
    (h : a ∈ (Source.Tree.node k ts).argumentsAt p) :
    ∃ i j us, a.1 = j :: i :: p ∧ ts[i]? = some (.node .argument us) ∧ us[j]? = some a.2.value := by
  obtain ⟨c, hc, ha⟩ := List.mem_filterMap.mp h
  obtain ⟨i, hi, hci⟩ := mem_locate.mp (List.mem_filter.mp (List.mem_of_mem_drop hc)).1
  obtain ⟨j, hj, hv⟩ := mem_locate.mp (value_mem_locate ha)
  have harg : c.2.argument? = some a.2 := by
    rw [← map_snd_argumentAt? c.1, ha]
    rfl
  obtain ⟨us, hus, -⟩ := exists_of_argument? harg
  rw [hus] at hv
  exact ⟨i, j, us, by rw [hj, hi], hus ▸ hci, hv⟩

theorem at?_argumentsAt {k : Kind} {ts : List Tree} {p : Path} {a : Path × Argument}
    (h : a ∈ (Source.Tree.node k ts).argumentsAt p) :
    ∃ i j, a.1 = j :: i :: p ∧ (Source.Tree.node k ts).at? [j, i] = some a.2.value := by
  obtain ⟨i, j, us, hij, hi, hj⟩ := exists_of_mem_argumentsAt h
  refine ⟨i, j, hij, ?_⟩
  show (ts[i]?.bind fun u => u.children[j]?) = some a.2.value
  rw [hi]
  exact hj

/-- What stands below a tree is smaller than the tree. -/
theorem sizeOf_at?_lt {t u : Tree} {i : Nat} {r : Path} (h : t.at? (i :: r) = some u) : sizeOf u < sizeOf t := by
  induction r generalizing i u with
  | nil =>
    cases t with
    | leaf l => cases h
    | node k ts =>
      have hmem : u ∈ ts := List.mem_of_getElem? h
      have := List.sizeOf_lt_of_mem hmem
      rw [Source.Tree.node.sizeOf_spec]
      omega
  | cons j r ih =>
    rw [at?_cons] at h
    obtain ⟨v, hv, hu⟩ := Option.bind_eq_some_iff.mp h
    have hv := ih hv
    cases v with
    | leaf l => cases hu
    | node k ts =>
      have hmem : u ∈ ts := List.mem_of_getElem? hu
      have := List.sizeOf_lt_of_mem hmem
      rw [Source.Tree.node.sizeOf_spec] at hv
      omega

theorem sizeOf_lt_of_mem_locate {k : Kind} {ts : List Tree} {p : Path} {c : Path × Tree} (h : c ∈ locate p ts) :
    sizeOf c.2 < sizeOf (Source.Tree.node k ts) := by
  have := List.sizeOf_lt_of_mem (mem_of_mem_locate h)
  rw [Source.Tree.node.sizeOf_spec]
  omega

theorem sizeOf_value_lt {k : Kind} {ts : List Tree} {p : Path} {a : Path × Argument}
    (h : a ∈ (Source.Tree.node k ts).argumentsAt p) : sizeOf a.2.value < sizeOf (Source.Tree.node k ts) := by
  obtain ⟨i, j, -, hat⟩ := at?_argumentsAt h
  exact sizeOf_at?_lt hat

/-- What is planned for a tree is planned for its parts. -/
theorem Planned.part {chains : Path → Option Classification} {t u : Tree} {p r : Path} (h : Planned m chains t p)
    (hu : t.at? r = some u) : Planned m chains u (r ++ p) := by
  intro n hn
  refine h n ?_
  obtain ⟨r', hr', hat, hk⟩ := mem_nodesFrom.mp hn
  refine mem_nodesFrom.mpr ⟨r' ++ r, by rw [hr', List.append_assoc], ?_, hk⟩
  rw [at?_append, hu]
  exact hat

/-- A replaced call has as many arguments as its form takes. -/
theorem Planned.length_argumentsAt {chains : Path → Option Classification} {k : Kind} {ts : List Tree} {p : Path}
    {c : Classification} (h : Planned m chains (.node k ts) p) (hp : chains p = some c) :
    ((Source.Tree.node k ts).argumentsAt p).length = c.shape.arity := by
  obtain ⟨hk, -, hlen⟩ := h _ (mem_nodesFrom_self k ts p) c hp
  cases isKind_node.mp hk
  rw [Rewrite.length_argumentsAt]
  exact hlen

/-! ### The recursion -/

/-- How leaves, nodes that stay and replaced calls answer. -/
structure Teller (α : Type) where
  leaf : Path → Leaf → α
  kept : Path → Kind → List (Tree × α) → α
  chained : Path → Classification → List α → α

section Retell

variable {α : Type} (g : Teller α) (chains : Path → Option Classification)

/-- Recursion over a tree at a path whose calls at the paths of `chains` are replaced. -/
def retell : Tree → Path → α
  | .leaf l, p => g.leaf p l
  | .node k ts, p =>
    match chains p with
    | none => g.kept p k ((locate p ts).attach.map fun c => (c.1.2, retell c.1.2 c.1.1))
    | some c => g.chained p c (((Source.Tree.node k ts).argumentsAt p).attach.map fun a => retell a.1.2.value a.1.1)
  termination_by t => sizeOf t
  decreasing_by
  · exact sizeOf_lt_of_mem_locate c.2
  · exact sizeOf_value_lt a.2

variable {chains}

theorem retell_leaf (l : Leaf) (p : Path) : retell g chains (.leaf l) p = g.leaf p l := by rw [retell]

theorem retell_kept {k : Kind} {ts : List Tree} {p : Path} (h : chains p = none) :
    retell g chains (.node k ts) p = g.kept p k ((locate p ts).map fun c => (c.2, retell g chains c.2 c.1)) := by
  rw [retell, h]
  simp only [List.map_attach_eq_pmap, List.pmap_eq_map]

theorem retell_chained {k : Kind} {ts : List Tree} {p : Path} {c : Classification} (h : chains p = some c) :
    retell g chains (.node k ts) p =
      g.chained p c (((Source.Tree.node k ts).argumentsAt p).map fun a => retell g chains a.2.value a.1) := by
  rw [retell, h]
  simp only [List.map_attach_eq_pmap, List.pmap_eq_map]

/-- Induction along the recursion: a node that stays may use the property of its children, a replaced call that of the
values of its arguments. -/
theorem retell_induct (chains : Path → Option Classification) {P : Path → Tree → Prop} (leaf : ∀ p l, P p (.leaf l))
    (kept : ∀ p k ts, chains p = none → (∀ c ∈ locate p ts, P c.1 c.2) → P p (.node k ts))
    (chained : ∀ p k ts c, chains p = some c → (∀ a ∈ (Source.Tree.node k ts).argumentsAt p, P a.1 a.2.value) →
      P p (.node k ts)) (t : Tree) (p : Path) : P p t := by
  induction hn : sizeOf t using Nat.strongRecOn generalizing t p with
  | _ n ih =>
  subst hn
  cases t with
  | leaf l => exact leaf p l
  | node k ts =>
    cases hp : chains p with
    | none => exact kept p k ts hp fun c hc => ih _ (sizeOf_lt_of_mem_locate hc) c.2 c.1 rfl
    | some c => exact chained p k ts c hp fun a ha => ih _ (sizeOf_value_lt ha) a.2.value a.1 rfl

end Retell

/-! ### What a part of a tree is spliced to -/

/-- Only calls inside a tree are applied when it is spliced. -/
theorem suffix_of_mem_applied {t : Tree} {p q : Path} {s : Spliced} (haim : Aimed plans t p)
    (h : spliceFrom m plans t p = .ok s) (hq : q ∈ s.applied) : p <:+ q := by
  have hmem := (splice_covers haim h).mem_iff.mp (List.mem_append_left _ hq)
  obtain ⟨n, hn, rfl⟩ := List.mem_map.mp (List.mem_filter.mp hmem).1
  exact suffix_of_mem_nodesFrom hn

/-- The calls inside a child are applied when the child is spliced. -/
theorem mem_applied_child {k : Kind} {ts : List Tree} {p : Path} {s s' : Spliced} {c : Path × Tree}
    (haim : Aimed plans (.node k ts) p) (h : spliceFrom m plans (.node k ts) p = .ok s) (hc : c ∈ locate p ts)
    (h' : spliceFrom m plans c.2 c.1 = .ok s') {q : Path} (hq : c.1 <:+ q) : q ∈ s.applied ↔ q ∈ s'.applied := by
  obtain ⟨ss, hss, hs⟩ := spliceFrom_node_ok h
  obtain ⟨i, hi, hci⟩ := mem_locate.mp hc
  have hne : q ≠ p := by
    rw [hi] at hq
    exact (Path.suffix_of_cons hq).2
  have hchildren : q ∈ s.applied ↔ q ∈ ss.flatMap (·.applied) := by
    cases hs with
    | kept _ => rfl
    | refused _ _ _ => rfl
    | chained _ _ => simp [hne]
  rw [hchildren, List.mem_flatMap]
  constructor
  · rintro ⟨u, hu, hqu⟩
    obtain ⟨d, hd, hdu⟩ := exists_of_mem_right (forall₂_mem hss) hu
    -- a call below two children would be below one and the same
    have hbelow := suffix_of_mem_applied (haim.child hd) hdu hqu
    obtain ⟨j, hj, hdj⟩ := mem_locate.mp hd
    rw [hj] at hbelow
    rw [hi] at hq
    have hij := Path.eq_of_suffix hq hbelow
    subst hij
    rw [hci] at hdj
    have hcd : c = d := Prod.ext (hi.trans hj.symm) (Option.some.inj hdj)
    subst hcd
    rw [h'] at hdu
    cases hdu
    exact hqu
  · intro hqs
    obtain ⟨u, hu, hcu⟩ := exists_of_mem_left hss hc
    rw [h'] at hcu
    cases hcu
    exact ⟨s', hu, hqs⟩

/-- A part of a tree is spliced by itself as within the tree. -/
theorem splice_part {t u : Tree} {p r : Path} {s : Spliced} (haim : Aimed plans t p)
    (h : spliceFrom m plans t p = .ok s) (hu : t.at? r = some u) :
    ∃ s', Aimed plans u (r ++ p) ∧ spliceFrom m plans u (r ++ p) = .ok s' ∧
      ∀ q, r ++ p <:+ q → (q ∈ s.applied ↔ q ∈ s'.applied) := by
  induction r generalizing u with
  | nil =>
    cases hu
    exact ⟨s, haim, h, fun _ _ => Iff.rfl⟩
  | cons i r ih =>
    rw [at?_cons] at hu
    obtain ⟨v, hv, hu⟩ := Option.bind_eq_some_iff.mp hu
    obtain ⟨sv, haimv, hsv, hmem⟩ := ih hv
    cases v with
    | leaf l => cases hu
    | node k ts =>
      have hc : (i :: (r ++ p), u) ∈ locate (r ++ p) ts := mem_locate.mpr ⟨i, rfl, hu⟩
      obtain ⟨ss, hss, -⟩ := spliceFrom_node_ok hsv
      obtain ⟨s', -, hs'⟩ := exists_of_mem_left hss hc
      refine ⟨s', haimv.child hc, hs', fun q hq => ?_⟩
      rw [hmem q ((List.suffix_cons i _).trans hq)]
      exact mem_applied_child haimv hsv hc hs' hq

/-! ### Induction -/

/-- Answers for a tree compare with the spliced tree when those for leaves, nodes that stay and chains do. -/
theorem retell_of_splice {α : Type} {g : Teller α} {chains : Path → Option Classification}
    {R : Path × Tree → Tree → α → Prop}
    (leaf : ∀ p l, R (p, .leaf l) (.leaf l) (g.leaf p l))
    (kept : ∀ p k ts us,
      List.Forall₂ (fun c u => Alike c.2 u ∧ R c u (retell g chains c.2 c.1)) (locate p ts) us →
      R (p, .node k ts) (.node k us) (g.kept p k ((locate p ts).map fun c => (c.2, retell g chains c.2 c.1))))
    (chained : ∀ p c ts us chain, plans.lookup p = some c → emit m c (.node .call us) = .ok chain →
      List.Forall₂ (fun a b => b.passing = a.2.passing ∧ R (a.1, a.2.value) b.value (retell g chains a.2.value a.1))
        ((Source.Tree.node .call ts).argumentsAt p) (Source.Tree.node .call us).arguments →
      R (p, .node .call ts) chain
        (g.chained p c (((Source.Tree.node .call ts).argumentsAt p).map fun a => retell g chains a.2.value a.1)))
    {t : Tree} {p : Path} {s : Spliced} (haim : Aimed plans t p) (h : spliceFrom m plans t p = .ok s)
    (hchains : ∀ q, p <:+ q → chains q = if q ∈ s.applied then plans.lookup q else none) :
    R (p, t) s.tree (retell g chains t p) := by
  -- the values of arguments are two steps below a call, so the induction is on the size of the tree
  induction hn : sizeOf t using Nat.strongRecOn generalizing t p s with
  | _ n ih =>
  subst hn
  cases t with
  | leaf l =>
    cases h
    rw [retell_leaf]
    exact leaf p l
  | node k ts =>
    have below : ∀ i r u s', (Source.Tree.node k ts).at? (i :: r) = some u → spliceFrom m plans u (i :: r ++ p) = .ok s' →
        R (i :: r ++ p, u) s'.tree (retell g chains u (i :: r ++ p)) := by
      intro i r u s' hu hs'
      obtain ⟨s'', haim'', hs'', hmem⟩ := splice_part haim h hu
      rw [hs'] at hs''
      cases hs''
      refine ih _ (sizeOf_at?_lt hu) haim'' hs' (fun q hq => ?_) rfl
      rw [hchains q ((List.suffix_append _ _).trans hq)]
      simp only [hmem q hq]
    obtain ⟨ss, hss, hs⟩ := spliceFrom_node_ok h
    have hkept : chains p = none → R (p, .node k ts) (.node k (ss.map (·.tree))) (retell g chains (.node k ts) p) := by
      intro hp
      rw [retell_kept g hp]
      refine kept p k ts _ (List.forall₂_map_right_iff.mpr ((forall₂_mem hss).imp ?_))
      rintro ⟨q, u⟩ s' ⟨hc, hs'⟩
      obtain ⟨i, rfl, hi⟩ := mem_locate.mp hc
      exact ⟨alike_of_splice (haim.child hc) hs', below i [] u s' hi hs'⟩
    have hself := hchains p (List.suffix_refl p)
    have hnot : p ∉ ss.flatMap (·.applied) := by
      intro hmem
      obtain ⟨u, hu, hpu⟩ := List.mem_flatMap.mp hmem
      obtain ⟨c, hc, hcu⟩ := exists_of_mem_right (forall₂_mem hss) hu
      obtain ⟨i, hi, -⟩ := mem_locate.mp hc
      have hlt := suffix_of_mem_applied (haim.child hc) hcu hpu
      rw [hi] at hlt
      exact Path.not_cons_suffix_self i p hlt
    cases hs with
    | kept hp =>
      refine hkept ?_
      rw [hself, hp, ite_self]
    | refused hp _ _ =>
      refine hkept ?_
      rw [hself, if_neg hnot]
    | @chained c chain hp he =>
      have hcall : k = .call := haim.self (by rw [hp]; rfl)
      subst hcall
      rw [retell_chained g (c := c) (by rw [hself, if_pos (by simp), hp])]
      refine chained p c ts _ chain hp he ?_
      refine (forall₂_mem (arguments_of_splice (splicedTo_children haim hss))).imp ?_
      rintro ⟨q, a⟩ b ⟨ha, hpassing, -, s', hs', hb⟩
      obtain ⟨i, j, hq, hat⟩ := at?_argumentsAt ha
      subst hq
      rw [← hb]
      exact ⟨hpassing, below j [i] a.value s' hat hs'⟩

end FluentShift.Rewrite
