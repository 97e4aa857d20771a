import FluentShift.Proofs.Rewrite.Accounting
import FluentShift.Proofs.Rewrite.Retelling
import Mathlib.Data.List.Pairwise

/-!
# FluentShift.Proofs.Rewrite.Placement - where the parts of a file end up

`migrated` is the tree of a rewritten file, told from the calls that became chains, and `placed` lists every part of the
file that is in it, with its place there.  A part is missing exactly when it stands inside a replaced call, but in none
of its arguments (`mem_placed`): a chain has no room for the callee.
-/

namespace FluentShift.Rewrite

open FluentShift.Source FluentShift.Source.Tree

variable {m : Mapping} {chains : Path → Option Classification}

/-! ### The migrated tree -/

/-- Keeps leaves and nodes, and makes the chain of a replaced call from its arguments. -/
def builder (m : Mapping) : Teller Tree where
  leaf _ l := .leaf l
  kept _ k ts := .node k (ts.map Prod.snd)
  chained _ c arguments := chainTree m c fun s => (slotItem c arguments s).getD default

/-- The tree at a path with the calls at the paths of `chains` replaced. -/
def migrated (m : Mapping) (chains : Path → Option Classification) (t : Tree) (p : Path) : Tree :=
  retell (builder m) chains t p

theorem migrated_kept {k : Kind} {ts : List Tree} {p : Path} (h : chains p = none) :
    migrated m chains (.node k ts) p = .node k ((locate p ts).map fun c => migrated m chains c.2 c.1) := by
  rw [migrated, retell_kept _ h]
  show Source.Tree.node k (((locate p ts).map _).map Prod.snd) = _
  rw [List.map_map]
  rfl

/-- Without a replaced call a tree stays as it is. -/
theorem migrated_none (t : Tree) (p : Path) : migrated m (fun _ => none) t p = t := by
  induction t using induct generalizing p with
  | leaf l => exact retell_leaf _ l p
  | node k ts ih =>
    rw [migrated_kept rfl]
    congr 1
    conv_rhs => rw [← map_snd_locate p ts]
    exact List.map_congr_left fun c hc => ih c.2 (mem_of_mem_locate hc) c.1

theorem migrated_chained {k : Kind} {ts : List Tree} {p : Path} {c : Classification} (h : chains p = some c) :
    migrated m chains (.node k ts) p = chainTree m c fun s =>
      ((slotItem c ((Source.Tree.node k ts).argumentsAt p) s).map fun a => migrated m chains a.2.value a.1).getD default := by
  rw [migrated, retell_chained _ h]
  simp only [← slotItem_map]
  rfl

/-- A spliced tree is the tree before with the applied calls replaced. -/
theorem tree_of_splice (hm : m.Accepted) {plans : List (Path × Classification)}
    (hslots : ∀ q c, plans.lookup q = some c → c.slots = slotsOf m c.shape) {t : Tree} {s : Spliced}
    (haim : Aimed plans t []) (h : splice m plans t = .ok s)
    (hchains : ∀ q, chains q = if q ∈ s.applied then plans.lookup q else none) :
    s.tree = migrated m chains t [] := by
  have htree : retell (builder m) chains t [] = s.tree := by
    refine retell_of_splice (R := fun _ u a => a = u) ?_ ?_ ?_ haim (splice_eq t ▸ h) fun q _ => hchains q
    · intro p l
      rfl
    · intro p k ts us h
      show Source.Tree.node k (((locate p ts).map _).map Prod.snd) = _
      rw [List.map_map]
      congr 1
      refine List.forall₂_eq_eq_eq ▸ List.forall₂_map_left_iff.mpr (h.imp ?_)
      intro c u hcu
      exact hcu.2
    · intro p c ts us u hp he h
      obtain ⟨value, hu, hvalue⟩ := emit_chain hm (hslots p c hp) he
      have hmap : ((Source.Tree.node .call ts).argumentsAt p).map (fun a => retell (builder m) chains a.2.value a.1) =
          (Source.Tree.node .call us).arguments.map (·.value) := by
        refine List.forall₂_eq_eq_eq ▸ ?_
        rw [List.forall₂_map_left_iff, List.forall₂_map_right_iff]
        exact h.imp fun a b hab => hab.2
      rw [hmap, hu]
      refine chainTree_congr (hslots p c hp) fun s i hs => ?_
      obtain ⟨a, ha, hsa⟩ := hvalue s i (hslots p c hp ▸ hs)
      rw [slotItem_map, slotItem_of_pick (hslots p c hp) hs ha, hsa]
      rfl
  exact htree.symm

/-! ### Places -/

/-- The place of the first call of a chain. -/
def startPath (shape : Shape) : Path := if shape.hasMessage then [0, 0, 0, 0] else [0, 0]

/-- The place of a slot in a chain. -/
def slotPath (shape : Shape) : Slot → Path
  | .expected => [0, 2]
  | .delta => [0, 2, 0, 5]
  | .message => [0, 2, 0, 0]
  | .actual => [0, 2] ++ startPath shape

theorem at?_slotPath {c : Classification} (hc : c.slots = slotsOf m c.shape) (f : Slot → Tree) {s : Slot}
    {i : ArgumentIndex} (hs : (s, i) ∈ c.slots) : (chainTree m c f).at? (slotPath c.shape s) = some (f s) := by
  rw [hc] at hs
  unfold chainTree startTree
  cases hshape : c.shape <;> rw [hshape] at hs <;> cases s <;> first
    | rfl
    | simp [slotsOf] at hs

/-- No slot stands inside another. -/
theorem eq_of_slotPath {shape : Shape} {s s' : Slot} {i i' : ArgumentIndex} (hs : (s, i) ∈ slotsOf m shape)
    (hs' : (s', i') ∈ slotsOf m shape) (h : slotPath shape s <:+ slotPath shape s') : s = s' := by
  cases shape <;> cases s <;> cases s' <;> first
    | rfl
    | simp [slotsOf] at hs; done
    | simp [slotsOf] at hs'; done
    | exact absurd h (by decide)

/-- The parts of a tree and their places, as parts of a tree in which it stands at `q`. -/
def shift (q : Path) (es : List (Path × Path)) : List (Path × Path) := es.map fun e => (e.1, e.2 ++ q)

/-- Pairs every part that is kept with its place. -/
def placer : Teller (List (Path × Path)) where
  leaf p _ := [(p, [])]
  kept p _ ts := (p, []) :: (locate [] (ts.map Prod.snd)).flatMap fun c => shift c.1 c.2
  chained p c arguments :=
    (p, []) :: c.slots.flatMap fun s => shift (slotPath c.shape s.1) ((slotItem c arguments s.1).getD [])

/-- The parts of a tree at a path that are in the migrated tree, with their places there. -/
def placed (chains : Path → Option Classification) (t : Tree) (p : Path) : List (Path × Path) :=
  retell placer chains t p

theorem placed_leaf (l : Leaf) (p : Path) : placed chains (.leaf l) p = [(p, [])] := retell_leaf _ l p

/-- The children of a node that stays keep their places. -/
theorem mem_places {α : Type} {p q : Path} {ts : List Tree} {f : Path × Tree → α} {e : Path × α} :
    e ∈ locate q ((locate p ts).map f) ↔ ∃ i u, ts[i]? = some u ∧ e = (i :: q, f (i :: p, u)) := by
  rw [mem_locate]
  constructor
  · rintro ⟨i, hi, hei⟩
    rw [List.getElem?_map, getElem?_locate, Option.map_map] at hei
    obtain ⟨u, hu, hfu⟩ := Option.map_eq_some_iff.mp hei
    exact ⟨i, u, hu, Prod.ext hi hfu.symm⟩
  · rintro ⟨i, u, hu, rfl⟩
    exact ⟨i, rfl, by rw [List.getElem?_map, getElem?_locate, hu]; rfl⟩

theorem placed_kept {k : Kind} {ts : List Tree} {p : Path} (h : chains p = none) :
    placed chains (.node k ts) p =
      (p, []) :: (locate [] ((locate p ts).map fun c => placed chains c.2 c.1)).flatMap fun c => shift c.1 c.2 := by
  rw [placed, retell_kept _ h]
  show _ :: (locate [] (((locate p ts).map _).map Prod.snd)).flatMap _ = _
  rw [List.map_map]
  rfl

theorem placed_chained {k : Kind} {ts : List Tree} {p : Path} {c : Classification} (h : chains p = some c) :
    placed chains (.node k ts) p =
      (p, []) :: c.slots.flatMap fun s => shift (slotPath c.shape s.1)
        (((slotItem c ((Source.Tree.node k ts).argumentsAt p) s.1).map fun a => placed chains a.2.value a.1).getD []) := by
  rw [placed, retell_chained _ h]
  simp only [← slotItem_map]
  rfl

theorem mem_placed_kept {k : Kind} {ts : List Tree} {p : Path} (h : chains p = none) {e : Path × Path} :
    e ∈ placed chains (.node k ts) p ↔
      e = (p, []) ∨ ∃ i u y, ts[i]? = some u ∧ (e.1, y) ∈ placed chains u (i :: p) ∧ e.2 = y ++ [i] := by
  rw [placed_kept h, List.mem_cons, List.mem_flatMap]
  refine or_congr_right ?_
  constructor
  · rintro ⟨c, hc, he⟩
    obtain ⟨i, u, hu, rfl⟩ := mem_places.mp hc
    obtain ⟨⟨x, y⟩, hxy, rfl⟩ := List.mem_map.mp he
    exact ⟨i, u, y, hu, hxy, rfl⟩
  · rintro ⟨i, u, y, hu, hxy, hy⟩
    exact ⟨_, mem_places.mpr ⟨i, u, hu, rfl⟩, List.mem_map.mpr ⟨(e.1, y), hxy, Prod.ext rfl hy.symm⟩⟩

/-- The parts of an argument of a replaced call are where its slot is. -/
theorem mem_placed_chained {k : Kind} {ts : List Tree} {p : Path} {c : Classification} (h : chains p = some c)
    {e : Path × Path} :
    e ∈ placed chains (.node k ts) p ↔
      e = (p, []) ∨ ∃ s i a y, (s, i) ∈ c.slots ∧ slotItem c ((Source.Tree.node k ts).argumentsAt p) s = some a ∧
        (e.1, y) ∈ placed chains a.2.value a.1 ∧ e.2 = y ++ slotPath c.shape s := by
  rw [placed_chained h, List.mem_cons, List.mem_flatMap]
  refine or_congr_right ?_
  constructor
  · rintro ⟨⟨s, i⟩, hs, he⟩
    obtain ⟨⟨x, y⟩, hxy, rfl⟩ := List.mem_map.mp he
    cases ha : slotItem c ((Source.Tree.node k ts).argumentsAt p) s with
    | none =>
      rw [ha] at hxy
      cases hxy
    | some a =>
      rw [ha] at hxy
      exact ⟨s, i, a, y, hs, ha, hxy, rfl⟩
  · rintro ⟨s, i, a, y, hs, ha, hxy, hy⟩
    refine ⟨(s, i), hs, List.mem_map.mpr ⟨(e.1, y), ?_, Prod.ext rfl hy.symm⟩⟩
    simp only [ha]
    exact hxy

/-- A placed part is in the migrated tree as it is migrated by itself. -/
theorem at?_of_mem_placed (hslots : ∀ q c, chains q = some c → c.slots = slotsOf m c.shape) {t : Tree} {p : Path}
    {e : Path × Path} (h : e ∈ placed chains t p) :
    ∃ r n, e.1 = r ++ p ∧ t.at? r = some n ∧ (migrated m chains t p).at? e.2 = some (migrated m chains n e.1) := by
  refine retell_induct chains
    (P := fun p t => ∀ e ∈ placed chains t p, ∃ r n, e.1 = r ++ p ∧ t.at? r = some n ∧
      (migrated m chains t p).at? e.2 = some (migrated m chains n e.1)) ?_ ?_ ?_ t p e h
  · intro p l e he
    rw [placed_leaf] at he
    cases List.mem_singleton.mp he
    exact ⟨[], _, rfl, rfl, rfl⟩
  · intro p k ts hp ih e he
    rcases (mem_placed_kept hp).mp he with rfl | ⟨i, u, y, hu, hy, hey⟩
    · exact ⟨[], _, rfl, rfl, rfl⟩
    · obtain ⟨r, n, hr, hn, hat⟩ := ih (i :: p, u) (mem_locate.mpr ⟨i, rfl, hu⟩) (e.1, y) hy
      refine ⟨r ++ [i], n, by rw [List.append_assoc]; exact hr, by rw [at?_node_concat, hu]; exact hn, ?_⟩
      rw [migrated_kept hp, hey, at?_node_concat, List.getElem?_map, getElem?_locate, hu]
      exact hat
  · intro p k ts c hp ih e he
    rcases (mem_placed_chained hp).mp he with rfl | ⟨s, i, a, y, hs, ha, hy, hey⟩
    · exact ⟨[], _, rfl, rfl, rfl⟩
    · have hmem := mem_of_slotItem ha
      obtain ⟨r, n, hr, hn, hat⟩ := ih a hmem (e.1, y) hy
      obtain ⟨i', j', hij, hvalue⟩ := at?_argumentsAt hmem
      refine ⟨r ++ [j', i'], n, ?_, ?_, ?_⟩
      · rw [List.append_assoc]
        exact hr.trans (congrArg (r ++ ·) hij)
      · rw [at?_append, hvalue]
        exact hn
      · rw [migrated_chained hp, hey, at?_append, at?_slotPath (hslots p c hp) _ hs, ha]
        exact hat

/-! ### Every place is taken once -/

/-- The parts of trees whose places do not contain one another have different places. -/
theorem nodup_shift {cs : List (Path × List (Path × Path))} (hcs : ∀ c ∈ cs, (c.2.map Prod.snd).Nodup)
    (hne : ∀ c ∈ cs, c.1 ≠ []) (hapart : cs.Pairwise fun c d => ∀ q, c.1 <:+ q → ¬ d.1 <:+ q) (x : Path) :
    (((x, []) :: cs.flatMap fun c => shift c.1 c.2).map Prod.snd).Nodup := by
  have hshift : ∀ c : Path × List (Path × Path), (shift c.1 c.2).map Prod.snd = (c.2.map Prod.snd).map (· ++ c.1) := by
    intro c
    rw [shift, List.map_map, List.map_map]
    rfl
  have below : ∀ (c : Path × List (Path × Path)) (y : Path), y ∈ (shift c.1 c.2).map Prod.snd → c.1 <:+ y := by
    intro c y hy
    rw [hshift] at hy
    obtain ⟨z, -, rfl⟩ := List.mem_map.mp hy
    exact List.suffix_append _ _
  rw [List.map_cons, List.map_flatMap, List.nodup_cons]
  refine ⟨fun h => ?_, List.nodup_flatMap.mpr ⟨fun c hc => ?_, ?_⟩⟩
  · obtain ⟨c, hc, hy⟩ := List.mem_flatMap.mp h
    exact hne c hc (List.suffix_nil.mp (below c [] hy))
  · rw [hshift]
    exact (hcs c hc).map fun _ _ h => List.append_cancel_right h
  · refine hapart.imp fun {c d} hcd y hyc hyd => ?_
    exact hcd y (below c y hyc) (below d y hyd)

theorem pairwise_slotsOf (m : Mapping) (shape : Shape) :
    (slotsOf m shape).Pairwise fun s t => ∀ q, slotPath shape s.1 <:+ q → ¬ slotPath shape t.1 <:+ q := by
  refine List.Pairwise.imp_of_mem ?_ (List.pairwise_map.mp (nodup_slotsOf m shape))
  intro s t hs ht hne q hsq htq
  rcases List.suffix_or_suffix_of_suffix hsq htq with h | h
  · exact hne (eq_of_slotPath hs ht h)
  · exact hne (eq_of_slotPath ht hs h).symm

/-- No two parts have the same place. -/
theorem nodup_places (hslots : ∀ q c, chains q = some c → c.slots = slotsOf m c.shape) (t : Tree) (p : Path) :
    ((placed chains t p).map Prod.snd).Nodup := by
  refine retell_induct chains (P := fun p t => ((placed chains t p).map Prod.snd).Nodup) ?_ ?_ ?_ t p
  · intro p l
    rw [placed_leaf]
    exact List.nodup_singleton _
  · intro p k ts hp ih
    rw [placed_kept hp]
    refine nodup_shift (fun c hc => ?_) (fun c hc => ?_) (pairwise_locate _ _) p
    · obtain ⟨i, u, hu, rfl⟩ := mem_places.mp hc
      exact ih (i :: p, u) (mem_locate.mpr ⟨i, rfl, hu⟩)
    · obtain ⟨i, u, -, rfl⟩ := mem_places.mp hc
      exact List.cons_ne_nil _ _
  · intro p k ts c hp ih
    have hlist : placed chains (.node k ts) p = (p, []) :: (c.slots.map fun s => (slotPath c.shape s.1,
        ((slotItem c ((Source.Tree.node k ts).argumentsAt p) s.1).map fun a => placed chains a.2.value a.1).getD [])).flatMap
        fun c => shift c.1 c.2 := by
      rw [placed_chained hp, List.flatMap_map]
    rw [hlist]
    refine nodup_shift (fun d hd => ?_) (fun d hd => ?_) ?_ p
    · obtain ⟨s, -, rfl⟩ := List.mem_map.mp hd
      cases ha : slotItem c ((Source.Tree.node k ts).argumentsAt p) s.1 with
      | none => exact List.nodup_nil
      | some a => exact ih a (mem_of_slotItem ha)
    · obtain ⟨s, -, rfl⟩ := List.mem_map.mp hd
      cases s.1 <;> exact List.cons_ne_nil _ _
    · rw [hslots p c hp, List.pairwise_map]
      exact pairwise_slotsOf m c.shape

/-! ### Every part is placed at most once -/

/-- The arguments of a call share no part with one another. -/
theorem pairwise_argumentsAt (t : Tree) (p : Path) :
    (t.argumentsAt p).Pairwise fun a b => ∀ q, a.1 <:+ q → ¬ b.1 <:+ q := by
  have hchildren := ((pairwise_locate p t.children).filter (!·.2.isTrivia)).drop (i := 1)
  refine List.Pairwise.filterMap _ ?_ hchildren
  intro c d hcd a ha b hb q haq hbq
  have below : ∀ {c : Path × Tree} {a : Path × Argument}, argumentAt? c.1 c.2 = some a → c.1 <:+ a.1 := by
    intro c a ha
    obtain ⟨j, hj, -⟩ := mem_locate.mp (value_mem_locate ha)
    exact ⟨[j], hj.symm⟩
  exact hcd q ((below ha).trans haq) ((below hb).trans hbq)

theorem map_fst_shift (q : Path) (es : List (Path × Path)) : (shift q es).map Prod.fst = es.map Prod.fst := by
  rw [shift, List.map_map]
  rfl

theorem parts_kept {k : Kind} {ts : List Tree} {p : Path} (h : chains p = none) :
    (placed chains (.node k ts) p).map Prod.fst =
      p :: (locate p ts).flatMap fun c => (placed chains c.2 c.1).map Prod.fst := by
  rw [placed_kept h, List.map_cons, List.map_flatMap]
  simp only [map_fst_shift]
  have hall : ∀ ls : List (List (Path × Path)), (locate [] ls).flatMap (fun c => c.2.map Prod.fst) =
      ls.flatMap fun es => es.map Prod.fst := by
    intro ls
    conv_rhs => rw [← map_snd_locate [] ls, List.flatMap_map]
  rw [hall, List.flatMap_map]

theorem flatMap_filterMap {α β γ : Type} (f : α → Option β) (g : β → List γ) (xs : List α) :
    (xs.filterMap f).flatMap g = xs.flatMap fun x => ((f x).map g).getD [] := by
  induction xs with
  | nil => rfl
  | cons x xs ih =>
    rw [List.filterMap_cons, List.flatMap_cons, ← ih]
    cases f x <;> rfl

theorem parts_chained (hm : m.Accepted) {k : Kind} {ts : List Tree} {p : Path} {c : Classification}
    (h : chains p = some c) (hc : c.slots = slotsOf m c.shape)
    (hlen : ((Source.Tree.node k ts).argumentsAt p).length = c.shape.arity) :
    ((placed chains (.node k ts) p).map Prod.fst).Perm
      (p :: ((Source.Tree.node k ts).argumentsAt p).flatMap fun a => (placed chains a.2.value a.1).map Prod.fst) := by
  rw [placed_chained h, List.map_cons, List.map_flatMap]
  simp only [map_fst_shift]
  refine List.Perm.cons p ?_
  refine List.Perm.trans ?_ ((slotItem_perm hm hc hlen).flatMap_right _)
  rw [flatMap_filterMap]
  refine List.Perm.of_eq (congrArg₂ _ (funext fun s => ?_) rfl)
  cases slotItem c ((Source.Tree.node k ts).argumentsAt p) s.1 <;> rfl

section Parts

variable (hm : m.Accepted) (hslots : ∀ q c, chains q = some c → c.slots = slotsOf m c.shape)

include hslots

theorem suffix_of_mem_parts {t : Tree} {p x : Path} (h : x ∈ (placed chains t p).map Prod.fst) : p <:+ x := by
  obtain ⟨e, he, rfl⟩ := List.mem_map.mp h
  obtain ⟨r, n, hr, -⟩ := at?_of_mem_placed hslots he
  exact ⟨r, hr.symm⟩

/-- A node and what is below it in places that do not contain one another. -/
theorem nodup_below {α : Type} {p : Path} {cs : List (Path × α)} {t : Path × α → Tree}
    (hnodup : ∀ c ∈ cs, ((placed chains (t c) c.1).map Prod.fst).Nodup) (hbelow : ∀ c ∈ cs, ∃ i, i :: p <:+ c.1)
    (hapart : cs.Pairwise fun c d => ∀ q, c.1 <:+ q → ¬ d.1 <:+ q) :
    (p :: cs.flatMap fun c => (placed chains (t c) c.1).map Prod.fst).Nodup := by
  rw [List.nodup_cons]
  refine ⟨fun h => ?_, List.nodup_flatMap.mpr ⟨hnodup, ?_⟩⟩
  · obtain ⟨c, hc, hp⟩ := List.mem_flatMap.mp h
    obtain ⟨i, hi⟩ := hbelow c hc
    exact Path.not_cons_suffix_self i p (hi.trans (suffix_of_mem_parts hslots hp))
  · refine hapart.imp fun {c d} hcd x hxc hxd => ?_
    exact hcd x (suffix_of_mem_parts hslots hxc) (suffix_of_mem_parts hslots hxd)

include hm

/-- No part is placed twice. -/
theorem nodup_parts {t : Tree} {p : Path} (hplan : Planned m chains t p) :
    ((placed chains t p).map Prod.fst).Nodup := by
  refine retell_induct chains
    (P := fun p t => Planned m chains t p → ((placed chains t p).map Prod.fst).Nodup) ?_ ?_ ?_ t p hplan
  · intro p l _
    rw [placed_leaf]
    exact List.nodup_singleton _
  · intro p k ts hp ih hplan
    rw [parts_kept hp]
    refine nodup_below hslots (fun c hc => ih c hc (hplan.child hc)) (fun c hc => ?_) (pairwise_locate p ts)
    obtain ⟨i, hi, -⟩ := mem_locate.mp hc
    exact ⟨i, hi ▸ List.suffix_refl _⟩
  · intro p k ts c hp ih hplan
    rw [(parts_chained hm hp (hslots p c hp) (hplan.length_argumentsAt hp)).nodup_iff]
    refine nodup_below hslots (fun a ha => ?_) (fun a ha => ?_) (pairwise_argumentsAt _ p)
    all_goals obtain ⟨i, j, hij, hat⟩ := at?_argumentsAt ha
    · refine ih a ha ?_
      rw [hij]
      exact hplan.part hat
    · exact ⟨i, hij ▸ List.suffix_cons j _⟩

end Parts

/-! ### Which parts are placed -/

/-- What stands at `x` is inside a replaced call, but in none of its arguments. -/
def Dropped (chains : Path → Option Classification) (t : Tree) (p x : Path) : Prop :=
  ∃ r u, t.at? r = some u ∧ (chains (r ++ p)).isSome = true ∧ r ++ p <:+ x ∧ r ++ p ≠ x ∧
    ∀ a ∈ u.argumentsAt (r ++ p), ¬ a.1 <:+ x

theorem not_dropped_self (t : Tree) (p : Path) : ¬ Dropped chains t p p := by
  rintro ⟨r, u, -, -, hsuffix, hne, -⟩
  have hlen := hsuffix.length_le
  rw [List.length_append] at hlen
  have hr : r = [] := List.eq_nil_of_length_eq_zero (by omega)
  exact hne (by rw [hr, List.nil_append])

/-- What is in a child that is not dropped by its parent is dropped when it is dropped in the child. -/
theorem dropped_child {k : Kind} {ts : List Tree} {p x : Path} {i : Nat} {u : Tree} (hi : ts[i]? = some u)
    (hx : i :: p <:+ x) (hself : (chains p).isSome = true → ∃ a ∈ (Source.Tree.node k ts).argumentsAt p, a.1 <:+ x) :
    Dropped chains (.node k ts) p x ↔ Dropped chains u (i :: p) x := by
  constructor
  · rintro ⟨r, v, hv, hsome, hsuffix, hne, hargs⟩
    rcases List.eq_nil_or_concat' r with rfl | ⟨r, j, rfl⟩
    · cases hv
      obtain ⟨a, ha, hax⟩ := hself hsome
      exact absurd hax (hargs a ha)
    · rw [List.append_assoc] at hsome hsuffix hne hargs
      have hji : j = i := Path.eq_of_suffix ((List.suffix_append r _).trans hsuffix) hx
      subst hji
      rw [at?_node_concat, hi] at hv
      exact ⟨r, v, hv, hsome, hsuffix, hne, hargs⟩
  · rintro ⟨r, v, hv, hsome, hsuffix, hne, hargs⟩
    have hat : (Source.Tree.node k ts).at? (r ++ [i]) = some v := by
      rw [at?_node_concat, hi]
      exact hv
    refine ⟨r ++ [i], v, hat, ?_⟩
    rw [List.append_assoc]
    exact ⟨hsome, hsuffix, hne, hargs⟩

theorem dropped_argument {k : Kind} {ts : List Tree} {p x : Path} (hplan : Planned m chains (.node k ts) p)
    {a : Path × Argument} (ha : a ∈ (Source.Tree.node k ts).argumentsAt p) (hax : a.1 <:+ x) :
    Dropped chains (.node k ts) p x ↔ Dropped chains a.2.value a.1 x := by
  obtain ⟨i, j, us, hij, hi, hj⟩ := exists_of_mem_argumentsAt ha
  rw [hij] at hax ⊢
  have hchild : i :: p <:+ x := (List.suffix_cons j _).trans hax
  -- the argument itself is no call, so nothing is planned for it
  have hnone : chains (i :: p) = none := by
    cases hc : chains (i :: p) with
    | none => rfl
    | some c =>
      have hmem : (i :: p, Source.Tree.node .argument us) ∈ locate p ts := mem_locate.mpr ⟨i, rfl, hi⟩
      obtain ⟨hk, -⟩ := hplan.child hmem _ (mem_nodesFrom_self _ _ _) c hc
      cases isKind_node.mp hk
  rw [dropped_child hi hchild fun _ => ⟨a, ha, hij ▸ hax⟩]
  refine dropped_child hj hax fun hsome => ?_
  rw [hnone] at hsome
  cases hsome

/-- What is in an argument of a call is in no other one. -/
theorem eq_of_argumentsAt {t : Tree} {p x : Path} {a b : Path × Argument} (ha : a ∈ t.argumentsAt p)
    (hb : b ∈ t.argumentsAt p) (hax : a.1 <:+ x) (hbx : b.1 <:+ x) : a = b := by
  by_contra hne
  have hsymm : Std.Symm fun a b : Path × Argument => ∀ q, a.1 <:+ q → ¬ b.1 <:+ q :=
    ⟨fun a b h q hb ha => h q ha hb⟩
  exact (pairwise_argumentsAt t p).forall ha hb hne x hax hbx

section Kept

variable (hm : m.Accepted) (hslots : ∀ q c, chains q = some c → c.slots = slotsOf m c.shape)

include hm hslots

/-- A part is placed unless it is inside a replaced call, but in none of its arguments. -/
theorem mem_parts_iff {t n : Tree} {p r : Path} (hplan : Planned m chains t p) (hn : t.at? r = some n) :
    r ++ p ∈ (placed chains t p).map Prod.fst ↔ ¬ Dropped chains t p (r ++ p) := by
  refine retell_induct chains
    (P := fun p t => Planned m chains t p → ∀ r n, t.at? r = some n →
      (r ++ p ∈ (placed chains t p).map Prod.fst ↔ ¬ Dropped chains t p (r ++ p))) ?_ ?_ ?_ t p hplan r n hn
  · intro p l _ r n hn
    cases r with
    | nil => exact ⟨fun _ => not_dropped_self _ p, fun _ => by rw [placed_leaf]; exact List.mem_singleton.mpr rfl⟩
    | cons i r => rw [at?_leaf_cons] at hn; cases hn
  · -- a kept node: below it, the question is that of the one child it is in
    intro p k ts hp ih hplan r n hn
    rcases List.eq_nil_or_concat' r with rfl | ⟨r, i, rfl⟩
    · exact ⟨fun _ => not_dropped_self _ p, fun _ => by rw [parts_kept hp]; exact List.mem_cons_self ..⟩
    · rw [at?_node_concat] at hn
      obtain ⟨u, hu, hn⟩ := Option.bind_eq_some_iff.mp hn
      have hc : (i :: p, u) ∈ locate p ts := mem_locate.mpr ⟨i, rfl, hu⟩
      have hx : i :: p <:+ r ++ i :: p := List.suffix_append _ _
      rw [List.append_assoc]
      show r ++ i :: p ∈ _ ↔ ¬ Dropped chains _ p (r ++ i :: p)
      rw [dropped_child hu hx (fun hsome => by rw [hp] at hsome; cases hsome),
        ← ih (i :: p, u) hc (hplan.child hc) r n hn, parts_kept hp, List.mem_cons, List.mem_flatMap]
      constructor
      · rintro (heq | ⟨d, hd, hmem⟩)
        · exact absurd heq (Path.suffix_of_cons hx).2
        · -- only one child has something below its path
          obtain ⟨j, hj, hdj⟩ := mem_locate.mp hd
          have hdx := suffix_of_mem_parts hslots hmem
          rw [hj] at hdx
          have hji := Path.eq_of_suffix hdx hx
          subst hji
          rw [hu] at hdj
          rw [hj, ← Option.some.inj hdj] at hmem
          exact hmem
      · intro hmem
        exact .inr ⟨_, hc, hmem⟩
  · -- a replaced call: below it, only its arguments are placed, in the order of the chain
    intro p k ts c hp ih hplan r n hn
    rcases List.eq_nil_or_concat' r with rfl | ⟨r, i, rfl⟩
    · exact ⟨fun _ => not_dropped_self _ p, fun _ => by rw [placed_chained hp]; exact List.mem_cons_self ..⟩
    · have hx : i :: p <:+ r ++ [i] ++ p := by
        rw [List.append_assoc]
        exact List.suffix_append _ _
      rw [(parts_chained hm hp (hslots p c hp) (hplan.length_argumentsAt hp)).mem_iff, List.mem_cons, List.mem_flatMap]
      by_cases hin : ∃ a ∈ (Source.Tree.node k ts).argumentsAt p, a.1 <:+ r ++ [i] ++ p
      · obtain ⟨a, ha, hax⟩ := hin
        rw [dropped_argument hplan ha hax]
        obtain ⟨i', j', hij, hat⟩ := at?_argumentsAt ha
        obtain ⟨r', hr'⟩ := hax
        have hr : r' ++ [j', i'] = r ++ [i] := by
          refine (List.append_left_inj p).mp ?_
          rw [← hr', hij, List.append_assoc]
          rfl
        have hn' : a.2.value.at? r' = some n := by
          rw [← hr, at?_append, hat] at hn
          exact hn
        have hplan' : Planned m chains a.2.value a.1 := by
          rw [hij]
          exact hplan.part hat
        rw [← hr', ← ih a ha hplan' r' n hn']
        constructor
        · rintro (heq | ⟨b, hb, hmem⟩)
          · rw [hr'] at heq
            exact absurd heq (Path.suffix_of_cons hx).2
          · have hab := eq_of_argumentsAt ha hb (List.suffix_append _ _) (suffix_of_mem_parts hslots hmem)
            rw [← hab] at hmem
            exact hmem
        · intro hmem
          exact .inr ⟨a, ha, hmem⟩
      · -- in no argument, so dropped with the call itself
        refine ⟨fun h => ?_, fun h => ?_⟩
        · rcases h with heq | ⟨a, ha, hmem⟩
          · exact absurd heq (Path.suffix_of_cons hx).2
          · exact absurd ⟨a, ha, suffix_of_mem_parts hslots hmem⟩ hin
        · refine absurd ⟨[], _, rfl, by rw [List.nil_append, hp]; rfl, ?_⟩ h
          obtain ⟨hbelow, hne⟩ := Path.suffix_of_cons hx
          exact ⟨hbelow, Ne.symm hne, fun a ha hax => hin ⟨a, ha, hax⟩⟩

end Kept

/-! ### The parts of a rewritten file -/

/-- A call stands inside another one, but in none of its arguments: it is in what is called. -/
def InCallee (c r : CallSite) : Prop :=
  r.path <:+ c.path ∧ r.path ≠ c.path ∧ ∀ a ∈ r.call.argumentsAt r.path, ¬ a.1 <:+ c.path

/-- The rewritten file has one chain for every rewritten call, and every argument of every collected call once. -/
structure NothingLost (s : Setup) (f : SourceFile) (o : Outcome) : Prop where
  chains : ((placed o.chains f.tree []).filter fun e => (o.chains e.1).isSome).length = o.rewritten.length
  arguments : ∀ c ∈ sitesOf s f, ∀ a ∈ c.call.argumentsAt c.path,
    ((placed o.chains f.tree []).map Prod.fst).count a.1 = 1

section Rewritten

variable {s : Setup} {f : SourceFile} {o : Outcome} (h : (rewriteCalls s f).value = .ok o)

include h

/-- Rewritten calls had a plan. -/
theorem rewritten_sublist_plans :
    ∃ plans skipped, planSites (decideIn s f) (sitesOf s f) = .ok (plans, skipped) ∧ o.rewritten.Sublist plans := by
  rw [(rewriteCalls_gives s f).value] at h
  obtain ⟨plans, skipped, hplans, ⟨-, rfl⟩ | ⟨spliced, -, rfl⟩⟩ := rewriteResult_ok h
  · exact ⟨plans, skipped, hplans, List.nil_sublist _⟩
  · exact ⟨plans, skipped, hplans, List.filter_sublist⟩

/-- A rewritten call is a collected call, with as many arguments as its form takes. -/
theorem call_of_rewritten {r : Rewritten} (hr : r ∈ o.rewritten) :
    r.site ∈ sitesOf s f ∧ f.tree.at? r.site.path = some r.site.call ∧ r.site.call.isKind .call = true ∧
      r.classification.slots = slotsOf s.mapping r.classification.shape ∧
      r.site.call.arguments.length = r.classification.shape.arity := by
  obtain ⟨plans, skipped, hplans, hsub⟩ := rewritten_sublist_plans h
  exact ⟨site_mem_of_plan hplans (hsub.subset hr), call_of_plan hplans (hsub.subset hr)⟩

theorem nodup_paths_rewritten : (o.rewritten.map (·.site.path)).Nodup := by
  obtain ⟨plans, skipped, hplans, hsub⟩ := rewritten_sublist_plans h
  exact (nodup_paths_plans hplans).sublist (hsub.map _)

theorem slots_of_chains {q : Path} {c : Classification} (hc : o.chains q = some c) :
    c.slots = slotsOf s.mapping c.shape := by
  obtain ⟨r, hr, -, rfl⟩ := exists_of_lookup_planKeys hc
  exact (call_of_rewritten h hr).2.2.2.1

theorem planned_chains : Planned s.mapping o.chains f.tree [] := by
  intro n hn c hc
  obtain ⟨r, hr, hpath, rfl⟩ := exists_of_lookup_planKeys hc
  obtain ⟨-, hat, hcall, hslots, hlen⟩ := call_of_rewritten h hr
  rw [hpath] at hat
  rw [eq_of_mem_nodesFrom hn hat]
  exact ⟨hcall, hslots, hlen⟩

theorem isSome_chains {q : Path} : (o.chains q).isSome = true ↔ q ∈ o.rewritten.map (·.site.path) := by
  rw [Option.isSome_iff_exists, List.mem_map]
  constructor
  · rintro ⟨c, hc⟩
    obtain ⟨r, hr, hpath, -⟩ := exists_of_lookup_planKeys hc
    exact ⟨r, hr, hpath⟩
  · rintro ⟨r, hr, rfl⟩
    exact ⟨_, lookup_planKeys_of_mem (nodup_paths_rewritten h) hr⟩

/-- What is dropped from a rewritten file is inside a rewritten call, but in none of its arguments. -/
theorem dropped_iff {x : Path} : Dropped o.chains f.tree [] x ↔
    ∃ r ∈ o.rewritten, r.site.path <:+ x ∧ r.site.path ≠ x ∧ ∀ a ∈ r.site.call.argumentsAt r.site.path, ¬ a.1 <:+ x := by
  constructor
  · rintro ⟨q, u, hu, hsome, hrest⟩
    rw [List.append_nil] at hsome hrest
    obtain ⟨r, hr, rfl⟩ := List.mem_map.mp ((isSome_chains h).mp hsome)
    have hcall := (call_of_rewritten h hr).2.1
    rw [hu] at hcall
    cases hcall
    exact ⟨r, hr, hrest⟩
  · rintro ⟨r, hr, hrest⟩
    refine ⟨r.site.path, _, (call_of_rewritten h hr).2.1, ?_⟩
    rw [List.append_nil]
    exact ⟨(isSome_chains h).mpr (List.mem_map_of_mem (f := fun r => r.site.path) hr), hrest⟩

theorem dropped_site_iff {c : CallSite} :
    Dropped o.chains f.tree [] c.path ↔ ∃ r ∈ o.rewritten, InCallee c r.site := dropped_iff h

/-- An argument of a call is dropped when the call is. -/
theorem dropped_argument_iff {c : CallSite} (hc : c ∈ sitesOf s f) {a : Path × Argument}
    (ha : a ∈ c.call.argumentsAt c.path) :
    Dropped o.chains f.tree [] a.1 ↔ ∃ r ∈ o.rewritten, InCallee c r.site := by
  obtain ⟨hat, hk⟩ := mem_sitesOf hc
  obtain ⟨ts, hts⟩ := exists_of_isKind hk
  rw [hts] at ha hat
  obtain ⟨i, j, us, hij, hi, hj⟩ := exists_of_mem_argumentsAt ha
  -- the argument stands between the call and the value, and is no call
  have harg : f.tree.at? (i :: c.path) = some (.node .argument us) := by
    rw [at?_cons, hat]
    exact hi
  rw [dropped_iff h]
  constructor
  · rintro ⟨r, hr, hsuffix, hne, hargs⟩
    obtain ⟨-, hatr, hkr, -⟩ := call_of_rewritten h hr
    rw [hij] at hsuffix hne
    have hsuffix : r.site.path <:+ i :: c.path := (List.suffix_cons_iff.mp hsuffix).resolve_left hne
    rcases List.suffix_cons_iff.mp hsuffix with heq | hsuffix
    · rw [heq, harg] at hatr
      rw [← Option.some.inj hatr] at hkr
      cases isKind_node.mp hkr
    · refine ⟨r, hr, hsuffix, fun heq => ?_, fun b hb hbc => ?_⟩
      · rw [heq, hat] at hatr
        refine hargs a ?_ (List.suffix_refl _)
        rw [← Option.some.inj hatr, heq]
        exact ha
      · refine hargs b hb (hbc.trans ?_)
        rw [hij]
        exact (List.suffix_cons i _).trans (List.suffix_cons j _)
  · rintro ⟨r, hr, hsuffix, hne, hargs⟩
    obtain ⟨-, hatr, hkr, -⟩ := call_of_rewritten h hr
    have hbelow : c.path <:+ a.1 := by
      rw [hij]
      exact (List.suffix_cons i _).trans (List.suffix_cons j _)
    refine ⟨r, hr, hsuffix.trans hbelow, fun heq => ?_, fun b hb hba => ?_⟩
    · have hlen := hsuffix.length_le
      rw [heq, hij, List.length_cons, List.length_cons] at hlen
      omega
    · obtain ⟨us', hus'⟩ := exists_of_isKind hkr
      rw [hus'] at hb hatr
      obtain ⟨i', j', us'', hij', hi', -⟩ := exists_of_mem_argumentsAt hb
      rw [hij] at hba
      rcases List.suffix_cons_iff.mp hba with heq | hba
      · -- the same argument, so the same call
        rw [hij'] at heq
        exact hne (List.cons.inj (List.cons.inj heq).2).2
      · rcases List.suffix_cons_iff.mp hba with heq | hba
        · -- the call would be an argument
          rw [hij'] at heq
          have hcall : f.tree.at? (i' :: r.site.path) = some (.node .argument us'') := by
            rw [at?_cons, hatr]
            exact hi'
          rw [(List.cons.inj heq).2, hat] at hcall
          cases hcall
        · rw [hus'] at hargs
          exact hargs b hb hba

end Rewritten

section Lost

variable {s : Setup} {f : SourceFile} {o : Outcome} (hm : s.mapping.Accepted) (h : (rewriteCalls s f).value = .ok o)

include hm h

theorem mem_parts_of_rewritten {x : Path} {n : Tree} (hn : f.tree.at? x = some n) :
    x ∈ (placed o.chains f.tree []).map Prod.fst ↔ ¬ Dropped o.chains f.tree [] x := by
  have hiff := mem_parts_iff hm (fun _ _ hc => slots_of_chains h hc) (planned_chains h) hn
  rwa [List.append_nil] at hiff

theorem nodup_parts_of_rewritten : ((placed o.chains f.tree []).map Prod.fst).Nodup :=
  nodup_parts hm (fun _ _ hc => slots_of_chains h hc) (planned_chains h)

/-- There is a chain for every rewritten call when none of them is dropped. -/
theorem length_chains_iff :
    ((placed o.chains f.tree []).filter fun e => (o.chains e.1).isSome).length = o.rewritten.length ↔
      ∀ r ∈ o.rewritten, ¬ Dropped o.chains f.tree [] r.site.path := by
  have hparts := (nodup_parts_of_rewritten hm h).filter fun x => (o.chains x).isSome
  have hlen : ((placed o.chains f.tree []).filter fun e => (o.chains e.1).isSome).length =
      (((placed o.chains f.tree []).map Prod.fst).filter fun x => (o.chains x).isSome).length := by
    rw [List.filter_map, List.length_map]
    rfl
  have hsub : ((placed o.chains f.tree []).map Prod.fst).filter (fun x => (o.chains x).isSome) ⊆
      o.rewritten.map (·.site.path) := by
    intro x hx
    exact (isSome_chains h).mp (List.mem_filter.mp hx).2
  rw [hlen]
  constructor
  · intro heq r hr
    rw [← mem_parts_of_rewritten hm h (call_of_rewritten h hr).2.1]
    have hperm := (List.subperm_of_subset hparts hsub).perm_of_length_le (by rw [List.length_map]; omega)
    have hmem := hperm.mem_iff.mpr (List.mem_map_of_mem (f := fun r => r.site.path) hr)
    exact (List.mem_filter.mp hmem).1
  · intro hall
    have hsup : o.rewritten.map (·.site.path) ⊆
        ((placed o.chains f.tree []).map Prod.fst).filter fun x => (o.chains x).isSome := by
      intro x hx
      obtain ⟨r, hr, rfl⟩ := List.mem_map.mp hx
      refine List.mem_filter.mpr ⟨?_, (isSome_chains h).mpr hx⟩
      exact (mem_parts_of_rewritten hm h (call_of_rewritten h hr).2.1).mpr (hall r hr)
    have hperm := (List.perm_ext_iff_of_nodup hparts (nodup_paths_rewritten h)).mpr fun x => ⟨@hsub x, @hsup x⟩
    rw [hperm.length_eq, List.length_map]

theorem count_argument_iff {c : CallSite} (hc : c ∈ sitesOf s f) {a : Path × Argument}
    (ha : a ∈ c.call.argumentsAt c.path) :
    ((placed o.chains f.tree []).map Prod.fst).count a.1 = 1 ↔ ∀ r ∈ o.rewritten, ¬ InCallee c r.site := by
  obtain ⟨hat, hk⟩ := mem_sitesOf hc
  obtain ⟨ts, hts⟩ := exists_of_isKind hk
  have hvalue : f.tree.at? a.1 = some a.2.value := by
    rw [hts] at ha hat
    obtain ⟨i, j, us, hij, hi, hj⟩ := exists_of_mem_argumentsAt ha
    rw [hij, at?_cons, at?_cons, hat]
    show ((ts[i]?).bind fun u => u.children[j]?) = _
    rw [hi]
    exact hj
  have hdropped := dropped_argument_iff h hc ha
  have hmem := mem_parts_of_rewritten hm h hvalue
  have hcount : ((placed o.chains f.tree []).map Prod.fst).count a.1 = 1 ↔
      a.1 ∈ (placed o.chains f.tree []).map Prod.fst := by
    refine ⟨fun h1 => List.count_pos_iff.mp (by omega), fun hmem => ?_⟩
    exact List.count_eq_one_of_mem (nodup_parts_of_rewritten hm h) hmem
  rw [hcount, hmem, hdropped]
  exact ⟨fun hnone r hr hin => hnone ⟨r, hr, hin⟩, fun hall ⟨r, hr, hin⟩ => hall r hr hin⟩

/-- Chains and arguments are lost exactly with a call that has arguments and stands in what a rewritten call calls. -/
theorem nothingLost_iff : NothingLost s f o ↔
    ∀ c ∈ sitesOf s f, c.call.arguments ≠ [] → ∀ r ∈ o.rewritten, ¬ InCallee c r.site := by
  have hargument : ∀ c ∈ sitesOf s f, (∃ a, a ∈ c.call.argumentsAt c.path) ↔ c.call.arguments ≠ [] := by
    intro c hc
    rw [← List.length_pos_iff_exists_mem, length_argumentsAt_of_site hc, List.length_pos_iff]
  constructor
  · intro hlost c hc hne
    obtain ⟨a, ha⟩ := (hargument c hc).mpr hne
    exact (count_argument_iff hm h hc ha).mp (hlost.arguments c hc a ha)
  · intro hall
    refine ⟨(length_chains_iff hm h).mpr fun r hr => ?_, fun c hc a ha => ?_⟩
    · -- a rewritten call has arguments
      obtain ⟨hc, -, -, -, hlen⟩ := call_of_rewritten h hr
      rw [dropped_site_iff h]
      rintro ⟨r', hr', hin⟩
      refine hall r.site hc (fun hnil => ?_) r' hr' hin
      rw [hnil] at hlen
      cases hshape : r.classification.shape <;> rw [hshape] at hlen <;> cases hlen
    · exact (count_argument_iff hm h hc ha).mpr (hall c hc ((hargument c hc).mp ⟨a, ha⟩))

/-- The tree of a rewritten file is the migrated one. -/
theorem tree_of_rewriteCalls : o.file.tree = migrated s.mapping o.chains f.tree [] := by
  rw [(rewriteCalls_gives s f).value] at h
  obtain ⟨plans, skipped, hplans, ⟨-, rfl⟩ | ⟨spliced, hsplice, rfl⟩⟩ := rewriteResult_ok h
  · exact (migrated_none f.tree []).symm
  · refine tree_of_splice hm (fun q c hc => ?_) (planned_plans hplans).aimed hsplice chains_splicedOutcome
    obtain ⟨r, hr, -, rfl⟩ := exists_of_lookup_planKeys hc
    exact (call_of_plan hplans hr).2.2.1

/-- Every part that is placed is in the rewritten file where it is placed, migrated by itself, and no two parts are at
one place; one chain for every rewritten call and every argument of every collected call are among them exactly when no
call with arguments stands in what a rewritten call calls. -/
theorem rewriteCalls_nothingLost :
    (∀ e ∈ placed o.chains f.tree [], ∃ n, f.tree.at? e.1 = some n ∧
        o.file.tree.at? e.2 = some (migrated s.mapping o.chains n e.1)) ∧
      ((placed o.chains f.tree []).map Prod.snd).Nodup ∧
      (NothingLost s f o ↔
        ∀ c ∈ sitesOf s f, c.call.arguments ≠ [] → ∀ r ∈ o.rewritten, ¬ InCallee c r.site) := by
  refine ⟨fun e he => ?_, nodup_places (fun _ _ hc => slots_of_chains h hc) _ _, nothingLost_iff hm h⟩
  obtain ⟨r, n, hr, hn, hat⟩ := at?_of_mem_placed (fun _ _ hc => slots_of_chains h hc) he
  rw [List.append_nil] at hr
  rw [hr, tree_of_rewriteCalls hm h]
  exact ⟨n, hn, hr ▸ hat⟩

end Lost

/-! ### Two runs -/

/-- Whether a call with the paths `c` is in what the call with the paths `r` calls. -/
theorem inCallee_footprint {c r : CallSite} : InCallee c r ↔
    r.footprint.1 <:+ c.footprint.1 ∧ r.footprint.1 ≠ c.footprint.1 ∧ ∀ q ∈ r.footprint.2, ¬ q <:+ c.footprint.1 := by
  show _ ↔ r.path <:+ c.path ∧ r.path ≠ c.path ∧ ∀ q ∈ (r.call.argumentsAt r.path).map Prod.fst, ¬ q <:+ c.path
  rw [List.forall_mem_map]
  rfl

/-- Nothing is lost from `nestedText`, where one call is an argument of another. -/
theorem nothingLost_nestedText :
    ∃ f o, SourceFile.parse? nestedText = some f ∧ (rewriteCalls plainSetup f).value = .ok o ∧
      ((placed o.chains f.tree []).map Prod.snd).Nodup ∧ NothingLost plainSetup f o := by
  obtain ⟨f, o, hf, ho, hsites, hrewritten, -⟩ := of_summary summary_nestedText
  obtain ⟨-, hplaces, hiff⟩ := rewriteCalls_nothingLost Mapping.accepted_standard ho
  refine ⟨f, o, hf, ho, hplaces, hiff.mpr fun c hc _ r hr hin => ?_⟩
  have hc' := List.mem_map_of_mem (f := CallSite.footprint) hc
  have hr' := List.mem_map_of_mem (f := fun r : Rewritten => r.site.footprint) hr
  rw [hsites] at hc'
  rw [hrewritten] at hr'
  generalize r.site = r at hr' hin
  rw [inCallee_footprint] at hin
  revert hin
  generalize c.footprint = a at hc' ⊢
  generalize r.footprint = b at hr' ⊢
  revert a b
  decide

/-- A text with a call that is what another call calls. -/
def calleeText : String := "from junit.Assertions import assertEquals\nassertEquals(1, 2)(3, 4)\n"

set_option maxRecDepth 100000 in
theorem summary_calleeText : summary plainSetup calleeText = some
    { sites := [([0, 1], [[0, 2, 0, 1], [0, 5, 0, 1]]), ([0, 0, 1], [[0, 2, 0, 0, 1], [0, 5, 0, 0, 1]])]
      rewritten := [([0, 1], [[0, 2, 0, 1], [0, 5, 0, 1]]), ([0, 0, 1], [[0, 2, 0, 0, 1], [0, 5, 0, 0, 1]])]
      code := "from junit.Assertions import assertEquals\nassertThat(4).isEqualTo(3)\n" } := by
  rw [summary_direct (s := plainSetup) Mapping.accepted_standard chainNames_standard]
  decide +kernel

/-- Both calls of `calleeText` are rewritten, but only one chain is there, and the arguments of the other are lost. -/
theorem lost_calleeText :
    ∃ f o, SourceFile.parse? calleeText = some f ∧ (rewriteCalls plainSetup f).value = .ok o ∧ o.rewritten.length = 2 ∧
      o.file.code = "from junit.Assertions import assertEquals\nassertThat(4).isEqualTo(3)\n" ∧
      ¬ NothingLost plainSetup f o := by
  obtain ⟨f, o, hf, ho, hsites, hrewritten, hcode⟩ := of_summary summary_calleeText
  refine ⟨f, o, hf, ho, ?_, hcode, fun hlost => ?_⟩
  · rw [← List.length_map fun r : Rewritten => r.site.footprint, hrewritten]
    rfl
  · have hinner : ([0, 0, 1], [[0, 2, 0, 0, 1], [0, 5, 0, 0, 1]]) ∈ (sitesOf plainSetup f).map (·.footprint) := by
      rw [hsites]
      decide
    have houter : ([0, 1], [[0, 2, 0, 1], [0, 5, 0, 1]]) ∈ o.rewritten.map (·.site.footprint) := by
      rw [hrewritten]
      decide
    obtain ⟨c, hc, hcpaths⟩ := List.mem_map.mp hinner
    obtain ⟨r, hr, hrpaths⟩ := List.mem_map.mp houter
    refine (nothingLost_iff Mapping.accepted_standard ho).mp hlost c hc (fun hnil => ?_) r hr ?_
    · have hlen := congrArg (fun q => List.length q.2) hcpaths
      simp only [CallSite.footprint, List.length_map, length_argumentsAt_of_site hc, hnil] at hlen
      cases hlen
    · rw [inCallee_footprint, hcpaths, hrpaths]
      decide

end FluentShift.Rewrite
