import FluentShift.Source.View
import Mathlib.Data.List.Forall2
import Mathlib.Data.List.Nodup

/-!
# FluentShift.Proofs.Source.Paths - nodes and the paths that lead to them

A path determines a node (`Tree.at?`), and `nodesOf` lists every node of a kind once, with its path.  Every analysis is
a `Tree.para`, so `Tree.induct` and the equations of `paraAll` are all that an induction over a tree needs.
-/

namespace FluentShift.Source

/-! ### Induction over a tree -/

namespace Tree

/-- Induction over a tree: a node may use the property of all its children. -/
theorem induct {P : Tree → Prop} (leaf : ∀ l, P (.leaf l))
    (node : ∀ k ts, (∀ t ∈ ts, P t) → P (.node k ts)) (t : Tree) : P t :=
  @Tree.rec P (fun ts => ∀ t ∈ ts, P t) leaf node
    (by simp) (fun t ts ht hts => by simpa using ⟨ht, hts⟩) t

section Para

variable {α : Type} (leaf : Leaf → α) (node : Kind → List (Tree × α) → α)

theorem paraAll_eq_map (ts : List Tree) : paraAll leaf node ts = ts.map fun t => (t, t.para leaf node) := by
  induction ts with
  | nil => rfl
  | cons t ts ih => rw [paraAll, ih]; rfl

theorem para_leaf (l : Leaf) : (Tree.leaf l).para leaf node = leaf l := rfl

theorem para_node (k : Kind) (ts : List Tree) :
    (Tree.node k ts).para leaf node = node k (ts.map fun t => (t, t.para leaf node)) := by
  rw [para, paraAll_eq_map]

end Para

theorem textAll_eq_flatMap (ts : List Tree) : (textAll ts).toList = ts.flatMap fun t => t.text.toList := by
  induction ts with
  | nil => rfl
  | cons t ts ih => rw [textAll_cons, String.toList_append, ih, List.flatMap_cons]

theorem leavesAll_eq_flatMap (ts : List Tree) : leavesAll ts = ts.flatMap leaves := by
  induction ts with
  | nil => rfl
  | cons t ts ih => rw [leavesAll, ih, List.flatMap_cons]

theorem isKind_node {k k' : Kind} {ts : List Tree} : (Tree.node k ts).isKind k' = true ↔ k = k' := by
  simp [isKind, kind?]

/-- A tree of some kind is a node. -/
theorem exists_of_isKind {t : Tree} {k : Kind} (h : t.isKind k = true) : ∃ ts, t = .node k ts := by
  cases t with
  | leaf l => simp [isKind, kind?] at h
  | node k' ts => exact ⟨ts, by rw [isKind_node.mp h]⟩

/-- Only parentheses are taken off. -/
theorem unparen_node {k : Kind} (hk : k ≠ .paren) (ts : List Tree) : (Tree.node k ts).unparen = .node k ts := by
  have hmap : (ts.map fun t => (t, t.unparen)).map Prod.fst = ts := by
    rw [List.map_map]
    exact List.map_id ts
  unfold unparen
  rw [para_node]
  cases k <;> first
    | exact absurd rfl hk
    | exact congrArg (Tree.node _) hmap

/-- Parentheses around one expression are taken off, empty ones stay. -/
theorem unparen_paren (ts : List Tree) :
    (Tree.node .paren ts).unparen = match ts.filter (!·.isTrivia) with
      | [_, e, _] => e.unparen
      | _ => .node .paren ts := by
  have hmap : (ts.map fun t => (t, t.unparen)).map Prod.fst = ts := by
    rw [List.map_map]
    exact List.map_id ts
  have hparts : (ts.map fun t => (t, t.unparen)).filter (fun t => !t.1.isTrivia) =
      (ts.filter (!·.isTrivia)).map fun t => (t, t.unparen) := by
    rw [List.filter_map]
    rfl
  unfold unparen at hmap hparts ⊢
  rw [para_node]
  simp only [hparts, hmap]
  generalize ts.filter (!·.isTrivia) = us
  match us with
  | [] => rfl
  | [_] => rfl
  | [_, _] => rfl
  | [_, _, _] => rfl
  | _ :: _ :: _ :: _ :: _ => rfl

/-! ### Children and their paths -/

section Locate

variable {α β : Type} {p q : Path}

theorem mem_locate {xs : List α} {c : Path × α} :
    c ∈ locate p xs ↔ ∃ i, c.1 = i :: p ∧ xs[i]? = some c.2 := by
  obtain ⟨q, x⟩ := c
  simp only [locate, List.mem_map, Prod.exists, List.mem_zipIdx_iff_getElem?, Prod.mk.injEq]
  constructor
  · rintro ⟨y, i, hy, rfl, rfl⟩
    exact ⟨i, rfl, hy⟩
  · rintro ⟨i, rfl, hi⟩
    exact ⟨x, i, hi, rfl, rfl⟩

theorem getElem?_locate (p : Path) (xs : List α) (i : Nat) : (locate p xs)[i]? = xs[i]?.map fun x => (i :: p, x) := by
  simp only [locate, List.getElem?_map, List.getElem?_zipIdx, Option.map_map, Nat.zero_add]
  rfl

theorem locate_map (f : α → β) (p : Path) (xs : List α) :
    locate p (xs.map f) = (locate p xs).map fun c => (c.1, f c.2) := by
  simp only [locate, List.zipIdx_map, List.map_map]
  rfl

theorem locate_append (r p : Path) (xs : List α) : locate (r ++ p) xs = (locate r xs).map fun c => (c.1 ++ p, c.2) := by
  simp only [locate, List.map_map]
  rfl

theorem map_snd_locate (p : Path) (xs : List α) : (locate p xs).map Prod.snd = xs := by
  simp only [locate, List.map_map]
  show (xs.zipIdx.map Prod.fst) = xs
  exact List.zipIdx_map_fst 0 xs

theorem mem_of_mem_locate {xs : List α} {c : Path × α} (h : c ∈ locate p xs) : c.2 ∈ xs := by
  obtain ⟨i, -, hi⟩ := mem_locate.mp h
  exact List.mem_of_getElem? hi

/-- The paths of children differ in their first step. -/
theorem nodup_map_fst_locate (p : Path) (xs : List α) : ((locate p xs).map Prod.fst).Nodup := by
  have h : (locate p xs).map Prod.fst = (xs.zipIdx.map Prod.snd).map (· :: p) := by
    simp only [locate, List.map_map]
    rfl
  rw [h, List.zipIdx_map_snd]
  exact (List.nodup_range' 1).map fun i j hij => (List.cons.inj hij).1

end Locate

/-! ### The node at a path -/

/-- The tree at a path, if there is one. -/
def at? (t : Tree) : Path → Option Tree
  | [] => some t
  | i :: p => (t.at? p).bind fun u => u.children[i]?

@[simp] theorem at?_nil (t : Tree) : t.at? [] = some t := rfl

theorem at?_cons (t : Tree) (i : Nat) (p : Path) :
    t.at? (i :: p) = (t.at? p).bind fun u => u.children[i]? := rfl

theorem at?_append (t : Tree) (r p : Path) : t.at? (r ++ p) = (t.at? p).bind fun u => u.at? r := by
  induction r with
  | nil =>
    rw [List.nil_append]
    cases t.at? p <;> rfl
  | cons i r ih =>
    rw [List.cons_append, at?_cons, ih]
    cases t.at? p <;> rfl

theorem at?_node_concat (k : Kind) (ts : List Tree) (r : Path) (i : Nat) :
    (Tree.node k ts).at? (r ++ [i]) = ts[i]?.bind fun t => t.at? r := by
  rw [at?_append]
  rfl

end Tree

/-! ### Paths below a path -/

namespace Path

/-- Two children of one node have no node in common. -/
theorem eq_of_suffix {i j : Nat} {p q : Path} (hi : i :: p <:+ q) (hj : j :: p <:+ q) : i = j := by
  have h := List.suffix_of_suffix_length_le hi hj (by simp)
  have h := h.eq_of_length (by simp)
  exact (List.cons.inj h).1

theorem not_cons_suffix_self (i : Nat) (p : Path) : ¬ i :: p <:+ p := by
  intro h
  have := h.length_le
  rw [List.length_cons] at this
  omega

/-- What is below a child is below the node, and is not the node. -/
theorem suffix_of_cons {i : Nat} {p q : Path} (h : i :: p <:+ q) : p <:+ q ∧ q ≠ p := by
  refine ⟨(List.suffix_cons i p).trans h, ?_⟩
  rintro rfl
  exact not_cons_suffix_self i q h

end Path

namespace Tree

/-! ### The nodes of a tree -/

/-- The wanted nodes of a tree that stands at a path. -/
def nodesFrom (wanted : Kind → Bool) (t : Tree) : Path → List (Path × Tree) :=
  let leaf : Leaf → Path → List (Path × Tree) := fun _ _ => []
  let node : Kind → List (Tree × (Path → List (Path × Tree))) → Path → List (Path × Tree) := fun k ts p =>
    (if wanted k then [(p, .node k (ts.map (·.1)))] else []) ++
      (locate p ts).flatMap fun c => c.2.2 c.1
  t.para leaf node

theorem nodesWhere_eq (wanted : Kind → Bool) (t : Tree) : t.nodesWhere wanted = t.nodesFrom wanted [] := rfl

theorem nodesFrom_leaf (wanted : Kind → Bool) (l : Leaf) (p : Path) : (Tree.leaf l).nodesFrom wanted p = [] := rfl

theorem nodesFrom_node (wanted : Kind → Bool) (k : Kind) (ts : List Tree) (p : Path) :
    (Tree.node k ts).nodesFrom wanted p =
      (if wanted k then [(p, .node k ts)] else []) ++ (locate p ts).flatMap fun c => c.2.nodesFrom wanted c.1 := by
  rw [nodesFrom, para_node]
  show _ ++ _ = _
  rw [locate_map, List.flatMap_map, List.map_map]
  show (if wanted k then [(p, Tree.node k (ts.map id))] else []) ++ _ = _
  rw [List.map_id]
  rfl

/-- Below a longer path, the nodes of a tree have longer paths. -/
theorem nodesFrom_append (wanted : Kind → Bool) (t : Tree) (r p : Path) :
    t.nodesFrom wanted (r ++ p) = (t.nodesFrom wanted r).map fun c => (c.1 ++ p, c.2) := by
  induction t using induct generalizing r with
  | leaf l => rfl
  | node k ts ih =>
    rw [nodesFrom_node, nodesFrom_node, List.map_append, locate_append, List.flatMap_map, List.map_flatMap]
    congr 1
    · split <;> rfl
    · exact List.flatMap_congr fun c hc => ih c.2 (mem_of_mem_locate hc) c.1

theorem at?_leaf_cons (l : Leaf) (i : Nat) (r : Path) : (Tree.leaf l).at? (i :: r) = none := by
  induction r generalizing i with
  | nil => rfl
  | cons j r ih => rw [at?_cons, ih]; rfl

/-- The wanted nodes are those that some path leads to. -/
theorem mem_nodesFrom {wanted : Kind → Bool} {t : Tree} {p : Path} {c : Path × Tree} :
    c ∈ t.nodesFrom wanted p ↔ ∃ r, c.1 = r ++ p ∧ t.at? r = some c.2 ∧ ∃ k, c.2.kind? = some k ∧ wanted k = true := by
  obtain ⟨q, n⟩ := c
  show _ ↔ ∃ r, q = r ++ p ∧ t.at? r = some n ∧ ∃ k, n.kind? = some k ∧ wanted k = true
  induction t using induct generalizing p with
  | leaf l =>
    rw [nodesFrom_leaf]
    refine ⟨fun h => (List.not_mem_nil h).elim, ?_⟩
    rintro ⟨r, -, hr, k, hk, -⟩
    cases r with
    | nil => cases hr; cases hk
    | cons i r => rw [at?_leaf_cons] at hr; cases hr
  | node k ts ih =>
    rw [nodesFrom_node, List.mem_append, List.mem_flatMap]
    constructor
    · rintro (h | ⟨c, hc, h⟩)
      · -- the node itself
        split at h
        · rename_i hw
          cases List.mem_singleton.mp h
          exact ⟨[], rfl, rfl, k, rfl, hw⟩
        · cases h
      · -- a node inside a child
        obtain ⟨i, hi, hci⟩ := mem_locate.mp hc
        obtain ⟨r, hq, hr, hk⟩ := (ih c.2 (mem_of_mem_locate hc)).mp h
        refine ⟨r ++ [i], ?_, ?_, hk⟩
        · rw [hq, hi, List.append_assoc]
          rfl
        · rw [at?_node_concat, hci]
          exact hr
    · rintro ⟨r, rfl, hr, k', hk, hw⟩
      rcases List.eq_nil_or_concat' r with rfl | ⟨r, i, rfl⟩
      · left
        cases hr
        cases hk
        rw [if_pos hw]
        exact List.mem_singleton.mpr rfl
      · right
        rw [at?_node_concat] at hr
        cases hi : ts[i]? with
        | none => rw [hi] at hr; cases hr
        | some u =>
          rw [hi] at hr
          have hc : (i :: p, u) ∈ locate p ts := mem_locate.mpr ⟨i, rfl, hi⟩
          refine ⟨(i :: p, u), hc, ?_⟩
          refine (ih u (mem_of_mem_locate hc)).mpr ⟨r, ?_, hr, k', hk, hw⟩
          rw [List.append_assoc]
          rfl

/-- The nodes of a tree stand at the path of the tree or below it. -/
theorem suffix_of_mem_nodesFrom {wanted : Kind → Bool} {t : Tree} {p : Path} {c : Path × Tree}
    (h : c ∈ t.nodesFrom wanted p) : p <:+ c.1 := by
  obtain ⟨r, hr, -⟩ := mem_nodesFrom.mp h
  exact ⟨r, hr.symm⟩

/-- Children share no path with one another. -/
theorem pairwise_locate {α : Type} (p : Path) (xs : List α) :
    (locate p xs).Pairwise fun c d => ∀ q, c.1 <:+ q → ¬ d.1 <:+ q := by
  refine List.Pairwise.imp_of_mem ?_ (List.pairwise_map.mp (nodup_map_fst_locate p xs))
  intro c d hc hd hne q hcq hdq
  obtain ⟨i, hi, -⟩ := mem_locate.mp hc
  obtain ⟨j, hj, -⟩ := mem_locate.mp hd
  rw [hi] at hcq
  rw [hj] at hdq
  exact hne (by rw [hi, hj, Path.eq_of_suffix hcq hdq])

/-- No node is listed twice. -/
theorem nodup_nodesFrom (wanted : Kind → Bool) (t : Tree) (p : Path) :
    ((t.nodesFrom wanted p).map Prod.fst).Nodup := by
  induction t using induct generalizing p with
  | leaf l => exact List.nodup_nil
  | node k ts ih =>
    have below : ∀ c ∈ locate p ts, ∀ q ∈ (c.2.nodesFrom wanted c.1).map Prod.fst, c.1 <:+ q := by
      intro c _ q hq
      obtain ⟨n, hn, rfl⟩ := List.mem_map.mp hq
      exact suffix_of_mem_nodesFrom hn
    rw [nodesFrom_node, List.map_append, List.map_flatMap, List.nodup_append]
    refine ⟨by split <;> simp, List.nodup_flatMap.mpr ⟨fun c hc => ih c.2 (mem_of_mem_locate hc) c.1, ?_⟩, ?_⟩
    · refine List.Pairwise.imp_of_mem ?_ (pairwise_locate p ts)
      intro c d hc hd hcd q hqc hqd
      exact hcd q (below c hc q hqc) (below d hd q hqd)
    · intro q hq q' hq' heq
      subst heq
      obtain ⟨c, hc, hqc⟩ := List.mem_flatMap.mp hq'
      obtain ⟨i, hi, -⟩ := mem_locate.mp hc
      have hlt := below c hc q hqc
      rw [hi] at hlt
      split at hq
      · rw [List.mem_map] at hq
        obtain ⟨n, hn, rfl⟩ := hq
        cases List.mem_singleton.mp hn
        exact Path.not_cons_suffix_self i p hlt
      · cases hq

/-- The node that a path leads to from the root is the only one there. -/
theorem eq_of_mem_nodesFrom {wanted : Kind → Bool} {t n u : Tree} {q : Path} (h : (q, n) ∈ t.nodesFrom wanted [])
    (hu : t.at? q = some u) : n = u := by
  obtain ⟨r, hr, hat, -⟩ := mem_nodesFrom.mp h
  rw [List.append_nil] at hr
  cases hr
  rw [hat] at hu
  exact Option.some.inj hu

/-- The nodes of a kind are the nodes of that kind that some path leads to. -/
theorem mem_nodesOf {k : Kind} {t : Tree} {c : Path × Tree} :
    c ∈ t.nodesOf k ↔ t.at? c.1 = some c.2 ∧ c.2.isKind k = true := by
  rw [nodesOf, nodesWhere_eq, mem_nodesFrom]
  constructor
  · rintro ⟨r, hr, hat, k', hk, hw⟩
    rw [List.append_nil] at hr
    rw [hr]
    exact ⟨hat, by simpa [isKind, hk] using hw⟩
  · rintro ⟨hat, hk⟩
    obtain ⟨ts, hts⟩ := exists_of_isKind hk
    exact ⟨c.1, (List.append_nil _).symm, hat, k, by rw [hts]; rfl, by simp⟩

end Tree

end FluentShift.Source
