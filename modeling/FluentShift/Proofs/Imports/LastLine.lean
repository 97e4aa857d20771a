import FluentShift.Proofs.Imports.Pruning
import FluentShift.Proofs.Scope.Bound

/-!
# FluentShift.Proofs.Imports.LastLine - ending the last line of a file

Imports come and go in the tree with its last line ended.  Ending that line changes no name, no import and no scope
(`closedTree_spec`), and leaving it open again takes no import away (`takenIn_withClosedTree`).
-/

namespace FluentShift.Source

open FluentShift.Source.Tree

/-! ### The last leaf -/

/-- A tree that ends with a leaf: it is the leaf, or its last child ends with the leaf. -/
inductive EndsWith (l : Leaf) : Tree → Prop where
  | leaf : EndsWith l (.leaf l)
  | node {k : Kind} {ts : List Tree} {t : Tree} : EndsWith l t → EndsWith l (.node k (ts ++ [t]))

theorem mapLast_leaf (f : Leaf → Leaf) (l : Leaf) : (Tree.leaf l).mapLast f = .leaf (f l) := rfl

theorem mapLast_node (f : Leaf → Leaf) (k : Kind) (ts : List Tree) (t : Tree) :
    (Tree.node k (ts ++ [t])).mapLast f = .node k (ts ++ [t.mapLast f]) := by
  have hfst : ts.map ((Prod.fst ∘ fun t => (t, t.mapLast f))) = ts := List.map_id ts
  refine (para_node _ _ k (ts ++ [t])).trans ?_
  rw [List.map_append, List.map_singleton]
  rw [List.getLast?_concat, List.dropLast_concat, List.map_map]
  exact congrArg (fun us => Tree.node k (us ++ _)) hfst

theorem leaves_concat (k : Kind) (ts : List Tree) (t : Tree) :
    (Tree.node k (ts ++ [t])).leaves = leavesAll ts ++ t.leaves := by
  show leavesAll (ts ++ [t]) = _
  induction ts with
  | nil => exact List.append_nil _
  | cons u ts ih => rw [List.cons_append, leavesAll, ih, leavesAll, List.append_assoc]

/-- A tree ends with its last leaf, unless no leaf can be reached at its end. -/
theorem endsWith_or_fixed (t : Tree) :
    (∃ l, t.leaves.getLast? = some l ∧ EndsWith l t) ∨ ∀ f, t.mapLast f = t := by
  induction t using induct with
  | leaf l => exact .inl ⟨l, rfl, .leaf⟩
  | node k ts ih =>
    rcases List.eq_nil_or_concat' ts with rfl | ⟨us, u, rfl⟩
    · exact .inr fun f => rfl
    · rcases ih u (List.mem_append_right _ (List.mem_singleton_self u)) with ⟨l, hlast, hends⟩ | hfixed
      · refine .inl ⟨l, ?_, .node hends⟩
        rw [leaves_concat, List.getLast?_append, hlast]
        rfl
      · exact .inr fun f => by rw [mapLast_node, hfixed]

variable {l : Leaf} {f : Leaf → Leaf} {t u : Tree}

/-- A change that leaves the last leaf alone changes nothing. -/
theorem EndsWith.mapLast_eq_self (h : EndsWith l t) (hf : f l = l) : t.mapLast f = t := by
  induction h with
  | leaf => rw [mapLast_leaf, hf]
  | node _ ih => rw [mapLast_node, ih]

/-! ### Trees that differ in the end of their last line -/

/-- Two trees made of statements are alike up to the text that ends the last line. -/
inductive Relined : Tree → Tree → Prop where
  | endOfLine (s s' : String) : Relined (.leaf ⟨.endOfLine, s⟩) (.leaf ⟨.endOfLine, s'⟩)
  | node {k : Kind} {ts : List Tree} {t u : Tree} : isLoose k = true → Relined t u →
      Relined (.node k (ts ++ [t])) (.node k (ts ++ [u]))

theorem Mild.not_endsWith {pure : Bool} (h : EndsWith l t) (ht : Mild pure t) : l.kind ≠ .endOfLine := by
  induction h with
  | leaf =>
    cases ht with
    | leaf hl => exact hl
  | node _ ih => exact ih (ht.child (List.mem_append_right _ (List.mem_singleton_self _)))

theorem EndsWith.relined (h : EndsWith l t) (hl : l.kind = .endOfLine) (hf : (f l).kind = l.kind)
    (ht : Imports.Endless t) : Relined t (t.mapLast f) := by
  induction h with
  | leaf =>
    obtain ⟨k, s⟩ := l
    obtain rfl : k = .endOfLine := hl
    obtain ⟨s', hs'⟩ : ∃ s', f ⟨.endOfLine, s⟩ = ⟨.endOfLine, s'⟩ := ⟨_, congrArg (Leaf.mk · _) hf⟩
    rw [mapLast_leaf, hs']
    exact .endOfLine s s'
  | @node k ts t hends ih =>
    have hmem : t ∈ ts ++ [t] := List.mem_append_right _ (List.mem_singleton_self t)
    rw [mapLast_node]
    refine .node ?_ (ih (ht.child hmem))
    by_contra hk
    exact Mild.not_endsWith hends (ht.self (Bool.eq_false_iff.mpr hk) t hmem) hl

theorem locate_concat {α : Type} (p : Path) (xs : List α) (x : α) :
    locate p (xs ++ [x]) = locate p xs ++ [(xs.length :: p, x)] := by
  simp only [locate, List.zipIdx_append, List.map_append, Nat.zero_add]
  rfl

namespace Relined

/-- The same nodes are in both, but for those made of statements. -/
theorem nodesFrom (h : Relined t u) {wanted : Kind → Bool} (hw : ∀ k, isLoose k = true → wanted k = false) (p : Path) :
    u.nodesFrom wanted p = t.nodesFrom wanted p := by
  induction h generalizing p with
  | endOfLine => rfl
  | node hk _ ih =>
    rw [nodesFrom_node, nodesFrom_node, hw _ hk, locate_concat, locate_concat, List.flatMap_append, List.flatMap_append,
      List.flatMap_singleton, List.flatMap_singleton, ih]
    rfl

theorem isLined (h : Relined t u) : u.isLined = t.isLined := by
  cases h <;> rfl

theorem formed (h : Relined t u) (ht : t.Formed) : u.Formed := by
  induction h with
  | endOfLine => exact .leaf trivial
  | @node k ts t u hk htu ih =>
    refine .node (shaped_loose hk fun hcompound v hv => ?_) fun v hv => ?_
    · rcases List.mem_append.mp hv with hv | hv
      · exact ht.self.flat hcompound v (List.mem_append_left _ hv)
      · rw [List.mem_singleton.mp hv, htu.isLined]
        exact ht.self.flat hcompound t (List.mem_append_right _ (List.mem_singleton_self _))
    rcases List.mem_append.mp hv with hv | hv
    · exact ht.child (List.mem_append_left _ hv)
    · rw [List.mem_singleton.mp hv]
      exact ih (ht.child (List.mem_append_right _ (List.mem_singleton_self _)))

end Relined

end FluentShift.Source

namespace FluentShift.Scope

open FluentShift.Source FluentShift.Source.Tree

/-! ### What a walk through statements looks at -/

/-- A tree without what a walk through the statement around it looks past: the insides of a node, and the text that ends
a line. -/
def face : Tree → Tree
  | .leaf l => .leaf (if l.kind = .endOfLine then ⟨.endOfLine, ""⟩ else l)
  | .node k _ => .node k []

/-- A child of which only the face is seen. -/
def Child.face (c : Child) : Child := { c with tree := Scope.face c.tree }

section Faces

variable (t : Tree) (cs : List Child)

theorem isTrivia_face : (face t).isTrivia = t.isTrivia := by
  cases t with
  | leaf l =>
    rw [face]
    split
    · next h => exact (congrArg LeafKind.isTrivia h).symm
    · rfl
  | node k ts => rfl

theorem isKind_face (k : Kind) : (face t).isKind k = t.isKind k := by cases t <;> rfl

theorem isMark_face (s : String) : (face t).isMark s = t.isMark s := by
  cases t with
  | leaf l =>
    rw [face]
    split
    · next h => simp [isMark, h]
    · rfl
  | node k ts => rfl

theorem name?_face : (face t).name? = t.name? := by
  cases t with
  | leaf l =>
    rw [face]
    split
    · next h => simp [name?, h]
    · rfl
  | node k ts => rfl

theorem goAll_face (h : Here) : goAll (cs.map Child.face) h = goAll cs h := by
  exact List.forM_map

theorem filter_face {f : Tree → Bool} (hf : ∀ t, f (face t) = f t) :
    (cs.map Child.face).filter (fun c => f c.tree) = (cs.filter fun c => f c.tree).map Child.face := by
  rw [List.filter_map]
  exact congrArg _ (List.filter_congr fun c _ => hf c.tree)

theorem takeWhile_face {f : Tree → Bool} (hf : ∀ t, f (face t) = f t) :
    (cs.map Child.face).takeWhile (fun c => f c.tree) = (cs.takeWhile fun c => f c.tree).map Child.face := by
  rw [List.takeWhile_map]
  exact congrArg (fun f => (cs.takeWhile f).map _) (funext fun c => hf c.tree)

theorem ofKind_face (k : Kind) : ofKind k (cs.map Child.face) = (ofKind k cs).map Child.face :=
  filter_face cs fun t => isKind_face t k

theorem name_face :
    ((cs.map Child.face).find? (·.tree.name?.isSome)).bind (·.tree.name?) =
      (cs.find? (·.tree.name?.isSome)).bind (·.tree.name?) := by
  have hsome : ((fun c : Child => c.tree.name?.isSome) ∘ Child.face) = fun c => c.tree.name?.isSome :=
    funext fun c => congrArg Option.isSome (name?_face c.tree)
  rw [List.find?_map, hsome, Option.bind_map]
  exact congrArg _ (funext fun c => name?_face c.tree)

end Faces

theorem walkFunction_face (cs : List Child) (h : Here) : walkFunction (cs.map Child.face) h = walkFunction cs h := by
  have hbody := filter_face cs (f := fun t => t.isKind .block || t.isKind .suite) fun t => by
    rw [isKind_face, isKind_face]
  simp only [walkFunction, name_face, ofKind_face, hbody, goAll_face, List.isEmpty_map]

theorem walkClass_face (cs : List Child) (h : Here) : walkClass (cs.map Child.face) h = walkClass cs h := by
  have hbody := filter_face cs (f := fun t => t.isKind .block || t.isKind .suite) fun t => by
    rw [isKind_face, isKind_face]
  simp only [walkClass, name_face, ofKind_face, hbody, goAll_face, List.isEmpty_map]

theorem forParts_face (cs : List Child) :
    forParts (cs.map Child.face) =
      ((forParts cs).1.map Child.face, (forParts cs).2.1.map Child.face, (forParts cs).2.2.map Child.face) := by
  have hmarks := filter_face cs (f := fun t => !t.isMark "async" && !t.isMark "for") fun t => by
    rw [isMark_face, isMark_face]
  have htarget := takeWhile_face (cs.filter fun c => !c.tree.isMark "async" && !c.tree.isMark "for")
    (f := (!·.isMark "in")) fun t => by rw [isMark_face]
  simp only [forParts, hmarks, htarget, List.length_map, List.map_drop, List.map_take]

/-- A walk through a node made of statements sees only the faces of the children. -/
theorem walkNode_face (os : String → Here → StateM Table Unit) {k : Kind} (hk : isLoose k = true) (ts : List (Tree × Walk)) :
    walkNode os k (ts.map fun c => (face c.1, c.2)) = walkNode os k ts := by
  have hcs : ∀ p, (((locate p (ts.map fun c => (face c.1, c.2))).filter fun c => !c.2.1.isTrivia).map
      fun c => (⟨c.1, c.2.1, c.2.2⟩ : Child)) =
        (((locate p ts).filter fun c => !c.2.1.isTrivia).map fun c => (⟨c.1, c.2.1, c.2.2⟩ : Child)).map Child.face := by
    intro p
    rw [locate_map, List.filter_map, List.map_map, List.map_map]
    refine congrArg _ (List.filter_congr fun c _ => ?_)
    exact congrArg (!·) (isTrivia_face c.2.1)
  funext p h
  unfold walkNode
  rw [hcs]
  generalize (((locate p ts).filter fun c => !c.2.1.isTrivia).map fun c => (⟨c.1, c.2.1, c.2.2⟩ : Child)) = cs
  cases k
  case funcDef => simp only [walkFunction_face]
  case classDef => simp only [walkClass_face]
  case forStmt => simp only [forParts_face, goAll_face]
  case handler =>
    have hbefore := takeWhile_face cs (f := (!·.isMark "as")) fun t => by rw [isMark_face]
    have hnames := fun cs => filter_face cs (f := fun t => t.name?.isSome) fun t => by rw [name?_face]
    have hothers := fun cs => filter_face cs (f := fun t => !t.name?.isSome) fun t => by rw [name?_face]
    simp only [hbefore, List.length_map, ← List.map_drop, hnames, hothers, goAll_face]
  all_goals first
    | contradiction
    | simp only [goAll_face]

/-! ### Two walks over trees that differ in the end of their last line -/

theorem walk_relined (os : String → Here → StateM Table Unit) {t u : Tree} (h : Relined t u) :
    t.para (walkLeaf os) (walkNode os) = u.para (walkLeaf os) (walkNode os) := by
  have hface : ∀ {t u}, Relined t u → face t = face u := by
    intro t u h
    cases h <;> rfl
  induction h with
  | endOfLine s s' => rfl
  | @node k ts t u hk htu ih =>
    rw [para_node, para_node, List.map_append, List.map_append, List.map_singleton, List.map_singleton,
      ← walkNode_face os hk, ← walkNode_face os hk (_ ++ [_]), List.map_append, List.map_append, List.map_singleton,
      List.map_singleton, hface htu, ih]

/-- A walk that reads strings deeper finds the same. -/
theorem ofModule_eq {t : Tree} {d : Nat} (hd : t.text.length ≤ d) :
    Table.ofModule t = ((t.para (walkLeaf (walkString d)) (walkNode (walkString d)) [] .start).run .empty).2 := by
  have hkeep := mirrors_walk (steady_allowed fun _ _ => True) (.inr ⟨Nat.le_refl _, hd⟩) [] [] .start
    .start (.inr rfl) ⟨none, rfl, .none⟩ fun _ _ _ => trivial
  exact (hkeep .empty .empty ⟨rfl, fun _ _ => trivial⟩).1.1

/-- Two trees that are walked alike have the same table. -/
theorem ofModule_congr {t u : Tree}
    (h : ∀ os, t.para (walkLeaf os) (walkNode os) = u.para (walkLeaf os) (walkNode os)) :
    Table.ofModule t = Table.ofModule u := by
  rw [ofModule_eq (d := t.text.length + u.text.length) (by omega), h, ← ofModule_eq (by omega)]

end FluentShift.Scope

namespace FluentShift.Imports

open FluentShift.Source FluentShift.Source.Tree FluentShift.Scope

/-! ### The tree with its last line ended -/

/-- Two trees with the same expressions and simple statements at the same places, and the same scopes. -/
structure SameCode (t u : Source.Tree) : Prop where
  nodes : ∀ wanted : Kind → Bool, (∀ k, isLoose k = true → wanted k = false) → u.nodesWhere wanted = t.nodesWhere wanted
  table : Table.ofModule u = Table.ofModule t

theorem SameCode.importStatements {t u : Source.Tree} (h : SameCode t u) : importStatements u = importStatements t := by
  unfold Imports.importStatements
  rw [h.nodes _ fun k hk => by cases k <;> first | rfl | cases hk]

theorem SameCode.exportedNames {t u : Source.Tree} (h : SameCode t u) : exportedNames u = exportedNames t := by
  unfold Imports.exportedNames
  rw [h.nodes _ fun k hk => by cases k <;> first | rfl | cases hk]

theorem SameCode.takenIn {t u : Source.Tree} (h : SameCode t u) : Imports.takenIn u = Imports.takenIn t := by
  rw [Imports.takenIn, Imports.takenIn, importsIn, importsIn, ← importStatements_eq, h.importStatements, importStatements_eq]

/-- How the last line of a file is ended: it is already, no leaf can be reached at its end, its end gets the text of a line
break, or a line break is put after it. -/
inductive Closing (f : SourceFile) : Source.Tree → Prop where
  | ended : f.ended = true → Closing f f.tree
  | fixed : f.ended = false → (∀ g, f.tree.mapLast g = f.tree) → Closing f f.tree
  | endOfLine {l : Leaf} : f.ended = false → EndsWith l f.tree → l.kind = .endOfLine → l.text = "" →
      Closing f (f.tree.mapLast fun l => { l with text := f.lineBreak })
  | lineBreak {k : Kind} {ts : List Source.Tree} : f.ended = false → f.tree = .node k ts →
      Closing f (.node k (ts ++ [.leaf ⟨.lineBreak, f.lineBreak⟩]))

theorem closing_closedTree {f : SourceFile} {k : Kind} {ts : List Source.Tree} (hts : f.tree = .node k ts) :
    Closing f f.closedTree := by
  unfold SourceFile.closedTree
  cases hended : f.ended with
  | true => exact .ended hended
  | false =>
    rw [if_neg Bool.false_ne_true]
    split
    · next hnone =>
      rcases endsWith_or_fixed f.tree with ⟨l, hlast, -⟩ | hfixed
      · rw [hnone] at hlast
        cases hlast
      · exact .fixed hended hfixed
    · next l hlast =>
      split
      · next hl =>
        simp only [Bool.and_eq_true, decide_eq_true_eq] at hl
        rcases endsWith_or_fixed f.tree with ⟨l', hlast', hends⟩ | hfixed
        · obtain rfl : l' = l := Option.some.inj (hlast'.symm.trans hlast)
          exact .endOfLine hended hends hl.1 hl.2
        · rw [hfixed]
          exact .fixed hended hfixed
      · rw [hts]
        exact .lineBreak hended hts

/-- Ending the last line of a file leaves its code as it is. -/
theorem closedTree_spec {f : SourceFile} {ts : List Source.Tree} (hts : f.tree = .node .module ts)
    (hformed : f.tree.Formed) :
    ∃ us, f.closedTree = .node .module us ∧ f.closedTree.Formed ∧ SameCode f.tree f.closedTree := by
  have hclosing := closing_closedTree hts
  generalize f.closedTree = t at hclosing ⊢
  cases hclosing with
  | ended | fixed => exact ⟨ts, hts, hformed, fun _ _ => rfl, rfl⟩
  -- a last line that ends another way ends with a line break of the file, and nothing looks at that text
  | endOfLine _ hends hl _ =>
    have hrelined := hends.relined (f := fun l => { l with text := f.lineBreak }) hl rfl (endless_of_formed hformed)
    obtain ⟨us, hus⟩ : ∃ us, f.tree.mapLast (fun l => { l with text := f.lineBreak }) = .node .module us := by
      rw [hts] at hrelined ⊢
      generalize mapLast _ _ = u at hrelined
      cases hrelined
      exact ⟨_, rfl⟩
    exact ⟨us, hus, hrelined.formed hformed, fun _ hw => hrelined.nodesFrom hw [],
      (ofModule_congr fun os => walk_relined os hrelined).symm⟩
  -- a line break on its own is a leaf that no walk sees
  | lineBreak _ htree =>
    rw [hts] at htree
    cases htree
    rw [hts] at hformed ⊢
    refine ⟨_, rfl, .node (shaped_loose rfl fun h => Bool.noConfusion h) fun t ht => ?_, fun wanted hw => ?_,
      ofModule_congr fun os => ?_⟩
    · rcases List.mem_append.mp ht with ht | ht
      · exact hformed.child ht
      · rw [List.mem_singleton.mp ht]
        exact .leaf trivial
    · rw [nodesWhere_eq, nodesWhere_eq, nodesFrom_node, nodesFrom_node, locate_concat, hw _ rfl, List.flatMap_append]
      exact congrArg _ (List.append_nil _)
    · rw [para_node, para_node, List.map_append, List.map_singleton]
      funext p h
      unfold walkNode
      simp only [locate_concat, List.filter_append]
      simp [Source.Tree.isTrivia, LeafKind.isTrivia]

/-! ### The last line left open again -/

/-- A leaf without its text if it is trivia. -/
def plainLeaf (l : Leaf) : Leaf := if l.kind.isTrivia then ⟨l.kind, ""⟩ else l

/-- A tree without the texts of its trivia. -/
def plain : Source.Tree → Source.Tree :=
  Source.Tree.para (fun l => .leaf (plainLeaf l)) fun k ts => .node k (ts.map (·.2))

theorem plain_node (k : Kind) (ts : List Source.Tree) : plain (.node k ts) = .node k (ts.map plain) := by
  rw [plain, para_node, List.map_map]
  rfl

theorem kind_plainLeaf (l : Leaf) : (plainLeaf l).kind = l.kind := by
  unfold plainLeaf
  split <;> rfl

theorem plainLeaf_of_not_trivia {l : Leaf} (h : l.kind.isTrivia = false) : plainLeaf l = l := by
  unfold plainLeaf
  rw [h]
  rfl

theorem leaves_plain (t : Source.Tree) : (plain t).leaves = t.leaves.map plainLeaf := by
  induction t using induct with
  | leaf l => rfl
  | node k ts ih =>
    rw [plain_node]
    show leavesAll (ts.map plain) = (leavesAll ts).map plainLeaf
    induction ts with
    | nil => rfl
    | cons t ts ihs =>
      rw [List.map_cons, leavesAll, leavesAll, List.map_append, ih t (List.mem_cons_self ..),
        ihs fun u hu => ih u (List.mem_cons_of_mem _ hu)]

section Plain

variable (t : Source.Tree)

theorem isTrivia_plain : (plain t).isTrivia = t.isTrivia := by
  cases t with
  | leaf l => exact congrArg LeafKind.isTrivia (kind_plainLeaf l)
  | node k ts => rw [plain_node]; rfl

theorem isKind_plain (k : Kind) : (plain t).isKind k = t.isKind k := by
  cases t with
  | leaf l => rfl
  | node k' ts => rw [plain_node]; rfl

/-- A leaf that is no trivia is kept as it is. -/
theorem plain_leaf_eq {l : Leaf} (h : l.kind.isTrivia = false) : plain (.leaf l) = .leaf l :=
  congrArg Source.Tree.leaf (plainLeaf_of_not_trivia h)

theorem isMark_plain (s : String) : (plain t).isMark s = t.isMark s := by
  cases t with
  | leaf l =>
    cases h : l.kind.isTrivia with
    | false => rw [plain_leaf_eq h]
    | true =>
      have hkind : l.kind ≠ .mark := fun hl => by rw [hl] at h; cases h
      show (decide ((plainLeaf l).kind = .mark) && _) = (decide (l.kind = .mark) && _)
      rw [kind_plainLeaf, decide_eq_false hkind]
      rfl
  | node k ts => rw [plain_node]; rfl

theorem name?_plain : (plain t).name? = t.name? := by
  cases t with
  | leaf l =>
    cases h : l.kind.isTrivia with
    | false => rw [plain_leaf_eq h]
    | true =>
      have hkind : l.kind ≠ .name := fun hl => by rw [hl] at h; cases h
      show (if (plainLeaf l).kind = .name then _ else _) = (if l.kind = .name then _ else _)
      rw [kind_plainLeaf, if_neg hkind, if_neg hkind]
  | node k ts => rw [plain_node]; rfl

theorem dottedText_plain : (plain t).dottedText = t.dottedText := by
  have hfilter : ∀ ls : List Leaf, (ls.map plainLeaf).filter (!·.kind.isTrivia) = ls.filter (!·.kind.isTrivia) := by
    intro ls
    rw [List.filter_map]
    have hpred : ((fun l : Leaf => !l.kind.isTrivia) ∘ plainLeaf) = fun l => !l.kind.isTrivia :=
      funext fun l => congrArg (fun k => !LeafKind.isTrivia k) (kind_plainLeaf l)
    rw [hpred]
    refine (List.map_congr_left fun l hl => ?_).trans (List.map_id _)
    exact plainLeaf_of_not_trivia (by simpa using (List.mem_filter.mp hl).2)
  rw [dottedText, leaves_plain, hfilter]
  rfl

theorem parts_plain : (plain t).parts = t.parts.map plain := by
  cases t with
  | leaf l => rfl
  | node k ts =>
    rw [plain_node, parts_node, parts_node, partsOf, partsOf, List.filter_map]
    exact congrArg _ (List.filter_congr fun t _ => congrArg (!·) (isTrivia_plain t))

theorem importedName?_plain : (plain t).importedName? = t.importedName? := by
  unfold importedName?
  rw [isKind_plain, parts_plain]
  rcases t.parts with - | ⟨a, - | ⟨b, - | ⟨c, - | ⟨d, ts⟩⟩⟩⟩ <;>
    cases t.isKind .importAlias <;>
      simp only [List.map_nil, List.map_cons, dottedText_plain, name?_plain]

end Plain

theorem partsOf_plain (ts : List Source.Tree) : partsOf (ts.map plain) = (partsOf ts).map plain := by
  have h := parts_plain (.node .module ts)
  rwa [plain_node] at h

theorem takeWhile_plain {p : Source.Tree → Bool} (hp : ∀ t, p (plain t) = p t) (ts : List Source.Tree) :
    (ts.map plain).takeWhile p = (ts.takeWhile p).map plain := by
  rw [List.takeWhile_map, show p ∘ plain = p from funext hp]

theorem namesOf_plain (ts : List Source.Tree) : namesOf (ts.map plain) = namesOf ts := by
  unfold namesOf
  rw [List.filterMap_map]
  exact List.filterMap_congr fun t _ => importedName?_plain t

/-- A mark is kept as it is. -/
theorem plain_of_isMark {t : Source.Tree} {s : String} (h : t.isMark s = true) : plain t = t := by
  cases t with
  | leaf l =>
    obtain ⟨hkind, -⟩ := (Bool.and_eq_true _ _).mp h
    exact plain_leaf_eq (by rw [of_decide_eq_true hkind]; rfl)
  | node k ts => cases h

theorem fromModuleOf_plain (ts : List Source.Tree) : fromModuleOf (ts.map plain) = fromModuleOf ts := by
  have hbefore := takeWhile_plain (p := (!·.isMark "import")) (fun t => by rw [isMark_plain]) (partsOf ts)
  unfold fromModuleOf
  simp only [partsOf_plain, hbefore]
  generalize (partsOf ts).takeWhile (!·.isMark "import") = before
  have hdots : (before.map plain).filter (fun p => p.isMark "." || p.isMark "...") =
      before.filter fun p => p.isMark "." || p.isMark "..." := by
    have hpred : ((fun p : Source.Tree => p.isMark "." || p.isMark "...") ∘ plain) =
        fun p => p.isMark "." || p.isMark "..." := funext fun t => by simp only [Function.comp, isMark_plain]
    rw [List.filter_map, hpred]
    refine (List.map_congr_left fun t ht => ?_).trans (List.map_id _)
    exact ((Bool.or_eq_true _ _).mp (List.mem_filter.mp ht).2).elim plain_of_isMark plain_of_isMark
  have hname : ((fun p : Source.Tree => p.isKind .dotted || p.name?.isSome) ∘ plain) =
      fun p => p.isKind .dotted || p.name?.isSome := funext fun t => by simp only [Function.comp, isKind_plain, name?_plain]
  rw [hdots, List.find?_map, hname, Option.map_map]
  exact congrArg (fun f => FromModule.mk _ (Option.map f _)) (funext dottedText_plain)

theorem importStatement?_from (ts : List Source.Tree) :
    (Source.Tree.node .importFrom ts).importStatement? = some ⟨some (fromModuleOf ts), if isStarred ts then .star else
      .names (namesOf ((partsOf ts).drop (((partsOf ts).takeWhile (!·.isMark "import")).length + 1)))⟩ := rfl

theorem importStatement?_plain (t : Source.Tree) : (plain t).importStatement? = t.importStatement? := by
  have hafter : ∀ ts : List Source.Tree, ((partsOf (ts.map plain)).drop
      (((partsOf (ts.map plain)).takeWhile (!·.isMark "import")).length + 1)) =
        ((partsOf ts).drop (((partsOf ts).takeWhile (!·.isMark "import")).length + 1)).map plain := by
    intro ts
    rw [partsOf_plain, takeWhile_plain (fun t => by rw [isMark_plain]), List.length_map, List.map_drop]
  cases t with
  | leaf l => rfl
  | node k ts =>
    rw [plain_node]
    by_cases hk : (k = .importStmt || k = .importFrom) = true
    · rcases (Bool.or_eq_true _ _).mp hk with hk | hk
      · obtain rfl := of_decide_eq_true hk
        rw [importStatement?_importStmt, importStatement?_importStmt, namesOf_plain]
      · obtain rfl := of_decide_eq_true hk
        have hstar : isStarred (ts.map plain) = isStarred ts := by
          unfold isStarred
          rw [hafter, List.any_map]
          exact congrArg _ (funext fun t => isMark_plain t "*")
        rw [importStatement?_from, importStatement?_from, fromModuleOf_plain, hstar, hafter, namesOf_plain]
    · rw [importStatement?_other (Bool.eq_false_iff.mpr hk), importStatement?_other (Bool.eq_false_iff.mpr hk)]

theorem takenIn_plain (t : Source.Tree) : takenIn (plain t) = takenIn t := by
  induction t using induct with
  | leaf l => rfl
  | node k ts ih =>
    have hself := importStatement?_plain (.node k ts)
    rw [plain_node] at hself ⊢
    rw [takenIn_node, takenIn_node, hself, List.flatMap_map]
    exact congrArg _ (List.flatMap_congr ih)

theorem takenIn_relined {t u : Source.Tree} (h : Relined t u) : takenIn u = takenIn t := by
  unfold takenIn importsIn importsFrom
  rw [h.nodesFrom (fun k hk => by cases k <;> first | rfl | cases hk)]

theorem plain_mapLast {l : Leaf} {t : Source.Tree} {f : Leaf → Leaf} (h : EndsWith l t) (hl : l.kind.isTrivia = true)
    (hf : (f l).kind = l.kind) : plain (t.mapLast f) = plain t := by
  induction h with
  | leaf =>
    show Source.Tree.leaf (plainLeaf (f l)) = .leaf (plainLeaf l)
    unfold plainLeaf
    rw [hf, hl]
    rfl
  | node _ ih => rw [mapLast_node, plain_node, plain_node, List.map_append, List.map_append, List.map_singleton,
      List.map_singleton, ih]

/-- What an import statement says is in its parts. -/
theorem importStatement?_congr {k : Kind} {ts us : List Source.Tree} (h : partsOf ts = partsOf us) :
    (Source.Tree.node k ts).importStatement? = (Source.Tree.node k us).importStatement? := by
  cases k
  case importStmt => rw [importStatement?_importStmt, importStatement?_importStmt, ← namesOf_partsOf, h, namesOf_partsOf]
  case importFrom =>
    rw [importStatement?_from, importStatement?_from]
    unfold fromModuleOf isStarred
    rw [h]
  all_goals rfl

/-- Leaving the last line of a file open again takes no import away. -/
theorem takenIn_withClosedTree (f : SourceFile) {t : Source.Tree} (ht : Endless t) :
    takenIn (f.withClosedTree t).tree = takenIn t := by
  unfold SourceFile.withClosedTree
  dsimp only
  split
  · split
    · next k ts =>
      split
      · have hparts : partsOf (ts ++ [.leaf ⟨.lineBreak, f.lineBreak⟩]) = partsOf ts := by
          rw [partsOf_append]
          exact List.append_nil _
        rw [takenIn_node, takenIn_node, importStatement?_congr hparts, List.flatMap_append]
        exact congrArg _ (List.append_nil _)
      · rfl
    · rfl
  · rcases endsWith_or_fixed t with ⟨l, -, hends⟩ | hfixed
    · by_cases hend : l.kind = .endOfLine
      · exact takenIn_relined (hends.relined hend (by rw [hend]; rfl) ht)
      · by_cases hbreak : l.kind = .lineBreak
        · rw [← takenIn_plain, plain_mapLast hends (by rw [hbreak]; rfl) (by rw [hbreak]; rfl), takenIn_plain]
        · rw [hends.mapLast_eq_self]
          rw [decide_eq_false hend, decide_eq_false hbreak]
          rfl
    · rw [hfixed]

end FluentShift.Imports
