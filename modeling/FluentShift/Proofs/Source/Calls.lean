import FluentShift.Proofs.Source.Shapes
import FluentShift.Source.View

/-!
# FluentShift.Proofs.Source.Calls - what calls look like

In the tree of a text a call starts with what is called; behind it stand leaves and arguments, and an argument that is
passed by position is nothing but its value (`called_parse?`).  The rules for expressions read one tree behind trivia
(`single_derives`), and what a graft puts it into is a node that starts with it.
-/

namespace FluentShift.Source

open Grammar

/-! ### Rules that read one tree -/

/-- The rules that read one tree behind trivia. -/
def isSingleRule : Rule → Bool
  | .namedExpr | .expression | .disjunction | .conjunction | .inversion | .comparison | .bitOr | .bitXor | .bitAnd
  | .shift | .sum | .term | .factor | .power | .awaited | .primary | .atom | .strings | .template | .paren | .list
  | .brace | .yieldExpr | .starExpr | .starExprs | .starNamed | .starNamedTuple | .targets | .target | .pattern
  | .closedPattern => true
  | _ => false

/-- Whether a grammar reads nothing. -/
def isLook : Grammar Rule → Bool
  | .nothing | .ahead _ | .notAhead _ => true
  | _ => false

/-- Whether a grammar reads a node or nothing. -/
def isTail : Grammar Rule → Bool
  | .nothing | .ahead _ | .notAhead _ | .tree _ _ => true
  | .alt a b => isTail a && isTail b
  | .check _ a => isTail a
  | _ => false

/-- Whether a wanted leaf is one, and no trivia. -/
def isSolid : Want → Bool
  | .kind k => !k.isTrivia
  | .indent | .dedent | .done => false
  | _ => true

/-- Whether a grammar reads one tree behind trivia. -/
def isSingle : Grammar Rule → Bool
  | .want w => isSolid w
  | .seq a b => isLook a && isSingle b || isSingle a && isLook b
  | .alt a b => isSingle a && isSingle b
  | .rule r => isSingleRule r
  | .tree _ _ => true
  | .graft a b | .chain a b => isSingle a && isTail b
  | .check _ a => isSingle a
  | _ => false

theorem isSingle_meaning {r : Rule} (h : isSingleRule r = true) : isSingle r.meaning = true := by
  cases r <;> first | rfl | cases h

/-- One tree behind trivia. -/
def Single (xs : List Tree) : Prop :=
  ∃ lead t, xs = lead ++ [t] ∧ (∀ u ∈ lead, u.isTrivia = true) ∧ t.isTrivia = false

theorem single_wrap (k : Kind) (ts : List Tree) : Single (wrap k ts) :=
  ⟨_, _, rfl, fun _ hu => List.all_eq_true.mp List.all_takeWhile _ hu, rfl⟩

theorem nil_of_isLook {g : Grammar Rule} {xs : List Tree} (h : Derives g xs) (hg : isLook g = true) : xs = [] := by
  cases h <;> first | rfl | cases hg

theorem single_accept {w : Want} {lead : List Leaf} {body : TokenBody} {ls : List Leaf}
    (hlead : ∀ l ∈ lead, l.kind.isTrivia = true) (hls : w.accept body = some ls) (hw : isSolid w = true) :
    Single ((lead ++ ls).map .leaf) := by
  have hone : ∃ l, ls = [l] := by
    cases w <;> cases body <;> simp only [Want.accept, Option.ite_none_right_eq_some, Option.some.injEq, reduceCtorEq,
      Bool.and_eq_true, decide_eq_true_eq] at hls
    case indent.indent | dedent.dedent | done.done => cases hw
    all_goals exact ⟨_, hls.2.symm⟩
  obtain ⟨l, rfl⟩ := hone
  refine ⟨lead.map .leaf, .leaf l, List.map_append, fun u hu => ?_, ?_⟩
  · obtain ⟨l', hl', rfl⟩ := List.mem_map.mp hu
    exact hlead l' hl'
  · show l.kind.isTrivia = false
    rcases kind_accept hls l (List.mem_singleton_self l) with hk | hk | rfl
    · rw [hk]; rfl
    · rw [hk]; rfl
    · simpa [isSolid] using hw

/-- What stands in front of a graft becomes the first child of its node. -/
theorem join_node {lead : List Tree} (hlead : ∀ u ∈ lead, u.isTrivia = true) {t : Tree} (ht : t.isTrivia = false)
    (init : List Tree) (k : Kind) (ts : List Tree) :
    join (lead ++ [t]) (init ++ [.node k ts]) = lead ++ [.node k (t :: (init ++ ts))] := by
  have hsplit : lead ++ [t] ++ init ++ ts = lead ++ t :: (init ++ ts) := by simp
  unfold join
  rw [List.getLast?_concat, List.dropLast_concat]
  simp only [wrap]
  rw [hsplit, List.takeWhile_append_of_pos hlead, List.dropWhile_append_of_pos hlead,
    List.takeWhile_cons_of_neg (by simp [ht]), List.dropWhile_cons_of_neg (by simp [ht]), List.append_nil]

theorem tail_derives {g : Grammar Rule} {xs : List Tree} (h : Derives g xs) (hg : isTail g = true) :
    xs = [] ∨ ∃ init k ts, xs = init ++ [.node k ts] := by
  induction h with
  | nothing | ahead | notAhead => exact .inl rfl
  | tree _ _ => exact .inr ⟨_, _, _, rfl⟩
  | left _ ih =>
    rw [isTail, Bool.and_eq_true] at hg
    exact ih hg.1
  | right _ ih =>
    rw [isTail, Bool.and_eq_true] at hg
    exact ih hg.2
  | check _ ih => exact ih hg
  | _ => cases hg

theorem single_join {xs ys : List Tree} (hxs : Single xs) (hys : ys = [] ∨ ∃ init k ts, ys = init ++ [.node k ts]) :
    Single (join xs ys) := by
  obtain ⟨lead, t, rfl, hlead, ht⟩ := hxs
  rcases hys with rfl | ⟨init, k, ts, rfl⟩
  · rw [join, List.getLast?_nil, List.append_nil]
    exact ⟨lead, t, rfl, hlead, ht⟩
  · exact ⟨lead, _, join_node hlead ht init k ts, hlead, rfl⟩

theorem single_derives {g : Grammar Rule} {xs : List Tree} (h : Derives g xs) (hg : isSingle g = true) : Single xs := by
  induction h with
  | want hlead hls => exact single_accept hlead hls hg
  | seq ha hb iha ihb =>
    rw [isSingle, Bool.or_eq_true, Bool.and_eq_true, Bool.and_eq_true] at hg
    rcases hg with ⟨hlook, hsingle⟩ | ⟨hsingle, hlook⟩
    · rw [nil_of_isLook ha hlook]
      exact ihb hsingle
    · rw [nil_of_isLook hb hlook, List.append_nil]
      exact iha hsingle
  | left _ ih =>
    rw [isSingle, Bool.and_eq_true] at hg
    exact ih hg.1
  | right _ ih =>
    rw [isSingle, Bool.and_eq_true] at hg
    exact ih hg.2
  | rule _ ih => exact ih (isSingle_meaning hg)
  | tree _ _ => exact single_wrap _ _
  | graft _ hb iha _ =>
    rw [isSingle, Bool.and_eq_true] at hg
    exact single_join (iha hg.1) (tail_derives hb hg.2)
  | head _ ih =>
    rw [isSingle, Bool.and_eq_true] at hg
    exact ih hg.1
  | link _ hb iha _ =>
    have htail := hg
    rw [isSingle, Bool.and_eq_true] at htail
    exact single_join (iha hg) (tail_derives hb htail.2)
  | check _ ih => exact ih hg
  | _ => cases hg

/-! ### Calls and arguments -/

/-- A leaf or an argument. -/
def IsSlot (t : Tree) : Prop := (∃ l, t = .leaf l) ∨ t.isKind .argument = true

/-- What the nodes of a call look like: behind what is called stand leaves and arguments, each argument can be read, and
one that is passed by position is nothing but its value. -/
def CallShape : Kind → List Tree → Prop
  | .call, ts => ∃ callee rest, ts = callee :: rest ∧ callee.isTrivia = false ∧ ∀ t ∈ rest, IsSlot t
  | .argument, ts => ∃ a, (Tree.node .argument ts).argument? = some a ∧ (a.passing = .plain → ts = [a.value])
  | _, _ => True

/-- Whether a grammar reads an argument: one tree, or one behind a star or behind a name. -/
def isArgumentBody : Grammar Rule → Bool
  | .alt a b => isArgumentBody a && isArgumentBody b
  | .seq (.want (.mark s)) e => (s = "*" || s = "**") && isSingle e
  | .seq (.want .name) (.seq (.want (.mark s)) e) => s = "=" && isSingle e
  | g => isSingle g

/-- Whether a grammar reads what stands behind the opening parenthesis of a call: leaves and arguments. -/
def isSlots : Grammar Rule → Bool
  | .nothing | .ahead _ | .notAhead _ | .want _ => true
  | .seq a b | .alt a b => isSlots a && isSlots b
  | .many a | .check _ a => isSlots a
  | .tree k _ => k = .argument
  | .rule r => r = .arguments || r = .positionalArg || r = .keywordArg || r = .starArg || r = .doubleStarArg
  | _ => false

/-- Whether the calls that a grammar builds are the tails of chains, and its arguments are of the right form. -/
def isCalm : Grammar Rule → Bool
  | .nothing | .ahead _ | .notAhead _ | .want _ | .rule _ => true
  | .seq a b | .alt a b => isCalm a && isCalm b
  | .many a | .check _ a => isCalm a
  | .tree k a => isCalm a && k ≠ .call && (k ≠ .argument || isArgumentBody a)
  | .graft a b | .chain a b => isCalm a && isSingle a && isCalmTail b
where
  /-- Whether a grammar reads nothing or a node that takes what stands before it as its first child. -/
  isCalmTail : Grammar Rule → Bool
    | .nothing | .ahead _ | .notAhead _ => true
    | .alt a b => isCalmTail a && isCalmTail b
    | .check _ a => isCalmTail a
    | .tree k a => isCalm a && k ≠ .argument && (k ≠ .call || isSlots a)
    | _ => false

theorem isCalm_meaning (r : Rule) : isCalm r.meaning = true := by cases r <;> rfl

theorem isSlots_meaning {r : Rule} (h : isSlots (.rule r) = true) : isSlots r.meaning = true := by
  cases r <;> first | rfl | cases h

theorem isTail_of_isCalmTail {g : Grammar Rule} (h : isCalm.isCalmTail g = true) : isTail g = true := by
  induction g with
  | alt a b iha ihb =>
    rw [isCalm.isCalmTail, Bool.and_eq_true] at h
    rw [isTail, iha h.1, ihb h.2]
    rfl
  | check _ a ih => exact ih h
  | nothing | ahead | notAhead | tree => rfl
  | _ => cases h

/-! ### What is derived -/

theorem slots_derives {g : Grammar Rule} {xs : List Tree} (h : Derives g xs) (hg : isSlots g = true) :
    ∀ t ∈ xs, IsSlot t := by
  induction h with
  | nothing | none_ | ahead | notAhead => exact List.forall_mem_nil _
  | want _ _ =>
    intro t ht
    obtain ⟨l, -, rfl⟩ := List.mem_map.mp ht
    exact .inl ⟨l, rfl⟩
  | seq _ _ iha ihb =>
    rw [isSlots, Bool.and_eq_true] at hg
    exact forall_append (iha hg.1) (ihb hg.2)
  | left _ ih =>
    rw [isSlots, Bool.and_eq_true] at hg
    exact ih hg.1
  | right _ ih =>
    rw [isSlots, Bool.and_eq_true] at hg
    exact ih hg.2
  | more _ _ iha ihb => exact forall_append (iha hg) (ihb hg)
  | rule _ ih => exact ih (isSlots_meaning hg)
  | @tree k a xs _ _ =>
    have hk : k = .argument := by simpa [isSlots] using hg
    obtain ⟨lead, t, hwrap, hlead, -⟩ := single_wrap k xs
    intro u hu
    rcases List.mem_append.mp hu with hu | hu
    · have htrivia := List.all_eq_true.mp List.all_takeWhile u hu
      cases u with
      | leaf l => exact .inl ⟨l, rfl⟩
      | node _ _ => cases htrivia
    · rw [List.mem_singleton.mp hu, hk]
      exact .inr rfl
  | check _ ih => exact ih hg
  | _ => cases hg

theorem Single.parts {xs : List Tree} (h : Single xs) :
    ∃ t, partsOf xs = [t] ∧ xs.dropWhile Tree.isTrivia = [t] := by
  obtain ⟨lead, t, rfl, hlead, ht⟩ := h
  refine ⟨t, ?_, ?_⟩
  · rw [partsOf_append, partsOf_trivia hlead, List.nil_append, partsOf_cons, ht]
    rfl
  · rw [List.dropWhile_append_of_pos hlead, List.dropWhile_cons_of_neg (by simp [ht])]

/-- What an argument can be made of. -/
theorem argument_derives {g : Grammar Rule} {xs : List Tree} (h : Derives g xs) (hg : isArgumentBody g = true) :
    CallShape .argument (xs.dropWhile Tree.isTrivia) := by
  have hread : ∀ ys, (Tree.node .argument (ys.dropWhile Tree.isTrivia)).argument? = Tree.argumentOf? (partsOf ys) := by
    intro ys
    rw [← partsOf_dropWhile]
    rfl
  fun_induction isArgumentBody g generalizing xs with
  | case1 a b iha ihb =>
    rw [Bool.and_eq_true] at hg
    exact h.of_alt.elim (fun h => iha h hg.1) fun h => ihb h hg.2
  | case2 s e =>
    rw [Bool.and_eq_true, Bool.or_eq_true, decide_eq_true_eq, decide_eq_true_eq] at hg
    obtain ⟨ys, zs, hys, hzs, rfl⟩ := h.of_seq
    obtain ⟨t, hparts, -⟩ := (single_derives hzs hg.2).parts
    have hboth : partsOf (ys ++ zs) = [.leaf ⟨.mark, s⟩, t] := by
      rw [partsOf_append, partsOf_tok hys, hparts]
      rfl
    rw [CallShape, hread, hboth]
    rcases hg.1 with rfl | rfl
    · exact ⟨⟨.star, t⟩, rfl, fun h => Passing.noConfusion h⟩
    · exact ⟨⟨.doubleStar, t⟩, rfl, fun h => Passing.noConfusion h⟩
  | case3 s e =>
    rw [Bool.and_eq_true, decide_eq_true_eq] at hg
    obtain ⟨rfl, hsingle⟩ := hg
    obtain ⟨ys, us, hys, hus, rfl⟩ := h.of_seq
    obtain ⟨es, zs, hes, hzs, rfl⟩ := hus.of_seq
    obtain ⟨n, hname⟩ := partsOf_name hys
    obtain ⟨t, hparts, -⟩ := (single_derives hzs hsingle).parts
    have hall : partsOf (ys ++ (es ++ zs)) = [.leaf ⟨.name, n⟩, .leaf ⟨.mark, "="⟩, t] := by
      rw [partsOf_append, partsOf_append, hname, partsOf_tok hes, hparts]
      rfl
    rw [CallShape, hread, hall]
    exact ⟨⟨.keyword n, t⟩, rfl, fun h => Passing.noConfusion h⟩
  | case4 g _ _ _ =>
    obtain ⟨t, hparts, hbody⟩ := (single_derives h hg).parts
    rw [CallShape, hread, hparts, hbody]
    exact ⟨⟨.plain, t⟩, rfl, fun _ => rfl⟩

/-- The calls in a tree and their arguments are of the right form. -/
abbrev Tree.Called (t : Tree) : Prop := t.Every (fun _ => True) CallShape

/-- Nothing, or a node that takes what stands before it as its first child. -/
def Graftable (xs : List Tree) : Prop :=
  xs = [] ∨ ∃ init k ts, xs = init ++ [.node k ts] ∧ k ≠ .argument ∧ (∀ t ∈ init ++ ts, t.Called) ∧
    (k = .call → ∀ t ∈ init ++ ts, IsSlot t)

theorem called_join {xs ys : List Tree} (hsingle : Single xs) (hxs : ∀ t ∈ xs, t.Called) (hys : Graftable ys) :
    ∀ t ∈ join xs ys, t.Called := by
  rcases hys with rfl | ⟨init, k, ts, rfl, hargument, hchildren, hcall⟩
  · rw [join, List.getLast?_nil, List.append_nil]
    exact hxs
  · obtain ⟨lead, t, rfl, hlead, ht⟩ := hsingle
    rw [join_node hlead ht]
    refine forall_append (fun u hu => hxs u (List.mem_append_left _ hu)) (List.forall_mem_singleton.mpr ?_)
    refine .node ?_ (List.forall_mem_cons.mpr ⟨hxs t (List.mem_append_right _ (List.mem_singleton_self t)), hchildren⟩)
    by_cases hk : k = .call
    · subst hk
      exact ⟨t, _, rfl, ht, hcall rfl⟩
    · cases k <;> trivial

theorem called_leaves {ls : List Leaf} : ∀ t ∈ ls.map Tree.leaf, t.Called := by
  intro t ht
  obtain ⟨l, -, rfl⟩ := List.mem_map.mp ht
  exact .leaf trivial

/-- The children of a node that is not spared by its own form. -/
theorem called_wrap {k : Kind} {xs : List Tree} (hxs : ∀ t ∈ xs, t.Called) (hcall : k ≠ .call)
    (hargument : k = .argument → CallShape .argument (xs.dropWhile Tree.isTrivia)) : ∀ t ∈ wrap k xs, t.Called := by
  refine Tree.Every.wrap hxs ?_
  by_cases hk : k = .argument
  · subst hk
    exact hargument rfl
  · cases k <;> trivial

/-- Calls and arguments are derived in the right form, and what is grafted can take its first child. -/
theorem called_derives {g : Grammar Rule} {xs : List Tree} (h : Derives g xs) :
    (isCalm g = true → ∀ t ∈ xs, t.Called) ∧ (isCalm.isCalmTail g = true → Graftable xs) := by
  induction h with
  | nothing | ahead | notAhead => exact ⟨fun _ => List.forall_mem_nil _, fun _ => .inl rfl⟩
  | none_ => exact ⟨fun _ => List.forall_mem_nil _, fun hg => by cases hg⟩
  | want _ _ => exact ⟨fun _ => called_leaves, fun hg => by cases hg⟩
  | seq _ _ iha ihb =>
    refine ⟨fun hg => ?_, fun hg => by cases hg⟩
    rw [isCalm, Bool.and_eq_true] at hg
    exact forall_append (iha.1 hg.1) (ihb.1 hg.2)
  | left _ ih =>
    refine ⟨fun hg => ?_, fun hg => ?_⟩
    · rw [isCalm, Bool.and_eq_true] at hg
      exact ih.1 hg.1
    · rw [isCalm.isCalmTail, Bool.and_eq_true] at hg
      exact ih.2 hg.1
  | right _ ih =>
    refine ⟨fun hg => ?_, fun hg => ?_⟩
    · rw [isCalm, Bool.and_eq_true] at hg
      exact ih.1 hg.2
    · rw [isCalm.isCalmTail, Bool.and_eq_true] at hg
      exact ih.2 hg.2
  | more _ _ iha ihb =>
    refine ⟨fun hg => forall_append (iha.1 (by rwa [isCalm] at hg)) (ihb.1 hg), fun hg => by cases hg⟩
  | rule _ ih => exact ⟨fun _ => ih.1 (isCalm_meaning _), fun hg => by cases hg⟩
  -- only what is wrapped as a call or an argument has a form to keep
  | @tree k a xs ha ih =>
    refine ⟨fun hg => ?_, fun hg => .inr ?_⟩
    · simp only [isCalm, Bool.and_eq_true, Bool.or_eq_true, decide_eq_true_eq] at hg
      obtain ⟨⟨hcalm, hcall⟩, hargument⟩ := hg
      exact called_wrap (ih.1 hcalm) hcall fun hk => argument_derives ha (hargument.resolve_left (· hk))
    · simp only [isCalm.isCalmTail, Bool.and_eq_true, Bool.or_eq_true, decide_eq_true_eq] at hg
      obtain ⟨⟨hcalm, hargument⟩, hcall⟩ := hg
      refine ⟨_, k, _, rfl, hargument, ?_, fun hk => ?_⟩
      · rw [List.takeWhile_append_dropWhile]
        exact ih.1 hcalm
      · rw [List.takeWhile_append_dropWhile]
        exact slots_derives ha (hcall.resolve_left (· hk))
  -- the tree so far becomes the first child of the next one
  | graft ha hb iha ihb =>
    refine ⟨fun hg => ?_, fun hg => by cases hg⟩
    simp only [isCalm, Bool.and_eq_true] at hg
    exact called_join (single_derives ha hg.1.2) (iha.1 hg.1.1) (ihb.2 hg.2)
  | head ha ih =>
    refine ⟨fun hg => ?_, fun hg => by cases hg⟩
    simp only [isCalm, Bool.and_eq_true] at hg
    exact ih.1 hg.1.1
  | @link a b xs ys ha hb iha ihb =>
    refine ⟨fun hg => ?_, fun hg => by cases hg⟩
    have hparts := hg
    simp only [isCalm, Bool.and_eq_true] at hparts
    refine called_join (single_derives ha ?_) (iha.1 hg) (ihb.2 hparts.2)
    rw [isSingle, hparts.1.2, isTail_of_isCalmTail hparts.2]
    rfl
  | check _ ih => exact ⟨ih.1, ih.2⟩

/-- The calls in the tree of a file are of the right form. -/
theorem called_parse? {text : String} {f : SourceFile} (h : SourceFile.parse? text = some f) : f.tree.Called := by
  obtain ⟨ts, -, hcalled⟩ := every_parse? (fun _ hxs => (called_derives hxs).1 rfl) (fun _ => trivial) h
  exact hcalled

end FluentShift.Source
