import FluentShift.Proofs.Rewrite.Placement
import FluentShift.Proofs.Source.Calls

/-!
# FluentShift.Proofs.Rewrite.Comments - comments in and around rewritten calls

A chain takes over the comments in the argument values of its call, and no other ones.  A call that is rewritten has no
other comments but those in its callee (`comments_call`), so the comments of a file survive a rewrite exactly when no
rewritten call has a comment in its callee (`comments_migrated`).
-/

namespace FluentShift.Source.Tree

/-! ### The comments of a tree -/

/-- The comments of a tree from left to right. -/
def comments (t : Tree) : List Leaf := t.leaves.filter (·.kind = .comment)

@[simp] theorem comments_leaf (l : Leaf) : (leaf l).comments = if l.kind = .comment then [l] else [] := by
  by_cases h : l.kind = .comment <;> simp [comments, leaves, h]

@[simp] theorem comments_node (k : Kind) (ts : List Tree) : (node k ts).comments = ts.flatMap comments := by
  rw [comments, leaves, leavesAll_eq_flatMap, List.filter_flatMap]
  rfl

theorem sublist_comments_of_mem {t : Tree} {ts : List Tree} (h : t ∈ ts) :
    t.comments.Sublist (ts.flatMap comments) := by
  have hsub := (List.singleton_sublist.mpr h).flatMap comments
  simpa using hsub

/-- The comments of a part of a tree are comments of the tree. -/
theorem sublist_comments_of_at? {t u : Tree} {r : Path} (h : t.at? r = some u) : u.comments.Sublist t.comments := by
  induction r generalizing u with
  | nil =>
    cases h
    exact List.Sublist.refl _
  | cons i r ih =>
    rw [at?_cons] at h
    obtain ⟨v, hv, hu⟩ := Option.bind_eq_some_iff.mp h
    cases v with
    | leaf l => cases hu
    | node k ts =>
      have hchild := sublist_comments_of_mem (List.mem_of_getElem? hu)
      rw [← comments_node k] at hchild
      exact hchild.trans (ih hv)

/-- The comments in what a call calls. -/
def calleeComments (call : Tree) : List Leaf := (call.call?.map (·.callee.comments)).getD []

theorem sublist_calleeComments (call : Tree) : call.calleeComments.Sublist call.comments := by
  rw [calleeComments]
  cases hread : call.call? with
  | none => exact List.nil_sublist _
  | some c =>
    cases call with
    | leaf l => cases hread
    | node k ts =>
      unfold call? at hread
      split at hread
      · next callee rest _ hparts =>
        cases hread
        rw [comments_node]
        exact sublist_comments_of_mem (List.mem_of_mem_filter (hparts ▸ List.mem_cons_self ..))
      · cases hread

/-- The comments of a call that are not in the values of its arguments. -/
def outerComments (call : Tree) : List Leaf := call.comments.diff (call.arguments.flatMap (·.value.comments))

end FluentShift.Source.Tree

namespace FluentShift.Rewrite

open FluentShift.Source FluentShift.Source.Tree

variable {m : Mapping} {chains : Path → Option Classification}

/-! ### Calls without comments between their arguments -/

theorem call?_node {callee : Tree} (h : callee.isTrivia = false) (rest : List Tree) :
    (Source.Tree.node .call (callee :: rest)).call? = some ⟨callee, (partsOf rest).filterMap argument?⟩ := by
  have hcall : (Source.Tree.node .call (callee :: rest)).isKind .call = true := rfl
  rw [call?, parts_node, partsOf_cons, h, hcall]
  rfl

theorem mem_of_hasArgumentComments {k : Kind} {ts : List Tree} (h : hasArgumentComments (.node k ts) = false) :
    ∀ t ∈ ts, t.isComment = false := by
  rw [hasArgumentComments, Bool.or_eq_false_iff] at h
  exact fun t ht => by simpa using List.any_eq_false.mp h.1 t ht

/-- Where arguments stand among leaves, and each is nothing but its value, all comments are in the values. -/
theorem comments_slots {ts : List Tree} (hslots : ∀ t ∈ ts, IsSlot t) (hcalled : ∀ t ∈ ts, t.Called)
    (hplain : ∀ a ∈ (partsOf ts).filterMap argument?, a.passing = .plain) (hclean : ∀ t ∈ ts, t.isComment = false) :
    ts.flatMap comments = ((partsOf ts).filterMap argument?).flatMap (·.value.comments) := by
  induction ts with
  | nil => rfl
  | cons t ts ih =>
    rw [List.forall_mem_cons] at hslots hcalled hclean
    rw [partsOf_cons] at hplain ⊢
    rcases hslots.1 with ⟨l, rfl⟩ | hargument
    · have hnone : (Source.Tree.leaf l).argument? = none := rfl
      have hempty : (Source.Tree.leaf l).comments = [] := by
        have hkind : ¬ l.kind = .comment := by simpa [isComment] using hclean.1
        rw [comments_leaf, if_neg hkind]
      rw [List.flatMap_cons, hempty, List.nil_append]
      by_cases htrivia : (Source.Tree.leaf l).isTrivia = true
      · rw [if_pos htrivia] at hplain ⊢
        exact ih hslots.2 hcalled.2 hplain hclean.2
      · rw [if_neg htrivia, List.filterMap_cons_none hnone] at hplain ⊢
        exact ih hslots.2 hcalled.2 hplain hclean.2
    · obtain ⟨us, rfl⟩ := exists_of_isKind hargument
      obtain ⟨a, ha, hvalue⟩ := hcalled.1.self
      have hnode : ¬ (Source.Tree.node .argument us).isTrivia = true := Bool.false_ne_true
      rw [if_neg hnode, List.filterMap_cons_some ha] at hplain ⊢
      rw [List.forall_mem_cons] at hplain
      rw [List.flatMap_cons, List.flatMap_cons, ih hslots.2 hcalled.2 hplain.2 hclean.2, comments_node,
        hvalue hplain.1, List.flatMap_singleton]

/-- The comments of a call that can be rewritten are in its callee and in the values of its arguments. -/
theorem comments_call {call : Tree} (hcall : call.isKind .call = true) (hcalled : call.Called)
    (hplain : hasPlainArguments call = true) (hclean : hasArgumentComments call = false) :
    call.comments = call.calleeComments ++ call.arguments.flatMap (·.value.comments) := by
  obtain ⟨ts, rfl⟩ := exists_of_isKind hcall
  obtain ⟨callee, rest, rfl, htrivia, hslots⟩ := hcalled.self
  have hread := call?_node htrivia rest
  have hpassing : ∀ a ∈ (partsOf rest).filterMap argument?, a.passing = .plain := by
    intro a ha
    rw [hasPlainArguments, hread] at hplain
    simpa using List.all_eq_true.mp hplain a ha
  have hrest := comments_slots hslots (fun t ht => hcalled.child (List.mem_cons_of_mem _ ht)) hpassing
    fun t ht => mem_of_hasArgumentComments hclean t (List.mem_cons_of_mem _ ht)
  rw [comments_node, List.flatMap_cons, hrest, calleeComments, arguments, hread]
  rfl

theorem outerComments_perm {call : Tree} (hcall : call.isKind .call = true) (hcalled : call.Called)
    (hplain : hasPlainArguments call = true) (hclean : hasArgumentComments call = false) :
    call.outerComments.Perm call.calleeComments := by
  have hcomments := comments_call hcall hcalled hplain hclean
  have hsplit : (call.arguments.flatMap (·.value.comments) ++ call.outerComments).Perm call.comments := by
    refine List.subperm_append_diff_self_of_count_le fun l _ => ?_
    rw [hcomments, List.count_append]
    omega
  rw [hcomments] at hsplit
  exact (List.perm_append_left_iff _).mp (hsplit.trans List.perm_append_comm)

/-! ### The comments of a chain -/

/-- A chain has the comments of the trees in its slots. -/
theorem comments_chainTree {c : Classification} (hc : c.slots = slotsOf m c.shape) (f : Slot → Tree) :
    (chainTree m c f).comments.Perm (c.slots.flatMap fun s => (f s.1).comments) := by
  refine List.perm_iff_count.mpr fun l => ?_
  rw [hc]
  unfold chainTree startTree
  cases c.shape <;>
    simp [Shape.hasMessage, Shape.hasTolerance, slotsOf, callTree, callTree₂, memberTree, Term.mark, Term.nameLeaf] <;>
    omega

theorem flatMap_toList {α β γ : Type} (f : α → Option β) (g : β → List γ) (xs : List α) :
    (xs.flatMap fun x => ((f x).map g).getD []) = (xs.filterMap f).flatMap g := by
  induction xs with
  | nil => rfl
  | cons x xs ih =>
    cases hx : f x with
    | none => rw [List.flatMap_cons, hx, List.filterMap_cons_none hx, ← ih]; rfl
    | some y => rw [List.flatMap_cons, hx, List.filterMap_cons_some hx, List.flatMap_cons, ← ih]; rfl

/-- The chain of a replaced call has the comments of its argument values, as they are migrated. -/
theorem comments_migrated_chained (hm : m.Accepted) {k : Kind} {ts : List Tree} {p : Path} {c : Classification}
    (hp : chains p = some c) (hplan : Planned m chains (.node k ts) p) :
    (migrated m chains (.node k ts) p).comments.Perm
      (((Source.Tree.node k ts).argumentsAt p).flatMap fun a => (migrated m chains a.2.value a.1).comments) := by
  obtain ⟨-, hc, -⟩ := hplan _ (mem_nodesFrom_self k ts p) c hp
  have hempty : (default : Tree).comments = [] := rfl
  have hslot : ∀ s : Slot × ArgumentIndex,
      (((slotItem c ((Source.Tree.node k ts).argumentsAt p) s.1).map fun a =>
        migrated m chains a.2.value a.1).getD default).comments =
      ((slotItem c ((Source.Tree.node k ts).argumentsAt p) s.1).map fun a =>
        (migrated m chains a.2.value a.1).comments).getD [] := by
    intro s
    cases slotItem c ((Source.Tree.node k ts).argumentsAt p) s.1 <;> rfl
  rw [migrated_chained hp]
  refine (comments_chainTree hc _).trans ?_
  simp only [hslot]
  rw [flatMap_toList]
  exact (slotItem_perm hm hc (hplan.length_argumentsAt hp)).flatMap_right _

/-! ### Trees whose calls are replaced -/

/-- A call in a tree at a path that is replaced. -/
def Replaced (chains : Path → Option Classification) (t : Tree) (p : Path) (u : Tree) : Prop :=
  u.isKind .call = true ∧ ∃ r, t.at? r = some u ∧ (chains (r ++ p)).isSome = true

theorem Replaced.part {t u v : Tree} {p r : Path} (h : Replaced chains u (r ++ p) v) (hu : t.at? r = some u) :
    Replaced chains t p v := by
  obtain ⟨hk, r', hv, hsome⟩ := h
  refine ⟨hk, r' ++ r, ?_, by rwa [List.append_assoc]⟩
  rw [at?_append, hu]
  exact hv

theorem Replaced.of_argument {k : Kind} {ts : List Tree} {p : Path} {a : Path × Argument} {u : Tree}
    (h : Replaced chains a.2.value a.1 u) (ha : a ∈ (Source.Tree.node k ts).argumentsAt p) :
    Replaced chains (.node k ts) p u := by
  obtain ⟨i, j, hij, hat⟩ := at?_argumentsAt ha
  rw [hij] at h
  exact h.part (r := [j, i]) hat

theorem Replaced.sublist_comments {t u : Tree} {p : Path} (h : Replaced chains t p u) :
    u.comments.Sublist t.comments := by
  obtain ⟨-, r, hat, -⟩ := h
  exact sublist_comments_of_at? hat

theorem not_replaced_leaf (l : Leaf) (p : Path) (u : Tree) : ¬ Replaced chains (.leaf l) p u := by
  rintro ⟨hk, r, hat, -⟩
  cases r with
  | nil =>
    cases hat
    cases hk
  | cons i r =>
    rw [at?_leaf_cons] at hat
    cases hat

theorem replaced_node_iff {k : Kind} {ts : List Tree} {p : Path} {u : Tree} :
    Replaced chains (.node k ts) p u ↔ u = .node k ts ∧ u.isKind .call = true ∧ (chains p).isSome = true ∨
      ∃ c ∈ locate p ts, Replaced chains c.2 c.1 u := by
  constructor
  · rintro ⟨hk, r, hu, hsome⟩
    rcases List.eq_nil_or_concat' r with rfl | ⟨r, i, rfl⟩
    · cases hu
      exact .inl ⟨rfl, hk, hsome⟩
    · rw [at?_node_concat] at hu
      obtain ⟨v, hv, hu⟩ := Option.bind_eq_some_iff.mp hu
      rw [List.append_assoc] at hsome
      exact .inr ⟨(i :: p, v), mem_locate.mpr ⟨i, rfl, hv⟩, hk, r, hu, hsome⟩
  · rintro (⟨rfl, hk, hsome⟩ | ⟨c, hc, hr⟩)
    · exact ⟨hk, [], rfl, hsome⟩
    · obtain ⟨i, hi, hv⟩ := mem_locate.mp hc
      rw [hi] at hr
      exact hr.part (r := [i]) hv

/-- What is replaced in an argument that is nothing but its value is replaced in the value. -/
theorem replaced_argument {p : Path} {v u : Tree} (h : Replaced chains (.node .argument [v]) p u) :
    Replaced chains v (0 :: p) u := by
  rcases replaced_node_iff.mp h with ⟨rfl, hk, -⟩ | ⟨c, hc, hr⟩
  · cases hk
  · obtain ⟨i, hi, hv⟩ := mem_locate.mp hc
    cases i with
    | zero =>
      cases hv
      rwa [hi] at hr
    | succ i => cases hv

theorem argumentAt?_single {q : Path} {a : Argument} (h : (Source.Tree.node .argument [a.value]).argument? = some a) :
    argumentAt? q (.node .argument [a.value]) = some (0 :: q, a) := by
  have hvalue : a.value.isTrivia = false := isTrivia_value h
  have hparts : (locate q [a.value]).filter (!·.2.isTrivia) = [(0 :: q, a.value)] := by
    simp [locate, hvalue]
  simp only [argumentAt?, h, children, hparts, List.getLast?_singleton]

/-- Every child behind the callee that can be read as an argument is one. -/
theorem mem_argumentsAt {callee : Tree} {rest : List Tree} {p : Path} {c : Path × Tree} {a : Path × Argument}
    (htrivia : callee.isTrivia = false) (hc : c ∈ locate p (callee :: rest)) (hne : c.1 ≠ 0 :: p)
    (hsolid : c.2.isTrivia = false) (ha : argumentAt? c.1 c.2 = some a) :
    a ∈ (Source.Tree.node .call (callee :: rest)).argumentsAt p := by
  obtain ⟨cs, hcs⟩ : ∃ cs, locate p (callee :: rest) = (0 :: p, callee) :: cs := ⟨_, rfl⟩
  have hbehind : c ∈ cs := by
    rw [hcs] at hc
    rcases List.mem_cons.mp hc with rfl | hc
    · exact absurd rfl hne
    · exact hc
  refine List.mem_filterMap.mpr ⟨c, ?_, ha⟩
  rw [children, hcs, List.filter_cons_of_pos (by simp [htrivia]), List.drop_one, List.tail_cons]
  exact List.mem_filter.mpr ⟨hbehind, by simp [hsolid]⟩

/-- What is replaced in a replaced call is the call itself, in an argument value, or in what is called. -/
theorem replaced_call {call : Tree} {p : Path} (hcall : call.isKind .call = true) (hcalled : call.Called)
    (hplain : hasPlainArguments call = true) {u : Tree} (h : Replaced chains call p u) :
    u = call ∨ (∃ a ∈ call.argumentsAt p, Replaced chains a.2.value a.1 u) ∨
      u.comments.Sublist call.calleeComments := by
  obtain ⟨ts, rfl⟩ := exists_of_isKind hcall
  obtain ⟨callee, rest, rfl, htrivia, hslots⟩ := hcalled.self
  have hread := call?_node htrivia rest
  rcases replaced_node_iff.mp h with ⟨rfl, -⟩ | ⟨⟨q, v⟩, hc, hr⟩
  · exact .inl rfl
  · obtain ⟨i, hi, hv⟩ := mem_locate.mp hc
    cases i with
    | zero =>
      cases hv
      rw [calleeComments, hread]
      exact .inr (.inr hr.sublist_comments)
    | succ i =>
      have hmem : v ∈ rest := List.mem_of_getElem? hv
      rcases hslots v hmem with ⟨l, rfl⟩ | hargument
      · exact absurd hr (not_replaced_leaf l _ u)
      · obtain ⟨us, rfl⟩ := exists_of_isKind hargument
        obtain ⟨a, ha, hvalue⟩ := (hcalled.child (List.mem_cons_of_mem _ hmem)).self
        have hmemArgs := List.mem_filterMap.mpr ⟨_, mem_partsOf.mpr ⟨hmem, rfl⟩, ha⟩
        rw [hasPlainArguments, hread] at hplain
        obtain rfl := hvalue (by simpa using List.all_eq_true.mp hplain a hmemArgs)
        refine .inr (.inl ⟨(0 :: q, a), ?_, replaced_argument hr⟩)
        exact mem_argumentsAt htrivia hc (fun heq => by cases heq.symm.trans hi) rfl (argumentAt?_single ha)

/-! ### The comments of a migrated tree -/

theorem subperm_flatMap {α β : Type} [DecidableEq β] {cs : List α} {f g : α → List β}
    (h : ∀ c ∈ cs, (f c).Subperm (g c)) : (cs.flatMap f).Subperm (cs.flatMap g) := by
  induction cs with
  | nil => exact List.Subperm.refl _
  | cons c cs ih =>
    rw [List.forall_mem_cons] at h
    rw [List.flatMap_cons, List.flatMap_cons]
    exact ((List.subperm_append_right _).mpr h.1).trans ((List.subperm_append_left _).mpr (ih h.2))

/-- Lists that are parts of others are all of them together exactly when each is all of its own. -/
theorem perm_flatMap_iff {α β : Type} [DecidableEq β] {cs : List α} {f g : α → List β}
    (h : ∀ c ∈ cs, (f c).Subperm (g c)) :
    (cs.flatMap f).Perm (cs.flatMap g) ↔ ∀ c ∈ cs, (f c).Perm (g c) := by
  induction cs with
  | nil => exact ⟨fun _ => List.forall_mem_nil _, fun _ => .refl _⟩
  | cons c cs ih =>
    rw [List.forall_mem_cons] at h ⊢
    rw [List.flatMap_cons, List.flatMap_cons, ← ih h.2]
    refine ⟨fun hperm => ?_, fun ⟨hc, hcs⟩ => hc.append hcs⟩
    have hlen := hperm.length_eq
    have hfirst := h.1.length_le
    have hrest := (subperm_flatMap h.2).length_le
    rw [List.length_append, List.length_append] at hlen
    exact ⟨h.1.perm_of_length_le (by omega), (subperm_flatMap h.2).perm_of_length_le (by omega)⟩

/-- The replaced calls of a tree are passed plain arguments without comments between them. -/
def Tidy (chains : Path → Option Classification) (t : Tree) (p : Path) : Prop :=
  ∀ u, Replaced chains t p u → hasPlainArguments u = true ∧ hasArgumentComments u = false

/-- A migrated tree has comments of the tree only, and all of them exactly when no replaced call has a comment in its
callee. -/
theorem comments_migrated (hm : m.Accepted) {t : Tree} {p : Path} (hcalled : t.Called) (hplan : Planned m chains t p)
    (htidy : Tidy chains t p) :
    (migrated m chains t p).comments.Subperm t.comments ∧
      ((migrated m chains t p).comments.Perm t.comments ↔ ∀ u, Replaced chains t p u → u.calleeComments = []) := by
  refine retell_induct chains
    (P := fun p t => t.Called → Planned m chains t p → Tidy chains t p →
      (migrated m chains t p).comments.Subperm t.comments ∧
        ((migrated m chains t p).comments.Perm t.comments ↔ ∀ u, Replaced chains t p u → u.calleeComments = []))
    ?_ ?_ ?_ t p hcalled hplan htidy
  · intro p l _ _ _
    have hsame : migrated m chains (.leaf l) p = .leaf l := retell_leaf _ l p
    rw [hsame]
    exact ⟨.refl _, fun _ u hu => absurd hu (not_replaced_leaf l p u), fun _ => .refl _⟩
  · -- a kept node has the comments of its children
    intro p k ts hp ih hcalled hplan htidy
    have hall : ∀ c ∈ locate p ts, (migrated m chains c.2 c.1).comments.Subperm c.2.comments ∧
        ((migrated m chains c.2 c.1).comments.Perm c.2.comments ↔
          ∀ u, Replaced chains c.2 c.1 u → u.calleeComments = []) := fun c hc =>
      ih c hc (hcalled.child (mem_of_mem_locate hc)) (hplan.child hc)
        fun u hu => htidy u (replaced_node_iff.mpr (.inr ⟨c, hc, hu⟩))
    have hleft : (migrated m chains (.node k ts) p).comments =
        (locate p ts).flatMap fun c => (migrated m chains c.2 c.1).comments := by
      rw [migrated_kept hp, comments_node, List.flatMap_map]
    have hright : (Source.Tree.node k ts).comments = (locate p ts).flatMap fun c => c.2.comments := by
      rw [comments_node, ← List.flatMap_map Prod.snd, map_snd_locate]
    rw [hleft, hright, perm_flatMap_iff fun c hc => (hall c hc).1]
    refine ⟨subperm_flatMap fun c hc => (hall c hc).1, fun h u hu => ?_, fun h c hc => ?_⟩
    · rcases replaced_node_iff.mp hu with ⟨-, -, hsome⟩ | ⟨c, hc, hu⟩
      · rw [hp] at hsome
        cases hsome
      · exact (hall c hc).2.mp (h c hc) u hu
    · exact (hall c hc).2.mpr fun u hu => h u (replaced_node_iff.mpr (.inr ⟨c, hc, hu⟩))
  · -- a chain has the comments of the arguments, and the call had those of its callee as well
    intro p k ts c hp ih hcalled hplan htidy
    obtain ⟨hcall, -, -⟩ := hplan _ (mem_nodesFrom_self k ts p) c hp
    have hself : Replaced chains (.node k ts) p (.node k ts) := ⟨hcall, [], rfl, by rw [List.nil_append, hp]; rfl⟩
    obtain ⟨hplain, hclean⟩ := htidy _ hself
    have hall : ∀ a ∈ (Source.Tree.node k ts).argumentsAt p,
        (migrated m chains a.2.value a.1).comments.Subperm a.2.value.comments ∧
        ((migrated m chains a.2.value a.1).comments.Perm a.2.value.comments ↔
          ∀ u, Replaced chains a.2.value a.1 u → u.calleeComments = []) := by
      intro a ha
      obtain ⟨i, j, hij, hat⟩ := at?_argumentsAt ha
      refine ih a ha (hcalled.part hat) ?_ fun u hu => htidy u (hu.of_argument ha)
      rw [hij]
      exact hplan.part hat
    have hleft := comments_migrated_chained hm hp hplan
    have hright : (Source.Tree.node k ts).comments = (Source.Tree.node k ts).calleeComments ++
        ((Source.Tree.node k ts).argumentsAt p).flatMap fun a => a.2.value.comments := by
      obtain rfl := isKind_node.mp hcall
      rw [comments_call hcall hcalled hplain hclean, ← map_snd_argumentsAt p, List.flatMap_map]
    have hargs := subperm_flatMap fun a ha => (hall a ha).1
    rw [hright]
    refine ⟨?_, fun h u hu => ?_, fun h => ?_⟩
    · exact hleft.subperm.trans (hargs.trans (List.sublist_append_right _ _).subperm)
    · -- the callee adds nothing, and the argument values keep all they have
      have hlen := (hleft.symm.trans h).length_eq
      have hcallee : (Source.Tree.node k ts).calleeComments = [] := by
        have hle := hargs.length_le
        rw [List.length_append] at hlen
        exact List.length_eq_zero_iff.mp (by omega)
      rw [hcallee, List.nil_append] at h
      have hvalues := (perm_flatMap_iff fun a ha => (hall a ha).1).mp (hleft.symm.trans h)
      rcases replaced_call hcall hcalled hplain hu with rfl | ⟨a, ha, hua⟩ | hsub
      · exact hcallee
      · exact (hall a ha).2.mp (hvalues a ha) u hua
      · rw [hcallee] at hsub
        have hsub := (sublist_calleeComments u).trans hsub
        exact List.sublist_nil.mp hsub
    · rw [h _ hself, List.nil_append]
      refine hleft.trans ((perm_flatMap_iff fun a ha => (hall a ha).1).mpr fun a ha => ?_)
      exact (hall a ha).2.mpr fun u hu => h u (hu.of_argument ha)

/-! ### The comments of a rewritten file -/

section Rewritten

variable {s : Setup} {f : SourceFile} {o : Outcome}

/-- The replaced calls of a file are the rewritten ones. -/
theorem replaced_chains_iff (h : (rewriteCalls s f).value = .ok o) {u : Tree} :
    Replaced o.chains f.tree [] u ↔ ∃ r ∈ o.rewritten, r.site.call = u := by
  constructor
  · rintro ⟨-, q, hat, hsome⟩
    rw [List.append_nil] at hsome
    obtain ⟨r, hr, rfl⟩ := List.mem_map.mp ((isSome_chains h).mp hsome)
    have hcall := (call_of_rewritten h hr).2.1
    rw [hat] at hcall
    exact ⟨r, hr, (Option.some.inj hcall).symm⟩
  · rintro ⟨r, hr, rfl⟩
    obtain ⟨-, hat, hk, -⟩ := call_of_rewritten h hr
    refine ⟨hk, r.site.path, hat, ?_⟩
    rw [List.append_nil]
    exact (isSome_chains h).mpr (List.mem_map_of_mem (f := fun r => r.site.path) hr)

/-- Every collected call is either rewritten or skipped. -/
theorem Accounted.skipped_iff (h : Accounted s f o) {c : CallSite} (hc : c ∈ sitesOf s f) :
    c ∈ o.skipped.map (·.site) ↔ c ∉ o.rewritten.map (·.site) := by
  have hnodup := h.once.nodup_iff.mpr h.distinct.of_map
  have hmem := h.once.mem_iff.mpr hc
  rw [List.mem_append] at hmem
  constructor
  · intro hskipped hrewritten
    exact (List.nodup_append.mp hnodup).2.2 c hrewritten c hskipped rfl
  · intro hrewritten
    exact hmem.resolve_left hrewritten

variable (hm : s.mapping.Accepted)

include hm

/-- A rewrite adds no comment.  It keeps all comments of a file, and skips every call with a comment outside its argument
values, exactly when no call that it rewrites has a comment in its callee. -/
theorem rewriteCalls_comments {text : String} (hf : SourceFile.parse? text = some f)
    (h : (rewriteCalls s f).value = .ok o) :
    o.file.tree.comments.Subperm f.tree.comments ∧
      (o.file.tree.comments.Perm f.tree.comments ↔ ∀ r ∈ o.rewritten, r.site.call.calleeComments = []) ∧
      ((∀ c ∈ sitesOf s f, c.call.outerComments ≠ [] → c ∈ o.skipped.map (·.site)) ↔
        ∀ r ∈ o.rewritten, r.site.call.calleeComments = []) := by
  have haccounted := rewriteCalls_accounted hm h
  have hcalled := called_parse? hf
  have hrewritable : ∀ r ∈ o.rewritten, Rewritable s f r.site := fun r hr =>
    (haccounted.rewritten_iff _ (call_of_rewritten h hr).1).mp (List.mem_map_of_mem (f := fun r => r.site) hr)
  have htidy : Tidy o.chains f.tree [] := by
    intro u hu
    obtain ⟨r, hr, rfl⟩ := (replaced_chains_iff h).mp hu
    exact ⟨(hrewritable r hr).plain, (hrewritable r hr).clean⟩
  have houter : ∀ r ∈ o.rewritten, r.site.call.outerComments = [] ↔ r.site.call.calleeComments = [] := by
    intro r hr
    obtain ⟨-, hat, hk, -⟩ := call_of_rewritten h hr
    have hperm := outerComments_perm hk (hcalled.part hat) (hrewritable r hr).plain (hrewritable r hr).clean
    exact ⟨fun hnil => (hnil ▸ hperm).nil_eq.symm, fun hnil => (hnil ▸ hperm).eq_nil⟩
  obtain ⟨hsubperm, hperm⟩ := comments_migrated hm hcalled (planned_chains h) htidy
  rw [← tree_of_rewriteCalls hm h] at hsubperm hperm
  refine ⟨hsubperm, hperm.trans ⟨fun hall r hr => ?_, fun hall u hu => ?_⟩, fun hall r hr => ?_, fun hall c hc hne => ?_⟩
  · exact hall _ ((replaced_chains_iff h).mpr ⟨r, hr, rfl⟩)
  · obtain ⟨r, hr, rfl⟩ := (replaced_chains_iff h).mp hu
    exact hall r hr
  · -- a rewritten call is not skipped, so it has no comment outside its argument values
    have hsite := (call_of_rewritten h hr).1
    refine (houter r hr).mp (by_contra fun hne => ?_)
    exact (haccounted.skipped_iff hsite).mp (hall _ hsite hne) (List.mem_map_of_mem (f := fun r => r.site) hr)
  · refine (haccounted.skipped_iff hc).mpr fun hrewritten => ?_
    obtain ⟨r, hr, rfl⟩ := List.mem_map.mp hrewritten
    exact hne ((houter r hr).mpr (hall r hr))

end Rewritten

/-! ### Comments in a callee -/

/-- The comments of a text before and after its calls are rewritten, those in the callees of rewritten calls, and the
numbers of the calls that are rewritten and skipped. -/
structure Commentary where
  before : List String
  after : List String
  callees : List (List Leaf)
  skipped : Nat
  deriving DecidableEq

/-- Rewrites the calls of a text and looks at the comments. -/
def commentary (s : Setup) (text : String) : Option Commentary :=
  (SourceFile.parse? text).bind fun f => (rewriteCalls s f).value.toOption.map fun o =>
    ⟨f.tree.comments.map (·.text), o.file.tree.comments.map (·.text), o.rewritten.map (·.site.call.calleeComments),
      o.skipped.length⟩

theorem of_commentary {s : Setup} {text : String} {r : Commentary} (h : commentary s text = some r) :
    ∃ f o, SourceFile.parse? text = some f ∧ (rewriteCalls s f).value = .ok o ∧
      f.tree.comments.map (·.text) = r.before ∧ o.file.tree.comments.map (·.text) = r.after ∧
      o.rewritten.map (·.site.call.calleeComments) = r.callees ∧ o.skipped.length = r.skipped := by
  obtain ⟨f, hf, h⟩ := Option.bind_eq_some_iff.mp h
  obtain ⟨o, ho, rfl⟩ := Option.map_eq_some_iff.mp h
  exact ⟨f, o, hf, Except.eq_ok_of_toOption ho, rfl, rfl, rfl, rfl⟩

/-- A text with a comment between the arguments of one call, and in an argument of another. -/
def commentedText : String :=
  "from junit.Assertions import assertEquals\nassertEquals(  # a\n    1, 2)\nassertEquals((  # b\n    1), 2)\n"

/-- A text with a comment in parentheses around what is called. -/
def remarkText : String :=
  "from junit.Assertions import assertEquals\n(\n    # why\n    assertEquals\n)(1, 2)\n"

set_option maxRecDepth 100000 in
theorem commentaries :
    commentary plainSetup commentedText = some ⟨["# a", "# b"], ["# a", "# b"], [[]], 1⟩ ∧
      commentary plainSetup remarkText = some ⟨["# why"], [], [[⟨.comment, "# why"⟩]], 0⟩ := by
  simp only [commentary, (rewriteCalls_direct (s := plainSetup) Mapping.accepted_standard chainNames_standard _).value]
  exact ⟨by decide +kernel, by decide +kernel⟩

/-- The comments of `commentedText` stay, and the call with one between its arguments is skipped. -/
theorem comments_commentedText :
    ∃ f o, SourceFile.parse? commentedText = some f ∧ (rewriteCalls plainSetup f).value = .ok o ∧
      o.rewritten.length = 1 ∧ o.skipped.length = 1 ∧ o.file.tree.comments.Perm f.tree.comments ∧
      ∀ c ∈ sitesOf plainSetup f, c.call.outerComments ≠ [] → c ∈ o.skipped.map (·.site) := by
  obtain ⟨f, o, hf, ho, -, -, hcallees, hskipped⟩ := of_commentary commentaries.1
  have hempty : ∀ r ∈ o.rewritten, r.site.call.calleeComments = [] := by
    intro r hr
    have hmem := List.mem_map_of_mem (f := fun r : Rewritten => r.site.call.calleeComments) hr
    rw [hcallees] at hmem
    exact List.mem_singleton.mp hmem
  obtain ⟨-, hperm, hskips⟩ := rewriteCalls_comments Mapping.accepted_standard hf ho
  refine ⟨f, o, hf, ho, ?_, hskipped, hperm.mpr hempty, hskips.mpr hempty⟩
  rw [← List.length_map fun r : Rewritten => r.site.call.calleeComments, hcallees]
  rfl

/-- The call of `remarkText` has a comment outside its arguments, but it is rewritten, and the comment is lost. -/
theorem lost_remarkText :
    ∃ f o, SourceFile.parse? remarkText = some f ∧ (rewriteCalls plainSetup f).value = .ok o ∧ o.skipped = [] ∧
      (∃ r ∈ o.rewritten, r.site.call.calleeComments ≠ []) ∧ ¬ o.file.tree.comments.Perm f.tree.comments := by
  obtain ⟨f, o, hf, ho, hbefore, hafter, hcallees, hskipped⟩ := of_commentary commentaries.2
  refine ⟨f, o, hf, ho, List.length_eq_zero_iff.mp hskipped, ?_, fun hperm => ?_⟩
  · have hmem : [⟨.comment, "# why"⟩] ∈ o.rewritten.map (·.site.call.calleeComments) := by
      rw [hcallees]
      exact List.mem_singleton_self _
    obtain ⟨r, hr, heq⟩ := List.mem_map.mp hmem
    exact ⟨r, hr, fun hnil => by rw [hnil] at heq; cases heq⟩
  · have hlen := (hperm.map (·.text)).length_eq
    rw [hbefore, hafter] at hlen
    cases hlen

end FluentShift.Rewrite
