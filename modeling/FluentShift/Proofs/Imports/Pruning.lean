import FluentShift.Proofs.Imports.Statements

/-!
# FluentShift.Proofs.Imports.Pruning - taking imports out leaves the others

`prune` takes out the names that a verdict is against, with the statements and lines that are empty then.  What is left
of the imports is all the others, in their order (`taken_pruneAt`), and so are they when unwanted imports are removed
(`taken_remove`).
-/

namespace FluentShift.Imports

open FluentShift.Source FluentShift.Source.Tree FluentShift.Scope

variable {lineBreak : String} {vs : List (Path × List Bool)}

/-- The imports of a tree. -/
def takenIn (t : Tree) : List Taken := (importsIn t).flatMap takenBy

theorem takenIn_trivia {t : Tree} (h : t.isTrivia = true) : takenIn t = [] := by
  cases t with
  | leaf l => rfl
  | node k ts => cases h

theorem takenIn_node (k : Kind) (ts : List Tree) :
    takenIn (.node k ts) = (Source.Tree.node k ts).importStatement?.toList.flatMap takenBy ++ ts.flatMap takenIn := by
  unfold takenIn
  rw [importsIn_node, List.flatMap_append, List.flatMap_assoc]

/-- The imports that verdicts leave of a statement. -/
def remaining (vs : List (Path × List Bool)) (s : Path × ImportStatement) : List Taken :=
  match vs.lookup s.1 with
  | some kept => (((takenBy s.2).zip kept).filter (·.2)).map (·.1)
  | none => takenBy s.2

/-- The imports that verdicts leave of a tree at a path. -/
def remainingIn (vs : List (Path × List Bool)) (t : Tree) (p : Path) : List Taken :=
  (importsFrom t p).flatMap (remaining vs)

/-! ### One node -/

/-- What is left of a node from what is left of its children, when a verdict says which of its names stay. -/
def pruneNode (lineBreak : String) (verdict : Option (List Bool)) (k : Kind) (self : Tree)
    (results : List (Tree × Option Tree)) : Option Tree :=
  match verdict, k with
  | some kept, _ => if kept.any (·) then some (keepNames kept self) else none
  | none, .simpleLine =>
    if (results.filter fun r => isStatement r.1).any (·.2.isSome) then some (.node k (keepStatements results))
    else none
  | none, .suite =>
    let left := keepStatements results
    some (.node k (if left.any isStatement then left else passMark :: left))
  | none, .block => some (keepBlock lineBreak results)
  | none, .module => some (keepModule results)
  | none, _ => some (.node k (results.map fun r => r.2.getD r.1))

/-- What is left of a tree at a path. -/
def pruneAt (lineBreak : String) (vs : List (Path × List Bool)) : Tree → Path → Option Tree :=
  Tree.para (fun l _ => some (.leaf l)) fun k ts p =>
    pruneNode lineBreak (vs.lookup p) k (.node k (ts.map (·.1))) ((Tree.locate p ts).map fun c => (c.2.1, c.2.2 c.1))

theorem prune_eq (t : Tree) : prune lineBreak vs t = (pruneAt lineBreak vs t []).getD t := rfl

/-- The children of a node with what is left of them. -/
def leftOf (lineBreak : String) (vs : List (Path × List Bool)) (ts : List Tree) (p : Path) : List (Tree × Option Tree) :=
  (locate p ts).map fun c => (c.2, pruneAt lineBreak vs c.2 c.1)

theorem pruneAt_node (k : Kind) (ts : List Tree) (p : Path) :
    pruneAt lineBreak vs (.node k ts) p =
      pruneNode lineBreak (vs.lookup p) k (.node k ts) (leftOf lineBreak vs ts p) := by
  have hleft : ((locate p (ts.map fun t => (t, pruneAt lineBreak vs t))).map fun c => (c.2.1, c.2.2 c.1)) =
      leftOf lineBreak vs ts p := by
    rw [locate_map, List.map_map]
    rfl
  have hself : (ts.map fun t => (t, pruneAt lineBreak vs t)).map (·.1) = ts := by
    rw [List.map_map]
    exact List.map_id ts
  rw [← hleft]
  show pruneNode _ _ _ (Source.Tree.node k _) _ = _
  rw [paraAll_eq_map, show (ts.map fun t => (t, Tree.para _ _ t)) = ts.map fun t => (t, pruneAt lineBreak vs t) from rfl,
    hself]

/-! ### What is left of children -/

/-- The imports in what is left of a tree. -/
def takenLeft (r : Option Tree) : List Taken := (r.map takenIn).getD []

/-- Leaves are always left. -/
def KeepsLeaves (rs : List (Tree × Option Tree)) : Prop := ∀ r ∈ rs, ∀ l, r.1 = .leaf l → r.2 = some (.leaf l)

/-- What may stand among the statements that are left: a leaf, or what is left of a child. -/
def LeftFrom (rs : List (Tree × Option Tree)) (u : Tree) : Prop := (∃ l, u = .leaf l) ∨ ∃ r ∈ rs, r.2 = some u

theorem LeftFrom.mono {rs rs' : List (Tree × Option Tree)} {u : Tree} (h : LeftFrom rs u) (hsub : rs ⊆ rs') :
    LeftFrom rs' u :=
  h.imp id fun ⟨r, hr, hu⟩ => ⟨r, hsub hr, hu⟩

theorem exists_leaf_of_isTrivia {t : Tree} (h : t.isTrivia = true) : ∃ l, t = .leaf l := by
  cases t with
  | leaf l => exact ⟨l, rfl⟩
  | node k ts => cases h

/-- Dropping statements that are gone, with their semicolons, leaves the imports of the others. -/
theorem taken_keepStatements {rs : List (Tree × Option Tree)} (hrs : KeepsLeaves rs) :
    (keepStatements rs).flatMap takenIn = (rs.flatMap fun r => takenLeft r.2) ∧
      (∀ lead, lead.flatMap takenIn = [] →
        (keepStatements.skipSemicolon lead rs).flatMap takenIn = rs.flatMap fun r => takenLeft r.2) ∧
      (keepStatements.skipBlanks rs).flatMap takenIn = rs.flatMap fun r => takenLeft r.2 := by
  induction rs with
  | nil => exact ⟨rfl, fun _ hlead => hlead, rfl⟩
  | cons r rs ih =>
    obtain ⟨t, o⟩ := r
    -- a leaf is never gone, so only nodes have imports to lose
    have hhead : ∀ l, t = .leaf l → o = some (.leaf l) := hrs _ (List.mem_cons_self ..)
    obtain ⟨hkeep, hsemi, hblank⟩ := ih fun r hr => hrs r (List.mem_cons_of_mem _ hr)
    have hnone : ∀ l, t = .leaf l → takenLeft o = [] := fun l hl => by rw [hhead l hl]; rfl
    rw [List.flatMap_cons]
    refine ⟨?_, fun lead hlead => ?_, ?_⟩
    · cases o with
      | none => exact hsemi [] rfl
      | some u => exact congrArg (takenIn u ++ ·) hkeep
    · rw [keepStatements.skipSemicolon]
      split
      · next htrivia =>
        obtain ⟨l, hl⟩ := exists_leaf_of_isTrivia htrivia
        rw [hnone l hl]
        refine hsemi _ ?_
        rw [List.flatMap_append, hlead, hl]
        rfl
      · split
        · next hmark =>
          obtain ⟨l, hl⟩ : ∃ l, t = .leaf l := by
            cases t with
            | leaf l => exact ⟨l, rfl⟩
            | node k ts => cases hmark
          rw [hnone l hl]
          exact hblank
        · rw [List.flatMap_append, List.flatMap_append, hlead, hkeep]
          cases o with
          | none => rfl
          | some u =>
            show (takenIn u ++ []) ++ _ = takenIn u ++ _
            rw [List.append_nil]
    · unfold keepStatements.skipBlanks
      split
      · next htrivia =>
        obtain ⟨l, hl⟩ := exists_leaf_of_isTrivia ((Bool.and_eq_true _ _).mp htrivia).1
        rw [hnone l hl]
        exact hblank
      · cases o with
        | none => exact hsemi [] rfl
        | some u => exact congrArg (takenIn u ++ ·) hkeep

theorem leftFrom_keepStatements (rs : List (Tree × Option Tree)) :
    (∀ u ∈ keepStatements rs, LeftFrom rs u) ∧
      (∀ lead, (∀ u ∈ lead, ∃ l, u = .leaf l) → ∀ u ∈ keepStatements.skipSemicolon lead rs, LeftFrom rs u) ∧
      ∀ u ∈ keepStatements.skipBlanks rs, LeftFrom rs u := by
  induction rs with
  | nil => exact ⟨List.forall_mem_nil _, fun lead hlead u hu => .inl (hlead u hu), List.forall_mem_nil _⟩
  | cons r rs ih =>
    obtain ⟨t, o⟩ := r
    obtain ⟨hkeep, hsemi, hblank⟩ := ih
    have hmono : ∀ {us : List Tree}, (∀ u ∈ us, LeftFrom rs u) → ∀ u ∈ us, LeftFrom ((t, o) :: rs) u :=
      fun h u hu => (h u hu).mono (List.subset_cons_self _ _)
    have hself : ∀ v, o = some v → LeftFrom ((t, o) :: rs) v := fun v hv => .inr ⟨_, List.mem_cons_self .., hv⟩
    refine ⟨?_, fun lead hlead => ?_, ?_⟩
    · cases o with
      | none => exact hmono (hsemi [] (List.forall_mem_nil _))
      | some u => exact List.forall_mem_cons.mpr ⟨hself u rfl, hmono hkeep⟩
    · rw [keepStatements.skipSemicolon]
      split
      · next htrivia =>
        refine hmono (hsemi _ fun u hu => ?_)
        rcases List.mem_append.mp hu with hu | hu
        · exact hlead u hu
        · rw [List.mem_singleton.mp hu]
          exact exists_leaf_of_isTrivia htrivia
      · split
        · exact hmono hblank
        · refine forall_append (fun u hu => .inl (hlead u hu)) (forall_append (fun u hu => ?_) (hmono hkeep))
          exact hself u (Option.mem_toList.mp hu)
    · unfold keepStatements.skipBlanks
      split
      · exact hmono hblank
      · cases o with
        | none => exact hmono (hsemi [] (List.forall_mem_nil _))
        | some u => exact List.forall_mem_cons.mpr ⟨hself u rfl, hmono hkeep⟩

/-! ### What is left of lines -/

/-- Lines with what is left of them: trivia before each, and what is left of it is what is left of a child. -/
def LinesOf (rs : List (Tree × Option Tree)) (zs : List (Item × Option Tree)) : Prop :=
  ∀ z ∈ zs, (∀ t ∈ z.1.lead, t.isTrivia = true) ∧ ∃ r ∈ rs, r.2 = z.2

theorem linesOf_itemsLeft (rs : List (Tree × Option Tree)) : LinesOf rs (itemsLeft rs).1 := by
  intro z hz
  obtain ⟨hitem, hleft⟩ := List.of_mem_zip (a := z.1) (b := z.2) hz
  obtain ⟨r, hr, heq⟩ := List.mem_map.mp hleft
  exact ⟨(neat_items z.1 hitem).1, r, List.mem_of_mem_filter hr, heq⟩

theorem isTrivia_itemsLeft (rs : List (Tree × Option Tree)) : ∀ t ∈ (itemsLeft rs).2, t.isTrivia = true := isTrivia_items

/-- No import is in what is left between the lines. -/
theorem taken_itemsLeft {rs : List (Tree × Option Tree)} (hrs : KeepsLeaves rs) :
    (rs.flatMap fun r => takenLeft r.2) = (itemsLeft rs).1.flatMap fun z => takenLeft z.2 := by
  have hfilter : (rs.flatMap fun r => takenLeft r.2) =
      ((rs.filter fun t => !t.1.isTrivia).map (·.2)).flatMap takenLeft := by
    rw [List.flatMap_map]
    induction rs with
    | nil => rfl
    | cons r rs ih =>
      have hrest := ih fun r hr => hrs r (List.mem_cons_of_mem _ hr)
      rw [List.flatMap_cons, List.filter_cons]
      by_cases htrivia : r.1.isTrivia = true
      · obtain ⟨l, hl⟩ := exists_leaf_of_isTrivia htrivia
        rw [htrivia, hrs r (List.mem_cons_self ..) l hl]
        exact hrest
      · rw [Bool.not_eq_true] at htrivia
        rw [htrivia, hrest]
        rfl
  have hlen : (items (rs.map (·.1))).1.length = ((rs.filter fun t => !t.1.isTrivia).map (·.2)).length := by
    have hbodies := congrArg List.length (map_body_items (rs.map (·.1)))
    rw [List.length_map, partsOf, List.filter_map, List.length_map] at hbodies
    rw [hbodies, List.length_map]
    rfl
  have hzip : (itemsLeft rs).1.map Prod.snd = (rs.filter fun t => !t.1.isTrivia).map (·.2) :=
    List.map_snd_zip (Nat.le_of_eq hlen.symm)
  rw [hfilter, ← hzip, List.flatMap_map]

theorem taken_trivia {ts : List Tree} (h : ∀ t ∈ ts, t.isTrivia = true) : ts.flatMap takenIn = [] :=
  List.flatMap_eq_nil_iff.mpr fun t ht => takenIn_trivia (h t ht)

theorem taken_keepLines {zs : List (Item × Option Tree)} {rs : List (Tree × Option Tree)} (h : LinesOf rs zs) :
    (keepLines zs).flatMap takenIn = zs.flatMap fun z => takenLeft z.2 := by
  induction zs with
  | nil => rfl
  | cons z zs ih =>
    have hrest := ih fun y hy => h y (List.mem_cons_of_mem _ hy)
    have hlead := taken_trivia (h z (List.mem_cons_self ..)).1
    obtain ⟨i, o⟩ := z
    cases o with
    | none => exact hrest
    | some u =>
      have hcons : keepLines ((i, some u) :: zs) = (i.lead ++ [u]) ++ keepLines zs := rfl
      have hbody : [u].flatMap takenIn = takenIn u := List.flatMap_singleton ..
      rw [hcons, List.flatMap_append, List.flatMap_append, hlead, hrest, hbody, List.flatMap_cons]
      rfl

theorem leftFrom_keepLines {zs : List (Item × Option Tree)} {rs : List (Tree × Option Tree)} (h : LinesOf rs zs) :
    ∀ u ∈ keepLines zs, LeftFrom rs u := by
  intro u hu
  obtain ⟨i, hi, hmem⟩ := List.mem_flatMap.mp hu
  obtain ⟨z, hz, heq⟩ := List.mem_filterMap.mp hi
  obtain ⟨hlead, r, hr, hleft⟩ := h z hz
  obtain ⟨v, hv, rfl⟩ := Option.map_eq_some_iff.mp heq
  rcases List.mem_append.mp hmem with hmem | hmem
  · exact .inl (exists_leaf_of_isTrivia (hlead u hmem))
  · rw [List.mem_singleton.mp hmem]
    exact .inr ⟨r, hr, hleft.trans hv⟩

/-- The line that fills an empty block. -/
def passLine (lineBreak : String) : Tree := .node .simpleLine [passMark, .leaf ⟨.endOfLine, lineBreak⟩]

/-- A block keeps its lines that are left; an indented `pass` may join them. -/
theorem taken_keepBlock (lineBreak : String) {rs : List (Tree × Option Tree)} (hrs : KeepsLeaves rs) :
    ∃ us, keepBlock lineBreak rs = .node .block us ∧ us.flatMap takenIn = (rs.flatMap fun r => takenLeft r.2) ∧
      ∀ u ∈ us, LeftFrom rs u ∨ u = passLine lineBreak := by
  have hlines := linesOf_itemsLeft rs
  have htail := isTrivia_itemsLeft rs
  have htaken := taken_itemsLeft hrs
  unfold keepBlock
  generalize itemsLeft rs = r at hlines htail htaken
  obtain ⟨zs, tail⟩ := r
  dsimp only at hlines htail htaken ⊢
  generalize hindent : (((zs.drop 1).head?.bind fun i => i.1.lead.getLast?).filter fun t => !t.isLineBreak).toList = indent
  have hlead : ∀ u ∈ indent, u.isTrivia = true := by
    intro u hu
    rw [← hindent] at hu
    obtain ⟨z, hz, hfilter⟩ := Option.bind_eq_some_iff.mp (Option.filter_eq_some_iff.mp (Option.mem_toList.mp hu)).1
    exact (hlines z (List.mem_of_mem_drop (List.mem_of_mem_head? hz))).1 u (List.mem_of_mem_getLast? hfilter)
  refine ⟨_, rfl, ?_, ?_⟩
  · have hfiller : (if (zs.drop 1).any (·.2.isSome) then [] else
        indent ++ [.node .simpleLine [passMark, .leaf ⟨.endOfLine, lineBreak⟩]]).flatMap takenIn = [] := by
      split
      · rfl
      · rw [List.flatMap_append, taken_trivia hlead]
        rfl
    rw [htaken, List.flatMap_append, List.flatMap_append, taken_keepLines hlines, hfiller, taken_trivia htail,
      List.append_nil, List.append_nil]
  · refine forall_append (forall_append (fun u hu => .inl (leftFrom_keepLines hlines u hu)) fun u hu => ?_) fun u hu => ?_
    · split at hu
      · cases hu
      · rcases List.mem_append.mp hu with hu | hu
        · exact .inl (.inl (exists_leaf_of_isTrivia (hlead u hu)))
        · exact .inr (List.mem_singleton.mp hu)
    · exact .inl (.inl (exists_leaf_of_isTrivia (htail u hu)))

/-- A module keeps its lines that are left. -/
theorem taken_keepModule {rs : List (Tree × Option Tree)} (hrs : KeepsLeaves rs) :
    ∃ us, keepModule rs = .node .module us ∧ us.flatMap takenIn = (rs.flatMap fun r => takenLeft r.2) ∧
      ∀ u ∈ us, LeftFrom rs u := by
  have hlines := linesOf_itemsLeft rs
  have htail := isTrivia_itemsLeft rs
  have htaken := taken_itemsLeft hrs
  have htrivia : ∀ u ∈ (itemsLeft rs).2, LeftFrom rs u := fun u hu => .inl (exists_leaf_of_isTrivia (htail u hu))
  unfold keepModule
  generalize itemsLeft rs = r at hlines htail htaken htrivia
  obtain ⟨zs, tail⟩ := r
  cases zs with
  | nil =>
    refine ⟨tail, rfl, ?_, htrivia⟩
    rw [htaken]
    exact taken_trivia htail
  | cons z zs =>
    have hbare : LinesOf rs (({ z.1 with lead := [] }, z.2) :: zs) := by
      refine List.forall_mem_cons.mpr ⟨⟨List.forall_mem_nil _, (hlines z (List.mem_cons_self ..)).2⟩, ?_⟩
      exact fun y hy => hlines y (List.mem_cons_of_mem _ hy)
    have hlead := (hlines z (List.mem_cons_self ..)).1
    refine ⟨_, rfl, ?_, ?_⟩
    · rw [htaken, List.flatMap_append, List.flatMap_append, taken_keepLines hbare, taken_trivia hlead, taken_trivia htail,
        List.append_nil]
      rfl
    · refine forall_append (forall_append (fun u hu => ?_) (leftFrom_keepLines hbare)) htrivia
      exact .inl (exists_leaf_of_isTrivia (hlead u hu))

/-! ### Whole trees -/

/-- No line ends within an expression or an import. -/
abbrev Endless (t : Tree) : Prop := t.Every (fun _ => True) fun k ts => isLoose k = false → ∀ c ∈ ts, Mild false c

theorem endless_of_formed {t : Tree} (h : t.Formed) : Endless t := h.mono (fun _ h => h) fun _ _ _ h => h.endless

/-- The verdicts below a path are on statements that name what they take. -/
def OnNames (vs : List (Path × List Bool)) (t : Tree) (p : Path) : Prop :=
  ∀ r n, t.at? r = some n → vs.lookup (r ++ p) ≠ none → ∃ i ns, n.importStatement? = some i ∧ i.imported = .names ns

theorem OnNames.child {k : Kind} {ts : List Tree} {p : Path} (h : OnNames vs (.node k ts) p) {i : Nat} {t : Tree}
    (hi : ts[i]? = some t) : OnNames vs t (i :: p) := by
  intro r n hn hlookup
  refine h (r ++ [i]) n ?_ (by rwa [List.append_assoc])
  rw [at?_node_concat, hi]
  exact hn

theorem importsFrom_mild {t : Tree} (ht : Mild false t) (p : Path) : importsFrom t p = [] := by
  induction t using induct generalizing p with
  | leaf l => rfl
  | node k ts ih =>
    have hk : isBarred false k = false := ht.self
    rw [importsFrom_node, importStatement?_other (by cases k <;> first | rfl | contradiction)]
    exact List.flatMap_eq_nil_iff.mpr fun c hc => ih c.2 (mem_of_mem_locate hc) (ht.child (mem_of_mem_locate hc)) c.1

theorem takenIn_mild {t : Tree} (ht : Mild false t) : takenIn t = [] := by
  rw [takenIn, importsIn, importsFrom_mild ht]
  rfl

variable (lineBreak vs) in
/-- Children of which nothing goes. -/
theorem leftOf_whole {ts : List Tree} (p : Path)
    (h : ∀ i c, ts[i]? = some c → pruneAt lineBreak vs c (i :: p) = some c) :
    (leftOf lineBreak vs ts p).map (fun r => r.2.getD r.1) = ts := by
  unfold leftOf
  rw [List.map_map]
  calc (locate p ts).map ((fun r => r.2.getD r.1) ∘ fun c => (c.2, pruneAt lineBreak vs c.2 c.1))
      = (locate p ts).map Prod.snd := List.map_congr_left fun c hc => by
        obtain ⟨i, hi, hchild⟩ := mem_locate.mp hc
        show (pruneAt lineBreak vs c.2 c.1).getD c.2 = c.2
        rw [hi, h i c.2 hchild]
        rfl
    _ = ts := map_snd_locate p ts

/-- Nothing goes from an expression. -/
theorem pruneAt_mild {t : Tree} {p : Path} (ht : Mild false t) (hvs : OnNames vs t p) :
    pruneAt lineBreak vs t p = some t := by
  induction t using induct generalizing p with
  | leaf l => rfl
  | node k ts ih =>
    have hk : isBarred false k = false := ht.self
    have hnone : vs.lookup p = none := by
      by_contra hsome
      obtain ⟨i, -, hi, -⟩ := hvs [] _ rfl hsome
      rw [importStatement?_other (by cases k <;> first | rfl | contradiction)] at hi
      cases hi
    have hleft := leftOf_whole lineBreak vs p fun i c hc =>
      ih c (List.mem_of_getElem? hc) (ht.child (List.mem_of_getElem? hc)) (hvs.child hc)
    rw [pruneAt_node, hnone]
    cases k <;> first
      | contradiction
      | exact congrArg (fun us => some (Source.Tree.node _ us)) hleft

/-- Only lines and imports can be gone altogether. -/
theorem isLined_of_pruneAt {t : Tree} {p : Path} (hvs : OnNames vs t p) (h : pruneAt lineBreak vs t p = none) :
    t.isLined = true := by
  cases t with
  | leaf l => cases h
  | node k ts =>
    cases hv : vs.lookup p with
    | some kept =>
      obtain ⟨i, -, hi, -⟩ := hvs [] _ rfl (by rw [List.nil_append, hv]; exact Option.some_ne_none _)
      by_contra hk
      rw [importStatement?_other (by cases k <;> first | rfl | exact absurd rfl hk)] at hi
      cases hi
    | none =>
      rw [pruneAt_node, hv] at h
      cases k <;> first | rfl | cases h

/-- A node made of statements keeps the imports of what is left of its children. -/
theorem pruneNode_loose (lineBreak : String) {k : Kind} (hk : isLoose k = true) (self : Tree) {rs : List (Tree × Option Tree)}
    (hrs : KeepsLeaves rs) (hcompound : isCompound k = true → ∀ r ∈ rs, r.2 ≠ none)
    (hleft : ∀ r ∈ rs, ∀ u, r.2 = some u → Endless u) :
    takenLeft (pruneNode lineBreak none k self rs) = (rs.flatMap fun r => takenLeft r.2) ∧
      ∀ u, pruneNode lineBreak none k self rs = some u → Endless u := by
  have loose : ∀ us : List Tree, (∀ u ∈ us, Endless u) → Endless (.node k us) := fun us hus =>
    .node (fun h => by rw [hk] at h; cases h) hus
  have from_ : ∀ u, LeftFrom rs u → Endless u := by
    rintro u (⟨l, rfl⟩ | ⟨r, hr, hu⟩)
    · exact .leaf trivial
    · exact hleft r hr u hu
  have taken : ∀ us : List Tree, takenLeft (some (.node k us)) = us.flatMap takenIn := by
    intro us
    show takenIn (.node k us) = _
    rw [takenIn_node, importStatement?_other (by cases k <;> first | rfl | contradiction)]
    rfl
  have hkeep := (taken_keepStatements hrs).1
  have hkept := (leftFrom_keepStatements rs).1
  cases k
  case simpleLine =>
    by_cases hany : (rs.filter fun r => isStatement r.1).any (·.2.isSome) = true
    · rw [show pruneNode lineBreak none .simpleLine self rs = some (.node .simpleLine (keepStatements rs)) from if_pos hany]
      refine ⟨(taken _).trans hkeep, fun u hu => ?_⟩
      cases hu
      exact loose _ fun u hu => from_ u (hkept u hu)
    · -- every statement is gone, and nothing else holds imports
      rw [show pruneNode lineBreak none .simpleLine self rs = none from if_neg hany]
      refine ⟨(List.flatMap_eq_nil_iff.mpr fun r hr => ?_).symm, fun u hu => by cases hu⟩
      by_cases hstatement : isStatement r.1 = true
      · cases hr2 : r.2 with
        | none => rfl
        | some u =>
          refine absurd ?_ hany
          exact List.any_eq_true.mpr ⟨r, List.mem_filter.mpr ⟨hr, hstatement⟩, by rw [hr2]; rfl⟩
      · obtain ⟨l, hl⟩ : ∃ l, r.1 = .leaf l := by
          cases h : r.1 with
          | leaf l => exact ⟨l, rfl⟩
          | node k ts =>
            rw [h] at hstatement
            exact absurd rfl hstatement
        rw [hrs r hr l hl]
        rfl
  case suite =>
    have heq : ∀ us, (if (keepStatements rs).any isStatement then keepStatements rs else passMark :: keepStatements rs) = us →
        pruneNode lineBreak none .suite self rs = some (.node .suite us) := fun us hus => by rw [← hus]; rfl
    by_cases hany : (keepStatements rs).any isStatement = true
    · rw [heq _ (if_pos hany)]
      refine ⟨(taken _).trans hkeep, fun u hu => ?_⟩
      cases hu
      exact loose _ fun u hu => from_ u (hkept u hu)
    · rw [heq _ (if_neg hany)]
      refine ⟨(taken _).trans hkeep, fun u hu => ?_⟩
      cases hu
      exact loose _ (List.forall_mem_cons.mpr ⟨.leaf trivial, fun u hu => from_ u (hkept u hu)⟩)
  case block =>
    obtain ⟨us, hus, htaken, hall⟩ := taken_keepBlock lineBreak hrs
    have heq : pruneNode lineBreak none .block self rs = some (.node .block us) := congrArg some hus
    rw [heq]
    refine ⟨(taken _).trans htaken, fun u hu => ?_⟩
    cases hu
    refine loose _ fun u hu => ?_
    rcases hall u hu with hu | rfl
    · exact from_ u hu
    · refine .node (fun h => Bool.noConfusion h) (List.forall_mem_cons.mpr ⟨.leaf trivial, ?_⟩)
      exact List.forall_mem_singleton.mpr (.leaf trivial)
  case module =>
    obtain ⟨us, hus, htaken, hall⟩ := taken_keepModule hrs
    have heq : pruneNode lineBreak none .module self rs = some (.node .module us) := congrArg some hus
    rw [heq]
    refine ⟨(taken _).trans htaken, fun u hu => ?_⟩
    cases hu
    exact loose _ fun u hu => from_ u (hall u hu)
  -- what stands right in a compound statement is always left
  all_goals first
    | contradiction
    | have hsome := hcompound rfl
      refine ⟨(taken _).trans ?_, fun u hu => ?_⟩
      · rw [List.flatMap_map]
        refine List.flatMap_congr fun r hr => ?_
        obtain ⟨v, hv⟩ := Option.ne_none_iff_exists'.mp (hsome r hr)
        rw [hv]
        rfl
      · cases hu
        refine loose _ fun u hu => ?_
        obtain ⟨r, hr, rfl⟩ := List.mem_map.mp hu
        obtain ⟨v, hv⟩ := Option.ne_none_iff_exists'.mp (hsome r hr)
        rw [hv]
        exact hleft r hr v hv

/-- A statement keeps the imports that a verdict on it leaves. -/
theorem taken_judged (lineBreak : String) {k : Kind} {ts : List Tree} {p : Path} (ht : (Source.Tree.node k ts).Formed)
    (hvs : OnNames vs (.node k ts) p) {kept : List Bool} (hv : vs.lookup p = some kept) :
    takenLeft (pruneAt lineBreak vs (.node k ts) p) = remainingIn vs (.node k ts) p ∧
      ∀ u, pruneAt lineBreak vs (.node k ts) p = some u → Endless u := by
  obtain ⟨i, ns, hi, hns⟩ := hvs [] _ rfl (by rw [List.nil_append, hv]; exact Option.some_ne_none _)
  have hk : k = .importStmt ∨ k = .importFrom := by
    by_contra hother
    rw [importStatement?_other (by simpa using hother)] at hi
    cases hi
  have hmild : ∀ c ∈ ts, Mild false c := ht.self.endless (by rcases hk with rfl | rfl <;> rfl)
  have hread : ∀ c ∈ ts, c.isAlias = true → c.importedName?.isSome = true := by
    intro c hc halias
    obtain ⟨us, rfl⟩ := exists_of_isKind halias
    exact (ht.child hc).self.shape
  obtain ⟨us, hkeep, hsub, hleft⟩ := importStatement?_keepNames hk ht.self.shape hread hi hns kept
  -- a statement has no imports but its own, so what is left is what the verdict leaves of these
  have hremain : remainingIn vs (.node k ts) p =
      ((((ns.zip kept).filter (·.2)).map (·.1)).map fun n => ⟨i.source, some n⟩) := by
    have hnil : ((locate p ts).flatMap fun c => importsFrom c.2 c.1) = [] :=
      List.flatMap_eq_nil_iff.mpr fun c hc => importsFrom_mild (hmild c.2 (mem_of_mem_locate hc)) c.1
    rw [remainingIn, importsFrom_node, hi, hnil, List.append_nil]
    show remaining vs (p, i) ++ [] = _
    rw [List.append_nil, remaining, hv]
    show ((((takenBy i).zip kept).filter (·.2)).map (·.1)) = _
    rw [takenBy, hns, List.zip_map_left, List.filter_map, List.map_map, List.map_map]
    rfl
  rw [pruneAt_node, hv]
  show takenLeft (if kept.any (·) then some (keepNames kept (.node k ts)) else none) = _ ∧
    ∀ u, (if kept.any (·) then some (keepNames kept (.node k ts)) else none) = some u → _
  rw [hkeep, hremain]
  split
  · refine ⟨?_, fun u hu => ?_⟩
    · have hnil : us.flatMap takenIn = [] :=
        List.flatMap_eq_nil_iff.mpr fun c hc => takenIn_mild (hmild c (hsub.subset hc))
      show takenIn (.node k us) = _
      rw [takenIn_node, hleft, hnil, List.append_nil]
      exact List.append_nil _
    · cases hu
      exact .node (fun _ c hc => hmild c (hsub.subset hc)) fun c hc => endless_of_formed (ht.child (hsub.subset hc))
  · next hnone =>
    -- with no name left the statement goes as a whole
    refine ⟨?_, fun u hu => by cases hu⟩
    rw [Bool.not_eq_true, List.any_eq_false] at hnone
    have hnil : (ns.zip kept).filter (·.2) = [] :=
      List.filter_eq_nil_iff.mpr fun z hz => hnone z.2 (List.of_mem_zip (a := z.1) (b := z.2) hz).2
    rw [hnil]
    rfl

/-- What is left of the imports of a tree is what the verdicts leave of them, in order; lines end where they did. -/
theorem taken_pruneAt (lineBreak : String) {t : Tree} {p : Path} (ht : t.Formed) (hvs : OnNames vs t p) :
    takenLeft (pruneAt lineBreak vs t p) = remainingIn vs t p ∧ ∀ u, pruneAt lineBreak vs t p = some u → Endless u := by
  induction t using induct generalizing p with
  | leaf l =>
    refine ⟨rfl, fun u hu => ?_⟩
    cases hu
    exact .leaf trivial
  | node k ts ih =>
    cases hv : vs.lookup p with
    -- a judged import is cut down itself; anything else is as the children it has left make it
    | some kept => exact taken_judged lineBreak ht hvs hv
    | none =>
      rw [pruneAt_node, hv]
      cases hk : isLoose k with
      | false =>
        -- no import is anywhere in a part that is not a body, so nothing in it changes
        have hmild : ∀ c ∈ ts, Mild false c := ht.self.endless hk
        have hleft := leftOf_whole lineBreak vs p fun i c hc =>
          pruneAt_mild (hmild c (List.mem_of_getElem? hc)) (hvs.child hc)
        have hwhole : pruneNode lineBreak none k (.node k ts) (leftOf lineBreak vs ts p) = some (.node k ts) := by
          cases k <;> first
            | contradiction
            | exact congrArg (fun us => some (Source.Tree.node _ us)) hleft
        rw [hwhole]
        refine ⟨?_, fun u hu => ?_⟩
        · have hnil : ((locate p ts).flatMap fun c => importsFrom c.2 c.1) = [] :=
            List.flatMap_eq_nil_iff.mpr fun c hc => importsFrom_mild (hmild c.2 (mem_of_mem_locate hc)) c.1
          have hnil' : ts.flatMap takenIn = [] := List.flatMap_eq_nil_iff.mpr fun c hc => takenIn_mild (hmild c hc)
          show takenIn (.node k ts) = _
          rw [remainingIn, importsFrom_node, takenIn_node, hnil, hnil', List.append_nil, List.append_nil, List.flatMap_map]
          refine List.flatMap_congr fun i _ => ?_
          rw [remaining, hv]
        · cases hu
          exact endless_of_formed ht
      | true =>
        have hchild : ∀ r ∈ leftOf lineBreak vs ts p, ∃ i c, ts[i]? = some c ∧ r = (c, pruneAt lineBreak vs c (i :: p)) := by
          intro r hr
          obtain ⟨c, hc, rfl⟩ := List.mem_map.mp hr
          obtain ⟨i, hi, hget⟩ := mem_locate.mp hc
          exact ⟨i, c.2, hget, by rw [hi]⟩
        obtain ⟨htaken, hend⟩ := pruneNode_loose lineBreak hk (.node k ts)
          (fun r hr l hl => by
            obtain ⟨i, c, -, rfl⟩ := hchild r hr
            obtain rfl : c = .leaf l := hl
            rfl)
          (fun hcompound r hr hnone => by
            obtain ⟨i, c, hget, rfl⟩ := hchild r hr
            have hlined := isLined_of_pruneAt (hvs.child hget) hnone
            rw [ht.self.flat hcompound c (List.mem_of_getElem? hget)] at hlined
            cases hlined)
          (fun r hr u hu => by
            obtain ⟨i, c, hget, rfl⟩ := hchild r hr
            exact (ih c (List.mem_of_getElem? hget) (ht.child (List.mem_of_getElem? hget)) (hvs.child hget)).2 u hu)
        -- what is left in a body is what is left in its children, one after another
        refine ⟨htaken.trans ?_, hend⟩
        rw [remainingIn, importsFrom_node, importStatement?_other (by cases k <;> first | rfl | contradiction)]
        show _ = ((locate p ts).flatMap fun c => importsFrom c.2 c.1).flatMap (remaining vs)
        rw [List.flatMap_assoc, leftOf, List.flatMap_map]
        refine List.flatMap_congr fun c hc => ?_
        obtain ⟨i, hi, hget⟩ := mem_locate.mp hc
        have hih := (ih c.2 (List.mem_of_getElem? hget) (p := i :: p) (ht.child (List.mem_of_getElem? hget))
          (hvs.child hget)).1
        rw [← hi] at hih
        exact hih

/-! ### Removing what is unwanted -/

/-- The imports of a tree, each with the path of its statement. -/
def located (t : Tree) : List (Path × Taken) :=
  (importStatements t).flatMap fun s => (takenBy s.2).map (s.1, ·)

/-- Whether an import stays: a star always does. -/
def staysTaken (u : Unwanted) (table : Table) (exported : List String) (scope : ScopeId) (x : Taken) : Bool :=
  match x.name with
  | none => true
  | some n => stays u table exported scope ⟨x.source, .star⟩ n

theorem mem_importsFrom {t : Tree} {s : Path × ImportStatement} (h : s ∈ importsFrom t []) :
    ∃ n, t.at? s.1 = some n ∧ n.importStatement? = some s.2 := by
  obtain ⟨n, hn, heq⟩ := List.mem_filterMap.mp h
  obtain ⟨i, hi, rfl⟩ := Option.map_eq_some_iff.mp heq
  obtain ⟨r, hr, hat, -⟩ := mem_nodesFrom.mp hn
  rw [List.append_nil] at hr
  exact ⟨n.2, hr ▸ hat, hi⟩

theorem nodup_importsFrom (t : Tree) (p : Path) : ((importsFrom t p).map Prod.fst).Nodup := by
  have h := nodup_nodesFrom (fun k => k = .importStmt || k = .importFrom) t p
  have hmap : ∀ L : List (Path × Tree),
      ((L.filterMap fun n => (n.2.importStatement?).map fun i => (n.1, i)).map Prod.fst).Sublist (L.map Prod.fst) := by
    intro L
    induction L with
    | nil => exact List.Sublist.refl _
    | cons n L ih =>
      rw [List.filterMap_cons]
      cases n.2.importStatement? with
      | none => exact ih.cons _
      | some i => exact ih.cons_cons _
  exact (hmap _).nodup h

/-- The entry that a list of pairs makes for one of them, when none have the same key. -/
theorem lookup_filterMap {α β : Type} {L : List (Path × α)} (hL : (L.map Prod.fst).Nodup) (f : Path × α → Option β)
    {a : Path × α} (ha : a ∈ L) : (L.filterMap fun x => (f x).map (x.1, ·)).lookup a.1 = f a := by
  have hother : ∀ L : List (Path × α), a.1 ∉ L.map Prod.fst →
      (L.filterMap fun x => (f x).map (x.1, ·)).lookup a.1 = none := by
    intro L hnot
    refine List.lookup_eq_none_iff.mpr fun y hy => ?_
    obtain ⟨x, hx, heq⟩ := List.mem_filterMap.mp hy
    obtain ⟨v, -, rfl⟩ := Option.map_eq_some_iff.mp heq
    refine bne_iff_ne.mpr fun heq => hnot ?_
    exact List.mem_map.mpr ⟨x, hx, heq.symm⟩
  induction L with
  | nil => cases ha
  | cons b L ih =>
    rw [List.map_cons, List.nodup_cons] at hL
    rw [List.filterMap_cons]
    rcases List.mem_cons.mp ha with rfl | hmem
    · cases hf : f a with
      | none => exact hother L hL.1
      | some v => simp
    · have hne : (a.1 == b.1) = false := by
        refine beq_eq_false_iff_ne.mpr fun heq => hL.1 ?_
        rw [← heq]
        exact List.mem_map_of_mem hmem
      cases f b with
      | none => exact ih hL.2 hmem
      | some v =>
        show List.lookup a.1 ((b.1, v) :: _) = _
        rw [List.lookup_cons, hne]
        exact ih hL.2 hmem

section Remove

variable (u : Unwanted) (table : Table) (t : Tree)

/-- What a verdict says about the names of a statement. -/
def keptNames (s : Path × ImportStatement) : List Bool :=
  s.2.list.map (stays u table (exportedNames t) ((table.places.lookup s.1).getD 0) s.2)

theorem verdicts_eq :
    verdicts u table t = (importsFrom t []).filterMap fun s =>
      (if (keptNames u table t s).all (·) then none else some (keptNames u table t s)).map (s.1, ·) := by
  rw [← importStatements_eq]
  refine congrArg (List.filterMap · _) (funext fun s => ?_)
  show (if (keptNames u table t s).all (·) then none else some (s.1, keptNames u table t s)) = _
  split <;> rfl

/-- What verdicts leave of a statement is what stays of it. -/
theorem remaining_verdicts {s : Path × ImportStatement} (hs : s ∈ importsFrom t []) :
    remaining (verdicts u table t) s =
      (takenBy s.2).filter fun x => staysTaken u table (exportedNames t) ((table.places.lookup s.1).getD 0) x := by
  have hlookup := lookup_filterMap (nodup_importsFrom t [])
    (fun s => if (keptNames u table t s).all (·) then none else some (keptNames u table t s)) hs
  rw [← verdicts_eq u table t] at hlookup
  rw [remaining, hlookup]
  cases hi : s.2.imported with
  | star =>
    have hall : (keptNames u table t s).all (·) = true := by rw [keptNames, ImportStatement.list, hi]; rfl
    rw [if_pos hall, takenBy, hi]
    rfl
  | names ns =>
    have hlist : s.2.list = ns := by rw [ImportStatement.list, hi]
    rw [takenBy, hi, keptNames, hlist]
    generalize exportedNames t = exported
    generalize (table.places.lookup s.1).getD 0 = scope
    by_cases hall : (ns.map (stays u table exported scope s.2)).all (·) = true
    · rw [if_pos hall]
      refine (List.filter_eq_self.mpr fun x hx => ?_).symm
      obtain ⟨n, hn, rfl⟩ := List.mem_map.mp hx
      exact List.all_eq_true.mp hall _ (List.mem_map_of_mem hn)
    · rw [if_neg hall]
      show ((((ns.map _).zip (ns.map _)).filter _).map _) = (ns.map _).filter _
      rw [List.filter_map, List.zip_map', List.filter_map, List.map_map]
      rfl

theorem onNames_verdicts : OnNames (verdicts u table t) t [] := by
  intro r n hn hlookup
  rw [List.append_nil] at hlookup
  obtain ⟨kept, hkept⟩ := Option.ne_none_iff_exists'.mp hlookup
  obtain ⟨pre, post, hsplit, -⟩ := List.lookup_eq_some_iff.mp hkept
  have hmem : (r, kept) ∈ verdicts u table t := by
    rw [hsplit]
    exact List.mem_append_right _ (List.mem_cons_self ..)
  rw [verdicts_eq] at hmem
  obtain ⟨s, hs, heq⟩ := List.mem_filterMap.mp hmem
  obtain ⟨v, hv, heq⟩ := Option.map_eq_some_iff.mp heq
  cases heq
  obtain ⟨n', hn', hi⟩ := mem_importsFrom hs
  rw [hn] at hn'
  cases hn'
  refine ⟨s.2, ?_⟩
  cases himported : s.2.imported with
  | names ns => exact ⟨ns, hi, rfl⟩
  | star =>
    rw [keptNames, ImportStatement.list, himported] at hv
    cases hv

variable (lineBreak) in
/-- Removing unwanted imports from a module leaves those that stay, in their order. -/
theorem taken_remove {ts : List Tree} (ht : (Source.Tree.node .module ts).Formed) {t : Tree} (hmodule : t = .node .module ts) :
    takenIn (remove lineBreak u t) = (((located t).filter fun x => staysTaken u (Table.ofModule t) (exportedNames t)
        (((Table.ofModule t).places.lookup x.1).getD 0) x.2).map Prod.snd) ∧
      Endless (remove lineBreak u t) := by
  subst hmodule
  generalize hself : Source.Tree.node .module ts = t at ht ⊢
  have hnames := onNames_verdicts u (Table.ofModule t) t
  obtain ⟨htaken, hend⟩ := taken_pruneAt lineBreak ht hnames
  have hstays : remainingIn (verdicts u (Table.ofModule t) t) t [] =
      (((located t).filter fun x => staysTaken u (Table.ofModule t) (exportedNames t)
        (((Table.ofModule t).places.lookup x.1).getD 0) x.2).map Prod.snd) := by
    rw [located, importStatements_eq, List.filter_flatMap, List.map_flatMap]
    refine List.flatMap_congr fun s hs => ?_
    rw [remaining_verdicts u (Table.ofModule t) t hs, List.filter_map, List.map_map]
    exact (List.map_id _).symm
  rw [remove, prune_eq, ← hstays, ← htaken]
  cases hprune : pruneAt lineBreak (verdicts u (Table.ofModule t) t) t [] with
  | none =>
    have hlined := isLined_of_pruneAt hnames hprune
    rw [← hself] at hlined
    cases hlined
  | some v => exact ⟨rfl, hend v hprune⟩

end Remove

end FluentShift.Imports
