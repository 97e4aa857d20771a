import FluentShift.Proofs.Imports.Adding
import FluentShift.Proofs.Imports.LastLine
import FluentShift.Proofs.Imports.Plan
import FluentShift.Proofs.Source.Filled

/-!
# FluentShift.Proofs.Imports.Idle - edits with nothing to do

A tree whose lines and blocks are filled is left as it is when no verdict is on it (`prune_nil`), adding imports that are
given already changes no line (`add_of_given`), and ending the last line and leaving it open again keeps the text
(`code_withClosedTree_closedTree`).
-/

namespace FluentShift.Imports

open FluentShift.Source FluentShift.Source.Tree FluentShift.Scope

/-! ### Nothing to take out -/

/-- Children of which all is left. -/
def whole (ts : List Source.Tree) : List (Source.Tree × Option Source.Tree) := ts.map fun t => (t, some t)

theorem any_isStatement (ts : List Source.Tree) : ts.any isStatement = holdsStatement ts := by
  rw [holdsStatement, partsOf, List.any_filter]
  refine congrArg (ts.any ·) (funext fun t => ?_)
  rw [isStatement, isOnLine, Bool.and_assoc]

theorem keepStatements_whole (ts : List Source.Tree) : keepStatements (whole ts) = ts := by
  induction ts with
  | nil => rfl
  | cons t ts ih => exact congrArg (t :: ·) ih

theorem itemsLeft_whole (ts : List Source.Tree) :
    itemsLeft (whole ts) = ((items ts).1.map fun i => (i, some i.body), (items ts).2) := by
  have hfst : (whole ts).map (·.1) = ts := by
    rw [whole, List.map_map]
    exact List.map_id ts
  have hleft : ((whole ts).filter fun t => !t.1.isTrivia).map (·.2) = (items ts).1.map fun i => some i.body := by
    rw [whole, List.filter_map, List.map_map]
    show (partsOf ts).map some = _
    rw [← map_body_items, List.map_map]
    rfl
  have hzip : (items ts).1.zip ((items ts).1.map fun i => some i.body) = (items ts).1.map fun i => (i, some i.body) := by
    have h := @List.zip_map' _ _ _ id (fun i : Item => some i.body) (items ts).1
    rwa [List.map_id] at h
  unfold itemsLeft
  rw [hfst, hleft]
  exact congrArg (·, (items ts).2) hzip

theorem keepLines_whole (is : List Item) : keepLines (is.map fun i => (i, some i.body)) = Item.flatten is := by
  rw [keepLines, List.filterMap_map]
  exact congrArg Item.flatten List.filterMap_some

theorem keepBlock_whole (lineBreak : String) {ts : List Source.Tree} (h : 1 < (partsOf ts).length) :
    keepBlock lineBreak (whole ts) = .node .block ts := by
  have hmore : (((items ts).1.map fun i => (i, some i.body)).drop 1).any (·.2.isSome) = true := by
    rw [← map_body_items, List.length_map] at h
    generalize (items ts).1 = is at h ⊢
    rcases is with - | ⟨i, - | ⟨j, is⟩⟩
    · cases h
    · exact absurd h (Nat.lt_irrefl 1)
    · rfl
  unfold keepBlock
  rw [itemsLeft_whole]
  dsimp only
  rw [hmore, keepLines_whole, if_pos rfl, List.append_nil, items_flatten]

theorem keepModule_whole (ts : List Source.Tree) : keepModule (whole ts) = .node .module ts := by
  have hall := items_flatten ts
  unfold keepModule
  rw [itemsLeft_whole]
  generalize items ts = r at hall
  obtain ⟨is, tail⟩ := r
  cases is with
  | nil => exact congrArg _ hall
  | cons i is =>
    have hlines := keepLines_whole ({ i with lead := [] } :: is)
    refine congrArg (Source.Tree.node .module) ?_
    show i.lead ++ keepLines (({ i with lead := [] } :: is).map fun i => (i, some i.body)) ++ tail = ts
    rw [hlines, ← hall]
    simp [Item.flatten, Item.trees]

/-- Without verdicts nothing goes from a tree whose lines and blocks are filled. -/
theorem pruneAt_nil (lineBreak : String) {t : Source.Tree} (ht : t.Filled) (p : Path) : pruneAt lineBreak [] t p = some t := by
  induction t using induct generalizing p with
  | leaf l => rfl
  | node k ts ih =>
    have hleft : leftOf lineBreak [] ts p = whole ts := by
      unfold leftOf whole
      conv_rhs => rw [← map_snd_locate p ts, List.map_map]
      refine List.map_congr_left fun c hc => ?_
      exact congrArg (Prod.mk c.2) (ih c.2 (mem_of_mem_locate hc) (ht.child (mem_of_mem_locate hc)) c.1)
    have hsame : (whole ts).map (fun r => r.2.getD r.1) = ts := by
      rw [whole, List.map_map]
      exact List.map_id ts
    have hshape := ht.self
    rw [pruneAt_node, hleft]
    show pruneNode lineBreak none k (.node k ts) (whole ts) = _
    cases k
    case simpleLine =>
      have hstatement : ((whole ts).filter fun r => isStatement r.1).any (·.2.isSome) = true := by
        obtain ⟨c, hc, hself⟩ := List.any_eq_true.mp ((any_isStatement ts).trans hshape)
        exact List.any_eq_true.mpr ⟨(c, some c), List.mem_filter.mpr ⟨List.mem_map_of_mem hc, hself⟩, rfl⟩
      show (if ((whole ts).filter fun r => isStatement r.1).any (·.2.isSome) then _ else none) = _
      rw [if_pos hstatement, keepStatements_whole]
    case suite =>
      have hstatement : ts.any isStatement = true := (any_isStatement ts).trans hshape
      show some (Source.Tree.node .suite (if (keepStatements (whole ts)).any isStatement then _ else _)) = _
      rw [keepStatements_whole, if_pos hstatement]
    case block => exact congrArg some (keepBlock_whole lineBreak hshape)
    case module => exact congrArg some (keepModule_whole ts)
    all_goals exact congrArg (fun us => some (Source.Tree.node _ us)) hsame

theorem prune_nil (lineBreak : String) {t : Source.Tree} (ht : t.Filled) : prune lineBreak [] t = t := by
  rw [prune_eq, pruneAt_nil lineBreak ht]
  rfl

theorem mem_takenBy_of_mem_list {i : ImportStatement} {n : ImportedName} (h : n ∈ i.list) :
    (⟨i.source, some n⟩ : Taken) ∈ takenBy i := by
  obtain ⟨source, imported⟩ := i
  cases imported with
  | star => cases h
  | names ns => exact List.mem_map_of_mem h

/-- Where every import that is asked to go is in use, nothing is removed. -/
theorem remove_of_used (lineBreak : String) {u : Unwanted} {t : Source.Tree} (ht : t.Filled)
    (hused : ∀ x ∈ located t, (!isAsked u x.2 || isUsedIn t x) = true) : remove lineBreak u t = t := by
  have hnone : verdicts u (Table.ofModule t) t = [] := by
    rw [verdicts_eq]
    refine List.filterMap_eq_nil_iff.mpr fun s hs => Option.map_eq_none_iff.mpr (if_pos ?_)
    refine List.all_eq_true.mpr fun b hb => ?_
    obtain ⟨n, hn, rfl⟩ := List.mem_map.mp hb
    have hmem : (s.1, (⟨s.2.source, some n⟩ : Taken)) ∈ located t :=
      List.mem_flatMap.mpr ⟨s, hs, List.mem_map_of_mem (mem_takenBy_of_mem_list hn)⟩
    have hstays := hused _ hmem
    rw [← staysTaken_eq] at hstays
    exact hstays
  rw [remove, hnone, prune_nil lineBreak ht]

/-! ### Something to put in -/

section Added

variable {lineBreak : String} {wanted missing : List Wanted} {p : Taken → Bool}

/-- How many imports of some trees have a property. -/
def countTaken (p : Taken → Bool) (ts : List Source.Tree) : Nat := (ts.flatMap takenIn).countP p

theorem countTaken_append (ts us : List Source.Tree) : countTaken p (ts ++ us) = countTaken p ts + countTaken p us := by
  rw [countTaken, List.flatMap_append, List.countP_append]
  rfl

theorem countTaken_cons (t : Source.Tree) (ts : List Source.Tree) :
    countTaken p (t :: ts) = (takenIn t).countP p + countTaken p ts := by
  rw [countTaken, List.flatMap_cons, List.countP_append]
  rfl

theorem countTaken_pos {t : Source.Tree} {ts : List Source.Tree} (ht : t ∈ ts) {x : Taken} (hx : x ∈ takenIn t)
    (hp : p x = true) : 0 < countTaken p ts :=
  List.countP_pos_iff.mpr ⟨x, List.mem_flatMap.mpr ⟨t, ht, hx⟩, hp⟩

variable (hbreak : IsLineBreak lineBreak) (hmissing : ∀ w ∈ missing, w.Writable)

include hbreak hmissing

/-- Joining lines takes no import away. -/
theorem countTaken_joinAll_le {is : List Item} (his : ∀ i ∈ is, i.body.Formed) (taken : List String) :
    countTaken p (is.map (·.body)) ≤ countTaken p ((joinAll (namesFrom missing) taken is).map (·.body)) := by
  have hwoven := woven_joinAll lineBreak missing is taken
  exact (hwoven.taken hbreak hmissing (List.forall_mem_map.mpr his)).1.countP_le

/-- The first line that can be joined is joined. -/
theorem countTaken_joinAll_lt {m n : String} (hn : ⟨m, some n⟩ ∈ missing) (hp : p (plainTaken m n) = true)
    {is : List Item} (his : ∀ i ∈ is, i.body.Formed) (hjoin : ∃ i ∈ is, joinableModule? i.body = some m)
    {taken : List String} (htaken : m ∉ taken) :
    countTaken p (is.map (·.body)) < countTaken p ((joinAll (namesFrom missing) taken is).map (·.body)) := by
  induction is generalizing taken with
  | nil => obtain ⟨i, hi, -⟩ := hjoin; cases hi
  | cons i is ih =>
    obtain ⟨hi, hrest⟩ := List.forall_mem_cons.mp his
    have hlater : joinableModule? i.body ≠ some m → ∃ i ∈ is, joinableModule? i.body = some m := by
      intro hne
      obtain ⟨j, hj, hmodule⟩ := hjoin
      rcases List.mem_cons.mp hj with rfl | hj
      · exact absurd hmodule hne
      · exact ⟨j, hj, hmodule⟩
    by_cases hthis : joinableModule? i.body = some m
    · -- the names join this line
      have hnew : (if taken.contains m then [] else namesFrom missing m) = namesFrom missing m :=
        if_neg fun hmem => htaken (List.contains_iff_mem.mp hmem)
      have hmem := mem_namesFrom.mpr hn
      have hpos : 0 < ((namesFrom missing m).map (plainTaken m)).countP p :=
        List.countP_pos_iff.mpr ⟨_, List.mem_map_of_mem hmem, hp⟩
      have hle := countTaken_joinAll_le (p := p) hbreak hmissing hrest (m :: taken)
      rw [joinAll, hthis]
      dsimp only
      rw [List.map_cons, List.map_cons, countTaken_cons, countTaken_cons, hnew, if_neg (List.ne_nil_of_mem hmem),
        (taken_joinLine _ (joinable_of_joinableModule? hthis) hi).1, List.countP_append]
      omega
    · -- a later line is joined, and nothing goes from this one
      have hself := countTaken_joinAll_le (p := p) hbreak hmissing (List.forall_mem_singleton.mpr hi) taken
      rw [joinAll]
      rw [joinAll] at hself
      split at hself
      · next m' hm' =>
        have htaken' : m ∉ m' :: taken := List.not_mem_cons_of_ne_of_not_mem (fun h => hthis (h ▸ hm')) htaken
        have hlt := ih hrest (hlater hthis) htaken'
        simp only [List.map_cons, countTaken_cons, joinAll, List.map_nil] at hself ⊢
        omega
      · next hm' =>
        have hlt := ih hrest (hlater hthis) htaken
        simp only [List.map_cons, countTaken_cons] at hself ⊢
        omega

omit hmissing

/-- Where an import is missing from the leading ones, there is one more of it after adding. -/
theorem countTaken_add (hwanted : ∀ w ∈ wanted, w.Writable) {ts us : List Source.Tree}
    (hts : (Source.Tree.node .module ts).Formed) {preamble leading rest first later : List Item}
    (h : Added lineBreak wanted ts us preamble leading rest first later) {w : Wanted}
    (hw : w ∈ missingFrom wanted leading) (hp : p w.taken = true) :
    (takenIn (.node .module ts)).countP p < (takenIn (.node .module us)).countP p := by
  have hmissing : ∀ w ∈ missingFrom wanted leading, w.Writable := fun w hw => hwanted w (List.mem_of_mem_filter hw)
  have hleading : ∀ i ∈ leading, i.body.Formed := by
    intro i hi
    have hmem : i.body ∈ partsOf ts := by
      rw [← map_body_items, ← h.lines]
      exact List.mem_map_of_mem (List.mem_append_right _ (List.mem_append_left _ hi))
    exact hts.child (mem_partsOf.mp hmem).1
  -- only the lines that may be joined change, and lines are put before and after them
  have hbefore : countTaken p (partsOf ts) = countTaken p (preamble.map (·.body)) +
      (countTaken p (leading.map (·.body)) + countTaken p (rest.map (·.body))) := by
    rw [← map_body_items, ← h.lines, List.map_append, List.map_append, countTaken_append, countTaken_append]
  have hafter : countTaken p (partsOf us) = countTaken p (preamble.map (·.body)) + (countTaken p (first.map (·.body)) +
      (countTaken p ((joinAll (namesFrom (missingFrom wanted leading)) [] leading).map (·.body)) +
        (countTaken p (later.map (·.body)) + countTaken p (rest.map (·.body))))) := by
    simp only [h.parts, List.map_append, countTaken_append]
  rw [takenIn_module, takenIn_module]
  show countTaken p (partsOf ts) < countTaken p (partsOf us)
  rw [hbefore, hafter]
  rcases h.given w hw with ⟨i, hi, hmem⟩ | ⟨n, hn, hjoin⟩
  · -- a new line has it
    have hle := countTaken_joinAll_le (p := p) hbreak hmissing hleading []
    have hpos : 0 < countTaken p ((first ++ later).map (·.body)) := countTaken_pos (List.mem_map_of_mem hi) hmem hp
    rw [List.map_append, countTaken_append] at hpos
    omega
  · -- it joins a line
    obtain ⟨m, name⟩ := w
    obtain rfl : name = some n := hn
    have hlt := countTaken_joinAll_lt hbreak hmissing hw hp hleading hjoin List.not_mem_nil
    omega

end Added

/-! ### The last line ended and left open again -/

theorem mapLast_mapLast (f g : Leaf → Leaf) (t : Source.Tree) : (t.mapLast f).mapLast g = t.mapLast (g ∘ f) := by
  induction t using induct with
  | leaf l => rfl
  | node k ts ih =>
    rcases List.eq_nil_or_concat' ts with rfl | ⟨us, u, rfl⟩
    · rfl
    · rw [mapLast_node, mapLast_node, mapLast_node, ih u (List.mem_append_right _ (List.mem_singleton_self u))]

theorem filledShape_relined {k : Kind} {ts : List Source.Tree} {t u : Source.Tree} (h : Relined t u)
    (ht : FilledShape k (ts ++ [t])) : FilledShape k (ts ++ [u]) := by
  have hstatement : holdsStatement [u] = holdsStatement [t] := by cases h <;> rfl
  have hpart : (partsOf [u]).length = (partsOf [t]).length := by cases h <;> rfl
  cases k
  case simpleLine | suite =>
    have ht : holdsStatement (ts ++ [t]) = true := ht
    rw [holdsStatement_append, ← hstatement, ← holdsStatement_append] at ht
    exact ht
  case block =>
    have ht : 1 < (partsOf (ts ++ [t])).length := ht
    rw [partsOf_append, List.length_append, ← hpart, ← List.length_append, ← partsOf_append] at ht
    exact ht
  all_goals trivial

theorem filled_relined {t u : Source.Tree} (h : Relined t u) (ht : t.Filled) : u.Filled := by
  induction h with
  | endOfLine => exact .leaf trivial
  | @node k ts t u _ htu ih =>
    refine .node (filledShape_relined htu ht.self) (forall_append (fun v hv => ?_) (List.forall_mem_singleton.mpr (ih ?_)))
    · exact ht.child (List.mem_append_left _ hv)
    · exact ht.child (List.mem_append_right _ (List.mem_singleton_self t))

/-- Ending the last line of a file leaves its lines and blocks filled. -/
theorem filled_closedTree {f : SourceFile} {ts : List Source.Tree} (hts : f.tree = .node .module ts)
    (hformed : f.tree.Formed) (h : f.tree.Filled) : f.closedTree.Filled := by
  have hclosing := closing_closedTree hts
  generalize f.closedTree = t at hclosing ⊢
  cases hclosing with
  | ended | fixed => exact h
  | endOfLine _ hends hl _ => exact filled_relined (hends.relined hl rfl (endless_of_formed hformed)) h
  | lineBreak _ htree =>
    rw [hts] at htree h
    cases htree
    exact .node trivial (forall_append (fun v hv => h.child hv) (List.forall_mem_singleton.mpr (.leaf trivial)))

/-- Ending the last line of a file and leaving it open again keeps the code. -/
theorem code_withClosedTree_closedTree {f : SourceFile} {k : Kind} {ts : List Source.Tree} (hts : f.tree = .node k ts)
    (hcode : f.ended = true → f.code ≠ "") : (f.withClosedTree f.closedTree).code = f.code := by
  have hclosing := closing_closedTree hts
  unfold SourceFile.code at hcode ⊢
  unfold SourceFile.withClosedTree
  generalize f.closedTree = t at hclosing ⊢
  cases hclosing with
  | ended hended =>
    have htext := hcode hended
    rw [hended, hts] at *
    dsimp only
    rw [if_pos rfl, if_neg htext]
  | fixed hended hfixed =>
    dsimp only
    rw [hended, if_neg Bool.false_ne_true, hfixed]
  | @endOfLine l hended hends hl hempty =>
    dsimp only
    rw [hended, if_neg Bool.false_ne_true, mapLast_mapLast, hends.mapLast_eq_self]
    obtain ⟨kind, text⟩ := l
    obtain rfl : kind = .endOfLine := hl
    obtain rfl : text = "" := hempty
    rfl
  | @lineBreak k' us hended htree =>
    dsimp only
    rw [hended, if_neg Bool.false_ne_true, mapLast_node, mapLast_leaf, htree]
    show textAll (us ++ [.leaf ⟨.lineBreak, ""⟩]) = textAll us
    rw [textAll_append]
    exact String.append_empty

end FluentShift.Imports
