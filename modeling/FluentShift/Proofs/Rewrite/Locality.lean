import FluentShift.Proofs.Rewrite.Accounting
import FluentShift.Proofs.Rewrite.Retelling

/-!
# FluentShift.Proofs.Rewrite.Locality - only rewritten calls print differently

`printWith` prints a tree with some calls printed as chains and all else as it stands.  The text of a rewritten file is
the print of the file as it was, with the rewritten calls as chains (`rewriteCalls_local`).
-/

namespace FluentShift.Rewrite

open FluentShift.Source FluentShift.Source.Tree

/-! ### Prints -/

/-- A printed expression: as it stands, and without the parentheses around it. -/
structure Print where
  whole : String
  bare : String
  deriving DecidableEq, Repr

namespace Print

/-- A text that has no parentheses around it. -/
def plain (text : String) : Print := ⟨text, text⟩

/-- The print of a node from its children and their prints. -/
def node (k : Kind) (ts : List (Tree × Print)) : Print :=
  let whole := ts.foldr (fun t rest => t.2.whole ++ rest) ""
  match k, ts.filter (!·.1.isTrivia) with
  | .paren, [_, e, _] => ⟨whole, e.2.bare⟩
  | _, _ => plain whole

/-- The print of a tree. -/
def ofTree (t : Tree) : Print := ⟨t.text, t.unparen.text⟩

/-- A template printed with prints in the places of names; parentheses right around such a name go with it. -/
def fill (values : List (String × Print)) (t : Tree) : Print :=
  let valueOf (t : Tree) : Option Print := t.unparen.name?.bind fun n => values.lookup n
  let leaf : Leaf → Print := fun l => ((Tree.leaf l).name?.bind fun n => values.lookup n).getD (plain l.text)
  let node : Kind → List (Tree × Print) → Print := fun k ts =>
    match k, valueOf (.node k (ts.map (·.1))) with
    | .paren, some v => v
    | _, _ => node k ts
  Tree.para leaf node t

theorem foldr_whole {rs : List (Tree × Print)} {us : List Tree}
    (h : List.Forall₂ (fun r u => r.1.isTrivia = u.isTrivia ∧ r.2 = ofTree u) rs us) :
    rs.foldr (fun t rest => t.2.whole ++ rest) "" = textAll us := by
  induction h with
  | nil => rfl
  | cons hru _ ih => rw [List.foldr_cons, ih, hru.2, textAll_cons]; rfl

/-- The print of a node whose children are printed, possibly beside other trees that are trivia at the same time. -/
theorem node_eq {k : Kind} {rs : List (Tree × Print)} {us : List Tree}
    (h : List.Forall₂ (fun r u => r.1.isTrivia = u.isTrivia ∧ r.2 = ofTree u) rs us) :
    node k rs = ofTree (.node k us) := by
  have hparts : List.Forall₂ (fun r u => r.1.isTrivia = u.isTrivia ∧ r.2 = ofTree u)
      (rs.filter (!·.1.isTrivia)) (us.filter (!·.isTrivia)) := by
    refine List.rel_filter (fun r u hru => ?_) h
    show (!r.1.isTrivia) = true ↔ (!u.isTrivia) = true
    rw [hru.1]
  unfold node
  rw [foldr_whole h]
  by_cases hk : k = .paren
  · subst hk
    unfold ofTree
    rw [unparen_paren]
    -- only a pair of parentheses with one expression in it has another bare print
    revert hparts
    generalize rs.filter (!·.1.isTrivia) = rs'
    generalize us.filter (!·.isTrivia) = us'
    intro hparts
    match hparts with
    | .nil => rfl
    | .cons _ .nil => rfl
    | .cons _ (.cons _ .nil) => rfl
    | .cons _ (.cons he (.cons _ .nil)) =>
      simp only [he.2]
      rfl
    | .cons _ (.cons _ (.cons _ (.cons _ _))) => rfl
  · have hbare := unparen_node hk us
    cases k <;> first
      | exact absurd rfl hk
      | rw [ofTree, hbare]; rfl

theorem map_fst_map {α : Type} (ts : List Tree) (f : Tree → α) : (ts.map fun t => (t, f t)).map Prod.fst = ts := by
  rw [List.map_map]
  exact List.map_id ts

theorem fill_node (values : List (String × Print)) (k : Kind) (ts : List Tree) :
    fill values (.node k ts) =
      match k, (Source.Tree.node k ts).unparen.name?.bind fun n => values.lookup n with
      | .paren, some v => v
      | _, _ => node k (ts.map fun t => (t, fill values t)) := by
  have hfst := map_fst_map ts (fill values)
  unfold fill at hfst ⊢
  rw [para_node]
  simp only [hfst]

theorem substitute_node_eq (values : List (String × Tree)) (k : Kind) (ts : List Tree) :
    substitute values (.node k ts) =
      match k, (Source.Tree.node k ts).unparen.name?.bind fun n => values.lookup n with
      | .paren, some v => v
      | _, _ => .node k (ts.map (substitute values)) := by
  have hfst := map_fst_map ts (substitute values)
  have hsnd : (ts.map fun t => (t, substitute values t)).map Prod.snd = ts.map (substitute values) := by
    rw [List.map_map]
    rfl
  unfold substitute at hfst hsnd ⊢
  rw [para_node]
  simp only [hfst, hsnd] <;> rfl

theorem lookup_map_ofTree (values : List (String × Tree)) (n : String) :
    (values.map fun v => (v.1, ofTree v.2)).lookup n = (values.lookup n).map ofTree := by
  induction values with
  | nil => rfl
  | cons v values ih =>
    rw [List.map_cons, List.lookup_cons, List.lookup_cons]
    cases n == v.1
    · exact ih
    · rfl

/-- Filling a template with trees and printing it is filling it with their prints. -/
theorem fill_eq {values : List (String × Tree)} (hvalues : ∀ n v, values.lookup n = some v → v.isTrivia = false)
    (t : Tree) : t.isTrivia = (substitute values t).isTrivia ∧
      fill (values.map fun v => (v.1, ofTree v.2)) t = ofTree (substitute values t) := by
  induction t using induct with
  | leaf l =>
    unfold fill substitute
    rw [para_leaf, para_leaf]
    by_cases hname : l.kind = .name
    · have hn : (Tree.leaf l).name? = some l.text := if_pos hname
      have hl : (Tree.leaf l).isTrivia = false := by rw [Tree.isTrivia, hname]; rfl
      rw [hn, Option.bind_some, Option.bind_some, lookup_map_ofTree, hl]
      cases hv : values.lookup l.text with
      | none => exact ⟨hl.symm, rfl⟩
      | some v => exact ⟨(hvalues _ v hv).symm, rfl⟩
    · have hn : (Tree.leaf l).name? = none := if_neg hname
      rw [hn]
      exact ⟨rfl, rfl⟩
  | node k ts ih =>
    have hnode : node k (ts.map fun t => (t, fill (values.map fun v => (v.1, ofTree v.2)) t)) =
        ofTree (.node k (ts.map (substitute values))) := by
      refine node_eq ?_
      rw [List.forall₂_map_left_iff, List.forall₂_map_right_iff, List.forall₂_same]
      exact ih
    have hlookup : ((Source.Tree.node k ts).unparen.name?.bind fun n => (values.map fun v => (v.1, ofTree v.2)).lookup n) =
        ((Source.Tree.node k ts).unparen.name?.bind fun n => values.lookup n).map ofTree := by
      cases (Source.Tree.node k ts).unparen.name? with
      | none => rfl
      | some n => exact lookup_map_ofTree values n
    rw [fill_node, substitute_node_eq, hnode, hlookup]
    cases hv : (Source.Tree.node k ts).unparen.name?.bind fun n => values.lookup n with
    | none => cases k <;> exact ⟨rfl, rfl⟩
    | some v =>
      by_cases hk : k = .paren
      · -- the value takes the place of the name and of the parentheses around it
        subst hk
        obtain ⟨n, -, hn⟩ := Option.bind_eq_some_iff.mp hv
        exact ⟨(hvalues n v hn).symm, rfl⟩
      · cases k <;> first
          | exact absurd rfl hk
          | exact ⟨rfl, rfl⟩

theorem ofTree_of_isKind {t : Tree} (h : t.isKind .call = true) : ofTree t = plain t.text := by
  obtain ⟨ts, rfl⟩ := exists_of_isKind h
  rw [ofTree, unparen_node (by decide)]
  rfl

end Print

/-! ### Chains -/

section Chains

variable {m : Mapping} {c : Classification} {call chain : Tree}

/-- The print of a chain: its template, filled with the prints of the arguments. -/
def chainPrint (m : Mapping) (c : Classification) (arguments : List Print) : Print :=
  let values := c.slots.filterMap fun s => (ArgumentIndex.pick s.2 arguments).toOption.map fun a => (slotName s.1, a)
  match readTemplate m c with
  | .ok t => .plain (Print.fill values t).bare
  | .error _ => .plain ""

/-- The text of the argument in a slot. -/
def slotText (c : Classification) (arguments : List Print) (s : Slot) : String :=
  ((slotItem c arguments s).map Print.whole).getD ""

/-- The print of a chain of an accepted mapping: its template with the texts of the arguments in the slots. -/
def templatePrint (m : Mapping) (c : Classification) (arguments : List Print) : Print :=
  .plain (templateWith m c (slotText c arguments))

theorem mem_of_lookup {α β : Type} [BEq α] [LawfulBEq α] {xs : List (α × β)} {k : α} {v : β}
    (h : xs.lookup k = some v) : (k, v) ∈ xs := by
  obtain ⟨l₁, l₂, rfl, -⟩ := List.lookup_eq_some_iff.mp h
  simp

theorem isTrivia_argument {t : Tree} {a : Argument} (h : a ∈ t.arguments) : a.value.isTrivia = false := by
  unfold arguments call? at h
  split at h
  · obtain ⟨u, -, hu⟩ := List.mem_filterMap.mp h
    exact isTrivia_value hu
  · cases h

theorem print_slotValues {arguments : List Argument} {values : List (String × Tree)}
    (h : slotValues c arguments = .ok values) :
    values.map (fun v => (v.1, Print.ofTree v.2)) = c.slots.filterMap fun s =>
      (ArgumentIndex.pick s.2 (arguments.map fun a => Print.ofTree a.value)).toOption.map fun a =>
        (slotName s.1, a) := by
  have hvalues := slotValues_ok h
  clear h
  generalize c.slots = slots at hvalues ⊢
  induction hvalues with
  | nil => rfl
  | @cons s v slots values hv _ ih =>
    obtain ⟨hname, a, ha, hvalue⟩ := hv
    rw [List.map_cons, ih, List.filterMap_cons, pick_map, ha, hname, hvalue]
    rfl

/-- A chain prints as its template, filled with the prints of the arguments. -/
theorem print_of_emit (h : emit m c call = .ok chain) :
    Print.ofTree chain = chainPrint m c (call.arguments.map fun a => Print.ofTree a.value) := by
  obtain ⟨-, -, ⟨values, t, hvalues, ht, hchain⟩, hcall⟩ := emit_ok h
  have hsolid : ∀ n v, values.lookup n = some v → v.isTrivia = false := by
    intro n v hv
    have hmem : (n, v) ∈ values := mem_of_lookup hv
    obtain ⟨s, -, -, a, ha, hvalue⟩ := exists_of_mem_right (forall₂_mem (slotValues_ok hvalues)) hmem
    have hvalue : v = a.value := hvalue
    rw [hvalue]
    exact isTrivia_argument (mem_of_pick ha)
  rw [Print.ofTree_of_isKind hcall, hchain]
  unfold chainPrint
  simp only [ht]
  rw [← print_slotValues hvalues, (Print.fill_eq hsolid t).2]
  rfl

theorem templateWith_congr {f g : Slot → String} (hc : c.slots = slotsOf m c.shape)
    (h : ∀ s i, (s, i) ∈ c.slots → f s = g s) : templateWith m c f = templateWith m c g := by
  obtain ⟨hactual, hexpected, hmessage, hdelta⟩ := agree_of_slots hc h
  unfold templateWith
  rw [hactual, hexpected]
  cases hm : c.shape.hasMessage with
  | false =>
    cases ht : c.shape.hasTolerance with
    | false => rfl
    | true =>
      rw [hdelta ht]
      rfl
  | true =>
    rw [hmessage hm]
    cases ht : c.shape.hasTolerance with
    | false => rfl
    | true => rw [hdelta ht]

/-- With an accepted mapping, a chain prints as its template with the texts of the arguments. -/
theorem print_of_emit_accepted (hm : m.Accepted) (hc : c.slots = slotsOf m c.shape) (h : emit m c call = .ok chain) :
    Print.ofTree chain = templatePrint m c (call.arguments.map fun a => Print.ofTree a.value) := by
  obtain ⟨value, hchain, hvalue⟩ := emit_chain hm hc h
  rw [Print.ofTree_of_isKind (emit_ok h).2.2.2, hchain, text_chainTree, templatePrint]
  refine congrArg Print.plain (templateWith_congr hc fun s i hs => ?_)
  obtain ⟨a, ha, hsa⟩ := hvalue s i (hc ▸ hs)
  rw [slotText, slotItem_map, slotItem_of_pick hc hs ha, hsa]
  rfl

end Chains

/-! ### A tree with some of its calls as chains -/

/-- Prints leaves and nodes as they stand, and a replaced call as `chain` tells from the prints of its arguments. -/
def printer (chain : Classification → List Print → Print) : Teller Print where
  leaf _ l := .plain l.text
  kept _ k ts := .node k ts
  chained _ c arguments := chain c arguments

/-- The text of a tree whose calls at the paths of `chains` are printed as `chain` tells. -/
def printWith (chain : Classification → List Print → Print) (chains : Path → Option Classification) (t : Tree) : String :=
  (retell (printer chain) chains t []).whole

section Printer

variable {m : Mapping} {plans : List (Path × Classification)} {chain : Classification → List Print → Print}

/-- A spliced tree prints as the tree before, with the applied calls as chains. -/
theorem print_of_splice (hchain : ∀ p c call t, plans.lookup p = some c → emit m c call = .ok t →
      Print.ofTree t = chain c (call.arguments.map fun a => Print.ofTree a.value))
    {t : Tree} {s : Spliced} (haim : Aimed plans t []) (h : splice m plans t = .ok s)
    {chains : Path → Option Classification}
    (hchains : ∀ q, chains q = if q ∈ s.applied then plans.lookup q else none) :
    s.tree.text = printWith chain chains t := by
  have hprint : retell (printer chain) chains t [] = Print.ofTree s.tree := by
    refine retell_of_splice (R := fun _ u a => a = Print.ofTree u) ?_ ?_ ?_ haim (splice_eq t ▸ h) fun q _ => hchains q
    · intro p l
      rfl
    · intro p k ts us h
      refine Print.node_eq (List.forall₂_map_left_iff.mpr (h.imp ?_))
      intro c u hcu
      exact ⟨hcu.1.isTrivia_eq, hcu.2⟩
    · intro p c ts us u hp he h
      rw [hchain p c _ u hp he]
      show chain c _ = chain c _
      congr 1
      refine List.forall₂_eq_eq_eq ▸ ?_
      rw [List.forall₂_map_left_iff, List.forall₂_map_right_iff]
      exact h.imp fun a b hab => hab.2
  rw [printWith, hprint]
  rfl

/-- Without a replaced call a tree prints as it stands. -/
theorem printWith_none (t : Tree) : printWith chain (fun _ => none) t = t.text := by
  have hprint : ∀ p, retell (printer chain) (fun _ => none) t p = Print.ofTree t := by
    induction t using induct with
    | leaf l =>
      intro p
      rw [retell_leaf]
      rfl
    | node k ts ih =>
      intro p
      rw [retell_kept _ rfl]
      refine Print.node_eq (List.forall₂_map_left_iff.mpr ?_)
      have hself : List.Forall₂ (fun c u => c.2 = u) (locate p ts) ts := by
        rw [← List.forall₂_map_left_iff, map_snd_locate, List.forall₂_eq_eq_eq]
      refine (forall₂_mem hself).imp ?_
      rintro c u ⟨hc, rfl⟩
      exact ⟨rfl, ih c.2 (mem_of_mem_locate hc) c.1⟩
  rw [printWith, hprint]
  rfl

end Printer

/-! ### The text of a rewritten file -/

/-- The text of a rewritten file is the text of the file with the rewritten calls printed as their chains, and nothing
else changed; the chains of an accepted mapping are its templates with the texts of the arguments. -/
theorem rewriteCalls_local {s : Setup} {f : SourceFile} {o : Outcome} (h : (rewriteCalls s f).value = .ok o) :
    o.file.code = printWith (chainPrint s.mapping) o.chains f.tree ∧
      (s.mapping.Accepted → o.file.code = printWith (templatePrint s.mapping) o.chains f.tree) ∧
      (o.rewritten = [] → o.file.code = f.code) := by
  rw [(rewriteCalls_gives s f).value] at h
  obtain ⟨plans, skipped, hplans, ⟨-, rfl⟩ | ⟨spliced, hsplice, rfl⟩⟩ := rewriteResult_ok h
  · -- nothing was spliced
    refine ⟨(printWith_none f.tree).symm, fun _ => (printWith_none f.tree).symm, fun _ => rfl⟩
  · have haim := (planned_plans hplans).aimed
    have hall : (splicedOutcome s.mapping f plans skipped spliced).file.code =
        printWith (chainPrint s.mapping) (splicedOutcome s.mapping f plans skipped spliced).chains f.tree :=
      print_of_splice (fun _ c _ _ _ he => print_of_emit he) haim hsplice chains_splicedOutcome
    refine ⟨hall, fun hm => ?_, fun hnone => ?_⟩
    · refine print_of_splice (fun q c _ _ hc he => ?_) haim hsplice chains_splicedOutcome
      obtain ⟨r, hr, -, rfl⟩ := exists_of_lookup_planKeys hc
      exact print_of_emit_accepted hm (call_of_plan hplans hr).2.2.1 he
    · have hchains : (splicedOutcome s.mapping f plans skipped spliced).chains = fun _ => none := by
        funext q
        rw [Outcome.chains, hnone]
        rfl
      rw [hchains, printWith_none] at hall
      exact hall

/-- Only the calls of `nestedText` that become chains print differently. -/
theorem local_nestedText :
    ∃ f o, SourceFile.parse? nestedText = some f ∧ (rewriteCalls plainSetup f).value = .ok o ∧
      o.file.code = "from junit.Assertions import assertEquals as eq\neq(1)\n" ++
        "(assertThat(assertThat(3).isEqualTo(2)).isEqualTo(1)) # c\n" ∧
      o.file.code = printWith (chainPrint plainSetup.mapping) o.chains f.tree ∧
      o.file.code = printWith (templatePrint plainSetup.mapping) o.chains f.tree := by
  obtain ⟨f, o, hf, ho, -, -, hcode⟩ := of_summary summary_nestedText
  obtain ⟨hall, htemplate, -⟩ := rewriteCalls_local ho
  exact ⟨f, o, hf, ho, hcode, hall, htemplate Mapping.accepted_standard⟩

end FluentShift.Rewrite
