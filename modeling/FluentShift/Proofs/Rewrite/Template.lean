import FluentShift.Proofs.Rewrite.Emission
import FluentShift.Proofs.Rewrite.Forms

/-!
# FluentShift.Proofs.Rewrite.Template - the template of an accepted mapping

The template of a chain is the text of a `Term` with the names of the slots in it (`text_chainTerm`), so it is read as
the tree of that term (`readTemplate_ok`), and filling it puts every argument in its place (`emit_chain`).
-/

namespace FluentShift.Rewrite

open FluentShift.Source FluentShift.Types

variable {m : Mapping} {c : Classification}

/-! ### The tree of a chain -/

/-- A call with one argument. -/
def callTree (e a : Tree) : Tree := .node .call [e, Term.mark "(", .node .argument [a], Term.mark ")"]

/-- A call with two arguments. -/
def callTree₂ (e a b : Tree) : Tree :=
  .node .call [e, Term.mark "(", .node .argument [a], Term.mark ",", .leaf ⟨.blank, " "⟩, .node .argument [b],
    Term.mark ")"]

/-- A member of an expression. -/
def memberTree (e : Tree) (s : String) : Tree := .node (.attribute) [e, Term.mark ".", Term.nameLeaf s]

/-- The method that attaches the message of a chain. -/
def messageMethod (m : Mapping) (c : Classification) : String :=
  if c.style = some .labelled then m.labelledMethod else m.deferredMethod

/-- The beginning of a chain: the entry point, and the message if there is one. -/
def startTree (m : Mapping) (c : Classification) (slot : Slot → Tree) : Tree :=
  let start := callTree (Term.nameLeaf m.entryPoint) (slot .actual)
  if c.shape.hasMessage then callTree (memberTree start (messageMethod m c)) (slot .message) else start

/-- The chain of a form; `slot` gives the arguments. -/
def chainTree (m : Mapping) (c : Classification) (slot : Slot → Tree) : Tree :=
  if c.shape.hasTolerance then
    callTree₂ (memberTree (startTree m c slot) m.toleranceMethod) (slot .expected)
      (callTree (Term.nameLeaf m.toleranceWrapper) (slot .delta))
  else callTree (memberTree (startTree m c slot) m.equalityMethod) (slot .expected)

/-- The text of a chain is its template with the texts of the arguments. -/
theorem text_chainTree (slot : Slot → Tree) :
    (chainTree m c slot).text = templateWith m c fun s => (slot s).text := by
  have hcomma : ∀ s : String, "," ++ (" " ++ s) = ", " ++ s := by
    intro s
    rw [← String.append_assoc]
    rfl
  unfold chainTree startTree templateWith messageMethod
  cases hm : c.shape.hasMessage <;> cases ht : c.shape.hasTolerance <;>
    simp [callTree, callTree₂, memberTree, Term.mark, Term.nameLeaf, String.append_assoc, hcomma]

theorem isKind_chainTree (slot : Slot → Tree) : (chainTree m c slot).isKind .call = true := by
  unfold chainTree
  split <;> rfl

theorem chainTree_congr {f g : Slot → Tree} (hc : c.slots = slotsOf m c.shape)
    (h : ∀ s i, (s, i) ∈ c.slots → f s = g s) : chainTree m c f = chainTree m c g := by
  obtain ⟨hactual, hexpected, hmessage, hdelta⟩ := agree_of_slots hc h
  have hstart : startTree m c f = startTree m c g := by
    unfold startTree
    rw [hactual]
    split
    · rename_i hm
      rw [hmessage hm]
    · rfl
  unfold chainTree
  rw [hexpected, hstart]
  split
  · rename_i ht
    rw [hdelta ht]
  · rfl

/-! ### The term of a template -/

/-- The beginning of a template as a term. -/
def startTerm (m : Mapping) (c : Classification) : Term :=
  let start := Term.apply (.name m.entryPoint) (.name (slotName .actual))
  if c.shape.hasMessage then .apply (.member start (messageMethod m c)) (.name (slotName .message)) else start

/-- A template as a term: the names of the slots are where the arguments of the chain are. -/
def chainTerm (m : Mapping) (c : Classification) : Term :=
  if c.shape.hasTolerance then
    .apply₂ (.member (startTerm m c) m.toleranceMethod) (.name (slotName .expected))
      (.apply (.name m.toleranceWrapper) (.name (slotName .delta)))
  else .apply (.member (startTerm m c) m.equalityMethod) (.name (slotName .expected))

theorem tree_chainTerm : (chainTerm m c).tree = chainTree m c fun s => Term.nameLeaf (slotName s) := by
  unfold chainTerm startTerm chainTree startTree
  cases c.shape.hasMessage <;> cases c.shape.hasTolerance <;> rfl

theorem isName_slotName (s : Slot) : IsName (slotName s) := by
  cases s
  all_goals exact ⟨⟨_, _, rfl, by decide, by decide⟩, by decide, by unfold Term.IsFree; decide⟩

theorem isName_messageMethod (hm : m.Accepted) : IsName (messageMethod m c) := by
  obtain ⟨-, -, hlabelled, hdeferred, -, -⟩ := hm.isName
  unfold messageMethod
  split
  · exact hlabelled
  · exact hdeferred

theorem all_chainTerm (hm : m.Accepted) : (chainTerm m c).All IsName := by
  obtain ⟨hentry, hequality, -, -, htolerance, hwrapper⟩ := hm.isName
  have hmethod : IsName (messageMethod m c) := isName_messageMethod hm
  have slot := isName_slotName
  have hstart : (startTerm m c).All IsName := by
    unfold startTerm
    split
    · exact ⟨⟨⟨hentry, slot .actual⟩, hmethod⟩, slot .message⟩
    · exact ⟨hentry, slot .actual⟩
  unfold chainTerm
  split
  · exact ⟨⟨hstart, htolerance⟩, slot .expected, hwrapper, slot .delta⟩
  · exact ⟨⟨hstart, hequality⟩, slot .expected⟩

/-! ### Names in the places of slots -/

theorem placeNames_skip (slots : List Slot) (cs rest : List Char) :
    placeNames slots cs.length (cs ++ rest) = placeNames slots 0 rest := by
  induction cs with
  | nil => rfl
  | cons c cs ih => exact ih

/-- At a slot, the mark of no other slot is found. -/
theorem eq_of_slotMark_isPrefixOf {s t : Slot} {rest : List Char}
    (h : (slotMark t).toList.isPrefixOf ((slotMark s).toList ++ rest) = true) : t = s := by
  cases s <;> cases t <;> first
    | rfl
    | cases h

/-- A slot is replaced by its name. -/
theorem placeNames_slot {slots : List Slot} {s : Slot} (hs : s ∈ slots) (rest : List Char) :
    placeNames slots 0 ((slotMark s).toList ++ rest) = (slotName s).toList ++ placeNames slots 0 rest := by
  have hprefix : (slotMark s).toList.isPrefixOf ((slotMark s).toList ++ rest) = true := by
    rw [List.isPrefixOf_iff_prefix]
    exact List.prefix_append _ _
  have hfind : slots.find? (fun t => (slotMark t).toList.isPrefixOf ((slotMark s).toList ++ rest)) = some s := by
    cases h : slots.find? (fun t => (slotMark t).toList.isPrefixOf ((slotMark s).toList ++ rest)) with
    | none => exact absurd hprefix (List.find?_eq_none.mp h s hs)
    | some t =>
      have ht := List.find?_some h
      rw [eq_of_slotMark_isPrefixOf ht]
  have hmark : (slotMark s).toList = '\x7b' :: (s.label ++ "\x7d").toList := by cases s <;> rfl
  have hlen : (slotMark s).length - 1 = (s.label ++ "\x7d").toList.length := by cases s <;> rfl
  rw [hmark, List.cons_append] at hfind ⊢
  rw [placeNames, hfind]
  simp only [hlen, placeNames_skip]

/-- A text without braces stays as it is. -/
theorem placeNames_text (slots : List Slot) {cs : List Char} (hcs : '\x7b' ∉ cs) (rest : List Char) :
    placeNames slots 0 (cs ++ rest) = cs ++ placeNames slots 0 rest := by
  induction cs with
  | nil => rfl
  | cons c cs ih =>
    rw [List.mem_cons, not_or] at hcs
    have hnone : slots.find? (fun s => (slotMark s).toList.isPrefixOf (c :: (cs ++ rest))) = none := by
      rw [List.find?_eq_none]
      intro s _
      have hmark : (slotMark s).toList = '\x7b' :: (s.label ++ "\x7d").toList := by cases s <;> rfl
      rw [hmark, List.isPrefixOf_cons_cons]
      have hne : ('\x7b' == c) = false := by simpa using hcs.1
      simp [hne]
    rw [List.cons_append, placeNames, hnone]
    exact congrArg (c :: ·) (ih hcs.2)

theorem brace_notMem_of_isName {s : String} (hs : IsName s) : '\x7b' ∉ s.toList := by
  obtain ⟨c, cs, htext, hc, hcs⟩ := hs.spelled
  rw [htext, List.mem_cons, not_or]
  refine ⟨fun h => by rw [← h] at hc; exact absurd hc (by decide), fun h => ?_⟩
  exact absurd (List.all_eq_true.mp hcs _ h) (by decide)

/-- The text `a` becomes `b` when names take the places of the slots. -/
def Placed (slots : List Slot) (a b : String) : Prop :=
  ∀ rest, placeNames slots 0 (a.toList ++ rest) = b.toList ++ placeNames slots 0 rest

namespace Placed

variable {slots : List Slot} {a a' b b' : String}

theorem append (h : Placed slots a b) (h' : Placed slots a' b') : Placed slots (a ++ a') (b ++ b') := by
  intro rest
  rw [String.toList_append, String.toList_append, List.append_assoc, h, h', List.append_assoc]

theorem text (h : '\x7b' ∉ a.toList) : Placed slots a a := placeNames_text slots h

theorem slot {s : Slot} (h : s ∈ slots) : Placed slots (slotMark s) (slotName s) := placeNames_slot h

end Placed

/-- The text that is read as a template is the text of its term. -/
theorem templateText_eq (hm : m.Accepted) (hc : c.slots = slotsOf m c.shape) :
    templateText m c = (chainTerm m c).tree.text := by
  obtain ⟨hentry, hequality, -, -, htolerance, hwrapper⟩ := hm.isName
  have name : ∀ {s : String}, IsName s → Placed (c.slots.map Prod.fst) s s :=
    fun hs => Placed.text (brace_notMem_of_isName hs)
  have start := (((name hentry).append (.text (a := "(") (by decide))).append
    (.slot (mem_slots hc (.inl rfl)))).append (.text (a := ")") (by decide))
  have message : Placed (c.slots.map Prod.fst)
      (if c.shape.hasMessage then "." ++ messageMethod m c ++ "(" ++ slotMark .message ++ ")" else "")
      (if c.shape.hasMessage then "." ++ messageMethod m c ++ "(" ++ slotName .message ++ ")" else "") := by
    split
    · rename_i h
      exact ((((Placed.text (a := ".") (by decide)).append (name (isName_messageMethod hm))).append
        (.text (a := "(") (by decide))).append (.slot (mem_slots hc (.inr (.inr (.inl ⟨rfl, h⟩)))))).append
        (.text (a := ")") (by decide))
    · exact .text (by decide)
  have comparison : Placed (c.slots.map Prod.fst)
      (if c.shape.hasTolerance then
        "." ++ m.toleranceMethod ++ "(" ++ slotMark .expected ++ ", " ++ m.toleranceWrapper ++ "(" ++ slotMark .delta ++
          "))"
      else "." ++ m.equalityMethod ++ "(" ++ slotMark .expected ++ ")")
      (if c.shape.hasTolerance then
        "." ++ m.toleranceMethod ++ "(" ++ slotName .expected ++ ", " ++ m.toleranceWrapper ++ "(" ++ slotName .delta ++
          "))"
      else "." ++ m.equalityMethod ++ "(" ++ slotName .expected ++ ")") := by
    split
    · rename_i h
      exact ((((((((Placed.text (a := ".") (by decide)).append (name htolerance)).append
        (.text (a := "(") (by decide))).append (.slot (mem_slots hc (.inr (.inl rfl))))).append
        (.text (a := ", ") (by decide))).append (name hwrapper)).append (.text (a := "(") (by decide))).append
        (.slot (mem_slots hc (.inr (.inr (.inr ⟨rfl, h⟩)))))).append (.text (a := "))") (by decide))
    · exact ((((Placed.text (a := ".") (by decide)).append (name hequality)).append
        (.text (a := "(") (by decide))).append (.slot (mem_slots hc (.inr (.inl rfl))))).append
        (.text (a := ")") (by decide))
  -- the three pieces are placed separately, as only their ends can meet
  have whole : Placed (c.slots.map Prod.fst) (template m c) (templateWith m c slotName) :=
    (start.append message).append comparison
  have hplaced := whole []
  have hnil : placeNames (c.slots.map Prod.fst) 0 [] = [] := rfl
  rw [List.append_nil] at hplaced
  rw [templateText, hplaced, hnil, List.append_nil, String.ofList_toList, tree_chainTerm, text_chainTree]
  rfl

/-- A template that is read at all is read as the tree of its term. -/
theorem readTemplate_ok (hm : m.Accepted) (hc : c.slots = slotsOf m c.shape) {t : Tree} (h : readTemplate m c = .ok t) :
    t = chainTree m c (fun s => Term.nameLeaf (slotName s)) ∧
      ∀ r ∈ reservedMarks, hasMark r.toList (template m c).toList = false := by
  unfold readTemplate at h
  split at h
  · cases h
  · rename_i hmarks
    rw [templateText_eq hm hc, Term.parseExpression?_term (all_chainTerm hm), tree_chainTerm] at h
    cases h
    refine ⟨rfl, fun r hr => ?_⟩
    cases hr' : hasMark r.toList (template m c).toList with
    | false => rfl
    | true => exact absurd (List.any_eq_true.mpr ⟨r, hr, hr'⟩) hmarks

/-! ### Filling a template -/

theorem substitute_name (values : List (String × Tree)) (s : String) :
    substitute values (Term.nameLeaf s) = (values.lookup s).getD (Term.nameLeaf s) := rfl

theorem substitute_node (values : List (String × Tree)) {k : Kind} (hk : k ≠ .paren) (ts : List Tree) :
    substitute values (.node k ts) = .node k (ts.map (substitute values)) := by
  unfold substitute
  rw [Tree.para_node]
  cases k <;> first
    | exact absurd rfl hk
    | simp only [List.map_map]; rfl

section Substitute

variable {values : List (String × Tree)}

theorem substitute_callTree (e a : Tree) :
    substitute values (callTree e a) = callTree (substitute values e) (substitute values a) := by
  rw [callTree, substitute_node values (by decide)]
  simp only [List.map_cons, List.map_nil, substitute_node values (k := .argument) (by decide)]
  rfl

theorem substitute_callTree₂ (e a b : Tree) :
    substitute values (callTree₂ e a b) =
      callTree₂ (substitute values e) (substitute values a) (substitute values b) := by
  rw [callTree₂, substitute_node values (by decide)]
  simp only [List.map_cons, List.map_nil, substitute_node values (k := .argument) (by decide)]
  rfl

theorem substitute_memberTree (e : Tree) {s : String} (hs : values.lookup s = none) :
    substitute values (memberTree e s) = memberTree (substitute values e) s := by
  rw [memberTree, substitute_node values (by decide)]
  simp only [List.map_cons, List.map_nil, substitute_name, hs]
  rfl

theorem substitute_other {s : String} (hs : values.lookup s = none) :
    substitute values (Term.nameLeaf s) = Term.nameLeaf s := by
  rw [substitute_name, hs]
  rfl

end Substitute

/-! ### Reserved marks -/

theorem hasMark_iff {mark cs : List Char} : hasMark mark cs = true ↔ mark <:+: cs := by
  induction cs with
  | nil => rw [hasMark, List.isEmpty_iff, List.infix_nil]
  | cons c cs ih => rw [hasMark, Bool.or_eq_true, List.isPrefixOf_iff_prefix, ih, List.infix_cons_iff]

/-- A text without the characters that the names of slots are made of. -/
def Unmarked (s : String) : Prop := ∀ r ∈ reservedMarks, hasMark r.toList s.toList = false

theorem Unmarked.of_infix {s t : String} (ht : Unmarked t) (h : s.toList <:+: t.toList) : Unmarked s := by
  intro r hr
  cases hmark : hasMark r.toList s.toList with
  | false => rfl
  | true =>
    have hwhole := hasMark_iff.mpr ((hasMark_iff.mp hmark).trans h)
    rw [ht r hr] at hwhole
    cases hwhole

theorem unmarked_append {a b : String} (h : Unmarked (a ++ b)) : Unmarked a ∧ Unmarked b := by
  refine ⟨h.of_infix ?_, h.of_infix ?_⟩
  · rw [String.toList_append]
    exact (List.prefix_append _ _).isInfix
  · rw [String.toList_append]
    exact (List.suffix_append _ _).isInfix

/-- The name of a slot is no unmarked text. -/
theorem ne_slotName {s : String} (hs : Unmarked s) (t : Slot) : s ≠ slotName t := by
  rintro rfl
  have hmark := hasMark_iff.mpr (List.prefix_append "__LIBCST_MANGLED_NAME_".toList
    (t.label ++ "_EMAN_DELGNAM_TSCBIL__").toList).isInfix
  rw [← String.toList_append, ← String.append_assoc] at hmark
  exact absurd (hmark.symm.trans (hs "__LIBCST_MANGLED_NAME_" (by decide))) (by decide)

theorem slotName_injective {s t : Slot} (h : slotName s = slotName t) : s = t := by
  cases s <;> cases t <;> first
    | rfl
    | exact absurd h (by decide)

/-! ### The values of the slots -/

theorem slotValues_ok {arguments : List Argument} {values : List (String × Tree)}
    (h : slotValues c arguments = .ok values) :
    List.Forall₂ (fun s v => v.1 = slotName s.1 ∧ ∃ a, ArgumentIndex.pick s.2 arguments = .ok a ∧ v.2 = a.value)
      c.slots values := by
  unfold slotValues at h
  generalize c.slots = slots at h
  induction slots generalizing values with
  | nil => cases h; exact .nil
  | cons s slots ih =>
    rw [List.mapM_cons] at h
    obtain ⟨v, hv, h⟩ := Except.bind_eq_ok.mp h
    obtain ⟨vs, hvs, h⟩ := Except.bind_eq_ok.mp h
    obtain ⟨a, ha, hv⟩ := Except.bind_eq_ok.mp hv
    cases hv
    cases h
    exact .cons ⟨rfl, a, ha, rfl⟩ (ih hvs)

theorem lookup_slotValues {slots : List (Slot × ArgumentIndex)} {arguments : List Argument}
    {values : List (String × Tree)}
    (h : List.Forall₂ (fun s v => v.1 = slotName s.1 ∧ ∃ a, ArgumentIndex.pick s.2 arguments = .ok a ∧ v.2 = a.value)
      slots values) (hnodup : (slots.map Prod.fst).Nodup) {s : Slot} {i : ArgumentIndex} (hs : (s, i) ∈ slots) :
    ∃ a, ArgumentIndex.pick i arguments = .ok a ∧ values.lookup (slotName s) = some a.value := by
  induction h with
  | nil => cases hs
  | @cons t v slots values hv _ ih =>
    obtain ⟨hname, a, ha, hvalue⟩ := hv
    obtain ⟨n, v⟩ := v
    have hname : n = slotName t.1 := hname
    subst hname
    rw [List.map_cons, List.nodup_cons] at hnodup
    rw [List.lookup_cons]
    rcases List.mem_cons.mp hs with rfl | hs
    · exact ⟨a, ha, by rw [beq_self_eq_true]; exact congrArg some hvalue⟩
    · have hne : (slotName s == slotName t.1) = false := by
        rw [beq_eq_false_iff_ne]
        intro heq
        exact hnodup.1 (List.mem_map.mpr ⟨(s, i), hs, slotName_injective heq⟩)
      rw [hne]
      exact ih hnodup.2 hs

theorem lookup_unmarked {slots : List (Slot × ArgumentIndex)} {arguments : List Argument}
    {values : List (String × Tree)}
    (h : List.Forall₂ (fun s v => v.1 = slotName s.1 ∧ ∃ a, ArgumentIndex.pick s.2 arguments = .ok a ∧ v.2 = a.value)
      slots values) {s : String} (hs : Unmarked s) : values.lookup s = none := by
  induction h with
  | nil => rfl
  | @cons t v slots values hv _ ih =>
    obtain ⟨n, v⟩ := v
    have hname : n = slotName t.1 := hv.1
    subst hname
    rw [List.lookup_cons, beq_eq_false_iff_ne.mpr (ne_slotName hs t.1)]
    exact ih

/-! ### Chains -/

/-- Filling the tree of a template puts the values of the slots in their places. -/
theorem substitute_chainTree {values : List (String × Tree)} (hvalues : ∀ s, Unmarked s → values.lookup s = none)
    (hmarks : Unmarked (template m c)) :
    substitute values (chainTree m c fun s => Term.nameLeaf (slotName s)) =
      chainTree m c fun s => substitute values (Term.nameLeaf (slotName s)) := by
  obtain ⟨hfirst, hcomparison⟩ := unmarked_append hmarks
  -- the whole template is free of marks, so each name in it is; the names are picked out of the text one by one
  obtain ⟨hstart, hmessage⟩ := unmarked_append hfirst
  have hentry : Unmarked m.entryPoint := (unmarked_append (unmarked_append (unmarked_append hstart).1).1).1
  have start : substitute values (startTree m c fun s => Term.nameLeaf (slotName s)) =
      startTree m c fun s => substitute values (Term.nameLeaf (slotName s)) := by
    unfold startTree
    cases hm : c.shape.hasMessage with
    | false =>
      show substitute values (callTree _ _) = callTree _ _
      rw [substitute_callTree, substitute_other (hvalues _ hentry)]
    | true =>
      rw [hm, if_pos rfl] at hmessage
      have hmethod : Unmarked (messageMethod m c) :=
        (unmarked_append (unmarked_append (unmarked_append (unmarked_append hmessage).1).1).1).2
      show substitute values (callTree (memberTree (callTree _ _) _) _) = callTree (memberTree (callTree _ _) _) _
      rw [substitute_callTree, substitute_memberTree _ (hvalues _ hmethod), substitute_callTree,
        substitute_other (hvalues _ hentry)]
  unfold chainTree
  cases ht : c.shape.hasTolerance with
  | false =>
    rw [ht] at hcomparison
    have hequality : Unmarked m.equalityMethod :=
      (unmarked_append (unmarked_append (unmarked_append (unmarked_append hcomparison).1).1).1).2
    show substitute values (callTree (memberTree _ _) _) = callTree (memberTree _ _) _
    rw [substitute_callTree, substitute_memberTree _ (hvalues _ hequality), start]
  | true =>
    rw [ht, if_pos rfl] at hcomparison
    obtain ⟨hinner, -⟩ := unmarked_append (unmarked_append hcomparison).1
    obtain ⟨hinner, -⟩ := unmarked_append hinner
    obtain ⟨hinner, hwrapper⟩ := unmarked_append hinner
    obtain ⟨hinner, -⟩ := unmarked_append hinner
    obtain ⟨hinner, -⟩ := unmarked_append hinner
    obtain ⟨hinner, -⟩ := unmarked_append hinner
    have htolerance : Unmarked m.toleranceMethod := (unmarked_append hinner).2
    show substitute values (callTree₂ (memberTree _ _) _ (callTree _ _)) = callTree₂ (memberTree _ _) _ (callTree _ _)
    rw [substitute_callTree₂, substitute_memberTree _ (hvalues _ htolerance), start, substitute_callTree,
      substitute_other (hvalues _ hwrapper)]

section Accepted

variable {call chain : Tree} (hm : m.Accepted) (hc : c.slots = slotsOf m c.shape)

include hm hc

theorem unparen_substitute {arguments : List Argument} {values : List (String × Tree)} {t : Tree}
    (hvalues : slotValues c arguments = .ok values) (ht : readTemplate m c = .ok t) :
    (substitute values t).unparen = chainTree m c fun s => substitute values (Term.nameLeaf (slotName s)) := by
  obtain ⟨rfl, hmarks⟩ := readTemplate_ok hm hc ht
  rw [substitute_chainTree (fun s hs => lookup_unmarked (slotValues_ok hvalues) hs) hmarks]
  obtain ⟨ts, hts⟩ := Tree.exists_of_isKind (isKind_chainTree (m := m) (c := c) fun s =>
    substitute values (Term.nameLeaf (slotName s)))
  rw [hts, Tree.unparen_node (by decide)]

/-- The chain of a classified call is that of its form, with the arguments in their slots. -/
theorem emit_chain (h : emit m c call = .ok chain) :
    ∃ value : Slot → Tree, chain = chainTree m c value ∧
      ∀ s i, (s, i) ∈ slotsOf m c.shape → ∃ a, ArgumentIndex.pick i call.arguments = .ok a ∧ value s = a.value := by
  obtain ⟨-, -, ⟨values, t, hvalues, ht, rfl⟩, -⟩ := emit_ok h
  refine ⟨_, unparen_substitute hm hc hvalues ht, ?_⟩
  intro s i hs
  obtain ⟨a, ha, hlookup⟩ := lookup_slotValues (slotValues_ok hvalues) (hc ▸ nodup_slotsOf m c.shape) (hc ▸ hs)
  refine ⟨a, ha, ?_⟩
  rw [substitute_name, hlookup]
  rfl

/-- A classified call that is left alone would lose a comment. -/
theorem hasArgumentComments_of_emit_error {f : Failure} (h : emit m c call = .error f) (hf : f.isTransformation = true)
    (hlen : call.arguments.length = c.shape.arity) : hasArgumentComments call = true := by
  rcases emit_error h hf hlen with hcom | ⟨values, t, hvalues, ht, hcall⟩
  · exact hcom
  · rw [unparen_substitute hm hc hvalues ht, isKind_chainTree] at hcall
    cases hcall

end Accepted

end FluentShift.Rewrite
