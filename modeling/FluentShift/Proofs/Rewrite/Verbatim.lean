import FluentShift.Proofs.Rewrite.Direct
import FluentShift.Proofs.Source.Spacing

/-!
# FluentShift.Proofs.Rewrite.Verbatim - a chain prints the arguments of its call, each of them once

A form has every argument of a call in one slot (`covers_of_classify`).  A chain is written exactly when no name takes
part in it that stands for a slot while the template is read (`exists_emit_iff`), and its text is that of the fluent
names around the texts of the arguments (`text_emit`); the parentheses around the call stay as they are (`InParens`).
-/

namespace FluentShift.Rewrite

open FluentShift.Source FluentShift.Types

variable {m : Mapping} {c : Classification}

/-! ### One slot for every argument -/

/-- The slots of a shape, each of them once. -/
def Shape.roles (shape : Shape) : List Slot :=
  [.expected, .actual] ++ (if shape.hasMessage then [.message] else []) ++
    if shape.hasTolerance then [.delta] else []

/-- The slots of a form are those of its shape and their places are those of `n` arguments, each taken once. -/
structure Classification.Covers (c : Classification) (n : Nat) : Prop where
  once : (c.slots.map Prod.fst).Nodup
  slots : (c.slots.map Prod.fst).Perm c.shape.roles
  places : (c.slots.map Prod.snd).Perm ((List.range n).map fun i : Nat => .at_ i)

theorem Shape.nodup_roles (shape : Shape) : shape.roles.Nodup := by cases shape <;> decide

theorem covers_of_slots (hm : m.Accepted) (hc : c.slots = slotsOf m c.shape) : c.Covers c.shape.arity := by
  have hslots : (c.slots.map Prod.fst).Perm c.shape.roles := by
    rw [hc]
    cases c.shape <;> exact List.Perm.refl _
  refine ⟨hslots.nodup_iff.mpr c.shape.nodup_roles, hslots, ?_⟩
  rw [hc]
  cases c.shape with
  | equality => exact List.Perm.refl _
  | messageEquality => exact List.Perm.refl _
  | tolerance => exact List.Perm.refl _
  | messageTolerance =>
    rw [slotsOf]
    rcases hm.indices with ⟨hmessage, hdelta⟩ | ⟨hmessage, hdelta⟩
    · rw [hmessage, hdelta]
      exact List.Perm.refl _
    · rw [hmessage, hdelta]
      exact ((List.Perm.swap _ _ _).cons _).cons _

theorem exists_place (hm : m.Accepted) (hc : c.slots = slotsOf m c.shape) {s : Slot} {i : ArgumentIndex}
    (hs : (s, i) ∈ c.slots) : ∃ j < c.shape.arity, i = .at_ j := by
  have hplace : i ∈ (List.range c.shape.arity).map fun i : Nat => ArgumentIndex.at_ i :=
    (covers_of_slots hm hc).places.mem_iff.mp (List.mem_map.mpr ⟨_, hs, rfl⟩)
  obtain ⟨j, hj, rfl⟩ := List.mem_map.mp hplace
  exact ⟨j, List.mem_range.mp hj, rfl⟩

/-- Every slot of a form has the item at its place of a list as long as the arguments. -/
theorem exists_items {α : Type} [Inhabited α] (hm : m.Accepted) (hc : c.slots = slotsOf m c.shape) {xs : List α}
    (hlen : xs.length = c.shape.arity) :
    ∃ item : Slot → α, ∀ s (i : Nat), (s, .at_ i) ∈ c.slots → xs[i]? = some (item s) := by
  refine ⟨fun s => (slotItem c xs s).getD default, fun s i hs => ?_⟩
  obtain ⟨j, hj, hij⟩ := exists_place hm hc hs
  cases hij
  have hi : i < xs.length := hlen ▸ hj
  have hget : xs[i]? = some xs[i] := List.getElem?_eq_getElem hi
  show xs[i]? = some ((slotItem c xs s).getD default)
  rw [slotItem_of_pick hc hs (pick_ok hget), hget]
  rfl

/-- The style of a message is that of the tag of its argument. -/
theorem style_of_classify {count : Int} {tags : List Tag} (h : classify m count tags = .ok c)
    (hmessage : c.shape.hasMessage = true) :
    ∃ i tag, (.message, i) ∈ c.slots ∧ ArgumentIndex.pick i tags = .ok tag ∧ c.style = some (.ofTag tag) := by
  unfold classify at h
  split at h
  · cases h
  · split at h
    · cases h
      cases hmessage
    · rename_i a b third _
      split at h
      · cases h
        cases hmessage
      · cases h
        exact ⟨.at_ 2, third, by simp, rfl, rfl⟩
    · obtain ⟨tag, htag, h⟩ := Except.bind_eq_ok.mp h
      cases h
      exact ⟨m.messageIndex, tag, by simp, htag, rfl⟩
    · cases h

/-! ### What a chain prints -/

/-- The text of a chain: the fluent names around the texts of the slots; `tag` is that of the message. -/
def chainText (m : Mapping) (shape : Shape) (tag : Tag) (text : Slot → String) : String :=
  m.entryPoint ++ "(" ++ text .actual ++ ")" ++
    (if shape.hasMessage then
      "." ++ (if tag = .string then m.labelledMethod else m.deferredMethod) ++ "(" ++ text .message ++ ")"
    else "") ++
    if shape.hasTolerance then
      "." ++ m.toleranceMethod ++ "(" ++ text .expected ++ ", " ++ m.toleranceWrapper ++ "(" ++ text .delta ++ "))"
    else "." ++ m.equalityMethod ++ "(" ++ text .expected ++ ")"

theorem labelled_iff {tag : Tag} : some (MessageStyle.ofTag tag) = some .labelled ↔ tag = .string := by
  cases tag <;> decide

theorem templateWith_eq_chainText {tag : Tag} (text : Slot → String)
    (hstyle : c.shape.hasMessage = true → c.style = some (.ofTag tag)) :
    templateWith m c text = chainText m c.shape tag text := by
  unfold templateWith chainText
  cases h : c.shape.hasMessage with
  | false => simp only [Bool.false_eq_true, if_false]
  | true => simp only [hstyle h, labelled_iff, if_true]

theorem exists_mapM {ε α β : Type} {f : α → Except ε β} {xs : List α} (h : ∀ x ∈ xs, ∃ b, f x = .ok b) :
    ∃ bs, xs.mapM f = .ok bs := by
  induction xs with
  | nil => exact ⟨[], rfl⟩
  | cons x xs ih =>
    obtain ⟨b, hb⟩ := h x List.mem_cons_self
    obtain ⟨bs, hbs⟩ := ih fun y hy => h y (List.mem_cons_of_mem _ hy)
    exact ⟨b :: bs, by rw [List.mapM_cons, hb, hbs]; rfl⟩

/-! ### Names that stand for slots -/

theorem leftSlot?_eq_none {slots : List Slot} {t : Tree} :
    leftSlot? slots t = none ↔ ∀ l ∈ t.leaves, l.kind = .name → ∀ s ∈ slots, l.text ≠ slotName s := by
  simp only [leftSlot?, List.findSome?_eq_none_iff, List.find?_eq_none, Bool.and_eq_true, decide_eq_true_eq, not_and]
  exact ⟨fun h l hl hname s hs => h l hl s hs hname, fun h l hl s hs hname => h l hl hname s hs⟩

/-- A leaf of a chain is one of its arguments, or is in every chain of the form. -/
theorem mem_leaves_chainTree {f : Slot → Tree} {l : Leaf} (h : l ∈ (chainTree m c f).leaves) :
    (∃ s ∈ c.shape.roles, l ∈ (f s).leaves) ∨ ∀ g, l ∈ (chainTree m c g).leaves := by
  unfold chainTree startTree callTree₂ callTree memberTree Term.mark Term.nameLeaf at h ⊢
  unfold Shape.roles
  cases hmessage : c.shape.hasMessage <;> cases htolerance : c.shape.hasTolerance <;>
    simp_all [Tree.leaves, Tree.leavesAll] <;> tauto

theorem leaves_subset_chainTree {f : Slot → Tree} {s : Slot} (hs : s ∈ c.shape.roles) :
    (f s).leaves ⊆ (chainTree m c f).leaves := by
  intro l hl
  unfold chainTree startTree callTree₂ callTree memberTree
  unfold Shape.roles at hs
  cases hmessage : c.shape.hasMessage <;> cases htolerance : c.shape.hasTolerance <;>
    simp_all [Tree.leaves, Tree.leavesAll] <;> rcases hs with rfl | rfl | rfl | rfl <;> simp_all

/-- What is in every chain of a form has no reserved mark if the template has none. -/
theorem unmarked_leaf {l : Leaf} (htemplate : Unmarked (template m c)) (h : ∀ g, l ∈ (chainTree m c g).leaves) :
    Unmarked l.text := by
  have htext : (template m c).toList =
      (chainTree m c fun s => Term.nameLeaf (slotMark s)).leaves.flatMap fun l => l.text.toList := by
    rw [← text_toList, text_chainTree]
    rfl
  obtain ⟨before, after, hsplit⟩ := List.append_of_mem (h fun s => Term.nameLeaf (slotMark s))
  refine htemplate.of_infix ?_
  rw [htext, hsplit, List.flatMap_append, List.flatMap_cons]
  exact ⟨_, _, List.append_assoc _ _ _⟩

/-- No name that stands for a slot while a template is read takes part in a chain: the template has no reserved mark,
and no name in an argument is that of a slot. -/
structure Unreserved (m : Mapping) (c : Classification) (call : Tree) : Prop where
  template : Unmarked (template m c)
  arguments : ∀ a ∈ call.arguments, ∀ l ∈ a.value.leaves, l.kind = .name → ∀ s ∈ c.shape.roles, l.text ≠ slotName s

section Accepted

variable {call : Tree} (hm : m.Accepted) (hc : c.slots = slotsOf m c.shape)
  (hlen : call.arguments.length = c.shape.arity)

include hm hc

theorem mem_roles {s : Slot} : s ∈ c.shape.roles ↔ ∃ i : Nat, (s, .at_ i) ∈ c.slots := by
  rw [← (covers_of_slots hm hc).slots.mem_iff, List.mem_map]
  constructor
  · rintro ⟨⟨s, i⟩, hs, rfl⟩
    obtain ⟨j, -, rfl⟩ := exists_place hm hc hs
    exact ⟨j, hs⟩
  · rintro ⟨i, hs⟩
    exact ⟨_, hs, rfl⟩

include hlen

/-- The arguments of a call are the values of the slots. -/
theorem exists_values : ∃ argument : Slot → Argument,
    (∀ s (i : Nat), (s, .at_ i) ∈ c.slots → call.arguments[i]? = some (argument s)) ∧
      (∀ s ∈ c.shape.roles, slotValue c call.arguments s = (argument s).value) ∧
      ∀ a ∈ call.arguments, ∃ s ∈ c.shape.roles, argument s = a := by
  obtain ⟨argument, hargument⟩ := exists_items hm hc hlen
  refine ⟨argument, hargument, fun s hs => ?_, fun a ha => ?_⟩
  · obtain ⟨i, hi⟩ := (mem_roles hm hc).mp hs
    rw [slotValue, slotItem_of_pick hc hi (pick_ok (hargument s i hi))]
    rfl
  · obtain ⟨p, hp, hitem⟩ := List.mem_filterMap.mp ((slotItem_perm hm hc hlen).mem_iff.mpr ha)
    have hs : p.1 ∈ c.shape.roles := (covers_of_slots hm hc).slots.mem_iff.mp (List.mem_map_of_mem hp)
    obtain ⟨i, hi⟩ := (mem_roles hm hc).mp hs
    rw [slotItem_of_pick hc hi (pick_ok (hargument p.1 i hi))] at hitem
    exact ⟨p.1, hs, Option.some.inj hitem⟩

theorem exists_slotValues : ∃ values, slotValues c call.arguments = .ok values := by
  obtain ⟨argument, hargument⟩ := exists_items hm hc hlen
  refine exists_mapM fun p hp => ?_
  obtain ⟨i, hi⟩ := (mem_roles hm hc).mp ((covers_of_slots hm hc).slots.mem_iff.mp (List.mem_map_of_mem hp))
  have hplace : p.2 = .at_ i := by
    have hlookup := lookup_of_mem (hc ▸ nodup_slotsOf m c.shape) hp
    rw [lookup_of_mem (hc ▸ nodup_slotsOf m c.shape) hi] at hlookup
    exact (Option.some.inj hlookup).symm
  rw [hplace, pick_ok (hargument p.1 i hi)]
  exact ⟨_, rfl⟩

/-- Without reserved marks in its template, a chain is accepted or refused as it is made right from its form. -/
theorem emit_eq_acceptChain (htemplate : Unmarked (template m c)) (hcom : hasArgumentComments call = false) :
    emit m c call = acceptChain m c (chainTree m c (slotValue c call.arguments)) := by
  obtain ⟨values, hvalues⟩ := exists_slotValues hm hc hlen
  rw [emit_eq_direct hm hc htemplate, directEmit, if_neg (not_not_intro hlen), hcom, if_neg Bool.false_ne_true, hvalues]
  rfl

theorem leftSlot?_chain_eq_none (htemplate : Unmarked (template m c)) :
    leftSlot? (c.slots.map Prod.fst) (chainTree m c (slotValue c call.arguments)) = none ↔ Unreserved m c call := by
  obtain ⟨argument, hargument, hvalue, hall⟩ := exists_values hm hc hlen
  have hroles : ∀ s, s ∈ c.slots.map Prod.fst ↔ s ∈ c.shape.roles := fun s => (covers_of_slots hm hc).slots.mem_iff
  rw [leftSlot?_eq_none]
  constructor
  · intro h
    refine ⟨htemplate, fun a ha l hl hname s hs => ?_⟩
    obtain ⟨s', hs', rfl⟩ := hall a ha
    rw [← hvalue s' hs'] at hl
    exact h l (leaves_subset_chainTree hs' hl) hname s ((hroles s).mpr hs)
  · intro h l hl hname s hs
    rcases mem_leaves_chainTree hl with ⟨s', hs', hl⟩ | hl
    · obtain ⟨i, hi⟩ := (mem_roles hm hc).mp hs'
      rw [hvalue s' hs'] at hl
      exact h.arguments _ (List.mem_of_getElem? (hargument s' i hi)) l hl hname s ((hroles s).mp hs)
    · exact ne_slotName (unmarked_leaf htemplate hl) s

/-- A call without comments around its arguments gets a chain exactly if no reserved name takes part in it. -/
theorem exists_emit_iff (hcom : hasArgumentComments call = false) :
    (∃ chain, emit m c call = .ok chain) ↔ Unreserved m c call := by
  constructor
  · rintro ⟨chain, h⟩
    obtain ⟨-, -, ⟨values, t, -, ht, -⟩, -⟩ := emit_ok h
    have htemplate : Unmarked (template m c) := (readTemplate_ok hm hc ht).2
    rw [emit_eq_acceptChain hm hc hlen htemplate hcom] at h
    exact (leftSlot?_chain_eq_none hm hc hlen htemplate).mp (acceptChain_ok h).2.1
  · intro h
    rw [emit_eq_acceptChain hm hc hlen h.template hcom, acceptChain,
      (leftSlot?_chain_eq_none hm hc hlen h.template).mpr h, isKind_chainTree]
    exact ⟨_, rfl⟩

/-- A chain prints the fluent names around the unchanged texts of the arguments. -/
theorem text_emit {chain : Tree} (h : emit m c call = .ok chain) :
    ∃ argument : Slot → Argument, (∀ s (i : Nat), (s, .at_ i) ∈ c.slots → call.arguments[i]? = some (argument s)) ∧
      chain.text = templateWith m c fun s => (argument s).value.text := by
  obtain ⟨-, hcom, ⟨values, t, -, ht, -⟩, -⟩ := emit_ok h
  obtain ⟨argument, hargument, hvalue, -⟩ := exists_values hm hc hlen
  rw [emit_eq_acceptChain hm hc hlen (readTemplate_ok hm hc ht).2 hcom] at h
  obtain ⟨rfl, -, -⟩ := acceptChain_ok h
  refine ⟨argument, hargument, ?_⟩
  have hchain : chainTree m c (slotValue c call.arguments) = chainTree m c fun s => (argument s).value :=
    chainTree_congr hc fun s i hi =>
      hvalue s ((covers_of_slots hm hc).slots.mem_iff.mp (List.mem_map.mpr ⟨_, hi, rfl⟩))
  rw [hchain, text_chainTree]

end Accepted

/-! ### Parentheses around a call -/

/-- `e` is `t` in parentheses; `opening` and `closing` are their texts, with the trivia in them. -/
inductive InParens (t : Tree) : String → String → Tree → Prop where
  | bare : InParens t "" "" t
  | wrap {e : Tree} {opening closing : String} {before after : List Tree} :
      (∀ u ∈ before ++ after, u.isTrivia = true) → InParens t opening closing e →
      InParens t ("(" ++ Tree.textAll before ++ opening) (closing ++ Tree.textAll after ++ ")")
        (.node .paren (Term.mark "(" :: before ++ e :: after ++ [Term.mark ")"]))

theorem mapInner_paren {f : Tree → Tree} {ts : List Tree} {a e b : Tree} (h : ts.filter (!·.isTrivia) = [a, e, b]) :
    (Source.Tree.node .paren ts).mapInner f = .node .paren
      (ts.map fun t => if t.isTrivia || t.isMark "(" || t.isMark ")" then t else t.mapInner f) := by
  have hparts : (ts.map fun t => (t, t.mapInner f)).filter (fun t => !t.1.isTrivia) =
      [(a, a.mapInner f), (e, e.mapInner f), (b, b.mapInner f)] := by
    rw [List.filter_map, show (fun t => !t.1.isTrivia) ∘ (fun t => (t, Tree.mapInner f t)) = (!·.isTrivia) from rfl, h]
    rfl
  unfold Tree.mapInner at hparts ⊢
  rw [Tree.para_node]
  simp only [hparts, List.map_map]
  rfl

theorem filter_trivia {ts : List Tree} (h : ∀ t ∈ ts, t.isTrivia = true) : ts.filter (!·.isTrivia) = [] :=
  List.filter_eq_nil_iff.mpr fun t ht => by simp [h t ht]

theorem map_trivia {f : Tree → Tree} {ts : List Tree} (h : ∀ t ∈ ts, t.isTrivia = true) :
    (ts.map fun t => if t.isTrivia || t.isMark "(" || t.isMark ")" then t else f t) = ts :=
  (List.map_congr_left fun t ht => by simp [h t ht]).trans (List.map_id ts)

namespace InParens

variable {t chain e : Tree} {opening closing : String}

theorem exists_node (ht : t.isKind .call = true) (h : InParens t opening closing e) : ∃ k ts, e = .node k ts := by
  cases h with
  | bare =>
    obtain ⟨ts, rfl⟩ := Tree.exists_of_isKind ht
    exact ⟨_, _, rfl⟩
  | wrap => exact ⟨_, _, rfl⟩

theorem text_eq (h : InParens t opening closing e) : e.text = opening ++ t.text ++ closing := by
  induction h with
  | bare => simp
  | wrap _ _ ih =>
    simp [Tree.textAll_append, ih, Term.mark, String.append_assoc]

theorem text_mapInner (ht : t.isKind .call = true) (h : InParens t opening closing e) :
    (e.mapInner fun _ => chain).text = opening ++ chain.text ++ closing := by
  induction h with
  | bare =>
    obtain ⟨ts, rfl⟩ := Tree.exists_of_isKind ht
    unfold Tree.mapInner
    rw [Tree.para_node, String.empty_append, String.append_empty]
  | @wrap e opening closing before after htrivia h ih =>
    obtain ⟨k, ts, rfl⟩ := h.exists_node ht
    have hbefore : ∀ u ∈ before, u.isTrivia = true := fun u hu => htrivia u (List.mem_append_left _ hu)
    have hafter : ∀ u ∈ after, u.isTrivia = true := fun u hu => htrivia u (List.mem_append_right _ hu)
    have hopen : Tree.isTrivia (Term.mark "(") = false := rfl
    have hclose : Tree.isTrivia (Term.mark ")") = false := rfl
    have hnode : Tree.isTrivia (.node k ts) = false := rfl
    have hparts : (Term.mark "(" :: before ++ Source.Tree.node k ts :: after ++ [Term.mark ")"]).filter (!·.isTrivia) =
        [Term.mark "(", .node k ts, Term.mark ")"] := by
      simp only [List.filter_append, List.filter_cons, List.filter_nil, filter_trivia hbefore, filter_trivia hafter,
        hopen, hclose, hnode]
      rfl
    rw [mapInner_paren hparts]
    simp only [List.map_append, List.map_cons, List.map_nil, map_trivia hbefore, map_trivia hafter, Tree.text_node,
      Tree.textAll_append, Tree.textAll_cons, Tree.textAll_nil]
    have hinner : (if Tree.isTrivia (.node k ts) || Tree.isMark "(" (.node k ts) || Tree.isMark ")" (.node k ts) then
        .node k ts else (Source.Tree.node k ts).mapInner fun _ => chain) = (Source.Tree.node k ts).mapInner fun _ => chain :=
      rfl
    rw [hinner, ih]
    simp [Term.mark, Tree.isMark, String.append_assoc]

end InParens

/-! ### Classifying and emitting -/

/-- Two, three and four arguments have a form, which has every argument in one slot.  The chain of a call is written unless
a reserved name takes part in it; between the call's own parentheses it prints the fluent names around the unchanged
texts of the arguments. -/
theorem classify_emit_verbatim (hm : m.Accepted) (tags : List Tag) :
    ((∃ c, classify m tags.length tags = .ok c) ↔ tags.length = 2 ∨ tags.length = 3 ∨ tags.length = 4) ∧
      ∀ c, classify m tags.length tags = .ok c → c.Covers tags.length ∧
        ∀ call : Tree, call.isKind .call = true → call.arguments.length = tags.length →
          hasArgumentComments call = false →
          ((∃ chain, emit m c call = .ok chain) ↔ Unreserved m c call) ∧
            ∀ chain, emit m c call = .ok chain → ∃ (argument : Slot → Argument) (tag : Slot → Tag),
              (∀ s (i : Nat), (s, .at_ i) ∈ c.slots →
                call.arguments[i]? = some (argument s) ∧ tags[i]? = some (tag s)) ∧
              ∀ e opening closing, InParens call opening closing e →
                e.text = opening ++ call.text ++ closing ∧
                  (e.mapInner fun _ => chain).text =
                    opening ++ chainText m c.shape (tag .message) (fun s => (argument s).value.text) ++ closing := by
  have hcount : (∃ c, classify m tags.length tags = .ok c) ↔ 2 ≤ tags.length ∧ tags.length ≤ 4 := by
    refine ⟨fun ⟨c, hc⟩ => ?_, exists_classify hm⟩
    by_contra hlen
    obtain ⟨f, hf, -⟩ := classify_error (m := m) hlen
    rw [hf] at hc
    cases hc
  refine ⟨hcount.trans (by omega), fun c hclass => ?_⟩
  obtain ⟨harity, hc⟩ := classify_ok hclass
  refine ⟨harity ▸ covers_of_slots hm hc, fun call hcall hargs hcom => ?_⟩
  have hlen : call.arguments.length = c.shape.arity := hargs.trans harity
  refine ⟨exists_emit_iff hm hc hlen hcom, fun chain hemit => ?_⟩
  obtain ⟨argument, hargument, htext⟩ := text_emit hm hc hlen hemit
  obtain ⟨tag, htag⟩ := exists_items hm hc harity
  -- the message decides how the comparison is written, and it is the argument in its slot
  have hstyle : c.shape.hasMessage = true → c.style = some (.ofTag (tag .message)) := by
    intro hmessage
    obtain ⟨i, t, hi, ht, hstyle⟩ := style_of_classify hclass hmessage
    obtain ⟨j, -, rfl⟩ := exists_place hm hc hi
    rw [pick_ok (htag .message j hi)] at ht
    cases ht
    exact hstyle
  refine ⟨argument, tag, fun s i hs => ⟨hargument s i hs, htag s i hs⟩, fun e opening closing he => ⟨he.text_eq, ?_⟩⟩
  rw [he.text_mapInner hcall, htext, templateWith_eq_chainText _ hstyle]

/-- A call in parentheses with four arguments, the second one in parentheses of its own. -/
def toleranceCall : Tree :=
  .node .call [Term.nameLeaf "assertEquals", Term.mark "(", .node .argument [.leaf ⟨.integer, "1"⟩], Term.mark ",",
    .node .argument [.node .paren [Term.mark "(", Term.nameLeaf "x", Term.mark ")"]], Term.mark ",",
    .node .argument [.leaf ⟨.string, "'m'"⟩], Term.mark ",", .node .argument [.leaf ⟨.real, "0.1"⟩], Term.mark ")"]

theorem classify_emit_toleranceCall :
    ∃ c chain, classify .standard 4 [.other, .other, .string, .floatingPoint] = .ok c ∧
      emit .standard c toleranceCall = .ok chain ∧
      ((Source.Tree.node .paren [Term.mark "(", toleranceCall, Term.mark ")"]).mapInner fun _ => chain).text =
        "(assertThat((x)).describedAs('m').isCloseTo(1, within(0.1)))" := by
  obtain ⟨-, h⟩ := classify_emit_verbatim Mapping.accepted_standard [.other, .other, .string, .floatingPoint]
  obtain ⟨-, hcall⟩ := h _ rfl
  obtain ⟨hiff, hchain⟩ := hcall toleranceCall rfl rfl rfl
  have hunreserved : Unreserved .standard ⟨.messageTolerance, slotsOf .standard .messageTolerance, some .labelled⟩
      toleranceCall := ⟨unmarked_template chainNames_standard _, by decide⟩
  obtain ⟨chain, hemit⟩ := hiff.mpr hunreserved
  obtain ⟨argument, tag, hslots, htext⟩ := hchain chain hemit
  refine ⟨_, chain, rfl, hemit, ?_⟩
  have text : ∀ (s : Slot) (i : Nat) (t : String), (s, ArgumentIndex.at_ i) ∈ slotsOf .standard .messageTolerance →
      toleranceCall.arguments[i]?.map (·.value.text) = some t → (argument s).value.text = t := by
    intro s i t hs ht
    rw [(hslots s i hs).1] at ht
    exact Option.some.inj ht
  have hactual := text .actual 1 "(x)" (by decide) (by decide)
  have hexpected := text .expected 0 "1" (by decide) (by decide)
  have hmessage := text .message 2 "'m'" (by decide) (by decide)
  have hdelta := text .delta 3 "0.1" (by decide) (by decide)
  have htag : tag .message = .string := (Option.some.inj (hslots .message 2 (by decide)).2).symm
  have hprinted := (htext _ _ _ (@InParens.wrap _ _ _ _ [] [] (by simp) .bare)).2
  refine hprinted.trans ?_
  rw [htag, chainText]
  simp only [hactual, hexpected, hmessage, hdelta]
  decide

end FluentShift.Rewrite
