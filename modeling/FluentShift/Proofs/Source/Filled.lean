import FluentShift.Proofs.Source.Quotes
import FluentShift.Proofs.Source.Shapes

/-!
# FluentShift.Proofs.Source.Filled - nothing in the tree of a text is empty

A leaf has a text, but for the end of a last line that is left open (`ended_of_text_eq_empty`), a line has a statement, and
a block a line (`filled_parse?`).  So a file whose last line is ended has a code (`code_ne_empty`).
-/

namespace FluentShift.Source

open Grammar

/-! ### Leaves have a text -/

theorem text_ne_empty_lexemesIn (modes : List Mode) (cs : List Char) : ∀ l ∈ (lexemesIn modes cs).1, l.text ≠ "" := by
  fun_induction lexemesIn modes cs with
  | case1 => exact List.forall_mem_nil _
  | case2 => exact List.forall_mem_nil _
  | case3 modes c rest cut hcut hpos tail ih =>
    refine List.forall_mem_cons.mpr ⟨fun hempty => ?_, ih⟩
    have hlen := congrArg String.length hempty
    simp at hlen
    omega
  | case4 => exact List.forall_mem_nil _

/-- A leaf of a token ends a last line that was left open, or has the text of a leaf that was read. -/
theorem Token.mem_leaves_ofLeavesIn {blocks : List Indent} {fresh : Bool} {trivia ls : List Leaf} {l : Leaf}
    (h : l ∈ (ofLeavesIn blocks fresh trivia ls).1.flatMap leaves) :
    l = ⟨.endOfLine, ""⟩ ∨ ∃ l' ∈ trivia ++ ls, l'.text = l.text := by
  induction ls generalizing blocks fresh trivia with
  | nil =>
    unfold ofLeavesIn at h
    cases fresh with
    | true =>
      refine .inr ⟨l, ?_, rfl⟩
      have hclosed := closeBlocks_leaves 0 blocks (trivialLines trivia)
      rw [trivialLines_flatten] at hclosed
      rw [List.append_nil, ← hclosed]
      simpa [leaves] using h
    | false =>
      have hclosed : (closeBlocks 0 blocks []).1.flatMap leaves = [] :=
        (List.append_eq_nil_iff.mp (closeBlocks_leaves 0 blocks [])).1
      have hsplit : l ∈ trivia ∨ l = ⟨.endOfLine, ""⟩ := by
        simpa [leaves, hclosed] using h
      rcases hsplit with hmem | rfl
      · exact .inr ⟨l, List.mem_append_left _ hmem, rfl⟩
      · exact .inl rfl
  | cons x ls ih =>
    have hself : x ∈ trivia ++ x :: ls := List.mem_append_right _ (List.mem_cons_self ..)
    have hrest : ∀ y ∈ ls, y ∈ trivia ++ x :: ls := fun y hy => List.mem_append_right _ (List.mem_cons_of_mem _ hy)
    have hlead : ∀ y ∈ trivia, y ∈ trivia ++ x :: ls := fun y hy => List.mem_append_left _ hy
    -- the text of a leaf among the trivia read so far and the leaves to come
    have hmore : ∀ (ys : List Leaf), (∀ y ∈ ys, ∃ y' ∈ trivia ++ x :: ls, y'.text = y.text) →
        ∀ {blocks fresh}, l ∈ (ofLeavesIn blocks fresh ys ls).1.flatMap leaves →
          l = ⟨.endOfLine, ""⟩ ∨ ∃ l' ∈ trivia ++ x :: ls, l'.text = l.text := by
      intro ys hys blocks fresh hl
      rcases ih hl with hends | ⟨l', hl', htext⟩
      · exact .inl hends
      · rcases List.mem_append.mp hl' with hl' | hl'
        · obtain ⟨y, hy, hsame⟩ := hys l' hl'
          exact .inr ⟨y, hy, hsame.trans htext⟩
        · exact .inr ⟨l', hrest l' hl', htext⟩
    have hnone : ∀ y ∈ ([] : List Leaf), ∃ y' ∈ trivia ++ x :: ls, y'.text = y.text := List.forall_mem_nil _
    have hread : ∀ y ∈ trivia ++ [x], y ∈ trivia ++ x :: ls := by
      intro y hy
      rcases List.mem_append.mp hy with hy | hy
      · exact hlead y hy
      · rwa [List.mem_singleton.mp hy]
    unfold ofLeavesIn at h
    split at h
    · exact hmore (trivia ++ [x]) (fun y hy => ⟨y, hread y hy, rfl⟩) h
    · split at h
      · cases fresh with
        | true =>
          rw [if_pos rfl] at h
          refine hmore (trivia ++ [⟨.lineBreak, x.text⟩]) (fun y hy => ?_) h
          rcases List.mem_append.mp hy with hy | hy
          · exact ⟨y, hlead y hy, rfl⟩
          · exact ⟨x, hself, by rw [List.mem_singleton.mp hy]⟩
        | false =>
          rcases List.mem_append.mp h with h | h
          · exact .inr ⟨l, hread l h, rfl⟩
          · exact hmore [] hnone h
      · cases fresh with
        | true =>
          simp only [if_true] at h
          cases hopen : openLine blocks trivia with
          | error f =>
            rw [hopen] at h
            cases h
          | ok r =>
            obtain ⟨tokens, lead, blocks'⟩ := r
            rw [hopen] at h
            have htrivia := openLine_leaves hopen
            dsimp only at h
            rw [List.flatMap_append, List.flatMap_cons, ← List.append_assoc] at h
            rcases List.mem_append.mp h with h | h
            · refine .inr ⟨l, hread l ?_, rfl⟩
              rwa [← htrivia, List.append_assoc]
            · exact hmore [] hnone h
        | false =>
          rcases List.mem_append.mp h with h | h
          · exact .inr ⟨l, hread l h, rfl⟩
          · exact hmore [] hnone h

theorem text_ne_empty_tokens? {text : String} {ts : List Token} (h : tokens? text = some ts) {l : Leaf}
    (hl : l ∈ ts.flatMap Token.leaves) : l = ⟨.endOfLine, ""⟩ ∨ l.text ≠ "" := by
  unfold tokens? at h
  split at h
  · cases h
  · next ls hls =>
    split at h
    · cases h
    · next us hus =>
      cases h
      unfold Token.ofLeaves? at hus
      split at hus
      · next vs hvs =>
        cases hus
        have hmem : l ∈ (Token.ofLeavesIn [] true [] ls).1.flatMap Token.leaves := by rwa [hvs]
        rcases Token.mem_leaves_ofLeavesIn hmem with hends | ⟨x, hx, htext⟩
        · exact .inl hends
        · unfold lexemes at hls
          split at hls
          · next ys hys =>
            cases hls
            refine .inr (htext ▸ text_ne_empty_lexemesIn [] text.toList x ?_)
            rwa [hys]
          · cases hls
      · cases hus

/-- In the tree of a text only the end of a last line that is left open has no text. -/
theorem ended_of_text_eq_empty {text : String} {t : Tree} (h : parseModule? text = some t) {l : Leaf} (hl : l ∈ t.leaves)
    (hempty : l.text = "") : l.kind = .endOfLine := by
  obtain ⟨ts, hts, hmodule⟩ := Option.bind_eq_some_iff.mp h
  obtain ⟨x, hx, hsame⟩ := List.mem_map.mp (leaves_moduleOfTokens? hmodule ▸ List.mem_map_of_mem (f := asMark) hl)
  have htext : ∀ l : Leaf, (asMark l).text = l.text := by
    intro l
    unfold asMark
    split <;> rfl
  rcases text_ne_empty_tokens? hts hx with rfl | hx
  · have hends : (⟨.endOfLine, ""⟩ : Leaf) = asMark l := hsame
    unfold asMark at hends
    split at hends
    · cases hends
    · exact congrArg Leaf.kind hends.symm
  · rw [← htext, hsame, htext] at hx
    exact absurd hempty hx

/-! ### A file whose last line is ended -/

theorem ne_nil_of_mem_lineUp {ts line : List Tree} (h : line ∈ lineUp ts) : line ≠ [] := by
  induction ts generalizing line with
  | nil => cases h
  | cons t ts ih =>
    rw [lineUp] at h
    split at h
    · rcases List.mem_cons.mp h with rfl | h
      · exact List.cons_ne_nil _ _
      · exact ih h
    · split at h
      · rw [List.mem_singleton.mp h]
        exact List.cons_ne_nil _ _
      · next first rest hlines =>
        rcases List.mem_cons.mp h with rfl | h
        · exact List.cons_ne_nil _ _
        · exact ih (hlines ▸ List.mem_cons_of_mem _ h)

theorem beforeLastIndented_lt {lines : List (List Tree)} (h : lines ≠ []) : beforeLastIndented lines < lines.length := by
  have hpos := List.length_pos_iff.mpr h
  unfold beforeLastIndented
  dsimp only
  generalize hp : lines.takeWhile _ = before
  have hbefore : before.length ≤ lines.length := hp ▸ (List.takeWhile_sublist _).length_le
  have hdropped := (List.dropWhile_sublist (l := before.reverse) fun line =>
    !(line.head?.map fun t => !t.isComment && !t.isLineBreak).getD false).length_le
  rw [List.length_reverse] at hdropped
  omega

/-- Some of the trivia at the end of a file is kept, if there is any. -/
theorem trimEnd_kept (ts : List Tree) :
    trimEnd (.node .module ts) = .node .module ts ∨
      ∃ t kept, trimEnd (.node .module ts) = .node .module (Item.flatten (items ts).1 ++ t :: kept) ∧ t ∈ (items ts).2 := by
  by_cases htail : (items ts).2 = []
  · have hall := items_flatten ts
    rw [htail, List.append_nil] at hall
    rcases trimEnd_cases (.node .module ts) with h | ⟨kept, hkept, h⟩
    · exact .inl h
    · obtain rfl : kept = [] := List.sublist_nil.mp (htail ▸ hkept)
      exact .inl (h.trans (by rw [List.append_nil]; exact congrArg _ hall))
  · unfold trimEnd
    dsimp only [Tree.children]
    split
    · exact .inl rfl
    · have hlines : lineUp (items ts).2 ≠ [] := by
        intro hnil
        rw [← flatten_lineUp (items ts).2, hnil] at htail
        exact htail rfl
      obtain ⟨line, lines, hdrop⟩ := List.exists_cons_of_ne_nil
        fun hnil => Nat.not_le.mpr (beforeLastIndented_lt hlines) (List.drop_eq_nil_iff.mp hnil)
      have hline : line ∈ lineUp (items ts).2 := List.mem_of_mem_drop (hdrop ▸ List.mem_cons_self ..)
      obtain ⟨t, us, rfl⟩ := List.exists_cons_of_ne_nil (ne_nil_of_mem_lineUp hline)
      refine .inr ⟨t, us ++ lines.flatten, ?_, ?_⟩
      · rw [hdrop]
        rfl
      · rw [← flatten_lineUp (items ts).2]
        exact List.mem_flatten.mpr ⟨_, hline, List.mem_cons_self ..⟩

theorem newline_mem_trimStart {text : String} (h : '\n' ∈ text.toList) : '\n' ∈ (trimStart text).toList := by
  have hdrop : ∀ cs : List Char, '\n' ∈ cs → '\n' ∈ cs.dropWhile (· = '\x0c') := by
    intro cs hcs
    rw [← List.takeWhile_append_dropWhile (p := fun c => decide (c = '\x0c')) (l := cs)] at hcs
    refine (List.mem_append.mp hcs).elim (fun hin => ?_) id
    have hfeed := List.all_eq_true.mp List.all_takeWhile _ hin
    cases of_decide_eq_true hfeed
  unfold trimStart
  rw [String.toList_ofList]
  refine hdrop _ ?_
  split
  · next hmark =>
    cases hcs : text.toList with
    | nil =>
      rw [hcs] at h
      cases h
    | cons c cs =>
      rw [hcs] at h hmark
      obtain rfl : c = '\ufeff' := (List.cons.inj hmark).1
      exact (List.mem_cons.mp h).elim (fun heq => absurd heq (by decide)) id
  · exact h

theorem newline_mem_of_endsLine {text : String} (h : endsLine text = true) : '\n' ∈ text.toList := by
  unfold endsLine at h
  split at h
  · cases h
  · cases h
  · next heq => exact List.mem_reverse.mp (heq ▸ List.mem_cons_self ..)
  · cases h

/-- A file whose last line is ended has a code. -/
theorem code_ne_empty {text : String} {f : SourceFile} (h : SourceFile.parse? text = some f) (hended : f.ended = true) :
    f.code ≠ "" := by
  obtain ⟨t, ht, heq⟩ := Option.bind_eq_some_iff.mp h
  cases heq
  replace hended : endsLine text = true := hended
  rw [if_pos hended] at ht
  obtain ⟨ts, rfl, -⟩ := formed_parseModule? ht
  have hnewline := newline_mem_trimStart (newline_mem_of_endsLine hended)
  show (trimEnd (.node .module ts)).text ≠ ""
  rcases trimEnd_kept ts with hall | ⟨u, kept, htrim, hu⟩
  · intro hempty
    rw [hall, text_parseModule? ht] at hempty
    rw [hempty] at hnewline
    cases hnewline
  · -- a piece of trivia is left, and it has a text
    obtain ⟨l, rfl⟩ : ∃ l, u = .leaf l := by
      cases u with
      | leaf l => exact ⟨l, rfl⟩
      | node k us => cases (isTrivia_items _ hu)
    have htrivia : l.kind.isTrivia = true := isTrivia_items _ hu
    have hmem : l ∈ (Tree.node .module ts).leaves := by
      rw [Tree.leaves, Tree.leavesAll_eq_flatMap, ← items_flatten ts]
      exact List.mem_flatMap.mpr ⟨_, List.mem_append_right _ hu, List.mem_singleton_self l⟩
    intro hempty
    rw [htrim] at hempty
    have hle : l.text.length ≤ (Tree.node .module (Item.flatten (items ts).1 ++ Tree.leaf l :: kept)).text.length :=
      length_text_le_textAll (t := .leaf l) (List.mem_append_right _ (List.mem_cons_self ..))
    rw [hempty] at hle
    have hend := ended_of_text_eq_empty ht hmem (String.length_eq_zero_iff.mp (Nat.le_zero.mp hle))
    rw [hend] at htrivia
    cases htrivia

/-! ### Grammars that read a statement -/

/-- Whether a tree on a line is no semicolon and no end of the line. -/
def isOnLine (t : Tree) : Bool := !t.isMark ";" && !t.isEndOfLine

/-- Whether there is a statement among some trees. -/
def holdsStatement (ts : List Tree) : Bool := (partsOf ts).any isOnLine

theorem holdsStatement_append (ts us : List Tree) :
    holdsStatement (ts ++ us) = (holdsStatement ts || holdsStatement us) := by
  rw [holdsStatement, partsOf_append, List.any_append]
  rfl

theorem holdsStatement_dropWhile (ts : List Tree) : holdsStatement (ts.dropWhile Tree.isTrivia) = holdsStatement ts := by
  rw [holdsStatement, partsOf_dropWhile]
  rfl

theorem holdsStatement_wrap (k : Kind) (ts : List Tree) : holdsStatement (wrap k ts) = true := by
  rw [holdsStatement, partsOf_wrap]
  rfl

theorem holdsStatement_join {xs ys : List Tree} (h : (holdsStatement xs || holdsStatement ys) = true) :
    holdsStatement (join xs ys) = true := by
  unfold join
  split
  · exact holdsStatement_wrap _ _
  · rwa [holdsStatement_append]

/-- Whether what is wanted is part of a statement. -/
def Want.isOnLine : Want → Bool
  | .mark s | .soft s => s ≠ ";"
  | .name | .constant => true
  | .kind k => !k.isTrivia && k ≠ .mark && k ≠ .endOfLine
  | _ => false

/-- Whether a grammar reads something of a statement, when all rules but decorators do. -/
def readsStatement : Grammar Rule → Bool
  | .want w => w.isOnLine
  | .seq a b | .graft a b => readsStatement a || readsStatement b
  | .alt a b => readsStatement a && readsStatement b
  | .chain a _ | .check _ a => readsStatement a
  | .rule r => r ≠ .decorators
  | .tree _ _ => true
  | _ => false

theorem readsStatement_meaning {r : Rule} (h : r ≠ .decorators) : readsStatement r.meaning = true := by
  cases r <;> first | rfl | exact absurd rfl h

theorem holdsStatement_leaf (l : Leaf) :
    holdsStatement [.leaf l] = (!l.kind.isTrivia && !(l.kind = .mark && l.text = ";") && l.kind ≠ .endOfLine) := by
  obtain ⟨k, s⟩ := l
  cases k <;> simp [holdsStatement, partsOf, isOnLine, Tree.isTrivia, LeafKind.isTrivia, Tree.isMark, Tree.isEndOfLine]

theorem holdsStatement_accept {w : Want} {body : TokenBody} {ls : List Leaf} (hw : w.isOnLine = true)
    (h : w.accept body = some ls) : holdsStatement (ls.map .leaf) = true := by
  cases w <;> cases body <;> simp only [Want.accept, Option.ite_none_right_eq_some, Option.some.injEq, reduceCtorEq,
    Bool.and_eq_true, decide_eq_true_eq] at h
  case indent.indent | dedent.dedent | done.done | letter.leaf => cases hw
  case kind.leaf =>
    obtain ⟨rfl, rfl⟩ := h
    simp only [Want.isOnLine, Bool.and_eq_true, decide_eq_true_eq] at hw
    simp [holdsStatement_leaf, hw]
  case mark.leaf | soft.leaf =>
    obtain ⟨⟨hkind, rfl⟩, rfl⟩ := h
    simpa [Want.isOnLine, holdsStatement_leaf, hkind, LeafKind.isTrivia] using hw
  case name.leaf | constant.leaf =>
    obtain ⟨⟨hkind, -⟩, rfl⟩ := h
    simp [holdsStatement_leaf, hkind, LeafKind.isTrivia]

/-- What a grammar that reads something of a statement derives has something of a statement. -/
theorem holdsStatement_derives {g : Grammar Rule} {xs : List Tree} (h : Derives g xs) (hg : readsStatement g = true) :
    holdsStatement xs = true := by
  induction h with
  | nothing | none_ | more | ahead | notAhead => cases hg
  | want hlead hls =>
    rw [List.map_append, holdsStatement_append, holdsStatement_accept hg hls, Bool.or_true]
  | seq _ _ iha ihb =>
    rw [holdsStatement_append, Bool.or_eq_true]
    exact ((Bool.or_eq_true _ _).mp hg).imp iha ihb
  | left _ ih => exact ih ((Bool.and_eq_true _ _).mp hg).1
  | right _ ih => exact ih ((Bool.and_eq_true _ _).mp hg).2
  | rule _ ih => exact ih (readsStatement_meaning (of_decide_eq_true hg))
  | tree => exact holdsStatement_wrap _ _
  | graft _ _ iha ihb =>
    refine holdsStatement_join ?_
    rw [Bool.or_eq_true]
    exact ((Bool.or_eq_true _ _).mp hg).imp iha ihb
  | head _ ih => exact ih hg
  | link _ _ iha _ =>
    refine holdsStatement_join ?_
    rw [iha hg, Bool.true_or]
  | check _ ih => exact ih hg

/-! ### Lines and blocks -/

/-- A line has a statement, and a block has a line after the end of its first one. -/
def FilledShape : Kind → List Tree → Prop
  | .simpleLine, ts | .suite, ts => holdsStatement ts = true
  | .block, ts => 1 < (partsOf ts).length
  | _, _ => True

/-- All lines and blocks of a tree are filled. -/
abbrev Tree.Filled (t : Tree) : Prop := t.Every (fun _ => True) FilledShape

/-- More in front leaves a line or block filled. -/
theorem FilledShape.prepend {k : Kind} {ts : List Tree} (h : FilledShape k ts) (us : List Tree) :
    FilledShape k ((us ++ ts).dropWhile Tree.isTrivia) := by
  cases k
  case simpleLine | suite =>
    show holdsStatement _ = true
    rw [holdsStatement_dropWhile, holdsStatement_append, show holdsStatement ts = true from h, Bool.or_true]
  case block =>
    have hts : 1 < (partsOf ts).length := h
    show 1 < (partsOf _).length
    rw [partsOf_dropWhile, partsOf_append, List.length_append]
    omega
  all_goals trivial

theorem filled_join {xs ys : List Tree} (hxs : ∀ t ∈ xs, t.Filled) (hys : ∀ t ∈ ys, t.Filled) :
    ∀ t ∈ join xs ys, t.Filled := by
  unfold join
  split
  · next k ts hlast =>
    have hnode : (Tree.node k ts).Filled := hys _ (List.mem_of_getLast? hlast)
    refine Tree.Every.wrap (forall_append (forall_append hxs fun t ht => ?_) fun t ht => hnode.child ht)
      (hnode.self.prepend _)
    exact hys t ((List.dropLast_sublist ys).subset ht)
  · exact forall_append hxs hys

/-- Whether a node that a grammar builds of what `g` reads is filled. -/
def fills : Kind → Grammar Rule → Bool
  | .simpleLine, g | .suite, g => readsStatement g
  | .block, .seq (.want (.kind .endOfLine)) g => readsStatement g
  | .block, _ => false
  | _, _ => true

/-- Whether all nodes that a grammar builds itself are filled. -/
def isFilled : Grammar Rule → Bool
  | .nothing | .ahead _ | .notAhead _ | .want _ | .rule _ => true
  | .seq a b | .alt a b | .graft a b | .chain a b => isFilled a && isFilled b
  | .many a | .check _ a => isFilled a
  | .tree k a => isFilled a && fills k a

theorem isFilled_meaning (r : Rule) : isFilled r.meaning = true := by
  cases r <;> rfl

theorem partsOf_endOfLine {xs : List Tree} (h : Derives (.want (.kind .endOfLine)) xs) : ∃ t, partsOf xs = [t] := by
  obtain ⟨body, ls, hls, hparts⟩ := partsOf_want h
  cases body <;> simp only [Want.accept, Option.ite_none_right_eq_some, Option.some.injEq, reduceCtorEq] at hls
  obtain ⟨hkind, rfl⟩ := hls
  refine ⟨_, hparts.trans (List.filter_eq_self.mpr (List.forall_mem_singleton.mpr ?_))⟩
  rw [Tree.isTrivia, hkind]
  rfl

theorem filledShape_of_fills {k : Kind} {g : Grammar Rule} {xs : List Tree} (hk : fills k g = true) (h : Derives g xs) :
    FilledShape k (xs.dropWhile Tree.isTrivia) := by
  unfold fills at hk
  split at hk
  · exact (holdsStatement_dropWhile xs).trans (holdsStatement_derives h hk)
  · exact (holdsStatement_dropWhile xs).trans (holdsStatement_derives h hk)
  · -- the end of the first line comes before something of a statement
    obtain ⟨es, ys, hes, hys, rfl⟩ := h.of_seq
    obtain ⟨e, he⟩ := partsOf_endOfLine hes
    obtain ⟨t, ht, -⟩ := List.any_eq_true.mp (holdsStatement_derives hys hk)
    have hpos := List.length_pos_of_mem ht
    show 1 < (partsOf _).length
    rw [partsOf_dropWhile, partsOf_append, he, List.length_append, List.length_singleton]
    omega
  · cases hk
  · cases k <;> trivial

theorem filled_derives {g : Grammar Rule} {xs : List Tree} (h : Derives g xs) (hg : isFilled g = true) :
    ∀ t ∈ xs, t.Filled := by
  induction h with
  | nothing | none_ | ahead | notAhead => exact List.forall_mem_nil _
  | want =>
    intro t ht
    obtain ⟨l, -, rfl⟩ := List.mem_map.mp ht
    exact .leaf trivial
  | seq _ _ iha ihb =>
    rw [isFilled, Bool.and_eq_true] at hg
    exact forall_append (iha hg.1) (ihb hg.2)
  | left _ ih =>
    rw [isFilled, Bool.and_eq_true] at hg
    exact ih hg.1
  | right _ ih =>
    rw [isFilled, Bool.and_eq_true] at hg
    exact ih hg.2
  | more _ _ iha ihb => exact forall_append (iha hg) (ihb hg)
  | @rule r _ _ ih => exact ih (isFilled_meaning r)
  | @tree k a xs ha ih =>
    rw [isFilled, Bool.and_eq_true] at hg
    exact Tree.Every.wrap (ih hg.1) (filledShape_of_fills hg.2 ha)
  | graft _ _ iha ihb =>
    rw [isFilled, Bool.and_eq_true] at hg
    exact filled_join (iha hg.1) (ihb hg.2)
  | head _ ih =>
    rw [isFilled, Bool.and_eq_true] at hg
    exact ih hg.1
  | link _ _ iha ihb => exact filled_join (iha hg) (ihb (by rw [isFilled, Bool.and_eq_true] at hg; exact hg.2))
  | check _ ih => exact ih hg

/-- In the tree of a file every line has a statement and every block a line. -/
theorem filled_parse? {text : String} {f : SourceFile} (h : SourceFile.parse? text = some f) : f.tree.Filled := by
  obtain ⟨-, -, hfilled⟩ := every_parse? (fun _ hxs => filled_derives hxs rfl) (fun _ => trivial) h
  exact hfilled

end FluentShift.Source
