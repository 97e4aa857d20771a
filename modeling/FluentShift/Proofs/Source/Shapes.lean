import FluentShift.Proofs.Source.Derivation
import FluentShift.Proofs.Source.Items
import FluentShift.Source.Import

/-!
# FluentShift.Proofs.Source.Shapes - where lines end and what imports look like

In the tree of a text, lines end and imports stand only in the nodes made of statements (`isLoose`), and lines only in
modules and blocks.  The names of an import come in a row, with single commas between them (`Listed`), and each can be
read (`formed_parseModule?`).
-/

namespace FluentShift.Source

open Grammar

/-! ### A property of all leaves and nodes -/

/-- All leaves and all nodes of a tree have a property. -/
inductive Tree.Every (Q : Leaf → Prop) (P : Kind → List Tree → Prop) : Tree → Prop where
  | leaf {l : Leaf} : Q l → Every Q P (.leaf l)
  | node {k : Kind} {ts : List Tree} : P k ts → (∀ t ∈ ts, Every Q P t) → Every Q P (.node k ts)

namespace Tree.Every

variable {Q Q' : Leaf → Prop} {P P' : Kind → List Tree → Prop}

theorem self {k : Kind} {ts : List Tree} (h : (Tree.node k ts).Every Q P) : P k ts := by
  cases h with
  | node hk _ => exact hk

theorem child {k : Kind} {ts : List Tree} (h : (Tree.node k ts).Every Q P) {t : Tree} (ht : t ∈ ts) : t.Every Q P := by
  cases h with
  | node _ hts => exact hts t ht

/-- What holds of all nodes of a tree holds of those in a part of it. -/
theorem part {t u : Tree} (h : t.Every Q P) {r : Path} (hu : t.at? r = some u) : u.Every Q P := by
  induction r generalizing u with
  | nil =>
    cases hu
    exact h
  | cons i r ih =>
    rw [at?_cons] at hu
    obtain ⟨v, hv, hu⟩ := Option.bind_eq_some_iff.mp hu
    cases v with
    | leaf l => cases hu
    | node k ts => exact (ih hv).child (List.mem_of_getElem? hu)

theorem mono {t : Tree} (h : t.Every Q P) (hQ : ∀ l, Q l → Q' l)
    (hP : ∀ k ts, (∀ t ∈ ts, Every Q P t) → P k ts → P' k ts) : t.Every Q' P' := by
  induction h with
  | leaf hl => exact .leaf (hQ _ hl)
  | node hk hts ih => exact .node (hP _ _ hts hk) ih

theorem wrap {k : Kind} {ts : List Tree} (h : ∀ t ∈ ts, t.Every Q P) (hk : P k (ts.dropWhile isTrivia)) :
    ∀ t ∈ Source.wrap k ts, t.Every Q P := by
  intro t ht
  rcases List.mem_append.mp ht with ht | ht
  · exact h t ((List.takeWhile_sublist _).subset ht)
  · rw [List.mem_singleton.mp ht]
    exact .node hk fun u hu => h u ((List.dropWhile_sublist _).subset hu)

end Tree.Every

/-! ### Trees without some nodes -/

/-- No line ends in the tree, and no node of a barred kind is in it. -/
def Without (barred : Kind → Bool) (t : Tree) : Prop :=
  t.Every (fun l => l.kind ≠ .endOfLine) fun k _ => barred k = false

/-- Whether a grammar that may use the allowed rules reads no ends of lines and builds no barred nodes. -/
def isWithout (barred : Kind → Bool) (allowed : Rule → Bool) : Grammar Rule → Bool
  | .nothing | .ahead _ | .notAhead _ => true
  | .want w => w ≠ .kind .endOfLine
  | .seq a b | .alt a b | .graft a b | .chain a b => isWithout barred allowed a && isWithout barred allowed b
  | .many a | .check _ a => isWithout barred allowed a
  | .rule r => allowed r
  | .tree k a => !barred k && isWithout barred allowed a

/-- A wanted leaf is a name or a mark, or of the wanted kind. -/
theorem kind_accept {w : Want} {body : TokenBody} {ls : List Leaf} (h : w.accept body = some ls) :
    ∀ l ∈ ls, l.kind = .name ∨ l.kind = .mark ∨ w = .kind l.kind := by
  intro l hl
  cases w <;> cases body <;> simp only [Want.accept, Option.ite_none_right_eq_some, Option.some.injEq, reduceCtorEq,
    Bool.and_eq_true, decide_eq_true_eq] at h
  case indent.indent | dedent.dedent | done.done => rw [← h] at hl; cases hl
  all_goals
    obtain ⟨hkind, rfl⟩ := h
    rw [List.mem_singleton.mp hl]
  case mark.leaf => exact .inr (.inl hkind.1)
  case soft.leaf | letter.leaf => exact .inr (.inl rfl)
  case name.leaf | constant.leaf => exact .inl hkind.1
  case kind.leaf => exact .inr (.inr (congrArg Want.kind hkind.symm))

theorem endless_accept {w : Want} {body : TokenBody} {ls : List Leaf} (hw : w ≠ .kind .endOfLine)
    (h : w.accept body = some ls) : ∀ l ∈ ls, l.kind ≠ .endOfLine := by
  intro l hl hk
  rcases kind_accept h l hl with h | h | h
  · cases hk.symm.trans h
  · cases hk.symm.trans h
  · exact hw (h.trans (congrArg Want.kind hk))

theorem endless_trivia {lead : List Leaf} (h : ∀ l ∈ lead, l.kind.isTrivia = true) : ∀ l ∈ lead, l.kind ≠ .endOfLine := by
  intro l hl hk
  have htrivia := h l hl
  rw [hk] at htrivia
  cases htrivia

section Without

variable {barred : Kind → Bool} {allowed : Rule → Bool}

theorem without_join {xs ys : List Tree} (hxs : ∀ t ∈ xs, Without barred t) (hys : ∀ t ∈ ys, Without barred t) :
    ∀ t ∈ join xs ys, Without barred t := by
  unfold join
  split
  · rename_i k ts hlast
    obtain ⟨init, rfl⟩ := List.getLast?_eq_some_iff.mp hlast
    have hnode : Without barred (.node k ts) := hys _ (List.mem_append_right _ (List.mem_singleton.mpr rfl))
    refine Tree.Every.wrap (fun t ht => ?_) hnode.self
    rw [List.dropLast_concat] at ht
    rcases List.mem_append.mp ht with ht | ht
    · rcases List.mem_append.mp ht with ht | ht
      · exact hxs t ht
      · exact hys t (List.mem_append_left _ ht)
    · exact hnode.child ht
  · exact fun t ht => (List.mem_append.mp ht).elim (hxs t) (hys t)

/-- What allowed rules read is without barred nodes, when that is so of what each of them means. -/
theorem without_derives (hallowed : ∀ r, allowed r = true → isWithout barred allowed r.meaning = true)
    {g : Grammar Rule} {xs : List Tree} (h : Derives g xs) (hg : isWithout barred allowed g = true) :
    ∀ t ∈ xs, Without barred t := by
  induction h with
  | nothing | none_ | ahead | notAhead => exact List.forall_mem_nil _
  | want hlead hls =>
    rename_i w lead body ls
    -- an end of line is the one token that may not be wanted here, and trivia never has one
    have hw : w ≠ .kind .endOfLine := by simpa [isWithout] using hg
    intro t ht
    obtain ⟨l, hl, rfl⟩ := List.mem_map.mp ht
    rcases List.mem_append.mp hl with hl | hl
    · exact .leaf (endless_trivia hlead l hl)
    · exact .leaf (endless_accept hw hls l hl)
  | seq _ _ iha ihb =>
    rw [isWithout, Bool.and_eq_true] at hg
    exact fun t ht => (List.mem_append.mp ht).elim (iha hg.1 t) (ihb hg.2 t)
  | left _ ih =>
    rw [isWithout, Bool.and_eq_true] at hg
    exact ih hg.1
  | right _ ih =>
    rw [isWithout, Bool.and_eq_true] at hg
    exact ih hg.2
  | more _ _ iha ihb => exact fun t ht => (List.mem_append.mp ht).elim (iha hg t) (ihb hg t)
  | rule _ ih => exact ih (hallowed _ hg)
  | tree _ ih =>
    rw [isWithout, Bool.and_eq_true, Bool.not_eq_true'] at hg
    exact Tree.Every.wrap (ih hg.2) hg.1
  | graft _ _ iha ihb =>
    rw [isWithout, Bool.and_eq_true] at hg
    exact without_join (iha hg.1) (ihb hg.2)
  | head _ ih =>
    rw [isWithout, Bool.and_eq_true] at hg
    exact ih hg.1
  | link _ _ iha ihb =>
    exact without_join (iha hg) (ihb (by rw [isWithout, Bool.and_eq_true] at hg; exact hg.2))
  | check _ ih => exact ih hg

end Without

/-! ### Expressions and the words of imports -/

/-- The nodes made of statements, where lines end. -/
def isLoose : Kind → Bool
  | .module | .simpleLine | .suite | .block | .ifStmt | .whileStmt | .forStmt | .withStmt | .tryStmt | .handler
  | .finallyClause | .elseClause | .funcDef | .classDef | .decorator | .matchStmt | .caseClause => true
  | _ => false

/-- The nodes that are not in expressions: those made of statements, and those that imports are made of; without `pure`
the names in an import are let through. -/
def isBarred (pure : Bool) : Kind → Bool
  | .importStmt | .importFrom => true
  | .importAlias => pure
  | k => isLoose k

/-- No line ends in the tree, and no statement is in it; if `pure` nothing in it is part of an import. -/
def Mild (pure : Bool) (t : Tree) : Prop := Without (isBarred pure) t

/-- The rules that read mild trees. -/
def isMildRule (pure : Bool) : Rule → Bool
  | .importAlias => !pure
  | .simple | .importStmt | .importFrom | .module | .statement | .line | .block | .compound | .ifStmt | .elifStmt
  | .elseClause | .whileStmt | .forStmt | .withStmt | .tryStmt | .handler | .starHandler | .finallyClause | .decorators
  | .funcDef | .classDef | .matchStmt | .caseClause => false
  | _ => true

/-- Whether a grammar asks for mild leaves and rules only. -/
abbrev isMild (pure : Bool) : Grammar Rule → Bool := isWithout (isBarred pure) (isMildRule pure)

theorem isMild_meaning {pure : Bool} (r : Rule) (h : isMildRule pure r = true) : isMild pure r.meaning = true := by
  cases pure <;> cases r <;> first | rfl | cases h

theorem mild_derives {pure : Bool} {g : Grammar Rule} {xs : List Tree} (h : Derives g xs) (hg : isMild pure g = true) :
    ∀ t ∈ xs, Mild pure t :=
  without_derives isMild_meaning h hg

theorem Mild.impure {pure : Bool} {t : Tree} (h : Mild pure t) : Mild false t :=
  h.mono (fun _ hl => hl) fun k _ _ hk => by cases k <;> first | rfl | exact hk

/-- The nodes that are not in the words of an import: all but its names and the dotted ones. -/
def isNoWord : Kind → Bool
  | .importAlias | .dotted => false
  | _ => true

/-- The tree is part of an import: it holds names only. -/
def Worded (t : Tree) : Prop := Without isNoWord t

/-- The rules that read parts of an import. -/
def isWordRule : Rule → Bool
  | .importAlias | .dotted => true
  | _ => false

/-- Whether a grammar asks for the words of an import only. -/
abbrev isWorded : Grammar Rule → Bool := isWithout isNoWord isWordRule

theorem worded_derives {g : Grammar Rule} {xs : List Tree} (h : Derives g xs) (hg : isWorded g = true) :
    ∀ t ∈ xs, Worded t :=
  without_derives (fun r hr => by cases r <;> first | rfl | cases hr) h hg

theorem Worded.mild {t : Tree} (h : Worded t) : Mild false t :=
  h.mono (fun _ hl => hl) fun k _ _ hk => by cases k <;> first | rfl | cases hk

/-! ### Where lines and imports stand -/

/-- The nodes made of statements that hold no lines themselves: their lines are in blocks. -/
def isCompound (k : Kind) : Bool :=
  isLoose k && !(k = .module || k = .simpleLine || k = .suite || k = .block)

/-- Whether a tree is a line or an import. -/
def Tree.isLined (t : Tree) : Bool := t.isKind .simpleLine || t.isKind .importStmt || t.isKind .importFrom

/-- The rules that read no line and no import of their own. -/
def isFlatRule : Rule → Bool
  | .simple | .line | .statement | .importStmt | .importFrom => false
  | _ => true

/-- Whether no tree that a grammar reads is a line or an import. -/
def isFlat : Grammar Rule → Bool
  | .nothing | .ahead _ | .notAhead _ | .want _ => true
  | .seq a b | .alt a b | .graft a b | .chain a b => isFlat a && isFlat b
  | .many a | .check _ a => isFlat a
  | .rule r => isFlatRule r
  | .tree k _ => !(Tree.node k []).isLined

theorem isFlat_meaning {r : Rule} (h : isFlatRule r = true) : isFlat r.meaning = true := by
  cases r <;> first | rfl | cases h

theorem isLined_trivia {t : Tree} (h : t.isTrivia = true) : t.isLined = false := by
  cases t with
  | leaf l => rfl
  | node k ts => cases h

theorem flat_wrap {k : Kind} (hk : (Tree.node k []).isLined = false) (ts : List Tree) :
    ∀ t ∈ wrap k ts, t.isLined = false := by
  intro t ht
  rcases List.mem_append.mp ht with ht | ht
  · exact isLined_trivia (List.all_eq_true.mp List.all_takeWhile t ht)
  · rw [List.mem_singleton.mp ht]
    exact hk

theorem flat_join {xs ys : List Tree} (hxs : ∀ t ∈ xs, t.isLined = false) (hys : ∀ t ∈ ys, t.isLined = false) :
    ∀ t ∈ join xs ys, t.isLined = false := by
  unfold join
  split
  · next k ts hlast =>
    have hk : (Tree.node k ts).isLined = false := hys _ (List.mem_of_getLast? hlast)
    exact flat_wrap hk _
  · exact fun t ht => (List.mem_append.mp ht).elim (hxs t) (hys t)

/-- What is read by rules that read no line is no line. -/
theorem flat_derives {g : Grammar Rule} {xs : List Tree} (h : Derives g xs) (hg : isFlat g = true) :
    ∀ t ∈ xs, t.isLined = false := by
  induction h with
  | nothing | none_ | ahead | notAhead => exact List.forall_mem_nil _
  | want =>
    intro t ht
    obtain ⟨l, -, rfl⟩ := List.mem_map.mp ht
    rfl
  | seq _ _ iha ihb =>
    rw [isFlat, Bool.and_eq_true] at hg
    exact fun t ht => (List.mem_append.mp ht).elim (iha hg.1 t) (ihb hg.2 t)
  | left _ ih =>
    rw [isFlat, Bool.and_eq_true] at hg
    exact ih hg.1
  | right _ ih =>
    rw [isFlat, Bool.and_eq_true] at hg
    exact ih hg.2
  | more _ _ iha ihb => exact fun t ht => (List.mem_append.mp ht).elim (iha hg t) (ihb hg t)
  | rule _ ih => exact ih (isFlat_meaning hg)
  | tree => exact flat_wrap ((Bool.not_eq_true' _).mp hg) _
  | graft _ _ iha ihb =>
    rw [isFlat, Bool.and_eq_true] at hg
    exact flat_join (iha hg.1) (ihb hg.2)
  | head _ ih =>
    rw [isFlat, Bool.and_eq_true] at hg
    exact ih hg.1
  | link _ _ iha ihb => exact flat_join (iha hg) (ihb (by rw [isFlat, Bool.and_eq_true] at hg; exact hg.2))
  | check _ ih => exact ih hg

/-! ### What is read for a word -/

/-- A wanted mark or name is the only part that is read for it. -/
theorem partsOf_want {w : Want} {xs : List Tree} (h : Derives (.want w) xs) :
    ∃ body ls, w.accept body = some ls ∧ partsOf xs = partsOf (ls.map .leaf) := by
  cases h with
  | want hlead hls =>
    refine ⟨_, _, hls, ?_⟩
    rw [List.map_append, partsOf_append, partsOf_trivia, List.nil_append]
    intro t ht
    obtain ⟨l, hl, rfl⟩ := List.mem_map.mp ht
    exact hlead l hl

theorem partsOf_tok {s : String} {xs : List Tree} (h : Derives (tok s) xs) : partsOf xs = [.leaf ⟨.mark, s⟩] := by
  obtain ⟨body, ls, hls, hparts⟩ := partsOf_want h
  cases body <;> simp only [Want.accept, Option.ite_none_right_eq_some, Option.some.injEq, reduceCtorEq,
    Bool.and_eq_true, decide_eq_true_eq] at hls
  obtain ⟨⟨hkind, rfl⟩, rfl⟩ := hls
  rename_i l
  obtain ⟨k, text⟩ := l
  cases hkind
  exact hparts

theorem partsOf_name {xs : List Tree} (h : Derives (.want .name) xs) : ∃ n, partsOf xs = [.leaf ⟨.name, n⟩] := by
  obtain ⟨body, ls, hls, hparts⟩ := partsOf_want h
  cases body <;> simp only [Want.accept, Option.ite_none_right_eq_some, Option.some.injEq, reduceCtorEq,
    Bool.and_eq_true, decide_eq_true_eq] at hls
  obtain ⟨⟨hkind, -⟩, rfl⟩ := hls
  rename_i l
  obtain ⟨k, text⟩ := l
  cases hkind
  exact ⟨text, hparts⟩

/-! ### Derivations of derived forms -/

theorem Derives.of_seq {a b : Grammar Rule} {zs : List Tree} (h : Derives (.seq a b) zs) :
    ∃ xs ys, Derives a xs ∧ Derives b ys ∧ zs = xs ++ ys := by
  cases h with
  | seq ha hb => exact ⟨_, _, ha, hb, rfl⟩

theorem Derives.of_alt {a b : Grammar Rule} {xs : List Tree} (h : Derives (.alt a b) xs) :
    Derives a xs ∨ Derives b xs := by
  cases h with
  | left h => exact .inl h
  | right h => exact .inr h

theorem Derives.of_opt {a : Grammar Rule} {xs : List Tree} (h : Derives (opt a) xs) : xs = [] ∨ Derives a xs := by
  rcases h.of_alt with h | h
  · exact .inr h
  · cases h
    exact .inl rfl

theorem Derives.of_tree {k : Kind} {a : Grammar Rule} {xs : List Tree} (h : Derives (.tree k a) xs) :
    ∃ ys, Derives a ys ∧ xs = wrap k ys := by
  cases h with
  | tree h => exact ⟨_, h, rfl⟩

theorem Derives.of_rule {r : Rule} {xs : List Tree} (h : Derives (.rule r) xs) : Derives r.meaning xs := by
  cases h with
  | rule h => exact h

/-- What holds of nothing, and of more when it holds of some, holds of what is read again and again. -/
theorem Derives.many_induct {a : Grammar Rule} {C : List Tree → Prop} {xs : List Tree} (h : Derives (.many a) xs)
    (hnil : C []) (hmore : ∀ xs ys, Derives a xs → C ys → C (xs ++ ys)) : C xs := by
  generalize hm : Grammar.many a = m at h
  induction h with
  | none_ => exact hnil
  | more ha _ _ ih => cases hm; exact hmore _ _ ha (ih rfl)
  | _ => cases hm

/-! ### The names of an import -/

/-- Whether a tree is a name of an import. -/
abbrev Tree.isAlias (t : Tree) : Bool := t.isKind .importAlias

/-- Names in a row with single commas between them; after the last one come no more names. -/
inductive Listed : List Tree → Prop where
  | done {ts : List Tree} : (∀ t ∈ ts, t.isAlias = false) → Listed ts
  | last {a : Tree} {ts : List Tree} : a.isAlias = true → (∀ t ∈ ts, t.isAlias = false) →
      Listed (a :: ts)
  | more {a c : Tree} {ts : List Tree} : a.isAlias = true → c.isMark "," = true → Listed ts →
      Listed (a :: c :: ts)

/-- A name of an import: what `g` reads, and perhaps a name it is bound to. -/
def aliasOf (g : Grammar Rule) : Grammar Rule := .tree .importAlias (.seq g (opt (.seq (tok "as") (.want .name))))

/-- What a name of an import looks like, when `g` reads one part. -/
theorem derives_aliasOf {g : Grammar Rule} (hg : ∀ ys, Derives g ys → ∃ n, partsOf ys = [n]) {xs : List Tree}
    (h : Derives (aliasOf g) xs) :
    ∃ ts, partsOf xs = [.node .importAlias ts] ∧ (Tree.node .importAlias ts).importedName?.isSome = true := by
  obtain ⟨ys, hys, rfl⟩ := h.of_tree
  obtain ⟨ns, os, hns, hos, rfl⟩ := hys.of_seq
  obtain ⟨n, hn⟩ := hg ns hns
  refine ⟨_, partsOf_wrap _ _, ?_⟩
  have hparts : (Tree.node .importAlias ((ns ++ os).dropWhile Tree.isTrivia)).parts = partsOf ns ++ partsOf os := by
    rw [← partsOf_append, ← partsOf_dropWhile (ns ++ os)]
    rfl
  rcases hos.of_opt with rfl | hos
  · rw [Tree.importedName?, hparts, hn]
    rfl
  · obtain ⟨as, bs, has, hbs, rfl⟩ := hos.of_seq
    obtain ⟨b, hb⟩ := partsOf_name hbs
    rw [Tree.importedName?, hparts, hn, partsOf_append, partsOf_tok has, hb]
    rfl

theorem partsOf_dotted {xs : List Tree} (h : Derives (.rule .dotted) xs) : ∃ n, partsOf xs = [n] := by
  cases h.of_rule with
  | graft hxs hys =>
    obtain ⟨n, hn⟩ := partsOf_name hxs
    rcases hys.of_opt with rfl | hys
    · exact ⟨_, by rw [join, List.getLast?_nil]; simpa using hn⟩
    · obtain ⟨zs, -, rfl⟩ := hys.of_tree
      rw [join, wrap, List.getLast?_concat]
      exact ⟨_, partsOf_wrap _ _⟩

/-- Names of an import with commas between them are listed. -/
theorem listed_sepBy {g : Grammar Rule} (hg : ∀ ys, Derives g ys → ∃ a, partsOf ys = [a] ∧ a.isAlias = true)
    {xs rest : List Tree} (h : Derives (sepBy g (tok ",")) xs) (hrest : ∀ t ∈ rest, t.isAlias = false) :
    Listed (partsOf xs ++ rest) := by
  obtain ⟨ys, zs, hys, hzs, rfl⟩ := h.of_seq
  obtain ⟨a, ha, halias⟩ := hg ys hys
  have hmany : ∀ a, a.isAlias = true → Listed (a :: (partsOf zs ++ rest)) := by
    refine hzs.many_induct (C := fun zs => ∀ a, a.isAlias = true → Listed (a :: (partsOf zs ++ rest))) ?_ ?_
    · exact fun a ha => .last ha hrest
    · intro us vs hus ih a ha
      obtain ⟨cs, bs, hcs, hbs, rfl⟩ := hus.of_seq
      obtain ⟨b, hb, hbalias⟩ := hg bs hbs
      rw [partsOf_append, partsOf_append, partsOf_tok hcs, hb]
      exact .more ha rfl (ih b hbalias)
  rw [partsOf_append, ha]
  exact hmany a halias

/-! ### Nodes -/

/-- What the nodes of an import look like: a name can be read, and the names of a statement come in a row after what is
before them. -/
def ImportShape : Kind → List Tree → Prop
  | .importStmt, ts => ∃ first names, partsOf ts = first ++ names ∧ (∀ t ∈ first, t.isAlias = false) ∧
      Listed names
  | .importFrom, ts => ∃ first names, partsOf ts = first ++ names ∧ (∀ t ∈ first, t.isAlias = false) ∧
      (∃ t ∈ first, t.isMark "import" = true) ∧ Listed names
  | .importAlias, ts => (Tree.node .importAlias ts).importedName?.isSome = true
  | _, _ => True

/-- A node in the tree of a text: only in those made of statements lines end and imports stand, and not in all of them
right there. -/
structure Shaped (k : Kind) (ts : List Tree) : Prop where
  pure : isBarred true k = false → ∀ t ∈ ts, Mild true t
  worded : isBarred true k = true → isLoose k = false → ∀ t ∈ ts, Worded t
  flat : isCompound k = true → ∀ t ∈ ts, t.isLined = false
  shape : ImportShape k ts

theorem Shaped.endless {k : Kind} {ts : List Tree} (h : Shaped k ts) (hk : isLoose k = false) : ∀ t ∈ ts, Mild false t := by
  intro t ht
  cases hbarred : isBarred true k with
  | false => exact (h.pure hbarred t ht).impure
  | true => exact (h.worded hbarred hk t ht).mild

/-- All nodes of a tree are as in the tree of a text. -/
abbrev Tree.Formed (t : Tree) : Prop := t.Every (fun _ => True) Shaped

theorem importShape_of_loose {k : Kind} (hk : isLoose k = true) (ts : List Tree) : ImportShape k ts := by
  cases k <;> trivial

theorem importShape_of_pure {k : Kind} (hk : isBarred true k = false) (ts : List Tree) : ImportShape k ts := by
  cases k <;> trivial

theorem isCompound_of_pure {k : Kind} (hk : isBarred true k = false) : isCompound k = false := by
  cases k <;> first | rfl | cases hk

/-- A node of an expression. -/
theorem shaped_pure {k : Kind} {ts : List Tree} (hk : isBarred true k = false) (hts : ∀ t ∈ ts, Mild true t) :
    Shaped k ts := by
  refine ⟨fun _ => hts, fun h => ?_, fun h => ?_, importShape_of_pure hk ts⟩
  · rw [hk] at h
    cases h
  · rw [isCompound_of_pure hk] at h
    cases h

theorem Mild.formed {t : Tree} (h : Mild true t) : t.Formed :=
  h.mono (fun _ _ => trivial) fun _ _ hts hk => shaped_pure hk hts

/-- A node made of statements. -/
theorem shaped_loose {k : Kind} {ts : List Tree} (hk : isLoose k = true)
    (hflat : isCompound k = true → ∀ t ∈ ts, t.isLined = false) : Shaped k ts := by
  refine ⟨fun h => ?_, fun _ h => ?_, hflat, importShape_of_loose hk ts⟩
  · cases k <;> contradiction
  · rw [hk] at h
    cases h

/-- A node of an import. -/
theorem shaped_import {k : Kind} {ts : List Tree} (hk : k = .importStmt ∨ k = .importFrom ∨ k = .importAlias)
    (hts : ∀ t ∈ ts, Worded t) (hshape : ImportShape k ts) : Shaped k ts := by
  refine ⟨fun h => ?_, fun _ _ => hts, fun h => ?_, hshape⟩ <;>
    rcases hk with rfl | rfl | rfl <;> cases h

/-- Whether all nodes that a grammar builds itself are well shaped. -/
def isShaped : Grammar Rule → Bool
  | .nothing | .ahead _ | .notAhead _ | .want _ | .rule _ => true
  | .seq a b | .alt a b => isShaped a && isShaped b
  | .graft a b | .chain a b => isMild true a && isMild true b
  | .many a | .check _ a => isShaped a
  | .tree k a => isShaped a && (isLoose k && (!isCompound k || isFlat a) || !isBarred true k && isMild true a)

theorem isShaped_meaning (r : Rule) :
    r = .importStmt ∨ r = .importFrom ∨ r = .importAlias ∨ isShaped r.meaning = true := by
  cases r <;> first
    | exact .inr (.inr (.inr rfl))
    | exact .inl rfl
    | exact .inr (.inl rfl)
    | exact .inr (.inr (.inl rfl))

/-- The names of imports are well shaped, when `g` reads one part that is mild. -/
theorem formed_aliasOf {g : Grammar Rule} (hg : ∀ ys, Derives g ys → ∃ n, partsOf ys = [n]) (hmild : isMild true g = true)
    (hworded : isWorded g = true) {xs : List Tree} (h : Derives (aliasOf g) xs) : ∀ t ∈ xs, t.Formed := by
  obtain ⟨ts, hparts, hread⟩ := derives_aliasOf hg h
  obtain ⟨ys, hys, rfl⟩ := h.of_tree
  have hpure : ∀ t ∈ ys, Mild true t := mild_derives hys ((Bool.and_eq_true _ _).mpr ⟨hmild, rfl⟩)
  have hwords : ∀ t ∈ ys, Worded t := worded_derives hys ((Bool.and_eq_true _ _).mpr ⟨hworded, rfl⟩)
  have hts : ts = ys.dropWhile Tree.isTrivia := by
    rw [partsOf_wrap] at hparts
    cases hparts
    rfl
  refine Tree.Every.wrap (fun t ht => (hpure t ht).formed) (shaped_import (.inr (.inr rfl)) (fun t ht => ?_) (hts ▸ hread))
  exact hwords t ((List.dropWhile_sublist _).subset ht)

theorem isAlias_of_aliasOf {g : Grammar Rule} (hg : ∀ ys, Derives g ys → ∃ n, partsOf ys = [n]) :
    ∀ ys, Derives (aliasOf g) ys → ∃ a, partsOf ys = [a] ∧ a.isAlias = true := by
  intro ys hys
  obtain ⟨ts, hparts, -⟩ := derives_aliasOf hg hys
  exact ⟨_, hparts, rfl⟩

theorem forall_append {P : Tree → Prop} {xs ys : List Tree} (hxs : ∀ t ∈ xs, P t) (hys : ∀ t ∈ ys, P t) :
    ∀ t ∈ xs ++ ys, P t :=
  fun t ht => (List.mem_append.mp ht).elim (hxs t) (hys t)

/-- What holds of all items and separators holds of all that is read. -/
theorem Derives.forall_sepBy {P : Tree → Prop} {g sep : Grammar Rule} (hg : ∀ ys, Derives g ys → ∀ t ∈ ys, P t)
    (hsep : ∀ ys, Derives sep ys → ∀ t ∈ ys, P t) {xs : List Tree} (h : Derives (sepBy g sep) xs) : ∀ t ∈ xs, P t := by
  obtain ⟨ys, zs, hys, hzs, rfl⟩ := h.of_seq
  refine forall_append (hg ys hys) (hzs.many_induct (C := fun zs => ∀ t ∈ zs, P t) (List.forall_mem_nil _)
    fun us vs hus hvs => ?_)
  obtain ⟨cs, bs, hcs, hbs, rfl⟩ := hus.of_seq
  exact forall_append (forall_append (hsep cs hcs) (hg bs hbs)) hvs

theorem formed_tok {s : String} : ∀ ys, Derives (tok s) ys → ∀ t ∈ ys, t.Formed :=
  fun _ hys t ht => (mild_derives hys rfl t ht).formed

theorem formed_importStmt {xs : List Tree} (h : Derives (Rule.meaning .importStmt) xs) : ∀ t ∈ xs, t.Formed := by
  have hdotted : ∀ ys, Derives (.rule .dotted) ys → ∃ n, partsOf ys = [n] := fun _ => partsOf_dotted
  obtain ⟨ys, hys, rfl⟩ := h.of_tree
  obtain ⟨is, ns, his, hns, rfl⟩ := hys.of_seq
  have hformed : ∀ t ∈ is ++ ns, t.Formed := by
    intro t ht
    rcases List.mem_append.mp ht with ht | ht
    · exact formed_tok is his t ht
    · exact Derives.forall_sepBy (fun _ => formed_aliasOf hdotted rfl rfl) formed_tok hns t ht
  refine Tree.Every.wrap hformed (shaped_import (.inl rfl) (fun t ht => ?_) ?_)
  · exact worded_derives hys rfl t ((List.dropWhile_sublist _).subset ht)
  · have hlisted : Listed (partsOf ns ++ []) := listed_sepBy (isAlias_of_aliasOf hdotted) hns (List.forall_mem_nil _)
    rw [List.append_nil] at hlisted
    refine ⟨partsOf is, partsOf ns, by rw [partsOf_dropWhile, partsOf_append], ?_, hlisted⟩
    rw [partsOf_tok his]
    exact fun t ht => by rw [List.mem_singleton.mp ht]; rfl

/-- The names of an import from a module, or a star. -/
def fromNames : Grammar Rule :=
  any [tok "*", all [tok "(", commas (.rule .importAlias), tok ")"],
    .seq (sepBy (.rule .importAlias) (tok ",")) (.notAhead (tok ","))]

/-- The names of an import from a module: a star, or names in a row with or without parentheses. -/
theorem listed_fromNames {xs : List Tree} (h : Derives fromNames xs) :
    ∃ first names, partsOf xs = first ++ names ∧ (∀ t ∈ first, t.isAlias = false) ∧ Listed names := by
  have hmark : ∀ (s : String) ys, Derives (tok s) ys → ∀ t ∈ partsOf ys, t.isAlias = false := by
    intro s ys hys t ht
    rw [partsOf_tok hys] at ht
    rw [List.mem_singleton.mp ht]
    rfl
  have halias : ∀ ys, Derives (.rule .importAlias) ys → ∃ a, partsOf ys = [a] ∧ a.isAlias = true := by
    intro ys hys
    refine isAlias_of_aliasOf (g := .want .name) (fun zs hzs => ?_) ys hys.of_rule
    obtain ⟨n, hn⟩ := partsOf_name hzs
    exact ⟨_, hn⟩
  rcases h.of_alt with h | h
  · exact ⟨partsOf xs, [], (List.append_nil _).symm, hmark _ _ h, .done (List.forall_mem_nil _)⟩
  · rcases h.of_alt with h | h
    · obtain ⟨os, ys, hos, hys, rfl⟩ := h.of_seq
      obtain ⟨ns, cs, hns, hcs, rfl⟩ := hys.of_seq
      obtain ⟨as, ds, has, hds, rfl⟩ := hns.of_seq
      have hrest : ∀ t ∈ partsOf ds ++ partsOf cs, t.isAlias = false := by
        intro t ht
        rcases List.mem_append.mp ht with ht | ht
        · rcases hds.of_opt with rfl | hds
          · cases ht
          · exact hmark _ _ hds t ht
        · exact hmark _ _ hcs t ht
      refine ⟨partsOf os, partsOf as ++ (partsOf ds ++ partsOf cs), ?_, hmark _ _ hos, listed_sepBy halias has hrest⟩
      simp only [partsOf_append, List.append_assoc]
    · obtain ⟨ns, ds, hns, hds, rfl⟩ := h.of_seq
      cases hds
      have hlisted : Listed (partsOf ns ++ []) := listed_sepBy halias hns (List.forall_mem_nil _)
      rw [List.append_nil] at hlisted ⊢
      exact ⟨[], partsOf ns, rfl, List.forall_mem_nil _, hlisted⟩

/-- Trees without parts of an import are no names of an import. -/
theorem Mild.not_alias {t : Tree} (h : Mild true t) : t.isAlias = false := by
  cases t with
  | leaf l => rfl
  | node k ts =>
    have hk : isBarred true k = false := h.self
    cases k <;> first | rfl | cases hk

theorem formed_importAlias {xs : List Tree} (h : Derives (Rule.meaning .importAlias) xs) : ∀ t ∈ xs, t.Formed := by
  refine formed_aliasOf (g := .want .name) (fun ys hys => ?_) rfl rfl h
  obtain ⟨n, hn⟩ := partsOf_name hys
  exact ⟨_, hn⟩

theorem formed_fromNames {xs : List Tree} (h : Derives fromNames xs) : ∀ t ∈ xs, t.Formed := by
  have halias : ∀ ys, Derives (.rule .importAlias) ys → ∀ t ∈ ys, t.Formed :=
    fun _ hys => formed_importAlias hys.of_rule
  rcases h.of_alt with h | h
  · exact formed_tok xs h
  · rcases h.of_alt with h | h
    · obtain ⟨os, ys, hos, hys, rfl⟩ := h.of_seq
      obtain ⟨ns, cs, hns, hcs, rfl⟩ := hys.of_seq
      obtain ⟨as, ds, has, hds, rfl⟩ := hns.of_seq
      refine forall_append (formed_tok _ hos) (forall_append (forall_append ?_ ?_) (formed_tok _ hcs))
      · exact Derives.forall_sepBy halias formed_tok has
      · rcases hds.of_opt with rfl | hds
        · exact fun _ ht => absurd ht List.not_mem_nil
        · exact formed_tok _ hds
    · obtain ⟨ns, ds, hns, hds, rfl⟩ := h.of_seq
      cases hds
      rw [List.append_nil]
      exact Derives.forall_sepBy halias formed_tok hns

theorem formed_importFrom {xs : List Tree} (h : Derives (Rule.meaning .importFrom) xs) : ∀ t ∈ xs, t.Formed := by
  obtain ⟨ys, hys, rfl⟩ := h.of_tree
  have hwords : ∀ t ∈ ys, Worded t := worded_derives hys rfl
  obtain ⟨fs, us, hfs, hus, rfl⟩ := hys.of_seq
  obtain ⟨ms, vs, hms, hvs, rfl⟩ := hus.of_seq
  obtain ⟨is, ns, his, hns, rfl⟩ := hvs.of_seq
  have hhead : ∀ t ∈ fs ++ (ms ++ is), Mild true t :=
    forall_append (mild_derives hfs rfl) (forall_append (mild_derives hms rfl) (mild_derives his rfl))
  have hparts : partsOf (fs ++ (ms ++ (is ++ ns))) = partsOf (fs ++ (ms ++ is)) ++ partsOf ns := by
    simp only [partsOf_append, List.append_assoc]
  refine Tree.Every.wrap ?_ (shaped_import (.inr (.inl rfl))
    (fun t ht => hwords t ((List.dropWhile_sublist _).subset ht)) ?_)
  · have hall := forall_append (fun t ht => (hhead t ht).formed) (formed_fromNames hns)
    simpa only [List.append_assoc] using hall
  · obtain ⟨first, names, hnames, hfirst, hlisted⟩ := listed_fromNames hns
    refine ⟨partsOf (fs ++ (ms ++ is)) ++ first, names, ?_, ?_, ?_, hlisted⟩
    · rw [partsOf_dropWhile, hparts, hnames, List.append_assoc]
    · exact forall_append (fun t ht => (hhead t (List.mem_of_mem_filter ht)).not_alias) hfirst
    · refine ⟨.leaf ⟨.mark, "import"⟩, List.mem_append_left _ ?_, rfl⟩
      rw [partsOf_append, partsOf_append, partsOf_tok his]
      exact List.mem_append_right _ (List.mem_append_right _ (List.mem_singleton_self _))

/-- All trees that a grammar of well shaped nodes derives are well shaped. -/
theorem formed_derives {g : Grammar Rule} {xs : List Tree} (h : Derives g xs) (hg : isShaped g = true) :
    ∀ t ∈ xs, t.Formed := by
  induction h with
  | nothing | none_ | ahead | notAhead => exact List.forall_mem_nil _
  | want =>
    intro t ht
    obtain ⟨l, -, rfl⟩ := List.mem_map.mp ht
    exact .leaf trivial
  | seq _ _ iha ihb =>
    rw [isShaped, Bool.and_eq_true] at hg
    exact fun t ht => (List.mem_append.mp ht).elim (iha hg.1 t) (ihb hg.2 t)
  | left _ ih =>
    rw [isShaped, Bool.and_eq_true] at hg
    exact ih hg.1
  | right _ ih =>
    rw [isShaped, Bool.and_eq_true] at hg
    exact ih hg.2
  | more _ _ iha ihb => exact fun t ht => (List.mem_append.mp ht).elim (iha hg t) (ihb hg t)
  | @rule r xs hr ih =>
    -- import statements are well shaped for reasons of their own
    rcases isShaped_meaning r with rfl | rfl | rfl | hshaped
    · exact formed_importStmt hr
    · exact formed_importFrom hr
    · exact formed_importAlias hr
    · exact ih hshaped
  | @tree k a xs ha ih =>
    simp only [isShaped, Bool.and_eq_true, Bool.or_eq_true, Bool.not_eq_true'] at hg
    obtain ⟨hshaped, hkind⟩ := hg
    refine Tree.Every.wrap (ih hshaped) ?_
    rcases hkind with ⟨hloose, hflat⟩ | ⟨hbarred, hmild⟩
    · refine shaped_loose hloose fun hcompound t ht => ?_
      rcases hflat with hother | hflat
      · rw [hcompound] at hother
        cases hother
      · exact flat_derives ha hflat t ((List.dropWhile_sublist _).subset ht)
    · exact shaped_pure hbarred fun t ht => mild_derives ha hmild t ((List.dropWhile_sublist _).subset ht)
  | graft ha hb =>
    rw [isShaped, Bool.and_eq_true] at hg
    -- what is grafted or linked contains no import at all
    have hall : ∀ t ∈ join _ _, Mild true t := without_join (mild_derives ha hg.1) (mild_derives hb hg.2)
    exact fun t ht => (hall t ht).formed
  | head ha =>
    rw [isShaped, Bool.and_eq_true] at hg
    exact fun t ht => (mild_derives ha hg.1 t ht).formed
  | link ha hb =>
    rw [isShaped, Bool.and_eq_true] at hg
    have hchain : isMild true (.chain _ _) = true := (Bool.and_eq_true _ _).mpr hg
    have hall : ∀ t ∈ join _ _, Mild true t := without_join (mild_derives ha hchain) (mild_derives hb hg.2)
    exact fun t ht => (hall t ht).formed
  | check _ ih => exact ih hg

/-! ### Whole texts -/

section Whole

variable {Q : Leaf → Prop} {P : Kind → List Tree → Prop}
  (hderives : ∀ xs, Derives (.rule .module) xs → ∀ t ∈ xs, t.Every Q P) (hmodule : ∀ ts, P .module ts)

include hderives hmodule

/-- What holds of all nodes that the grammar derives holds of all nodes in the tree of a text. -/
theorem every_parseModule? {text : String} {t : Tree} (h : parseModule? text = some t) :
    ∃ ts, t = .node .module ts ∧ t.Every Q P := by
  obtain ⟨tokens, htokens, h⟩ := Option.bind_eq_some_iff.mp h
  obtain ⟨⟨trees, rest⟩, hrun, h⟩ := Option.bind_eq_some_iff.mp h
  have hderived : Derives (.rule .module) trees := derives_run (quiet_tokens? htokens) hrun
  have hevery : ∀ t ∈ trees, t.Every Q P := hderives trees hderived
  obtain ⟨ys, -, rfl⟩ := hderived.of_rule.of_tree
  have hnode := hevery _ (List.mem_append_right _ (List.mem_singleton_self _))
  simp only [wrap] at h hevery
  split at h
  · next heq =>
    obtain ⟨-, hlast⟩ := List.append_eq_singleton_iff.mp heq |>.elim id fun h => absurd h.2 (List.cons_ne_nil _ _)
    obtain rfl := List.singleton_inj.mp hlast
    cases h
    exact ⟨_, rfl, hnode⟩
  · rw [List.getLast?_concat, List.dropLast_concat] at h
    cases h
    refine ⟨_, rfl, .node (hmodule _) fun u hu => ?_⟩
    rcases List.mem_append.mp hu with hu | hu
    · exact hevery u (List.mem_append_left _ hu)
    · exact hnode.child hu
  · cases h

theorem every_parse? {text : String} {f : SourceFile} (h : SourceFile.parse? text = some f) :
    ∃ ts, f.tree = .node .module ts ∧ f.tree.Every Q P := by
  obtain ⟨t, ht, h⟩ := Option.bind_eq_some_iff.mp h
  cases h
  obtain ⟨ts, rfl, hevery⟩ := every_parseModule? hderives hmodule ht
  obtain ⟨us, htrim, hsub, -⟩ := trimEnd_node ts
  refine ⟨us, htrim, ?_⟩
  show (trimEnd (.node .module ts)).Every Q P
  rw [htrim]
  exact .node (hmodule us) fun u hu => hevery.child (hsub.subset hu)

end Whole

/-- The tree of a text is a module whose nodes are well shaped. -/
theorem formed_parseModule? {text : String} {t : Tree} (h : parseModule? text = some t) :
    ∃ ts, t = .node .module ts ∧ t.Formed :=
  every_parseModule? (fun _ hxs => formed_derives hxs rfl) (fun _ => shaped_loose rfl fun h => Bool.noConfusion h) h

/-- The tree of a file is a module whose nodes are well shaped. -/
theorem formed_parse? {text : String} {f : SourceFile} (h : SourceFile.parse? text = some f) :
    ∃ ts, f.tree = .node .module ts ∧ f.tree.Formed :=
  every_parse? (fun _ hxs => formed_derives hxs rfl) (fun _ => shaped_loose rfl fun h => Bool.noConfusion h) h

end FluentShift.Source
