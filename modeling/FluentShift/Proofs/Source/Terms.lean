import FluentShift.Proofs.Source.Reading
import FluentShift.Proofs.Source.Paths

/-!
# FluentShift.Proofs.Source.Terms - names, members and calls, written and read

A `Term` is what the template of a chain is made of.  Its tree is what the parser reads from the text of that tree
(`parseExpression?_term`), whatever its names are.
-/

namespace FluentShift.Source

open Grammar

/-- A name, a member of a term, or a term applied to one or two terms. -/
inductive Term where
  | name (s : String)
  | member (e : Term) (s : String)
  | apply (e a : Term)
  | apply₂ (e a b : Term)

namespace Term

/-- A mark as a leaf of a tree. -/
def mark (s : String) : Tree := .leaf ⟨.mark, s⟩

/-- A name as a leaf of a tree. -/
def nameLeaf (s : String) : Tree := .leaf ⟨.name, s⟩

/-- The tree of a term. -/
def tree : Term → Tree
  | name s => nameLeaf s
  | member e s => .node (.attribute) [e.tree, mark ".", nameLeaf s]
  | apply e a => .node .call [e.tree, mark "(", .node .argument [a.tree], mark ")"]
  | apply₂ e a b =>
    .node .call [e.tree, mark "(", .node .argument [a.tree], mark ",", .leaf ⟨.blank, " "⟩, .node .argument [b.tree],
      mark ")"]

/-- The token of a mark. -/
def markTok (s : String) : Token := ⟨[], .leaf ⟨.mark, s⟩⟩

/-- The tokens of a term; `lead` is the trivia before it. -/
def tokens (lead : List Leaf) : Term → List Token
  | name s => [⟨lead, .leaf ⟨.name, s⟩⟩]
  | member e s => e.tokens lead ++ [markTok ".", ⟨[], .leaf ⟨.name, s⟩⟩]
  | apply e a => e.tokens lead ++ markTok "(" :: (a.tokens [] ++ [markTok ")"])
  | apply₂ e a b =>
    e.tokens lead ++ markTok "(" :: (a.tokens [] ++ markTok "," :: (b.tokens [⟨.blank, " "⟩] ++ [markTok ")"]))

/-- How many tokens a term has. -/
def size : Term → Nat
  | name _ => 1
  | member e _ => e.size + 2
  | apply e a => e.size + a.size + 2
  | apply₂ e a b => e.size + a.size + b.size + 3

/-- The property of all names of a term. -/
def All (P : String → Prop) : Term → Prop
  | name s => P s
  | member e s => e.All P ∧ P s
  | apply e a => e.All P ∧ a.All P
  | apply₂ e a b => e.All P ∧ a.All P ∧ b.All P

theorem length_tokens (e : Term) (lead : List Leaf) : (e.tokens lead).length = e.size := by
  induction e generalizing lead with
  | name s => rfl
  | member e s ih => simp only [tokens, size, List.length_append, ih]; rfl
  | apply e a ihe iha =>
    simp only [tokens, size, List.length_append, List.length_cons, List.length_nil, ihe, iha]
    omega
  | apply₂ e a b ihe iha ihb =>
    simp only [tokens, size, List.length_append, List.length_cons, List.length_nil, ihe, iha, ihb]
    omega

theorem isTrivia_tree (e : Term) : e.tree.isTrivia = false := by cases e <;> rfl

/-- A term starts with a name that no walrus follows. -/
theorem tokens_append (e : Term) (lead : List Leaf) {u : Token} (us : List Token)
    (hu : refuses (R := Rule) u.body (tok ":=") = true) :
    ∃ s ts, e.tokens lead ++ u :: us = ⟨lead, .leaf ⟨.name, s⟩⟩ :: ts ∧
      ∀ n, run Rule.meaning n (tok ":=") ts = none := by
  induction e generalizing lead u us with
  | name s => exact ⟨s, u :: us, rfl, fun n => run_of_refuses us n hu⟩
  | member e s ih =>
    obtain ⟨n, ts, h, hts⟩ := ih lead (u := markTok ".") (⟨[], .leaf ⟨.name, s⟩⟩ :: u :: us) rfl
    exact ⟨n, ts, by rw [tokens, List.append_assoc]; exact h, hts⟩
  | apply e a ihe _ =>
    obtain ⟨n, ts, h, hts⟩ := ihe lead (u := markTok "(") (a.tokens [] ++ [markTok ")"] ++ u :: us) rfl
    exact ⟨n, ts, by rw [tokens, List.append_assoc]; exact h, hts⟩
  | apply₂ e a b ihe _ _ =>
    obtain ⟨n, ts, h, hts⟩ := ihe lead (u := markTok "(")
      (a.tokens [] ++ markTok "," :: (b.tokens [⟨.blank, " "⟩] ++ [markTok ")"]) ++ u :: us) rfl
    exact ⟨n, ts, by rw [tokens, List.append_assoc]; exact h, hts⟩

/-! ### Where an expression ends -/

/-- The tokens that end an expression: a closing parenthesis, a comma or the end of the text. -/
inductive Ends : Token → Prop where
  | close : Ends (markTok ")")
  | comma : Ends (markTok ",")
  | done : Ends ⟨[], .leaf ⟨.endOfLine, ""⟩⟩

theorem wrap_lead {lead : List Leaf} (hlead : ∀ l ∈ lead, l.kind.isTrivia = true) (k : Kind) {t : Tree}
    (ht : t.isTrivia = false) (ts : List Tree) :
    wrap k (lead.map .leaf ++ t :: ts) = lead.map .leaf ++ [.node k (t :: ts)] := by
  have htrivia : ∀ u ∈ lead.map Tree.leaf, u.isTrivia = true := by
    intro u hu
    obtain ⟨l, hl, rfl⟩ := List.mem_map.mp hu
    exact hlead l hl
  rw [wrap, List.takeWhile_append_of_pos htrivia, List.dropWhile_append_of_pos htrivia,
    List.takeWhile_cons_of_neg (by simp [ht]), List.dropWhile_cons_of_neg (by simp [ht]), List.append_nil]

/-- Grafting puts a tree in front of the children of the node, and the trivia before the tree in front of the node. -/
theorem join_lead {lead : List Leaf} (hlead : ∀ l ∈ lead, l.kind.isTrivia = true) (k : Kind) {t : Tree}
    (ht : t.isTrivia = false) (us : List Tree) :
    join (lead.map .leaf ++ [t]) [.node k us] = lead.map .leaf ++ [.node k (t :: us)] := by
  have h : join (lead.map .leaf ++ [t]) [.node k us] = wrap k (lead.map .leaf ++ [t] ++ [] ++ us) := rfl
  rw [h, List.append_nil, List.append_assoc]
  exact wrap_lead hlead k ht us

section Levels

variable {N : Nat} {xs : List Tree} {s : String} {lead : List Leaf} {ts us : List Token} {u : Token}

/-- What is read as a primary expression before the end of an expression is read as a whole expression. -/
theorem reads_expression (h : Reads N (.rule .primary) (⟨lead, .leaf ⟨.name, s⟩⟩ :: ts) (xs, u :: us)) (hu : Ends u) :
    Reads (N + 43) (.rule .expression) (⟨lead, .leaf ⟨.name, s⟩⟩ :: ts) (xs, u :: us) := by
  have refuse : ∀ {g : Grammar Rule}, refuses u.body g = true → ∀ n, run Rule.meaning n g (u :: us) = none :=
    fun hg n => run_of_refuses us n hg
  have first : ∀ {g : Grammar Rule}, refuses (.leaf ⟨.name, s⟩) g = true →
      ∀ n, run Rule.meaning n g (⟨lead, .leaf ⟨.name, s⟩⟩ :: ts) = none := fun hg n => run_of_refuses ts n hg
  have awaited : Reads (N + 2) (.rule .awaited) _ _ := (h.right (first rfl)).rule
  have power : Reads (N + 6) (.rule .power) _ _ :=
    (awaited.graft_nothing (refuse (by cases hu <;> rfl))).rule
  have factor : Reads (N + 8) (.rule .factor) _ _ := (power.right (first rfl)).rule
  have term : Reads (N + 11) (.rule .term) _ _ := (factor.chain_nothing (refuse (by cases hu <;> rfl))).rule
  have sum : Reads (N + 14) (.rule .sum) _ _ := (term.chain_nothing (refuse (by cases hu <;> rfl))).rule
  have shift : Reads (N + 17) (.rule .shift) _ _ := (sum.chain_nothing (refuse (by cases hu <;> rfl))).rule
  have bitAnd : Reads (N + 20) (.rule .bitAnd) _ _ := (shift.chain_nothing (refuse (by cases hu <;> rfl))).rule
  have bitXor : Reads (N + 23) (.rule .bitXor) _ _ := (bitAnd.chain_nothing (refuse (by cases hu <;> rfl))).rule
  have bitOr : Reads (N + 26) (.rule .bitOr) _ _ := (bitXor.chain_nothing (refuse (by cases hu <;> rfl))).rule
  have comparison : Reads (N + 30) (.rule .comparison) _ _ :=
    (bitOr.graft_nothing (refuse (by cases hu <;> rfl))).rule
  have inversion : Reads (N + 32) (.rule .inversion) _ _ := (comparison.right (first rfl)).rule
  have conjunction : Reads (N + 35) (.rule .conjunction) _ _ :=
    (inversion.chain_nothing (refuse (by cases hu <;> rfl))).rule
  have disjunction : Reads (N + 38) (.rule .disjunction) _ _ :=
    (conjunction.chain_nothing (refuse (by cases hu <;> rfl))).rule
  exact ((disjunction.graft_nothing (refuse (by cases hu <;> rfl))).right (first rfl)).rule

/-- A sequence that begins with something optional reads nothing when neither that nor the rest fits. -/
theorem run_seq_opt {a b : Grammar Rule} (ha : ∀ n, run Rule.meaning n a ts = none)
    (hb : ∀ n, run Rule.meaning n b ts = none) (n : Nat) : run Rule.meaning n (.seq (opt a) b) ts = none := by
  cases n with
  | zero => rfl
  | succ n =>
    rw [run_seq]
    cases n with
    | zero => rfl
    | succ n =>
      have hopt : run Rule.meaning (n + 1) (opt a) ts = run Rule.meaning n .nothing ts := by
        rw [opt, run_alt, ha n]
      rw [hopt]
      cases n with
      | zero => rfl
      | succ n =>
        simp only [run_nothing, hb]

theorem run_compFor (hu : Ends u) (n : Nat) : run Rule.meaning n (.tree .generator (.rule .compFor)) (u :: us) = none := by
  have hrule : ∀ n, run Rule.meaning n (.rule .compFor) (u :: us) = none := by
    intro n
    cases n with
    | zero => rfl
    | succ n =>
      rw [run_rule]
      cases n with
      | zero => rfl
      | succ n =>
        show (run Rule.meaning n (.seq (opt (tok "async")) _) (u :: us)).map _ = none
        rw [run_seq_opt]
        · rfl
        · exact fun n => run_of_refuses us n (by cases hu <;> rfl)
        · exact fun n => run_of_refuses us n (by cases hu <;> rfl)
  cases n with
  | zero => rfl
  | succ n => rw [run_tree, hrule n]; rfl

/-- No walrus is read when none follows the first token. -/
theorem run_walrus {g : Grammar Rule} {t : Token} (h : ∀ n, run Rule.meaning n (tok ":=") ts = none) (n : Nat) :
    run Rule.meaning n (.seq (.ahead (.seq (.want .name) (tok ":="))) g) (t :: ts) = none := by
  have hseq : ∀ n, run Rule.meaning n (.seq (.want .name) (tok ":=")) (t :: ts) = none := by
    intro n
    cases n with
    | zero => rfl
    | succ n =>
      rw [run_seq]
      cases n with
      | zero => rfl
      | succ n =>
        rw [run_want]
        cases Want.name.accept t.body with
        | none => rfl
        | some ls =>
          simp only [Option.map_some, h]
  cases n with
  | zero => rfl
  | succ n =>
    rw [run_seq]
    cases n with
    | zero => rfl
    | succ n =>
      rw [run_ahead, hseq n]
      rfl

/-- What is read as an expression is read as an argument, unless a walrus or an equals sign follows its first name. -/
theorem reads_argument {lead : List Leaf} (hlead : ∀ l ∈ lead, l.kind.isTrivia = true) {t : Tree}
    (h : Reads N (.rule .expression) (⟨lead, .leaf ⟨.name, s⟩⟩ :: ts) (lead.map .leaf ++ [t], u :: us)) (hu : Ends u)
    (hwalrus : ∀ n, run Rule.meaning n (tok ":=") ts = none) (ht : t.isTrivia = false) :
    Reads (N + 10) (.rule .positionalArg) (⟨lead, .leaf ⟨.name, s⟩⟩ :: ts)
      (lead.map .leaf ++ [.node .argument [t]], u :: us) := by
  have first : ∀ {g : Grammar Rule}, refuses (.leaf ⟨.name, s⟩) g = true →
      ∀ n, run Rule.meaning n g (⟨lead, .leaf ⟨.name, s⟩⟩ :: ts) = none := fun hg n => run_of_refuses ts n hg
  have named : Reads (N + 2) (.rule .namedExpr) _ _ := (h.right (run_walrus hwalrus)).rule
  have grafted : Reads (N + 5) _ _ _ := named.graft_nothing (run_compFor hu)
  have argument := (grafted.right (a := .seq (tok "*") (.rule .expression)) (first rfl)).tree .argument
  rw [wrap_lead hlead .argument ht] at argument
  have whole := argument.seq (reads_notAhead (a := tok "=") fun n => run_of_refuses us n (by cases hu <;> rfl))
  rw [List.append_nil] at whole
  exact Reads.mono whole.rule (by omega)

end Levels

/-! ### Reading a term -/

/-- What may follow a primary expression and belong to it. -/
def postfixes : Grammar Rule :=
  any [.tree .attribute (.seq (tok ".") (.want .name)),
    Rule.checked Tree.isArgumentList (.tree .call (all [tok "(", opt (.rule .arguments), tok ")"])),
    .tree .subscript (all [tok "[", .rule .slices, tok "]"])]

theorem refuses_postfixes {u : Token} (hu : Ends u) : refuses u.body postfixes = true := by cases hu <;> rfl

/-- A constant is no name that can be bound. -/
def IsFree (s : String) : Prop := constantNames.contains s = false

theorem accept_name {s : String} (hs : IsFree s) : Want.name.accept (.leaf ⟨.name, s⟩) = some [⟨.name, s⟩] := by
  show (if _ then _ else _) = _
  rw [if_pos]
  simp [IsFree] at hs ⊢
  exact hs

theorem reads_atom {s : String} (hs : IsFree s) (lead : List Leaf) (ts : List Token) :
    Reads 3 (.rule .atom) (⟨lead, .leaf ⟨.name, s⟩⟩ :: ts) (lead.map .leaf ++ [nameLeaf s], ts) := by
  have h : Reads 1 (.want .name) (⟨lead, .leaf ⟨.name, s⟩⟩ :: ts) _ := reads_want (accept_name hs)
  rw [List.map_append] at h
  exact h.left.rule

theorem reads_tok (s : String) (ts : List Token) : Reads 1 (tok s) (markTok s :: ts) ([mark s], ts) := by
  have haccept : (Want.mark s).accept (.leaf ⟨.mark, s⟩) = some [⟨.mark, s⟩] := by simp [Want.accept]
  exact reads_want haccept

theorem reads_member {s : String} (hs : IsFree s) (ts : List Token) :
    Reads 4 postfixes (markTok "." :: ⟨[], .leaf ⟨.name, s⟩⟩ :: ts)
      ([.node (.attribute) [mark ".", nameLeaf s]], ts) := by
  have hname : Reads 1 (.want .name) (⟨[], .leaf ⟨.name, s⟩⟩ :: ts) _ := reads_want (accept_name hs)
  exact (((reads_tok "." _).seq hname).tree .attribute).left

section Arguments

variable {N M : Nat} {ts us vs : List Token} {xs ys : List Tree}

/-- One argument before the closing parenthesis. -/
theorem reads_arguments (h : Reads N (.rule .positionalArg) ts (xs, markTok ")" :: us)) :
    Reads (N + 8) (.rule .arguments) ts (xs, markTok ")" :: us) := by
  have refuse : ∀ {g : Grammar Rule}, refuses (.leaf ⟨.mark, ")"⟩) g = true →
      ∀ n, run Rule.meaning n g (markTok ")" :: us) = none := fun hg n => run_of_refuses us n hg
  have items := h.seq (reads_many_nothing (a := .seq (tok ",") (.rule .positionalArg)) (refuse rfl))
  have first := (items.seq (reads_opt_nothing (a := .seq (tok ",") Rule.meaning.named) (refuse rfl))).left
    (b := Rule.meaning.named)
  have whole := first.seq (reads_opt_nothing (a := tok ",") (refuse rfl))
  simp only [List.append_nil] at whole
  exact Reads.mono (Reads.rule (q := .arguments) whole) (by omega)

/-- Two arguments before the closing parenthesis. -/
theorem reads_arguments₂ (h : Reads N (.rule .positionalArg) ts (xs, markTok "," :: us))
    (h' : Reads M (.rule .positionalArg) us (ys, markTok ")" :: vs)) (hlt : (markTok ")" :: vs).length < us.length + 1) :
    Reads (N + M + 11) (.rule .arguments) ts (xs ++ (mark "," :: ys), markTok ")" :: vs) := by
  have refuse : ∀ {g : Grammar Rule}, refuses (.leaf ⟨.mark, ")"⟩) g = true →
      ∀ n, run Rule.meaning n g (markTok ")" :: vs) = none := fun hg n => run_of_refuses vs n hg
  have more := ((reads_tok "," us).seq h').many_cons hlt
    (reads_many_nothing (a := .seq (tok ",") (.rule .positionalArg)) (refuse rfl))
  have items := h.seq more
  have first := (items.seq (reads_opt_nothing (a := .seq (tok ",") Rule.meaning.named) (refuse rfl))).left
    (b := Rule.meaning.named)
  have whole := first.seq (reads_opt_nothing (a := tok ",") (refuse rfl))
  simp only [List.append_nil] at whole
  exact Reads.mono (Reads.rule (q := .arguments) whole) (by omega)

theorem reads_call (h : Reads N (.rule .arguments) ts (xs, markTok ")" :: us))
    (hok : Tree.isArgumentList (.node .call (mark "(" :: (xs ++ [mark ")"]))) = true) :
    Reads (N + 7) postfixes (markTok "(" :: ts) ([.node .call (mark "(" :: (xs ++ [mark ")"]))], us) := by
  have call := ((reads_tok "(" ts).seq ((h.left (b := .nothing)).seq (reads_tok ")" us))).tree .call
  have hlist : ([Tree.node .call (mark "(" :: (xs ++ [mark ")"]))].filter (!·.isTrivia)).all Tree.isArgumentList =
      true := by
    simp [Tree.isTrivia, hok]
  have checked : Reads _ (.check (fun ts => ts.all Tree.isArgumentList) _) _ _ := call.check hlist
  have second := checked.left (b := .tree .subscript (all [tok "[", .rule .slices, tok "]"]))
  exact Reads.mono (second.right (a := .tree .attribute (.seq (tok ".") (.want .name)))
    fun n => run_of_refuses ts n rfl) (by omega)

end Arguments

/-- A term has no comprehension for an argument. -/
theorem isGenerator_tree (e : Term) : e.tree.isKind .generator = false := by cases e <;> rfl

theorem elements_argument (e : Term) : (Tree.node .argument [e.tree]).elements = [e.tree] := by
  cases e <;> rfl

theorem isArgumentList_apply (a : Term) :
    Tree.isArgumentList (.node .call [mark "(", .node .argument [a.tree], mark ")"]) = true := by
  have helems : (Tree.node .call [mark "(", .node .argument [a.tree], mark ")"]).elements.filter (·.isKind .argument) =
      [.node .argument [a.tree]] := rfl
  simp only [Tree.isArgumentList, helems, List.any_cons, List.any_nil, elements_argument, isGenerator_tree]
  rfl

theorem isArgumentList_apply₂ (a b : Term) :
    Tree.isArgumentList (.node .call [mark "(", .node .argument [a.tree], mark ",", .leaf ⟨.blank, " "⟩,
      .node .argument [b.tree], mark ")"]) = true := by
  have helems : (Tree.node .call [mark "(", .node .argument [a.tree], mark ",", .leaf ⟨.blank, " "⟩,
      .node .argument [b.tree], mark ")"]).elements.filter (·.isKind .argument) =
      [.node .argument [a.tree], .node .argument [b.tree]] := rfl
  simp only [Tree.isArgumentList, helems, List.any_cons, List.any_nil, elements_argument, isGenerator_tree]
  rfl

/-- A term is read as its tree, and then what follows it as a primary expression. -/
theorem reads_primary (e : Term) (he : e.All IsFree) {lead : List Leaf} (hlead : ∀ l ∈ lead, l.kind.isTrivia = true)
    {M : Nat} {rest : List Token} {r : List Tree × List Token}
    (h : Continues M postfixes (lead.map .leaf ++ [e.tree]) rest r) :
    Reads (M + 100 * e.size) (.rule .primary) (e.tokens lead ++ rest) r := by
  -- an argument is a term before a closing parenthesis or a comma
  have argument : ∀ (a : Term) {lead : List Leaf}, (∀ l ∈ lead, l.kind.isTrivia = true) →
      (∀ {M : Nat} {rest : List Token} {r : List Tree × List Token},
        Continues M postfixes (lead.map .leaf ++ [a.tree]) rest r →
        Reads (M + 100 * a.size) (.rule .primary) (a.tokens lead ++ rest) r) →
      ∀ {u : Token} (us : List Token), Ends u →
        Reads (100 * a.size + 54) (.rule .positionalArg) (a.tokens lead ++ u :: us)
          (lead.map .leaf ++ [.node .argument [a.tree]], u :: us) := by
    intro a lead hlead ih u us hu
    have hprimary := ih (continues_nothing
      fun n => run_of_refuses us n (refuses_postfixes hu))
    obtain ⟨s, ts, hts, hwalrus⟩ := tokens_append a lead us (u := u) (by cases hu <;> rfl)
    rw [hts] at hprimary ⊢
    exact (reads_argument hlead (reads_expression hprimary hu) hu hwalrus a.isTrivia_tree).mono (by omega)
  induction e generalizing lead M rest r with
  | name s =>
    have hchain := (reads_atom he lead rest).chain h
    exact Reads.mono (Reads.rule (q := .primary) hchain) (by simp only [size]; omega)
  | member e s ih =>
    rw [tokens, List.append_assoc]
    have hstep : Continues (max 4 M + 1) postfixes (lead.map .leaf ++ [e.tree])
        ([markTok ".", ⟨[], .leaf ⟨.name, s⟩⟩] ++ rest) r := by
      refine Continues.cons (reads_member he.2 rest) (by simp only [List.length_append, List.length_cons, List.length_nil]; omega) ?_
      rw [join_lead hlead .attribute e.isTrivia_tree]
      exact h
    exact (ih he.1 hlead hstep).mono (by simp only [size]; omega)
  | apply e a ihe iha =>
    rw [tokens, List.append_assoc]
    have hargs := reads_arguments (argument a (List.forall_mem_nil _) (fun h => iha he.2 (List.forall_mem_nil _) h) rest .close)
    have hstep : Continues (max (100 * a.size + 54 + 8 + 7) M + 1) postfixes (lead.map .leaf ++ [e.tree])
        (markTok "(" :: (a.tokens [] ++ [markTok ")"]) ++ rest) r := by
      have hcall := reads_call hargs (isArgumentList_apply a)
      rw [List.cons_append, List.append_assoc]
      refine Continues.cons hcall (by simp only [List.length_append, List.length_cons, List.length_nil]; omega) ?_
      rw [join_lead hlead .call e.isTrivia_tree]
      exact h
    exact (ihe he.1 hlead hstep).mono (by simp only [size]; omega)
  | apply₂ e a b ihe iha ihb =>
    rw [tokens, List.append_assoc]
    have hblank : ∀ l ∈ [(⟨.blank, " "⟩ : Leaf)], l.kind.isTrivia = true := by simp [LeafKind.isTrivia]
    have ha := argument a (List.forall_mem_nil _) (fun h => iha he.2.1 (List.forall_mem_nil _) h)
      (b.tokens [⟨.blank, " "⟩] ++ markTok ")" :: rest) .comma
    have hb := argument b hblank (fun h => ihb he.2.2 hblank h) rest .close
    have hargs := reads_arguments₂ ha hb (by simp only [List.length_append, length_tokens, List.length_cons]; omega)
    have hstep : Continues (max (100 * a.size + 54 + (100 * b.size + 54) + 11 + 7) M + 1) postfixes
        (lead.map .leaf ++ [e.tree])
        (markTok "(" :: (a.tokens [] ++ markTok "," :: (b.tokens [⟨.blank, " "⟩] ++ [markTok ")"])) ++ rest) r := by
      have hcall := reads_call hargs (isArgumentList_apply₂ a b)
      rw [List.cons_append, List.append_assoc, List.cons_append, List.append_assoc]
      refine Continues.cons hcall (by simp only [List.length_append, List.length_cons, List.length_nil]; omega) ?_
      rw [join_lead hlead .call e.isTrivia_tree]
      exact h
    exact (ihe he.1 hlead hstep).mono (by simp only [size]; omega)

/-- The tokens after the last expression of a text. -/
def closing : List Token := [⟨[], .leaf ⟨.endOfLine, ""⟩⟩, ⟨[], .done⟩]

/-- A term that is alone is read as its tree. -/
theorem reads_term (e : Term) (he : e.All IsFree) :
    Reads (100 * e.size + 54) (.rule .starExprs) (e.tokens [] ++ closing) ([e.tree], closing) := by
  have refuse : ∀ {g : Grammar Rule}, refuses (.leaf ⟨.endOfLine, ""⟩) g = true →
      ∀ n, run Rule.meaning n g closing = none := fun hg n => run_of_refuses _ n hg
  have hprimary : Reads _ (.rule .primary) (e.tokens [] ++ closing) _ := reads_primary e he (List.forall_mem_nil _)
    (continues_nothing (refuse (refuses_postfixes .done)))
  obtain ⟨s, ts, hts, -⟩ := tokens_append e [] (u := ⟨[], .leaf ⟨.endOfLine, ""⟩⟩) [⟨[], .done⟩] rfl
  have hfirst : e.tokens [] ++ closing = ⟨[], .leaf ⟨.name, s⟩⟩ :: ts := hts
  rw [hfirst] at hprimary ⊢
  have expression := reads_expression hprimary .done
  have star := (expression.right (a := .tree .starred (.seq (tok "*") (.rule .bitOr)))
    fun n => run_of_refuses ts n rfl).rule (q := .starExpr)
  have whole := star.graft_nothing (b := .tree .tuple (.seq (tok ",") (opt (commas (.rule .starExpr))))) (refuse rfl)
  exact Reads.mono (Reads.rule (q := .starExprs) whole) (by omega)

end Term

end FluentShift.Source
