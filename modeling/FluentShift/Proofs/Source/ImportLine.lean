import FluentShift.Proofs.Source.Items
import FluentShift.Proofs.Source.Writing
import FluentShift.Text.Split

/-!
# FluentShift.Proofs.Source.ImportLine - one import on a line of its own

A line of the form `from a.b import c, d` is read as one statement (`parseModule?_importLine`), whatever its names are,
and so is one of the form `import a.b` (`parseModule?_moduleLine`).
-/

namespace FluentShift.Source

open Grammar Term

/-! ### Grammars that cannot begin with a token -/

mutual

/-- Whether a grammar reads nothing at all from tokens that start with `b`, looking into `n` levels of it. -/
def fails (n : Nat) (b : TokenBody) (g : Grammar Rule) : Bool :=
  match n with
  | 0 => false
  | n + 1 =>
    match g with
    | .want w => (w.accept b).isNone
    | .seq a c => fails n b a || (passes n b a && fails n b c)
    | .alt a c => fails n b a && fails n b c
    | .tree _ a | .graft a _ | .chain a _ | .check _ a | .ahead a => fails n b a
    | .rule r => fails n b r.meaning
    | _ => false

/-- Whether a grammar reads no token from tokens that start with `b`, looking into `n` levels of it. -/
def passes (n : Nat) (b : TokenBody) (g : Grammar Rule) : Bool :=
  match n with
  | 0 => false
  | n + 1 =>
    match g with
    | .nothing | .ahead _ | .notAhead _ => true
    | .many a => fails n b a
    | .alt a c => fails n b a && passes n b c
    | .rule r => passes n b r.meaning
    | _ => false

end

theorem run_of_fails_and_passes (n : Nat) (t : Token) (ts : List Token) :
    (∀ g, fails n t.body g = true → ∀ fuel, run Rule.meaning fuel g (t :: ts) = none) ∧
      ∀ g, passes n t.body g = true → ∀ fuel,
        run Rule.meaning fuel g (t :: ts) = none ∨ run Rule.meaning fuel g (t :: ts) = some ([], t :: ts) := by
  induction n with
  | zero => exact ⟨fun g h => (by cases h), fun g h => (by cases h)⟩
  | succ n ih =>
    obtain ⟨hfails, hpasses⟩ := ih
    -- the first token decides alone: what fails on it reads nothing, what passes it gives it back
    refine ⟨fun g h fuel => ?_, fun g h fuel => ?_⟩
    · cases fuel with
      | zero => rfl
      | succ fuel =>
        unfold fails at h
        cases g with
        | want w => rw [run_want, Option.isNone_iff_eq_none.mp h]; rfl
        | seq a c =>
          rw [run_seq]
          rcases (Bool.or_eq_true _ _).mp h with h | h
          · rw [hfails a h]
          · obtain ⟨ha, hc⟩ := (Bool.and_eq_true _ _).mp h
            rcases hpasses a ha fuel with hrun | hrun
            · rw [hrun]
            · rw [hrun]
              simp only [hfails c hc]
        | alt a c =>
          obtain ⟨ha, hc⟩ := (Bool.and_eq_true _ _).mp h
          rw [run_alt, hfails a ha]
          exact hfails c hc fuel
        | tree k a => rw [run_tree, hfails a h]; rfl
        | graft a c => rw [run_graft, hfails a h]
        | chain a c => rw [run_chain, hfails a h]
        | check ok a => rw [run_check, hfails a h]
        | ahead a => rw [run_ahead, hfails a h]; rfl
        | rule r => exact hfails r.meaning h fuel
        | _ => cases h
    · cases fuel with
      | zero => exact .inl rfl
      | succ fuel =>
        unfold passes at h
        cases g with
        | nothing => exact .inr rfl
        | ahead a =>
          rw [run_ahead]
          split
          · exact .inr rfl
          · exact .inl rfl
        | notAhead a =>
          rw [run_notAhead]
          split
          · exact .inl rfl
          · exact .inr rfl
        | many a => rw [run_many, hfails a h]; exact .inr rfl
        | alt a c =>
          obtain ⟨ha, hc⟩ := (Bool.and_eq_true _ _).mp h
          rw [run_alt, hfails a ha]
          exact hpasses c hc fuel
        | rule r => exact hpasses r.meaning h fuel
        | _ => cases h

theorem run_of_fails {g : Grammar Rule} (n : Nat) {t : Token} {ts : List Token} (h : fails n t.body g = true) (fuel : Nat) :
    run Rule.meaning fuel g (t :: ts) = none :=
  (run_of_fails_and_passes n t ts).1 g h fuel

/-- Nothing that comes before the imports in the grammar starts with `word`. -/
def StartsImport (word : String) : Prop :=
  fails 60 (.leaf ⟨.mark, word⟩) (.rule .compound) = true ∧ fails 60 (.leaf ⟨.mark, word⟩) (.rule .typeAlias) = true ∧
    fails 60 (.leaf ⟨.mark, word⟩) (.rule .assignmentLike) = true ∧
    fails 60 (.leaf ⟨.mark, word⟩) (.rule .returnStmt) = true

theorem startsImport_from : StartsImport "from" := by
  refine ⟨?_, ?_, ?_, ?_⟩ <;> rfl

theorem startsImport_import : StartsImport "import" := by
  refine ⟨?_, ?_, ?_, ?_⟩ <;> rfl

/-- The import of a module does not start with `from`. -/
theorem fails_from : fails 60 (.leaf ⟨.mark, "from"⟩) (.rule .importStmt) = true := rfl

/-! ### The line -/

/-- Names with dots between them: the first one and the others. -/
structure Dotted where
  first : String
  others : List String

namespace Dotted

/-- The names with the dots. -/
def text (d : Dotted) : String := String.intercalate "." (d.first :: d.others)

/-- The property of all the names. -/
def All (P : String → Prop) (d : Dotted) : Prop := P d.first ∧ ∀ n ∈ d.others, P n

/-- The leaves of dotted names. -/
def leaves (d : Dotted) : List Leaf := ⟨.name, d.first⟩ :: d.others.flatMap fun n => [⟨.mark, "."⟩, ⟨.name, n⟩]

/-- The tree of dotted names. -/
def tree (d : Dotted) : Tree :=
  if d.others = [] then nameLeaf d.first
  else .node .dotted (nameLeaf d.first :: d.others.flatMap fun n => [mark ".", nameLeaf n])

end Dotted

/-- The name of an import. -/
def aliasTree (n : String) : Tree := .node .importAlias [nameLeaf n]

/-- A blank. -/
def blank : Tree := .leaf ⟨.blank, " "⟩

/-- The import of some names from a module. -/
def importTree (d : Dotted) (n : String) (ns : List String) : Tree :=
  .node .importFrom ([mark "from", blank, d.tree, blank, mark "import", blank, aliasTree n] ++
    ns.flatMap fun n => [mark ",", blank, aliasTree n])

/-- The import on a line of its own. -/
def importLine (lineBreak : String) (d : Dotted) (n : String) (ns : List String) : Tree :=
  .node .simpleLine [importTree d n ns, .leaf ⟨.endOfLine, lineBreak⟩]

/-- The import of a module. -/
def moduleTree (d : Dotted) : Tree := .node .importStmt [mark "import", blank, .node .importAlias [d.tree]]

/-- The import of a module on a line of its own. -/
def moduleLine (lineBreak : String) (d : Dotted) : Tree :=
  .node .simpleLine [moduleTree d, .leaf ⟨.endOfLine, lineBreak⟩]

/-- The text of the line. -/
def importText (lineBreak : String) (d : Dotted) (n : String) (ns : List String) : String :=
  "from " ++ d.text ++ " import " ++ String.intercalate ", " (n :: ns) ++ lineBreak

/-- The leaves of the line. -/
def importLeaves (lineBreak : String) (d : Dotted) (n : String) (ns : List String) : List Leaf :=
  ⟨.mark, "from"⟩ :: ⟨.blank, " "⟩ :: (d.leaves ++ ⟨.blank, " "⟩ :: ⟨.mark, "import"⟩ :: ⟨.blank, " "⟩ :: ⟨.name, n⟩ ::
    (ns.flatMap (fun n => [⟨.mark, ","⟩, ⟨.blank, " "⟩, ⟨.name, n⟩]) ++ [⟨.endOfLine, lineBreak⟩]))

/-- The text of the line that imports a module. -/
def moduleText (lineBreak : String) (d : Dotted) : String := "import " ++ d.text ++ lineBreak

/-- The leaves of the line that imports a module. -/
def moduleLeaves (lineBreak : String) (d : Dotted) : List Leaf :=
  ⟨.mark, "import"⟩ :: ⟨.blank, " "⟩ :: (d.leaves ++ [⟨.endOfLine, lineBreak⟩])

/-! ### Cutting the line into leaves -/

/-- A line break of a file. -/
def IsLineBreak (s : String) : Prop := s = "\n" ∨ s = "\r\n" ∨ s = "\r"

theorem isLineBreak_firstLineBreak (text : String) : IsLineBreak (firstLineBreak text) := by
  unfold firstLineBreak
  split
  · exact .inr (.inl rfl)
  · exact .inr (.inr rfl)
  · exact .inl rfl

section Lexes

variable {modes : List Mode} {rest : List Char} {ls : List Leaf}

theorem lexes_lineBreak {lineBreak : String} (h : IsLineBreak lineBreak) :
    Lexes [] lineBreak.toList [⟨.endOfLine, lineBreak⟩] := by
  have hnil : Lexes [] [] [] := by
    rw [Lexes, lexemesIn]
    rfl
  have hcut : ∀ c cs n, nextCut [] c cs = .ok ⟨.endOfLine, n, []⟩ → 0 < n → Lexes [] ((c :: cs).drop n) [] →
      Lexes [] (c :: cs) [⟨.endOfLine, String.ofList ((c :: cs).take n)⟩] := fun _ _ _ hcut hpos h => Lexes.step hcut hpos h
  rcases h with rfl | rfl | rfl
  · exact hcut '\n' [] 1 rfl Nat.one_pos hnil
  · exact hcut '\r' ['\n'] 2 rfl Nat.two_pos hnil
  · exact hcut '\r' [] 1 rfl Nat.one_pos hnil

theorem endsName_lineBreak {lineBreak : String} (h : IsLineBreak lineBreak) : EndsName lineBreak.toList := by
  rcases h with rfl | rfl | rfl <;> exact endsName_cons (by decide) _

theorem isBlank_of_isNameStart {c : Char} (hc : FluentShift.Text.isNameStart c = true) : isBlank c = false := by
  simp [isBlank, Text.ne_of_isNameStart hc (d := ' ') rfl, Text.ne_of_isNameStart hc (d := '\t') rfl,
    Text.ne_of_isNameStart hc (d := '\x0c') rfl]

/-- A blank before a word is cut off. -/
theorem lexes_blank_word (hm : Plain modes) {s : String} (hs : IsWord s) (h : Lexes modes (s.toList ++ rest) ls) :
    Lexes modes (' ' :: (s.toList ++ rest)) (⟨.blank, " "⟩ :: ls) := by
  obtain ⟨c, cs, htext, hc, -⟩ := hs
  refine lexes_blank hm (fun d hd => ?_) h
  rw [htext] at hd
  cases hd
  exact isBlank_of_isNameStart hc

/-- Names with dots before them are cut into their leaves. -/
theorem lexes_members (hm : Plain modes) {ns : List String} (hns : ∀ n ∈ ns, IsName n) (hrest : EndsName rest)
    (h : Lexes modes rest ls) :
    EndsName (ns.flatMap (fun n => ".".toList ++ n.toList) ++ rest) ∧
      Lexes modes (ns.flatMap (fun n => ".".toList ++ n.toList) ++ rest)
        (ns.flatMap (fun n => [⟨.mark, "."⟩, ⟨.name, n⟩]) ++ ls) := by
  induction ns with
  | nil => exact ⟨hrest, h⟩
  | cons n ns ih =>
    obtain ⟨hn, hns⟩ := List.forall_mem_cons.mp hns
    obtain ⟨hends, hlexes⟩ := ih hns
    have hname := lexes_name hm hn hends hlexes
    obtain ⟨c, cs, hs, hc, -⟩ := hn.spelled
    rw [List.flatMap_cons, List.flatMap_cons, List.append_assoc, List.append_assoc]
    refine ⟨endsName_cons (by decide) _, ?_⟩
    rw [hs] at hname ⊢
    exact lexes_dot hm hc hname

/-- Names with commas before them are cut into their leaves. -/
theorem lexes_names (hm : Plain modes) {ns : List String} (hns : ∀ n ∈ ns, IsName n) (hrest : EndsName rest)
    (h : Lexes modes rest ls) :
    EndsName (ns.flatMap (fun n => ", ".toList ++ n.toList) ++ rest) ∧
      Lexes modes (ns.flatMap (fun n => ", ".toList ++ n.toList) ++ rest)
        (ns.flatMap (fun n => [⟨.mark, ","⟩, ⟨.blank, " "⟩, ⟨.name, n⟩]) ++ ls) := by
  induction ns with
  | nil => exact ⟨hrest, h⟩
  | cons n ns ih =>
    obtain ⟨hn, hns⟩ := List.forall_mem_cons.mp hns
    obtain ⟨hends, hlexes⟩ := ih hns
    rw [List.flatMap_cons, List.flatMap_cons, List.append_assoc, List.append_assoc]
    refine ⟨endsName_cons (by decide) _, ?_⟩
    exact lexes_comma hm (lexes_blank_word hm hn.spelled (lexes_name hm hn hends hlexes))

/-- A keyword between blanks. -/
theorem isWord_from : IsWord "from" ∧ IsWord "import" := by
  refine ⟨⟨'f', ['r', 'o', 'm'], rfl, ?_, ?_⟩, ⟨'i', ['m', 'p', 'o', 'r', 't'], rfl, ?_, ?_⟩⟩ <;> decide

end Lexes

/-- The line is cut into its leaves. -/
theorem lexemes_importText {lineBreak : String} (hbreak : IsLineBreak lineBreak) {d : Dotted} (hd : d.All IsName)
    {n : String} (hn : IsName n) {ns : List String} (hns : ∀ m ∈ ns, IsName m) :
    lexemes (importText lineBreak d n ns) = .ok (importLeaves lineBreak d n ns) := by
  have hplain : Plain [] := fun _ h => absurd h List.not_mem_nil
  have hblank : ∀ cs, EndsName (' ' :: cs) := endsName_cons (by decide)
  obtain ⟨hends, hnames⟩ := lexes_names hplain hns (endsName_lineBreak hbreak) (lexes_lineBreak hbreak)
  have himport := lexes_word hplain isWord_from.2 (hblank _) (lexes_blank_word hplain hn.spelled
    (lexes_name hplain hn hends hnames))
  obtain ⟨hmore, hmembers⟩ := lexes_members hplain hd.2 (hblank _) (lexes_blank_word hplain isWord_from.2 himport)
  have hdotted := lexes_name hplain hd.1 hmore hmembers
  have hfrom := lexes_word hplain isWord_from.1 (hblank _) (lexes_blank_word hplain hd.1.spelled hdotted)
  have htext : (importText lineBreak d n ns).toList = "from".toList ++ (' ' :: (d.first.toList ++
      (d.others.flatMap (fun n => ".".toList ++ n.toList) ++ (' ' :: ("import".toList ++ (' ' :: (n.toList ++
        (ns.flatMap (fun n => ", ".toList ++ n.toList) ++ lineBreak.toList)))))))) := by
    simp only [importText, Dotted.text, String.toList_append, Text.toList_intercalate_cons, List.append_assoc]
    rfl
  have hleaves : importLeaves lineBreak d n ns = wordLeaf "from" :: ⟨.blank, " "⟩ :: ⟨.name, d.first⟩ ::
      (d.others.flatMap (fun n => [⟨.mark, "."⟩, ⟨.name, n⟩]) ++ (⟨.blank, " "⟩ :: wordLeaf "import" :: ⟨.blank, " "⟩ ::
        ⟨.name, n⟩ :: (ns.flatMap (fun n => [⟨.mark, ","⟩, ⟨.blank, " "⟩, ⟨.name, n⟩]) ++ [⟨.endOfLine, lineBreak⟩]))) := by
    rfl
  rw [lexemes, htext, hfrom, ← hleaves]

/-- The line that imports a module is cut into its leaves. -/
theorem lexemes_moduleText {lineBreak : String} (hbreak : IsLineBreak lineBreak) {d : Dotted} (hd : d.All IsName) :
    lexemes (moduleText lineBreak d) = .ok (moduleLeaves lineBreak d) := by
  have hplain : Plain [] := fun _ h => absurd h List.not_mem_nil
  have hblank : ∀ cs, EndsName (' ' :: cs) := endsName_cons (by decide)
  obtain ⟨hmore, hmembers⟩ := lexes_members hplain hd.2 (endsName_lineBreak hbreak) (lexes_lineBreak hbreak)
  have hdotted := lexes_name hplain hd.1 hmore hmembers
  have himport := lexes_word hplain isWord_from.2 (hblank _) (lexes_blank_word hplain hd.1.spelled hdotted)
  have htext : (moduleText lineBreak d).toList = "import".toList ++ (' ' :: (d.first.toList ++
      (d.others.flatMap (fun n => ".".toList ++ n.toList) ++ lineBreak.toList))) := by
    simp only [moduleText, Dotted.text, String.toList_append, Text.toList_intercalate_cons, List.append_assoc]
    rfl
  have hleaves : moduleLeaves lineBreak d = wordLeaf "import" :: ⟨.blank, " "⟩ :: ⟨.name, d.first⟩ ::
      (d.others.flatMap (fun n => [⟨.mark, "."⟩, ⟨.name, n⟩]) ++ [⟨.endOfLine, lineBreak⟩]) := rfl
  rw [lexemes, htext, himport, ← hleaves]

/-! ### The tokens of the line -/

/-- A name after a blank. -/
def nameTok (n : String) : Token := ⟨[⟨.blank, " "⟩], .leaf ⟨.name, n⟩⟩

/-- The tokens of names with dots before them. -/
def memberTokens (ns : List String) : List Token := ns.flatMap fun n => [markTok ".", ⟨[], .leaf ⟨.name, n⟩⟩]

/-- The tokens of names with commas before them. -/
def nameTokens (ns : List String) : List Token := ns.flatMap fun n => [markTok ",", nameTok n]

/-- The tokens at the end of the line. -/
def lineEnd (lineBreak : String) : List Token := [⟨[], .leaf ⟨.endOfLine, lineBreak⟩⟩, ⟨[], .done⟩]

/-- The tokens of the line. -/
def importTokens (lineBreak : String) (d : Dotted) (n : String) (ns : List String) : List Token :=
  markTok "from" :: nameTok d.first :: (memberTokens d.others ++ ⟨[⟨.blank, " "⟩], .leaf ⟨.mark, "import"⟩⟩ ::
    nameTok n :: (nameTokens ns ++ lineEnd lineBreak))

/-- The tokens of the line that imports a module. -/
def moduleTokens (lineBreak : String) (d : Dotted) : List Token :=
  markTok "import" :: nameTok d.first :: (memberTokens d.others ++ lineEnd lineBreak)

theorem ofLeavesIn_members (ns : List String) (ls : List Leaf) :
    Token.ofLeavesIn [] false [] (ns.flatMap (fun n => [⟨.mark, "."⟩, ⟨.name, n⟩]) ++ ls) =
      (memberTokens ns ++ (Token.ofLeavesIn [] false [] ls).1, (Token.ofLeavesIn [] false [] ls).2) := by
  induction ns with
  | nil => rfl
  | cons n ns ih =>
    have hstep : ∀ ls, Token.ofLeavesIn [] false [] (⟨.mark, "."⟩ :: ⟨.name, n⟩ :: ls) =
        (markTok "." :: ⟨[], .leaf ⟨.name, n⟩⟩ :: (Token.ofLeavesIn [] false [] ls).1,
          (Token.ofLeavesIn [] false [] ls).2) := fun ls => rfl
    rw [List.flatMap_cons, List.append_assoc, List.cons_append, List.cons_append, List.nil_append, hstep, ih]
    rfl

theorem ofLeavesIn_names (ns : List String) (ls : List Leaf) :
    Token.ofLeavesIn [] false [] (ns.flatMap (fun n => [⟨.mark, ","⟩, ⟨.blank, " "⟩, ⟨.name, n⟩]) ++ ls) =
      (nameTokens ns ++ (Token.ofLeavesIn [] false [] ls).1, (Token.ofLeavesIn [] false [] ls).2) := by
  induction ns with
  | nil => rfl
  | cons n ns ih =>
    have hstep : ∀ ls, Token.ofLeavesIn [] false [] (⟨.mark, ","⟩ :: ⟨.blank, " "⟩ :: ⟨.name, n⟩ :: ls) =
        (markTok "," :: nameTok n :: (Token.ofLeavesIn [] false [] ls).1, (Token.ofLeavesIn [] false [] ls).2) :=
      fun ls => rfl
    rw [List.flatMap_cons, List.append_assoc, List.cons_append, List.cons_append, List.cons_append, List.nil_append, hstep,
      ih]
    rfl

theorem ofLeaves?_importLeaves (lineBreak : String) (d : Dotted) (n : String) (ns : List String) :
    Token.ofLeaves? (importLeaves lineBreak d n ns) = .ok (importTokens lineBreak d n ns) := by
  have hend : Token.ofLeavesIn [] false [] [⟨.endOfLine, lineBreak⟩] = (lineEnd lineBreak, none) := rfl
  have hnames := ofLeavesIn_names ns [⟨.endOfLine, lineBreak⟩]
  rw [hend] at hnames
  have hmembers := ofLeavesIn_members d.others (⟨.blank, " "⟩ :: ⟨.mark, "import"⟩ :: ⟨.blank, " "⟩ :: ⟨.name, n⟩ ::
    (ns.flatMap (fun n => [⟨.mark, ","⟩, ⟨.blank, " "⟩, ⟨.name, n⟩]) ++ [⟨.endOfLine, lineBreak⟩]))
  have himport : ∀ ls, Token.ofLeavesIn [] false [] (⟨.blank, " "⟩ :: ⟨.mark, "import"⟩ :: ⟨.blank, " "⟩ :: ⟨.name, n⟩ :: ls) =
      (⟨[⟨.blank, " "⟩], .leaf ⟨.mark, "import"⟩⟩ :: nameTok n :: (Token.ofLeavesIn [] false [] ls).1,
        (Token.ofLeavesIn [] false [] ls).2) := fun ls => rfl
  have hfrom : ∀ ls, Token.ofLeavesIn [] true [] (⟨.mark, "from"⟩ :: ⟨.blank, " "⟩ :: ⟨.name, d.first⟩ :: ls) =
      (markTok "from" :: nameTok d.first :: (Token.ofLeavesIn [] false [] ls).1, (Token.ofLeavesIn [] false [] ls).2) :=
    fun ls => rfl
  rw [himport, hnames] at hmembers
  have hall : Token.ofLeavesIn [] true [] (importLeaves lineBreak d n ns) = (importTokens lineBreak d n ns, none) := by
    rw [importLeaves, Dotted.leaves, List.cons_append, hfrom, hmembers]
    rfl
  rw [Token.ofLeaves?, hall]

theorem ofLeaves?_moduleLeaves (lineBreak : String) (d : Dotted) :
    Token.ofLeaves? (moduleLeaves lineBreak d) = .ok (moduleTokens lineBreak d) := by
  have hend : Token.ofLeavesIn [] false [] [⟨.endOfLine, lineBreak⟩] = (lineEnd lineBreak, none) := rfl
  have hmembers := ofLeavesIn_members d.others [⟨.endOfLine, lineBreak⟩]
  rw [hend] at hmembers
  have himport : ∀ ls, Token.ofLeavesIn [] true [] (⟨.mark, "import"⟩ :: ⟨.blank, " "⟩ :: ⟨.name, d.first⟩ :: ls) =
      (markTok "import" :: nameTok d.first :: (Token.ofLeavesIn [] false [] ls).1, (Token.ofLeavesIn [] false [] ls).2) :=
    fun ls => rfl
  have hall : Token.ofLeavesIn [] true [] (moduleLeaves lineBreak d) = (moduleTokens lineBreak d, none) := by
    rw [moduleLeaves, Dotted.leaves, List.cons_append, himport, hmembers]
    rfl
  rw [Token.ofLeaves?, hall]

/-! ### Reading the line -/

section Reading

variable {u : Token} {us : List Token}

theorem reads_name {n : String} (hn : IsName n) (lead : List Leaf) (ts : List Token) :
    Reads 1 (.want .name) (⟨lead, .leaf ⟨.name, n⟩⟩ :: ts) (lead.map .leaf ++ [nameLeaf n], ts) := by
  have h : Reads 1 (.want .name) (⟨lead, .leaf ⟨.name, n⟩⟩ :: ts) _ := reads_want (accept_name hn.free)
  rw [List.map_append] at h
  exact h

/-- Names with dots before them are read one after the other. -/
theorem reads_members {ns : List String} (hns : ∀ n ∈ ns, IsName n) (hu : refuses (R := Rule) u.body (tok ".") = true) :
    Reads (3 * ns.length + 1) (.many (.seq (tok ".") (.want .name))) (memberTokens ns ++ u :: us)
      (ns.flatMap (fun n => [mark ".", nameLeaf n]), u :: us) := by
  induction ns with
  | nil => exact reads_many_nothing fun n => run_of_refuses us n hu
  | cons n ns ih =>
    obtain ⟨hn, hns⟩ := List.forall_mem_cons.mp hns
    have hone := (reads_tok "." _).seq (reads_name hn [] (memberTokens ns ++ u :: us))
    have hmany := hone.many_cons (by simp only [List.length_cons]; omega) (ih hns)
    exact hmany.mono (by simp only [List.length_cons]; omega)

/-- Dotted names are read as their tree. -/
theorem reads_dotted {d : Dotted} (hd : d.All IsName) {lead : List Leaf} (hlead : ∀ l ∈ lead, l.kind.isTrivia = true)
    (hu : refuses (R := Rule) u.body (tok ".") = true) :
    Reads (3 * d.others.length + 10) (.rule .dotted)
      (⟨lead, .leaf ⟨.name, d.first⟩⟩ :: (memberTokens d.others ++ u :: us)) (lead.map .leaf ++ [d.tree], u :: us) := by
  obtain ⟨n, ns⟩ := d
  obtain ⟨hn, hns⟩ := hd
  have hname := reads_name hn lead (memberTokens ns ++ u :: us)
  cases ns with
  | nil =>
    have hnone : ∀ fuel, run Rule.meaning fuel (.tree .dotted (some_ (.seq (tok ".") (.want .name)))) (u :: us) = none :=
      fun fuel => run_of_refuses us fuel hu
    exact (hname.graft_nothing hnone).rule.mono (by simp only [List.length_nil]; omega)
  | cons m ns =>
    obtain ⟨hm, hns⟩ := List.forall_mem_cons.mp hns
    have hone := (reads_tok "." _).seq (reads_name hm [] (memberTokens ns ++ u :: us))
    have hsome := ((hone.seq (reads_members hns hu)).tree .dotted).left (b := .nothing)
    have hgraft := hname.graft hsome
    have hwrap : wrap .dotted ([mark "."] ++ ([].map .leaf ++ [nameLeaf m]) ++ ns.flatMap fun n => [mark ".", nameLeaf n]) =
        [.node .dotted ((m :: ns).flatMap fun n => [mark ".", nameLeaf n])] := rfl
    rw [hwrap, join_lead hlead .dotted rfl] at hgraft
    exact hgraft.rule.mono (by simp only [List.length_cons]; omega)

theorem trivia_tree (d : Dotted) : d.tree.isTrivia = false := by
  unfold Dotted.tree
  split <;> rfl

theorem reads_alias {n : String} (hn : IsName n) {lead : List Leaf} (hlead : ∀ l ∈ lead, l.kind.isTrivia = true)
    (hu : refuses (R := Rule) u.body (tok "as") = true) :
    Reads 8 (.rule .importAlias) (⟨lead, .leaf ⟨.name, n⟩⟩ :: u :: us) (lead.map .leaf ++ [aliasTree n], u :: us) := by
  have hnone : ∀ fuel, run Rule.meaning fuel (.seq (tok "as") (.want .name)) (u :: us) = none :=
    fun fuel => run_of_refuses us fuel hu
  have hseq := ((reads_name hn lead (u :: us)).seq (reads_opt_nothing hnone)).tree .importAlias
  rw [List.append_nil, wrap_lead hlead .importAlias rfl] at hseq
  exact hseq.rule.mono (by omega)

/-- Names with commas before them are read one after the other. -/
theorem reads_names {ns : List String} (hns : ∀ n ∈ ns, IsName n) (hcomma : refuses (R := Rule) u.body (tok ",") = true)
    (has : refuses (R := Rule) u.body (tok "as") = true) :
    Reads (11 * ns.length + 1) (.many (.seq (tok ",") (.rule .importAlias))) (nameTokens ns ++ u :: us)
      (ns.flatMap (fun n => [mark ",", blank, aliasTree n]), u :: us) := by
  induction ns with
  | nil => exact reads_many_nothing fun n => run_of_refuses us n hcomma
  | cons n ns ih =>
    obtain ⟨hn, hns⟩ := List.forall_mem_cons.mp hns
    have hblank : ∀ l ∈ [(⟨.blank, " "⟩ : Leaf)], l.kind.isTrivia = true := List.forall_mem_singleton.mpr rfl
    have hrest := ih hns
    cases ns with
    | nil =>
      have hone := (reads_tok "," _).seq (@reads_alias _ us n hn _ hblank has)
      exact (hone.many_cons (by simp only [List.length_cons]; omega) hrest).mono
        (by simp only [List.length_cons, List.length_nil]; omega)
    | cons m ns =>
      have hone := (reads_tok "," _).seq
        (@reads_alias (markTok ",") (nameTok m :: (nameTokens ns ++ u :: us)) n hn _ hblank rfl)
      exact (hone.many_cons (by simp only [List.length_cons]; omega) hrest).mono
        (by simp only [List.length_cons]; omega)

/-- The end of the line is the end of every list in it. -/
theorem refuses_lineBreak (lineBreak : String) : refuses (R := Rule) (.leaf ⟨.endOfLine, lineBreak⟩) (tok ",") = true ∧
    refuses (R := Rule) (.leaf ⟨.endOfLine, lineBreak⟩) (tok "as") = true ∧
    refuses (R := Rule) (.leaf ⟨.endOfLine, lineBreak⟩) (tok ";") = true := ⟨rfl, rfl, rfl⟩

/-- One name or more with commas between them are read as the names that are imported. -/
theorem reads_imported (lineBreak : String) {n : String} (hn : IsName n) {ns : List String} (hns : ∀ m ∈ ns, IsName m) :
    Reads (11 * ns.length + 12) (any [tok "*", all [tok "(", commas (.rule .importAlias), tok ")"],
        .seq (sepBy (.rule .importAlias) (tok ",")) (.notAhead (tok ","))])
      (nameTok n :: (nameTokens ns ++ lineEnd lineBreak))
      (blank :: aliasTree n :: ns.flatMap (fun n => [mark ",", blank, aliasTree n]), lineEnd lineBreak) := by
  obtain ⟨hcomma, has, -⟩ := refuses_lineBreak lineBreak
  have hblank : ∀ l ∈ [(⟨.blank, " "⟩ : Leaf)], l.kind.isTrivia = true := List.forall_mem_singleton.mpr rfl
  have hmore : Reads _ _ (nameTokens ns ++ lineEnd lineBreak) _ := reads_names hns hcomma has
  have hfirst : Reads 8 (.rule .importAlias) (nameTok n :: (nameTokens ns ++ lineEnd lineBreak))
      ([blank, aliasTree n], nameTokens ns ++ lineEnd lineBreak) := by
    cases ns with
    | nil => exact reads_alias hn hblank has
    | cons m ns => exact @reads_alias (markTok ",") (nameTok m :: (nameTokens ns ++ lineEnd lineBreak)) n hn _ hblank rfl
  have hend := reads_notAhead (a := tok ",") fun fuel =>
    run_of_refuses (t := ⟨[], .leaf ⟨.endOfLine, lineBreak⟩⟩) [⟨[], .done⟩] fuel hcomma
  have hnames := (hfirst.seq hmore).seq hend
  rw [List.append_nil] at hnames
  have hstar : ∀ g : Grammar Rule, refuses (nameTok n).body g = true →
      ∀ fuel, run Rule.meaning fuel g (nameTok n :: (nameTokens ns ++ lineEnd lineBreak)) = none :=
    fun g hg fuel => run_of_refuses _ fuel hg
  exact ((hnames.right (hstar (all [tok "(", commas (.rule .importAlias), tok ")"]) rfl)).right (hstar (tok "*") rfl)).mono
    (by omega)

/-- The tokens of the line are read as the import. -/
theorem reads_importFrom (lineBreak : String) {d : Dotted} (hd : d.All IsName) {n : String} (hn : IsName n)
    {ns : List String} (hns : ∀ m ∈ ns, IsName m) :
    Reads (3 * d.others.length + 11 * ns.length + 30) (.rule .importFrom) (importTokens lineBreak d n ns)
      ([importTree d n ns], lineEnd lineBreak) := by
  have hblank : ∀ l ∈ [(⟨.blank, " "⟩ : Leaf)], l.kind.isTrivia = true := List.forall_mem_singleton.mpr rfl
  have himported := reads_imported lineBreak hn hns
  have haccept : (Want.mark "import").accept (.leaf ⟨.mark, "import"⟩) = some [⟨.mark, "import"⟩] := rfl
  have himport : Reads 1 (tok "import")
      (⟨[⟨.blank, " "⟩], .leaf ⟨.mark, "import"⟩⟩ :: nameTok n :: (nameTokens ns ++ lineEnd lineBreak))
      ([blank, mark "import"], nameTok n :: (nameTokens ns ++ lineEnd lineBreak)) := reads_want haccept
  have hmodule := @reads_dotted ⟨[⟨.blank, " "⟩], .leaf ⟨.mark, "import"⟩⟩
    (nameTok n :: (nameTokens ns ++ lineEnd lineBreak)) d hd _ hblank rfl
  have hdots : ∀ fuel, run Rule.meaning fuel (oneOf [".", "..."]) (nameTok d.first :: (memberTokens d.others ++
      ⟨[⟨.blank, " "⟩], .leaf ⟨.mark, "import"⟩⟩ :: nameTok n :: (nameTokens ns ++ lineEnd lineBreak))) = none :=
    fun fuel => run_of_refuses _ fuel rfl
  have hfrom := ((reads_many_nothing hdots).seq hmodule).left (b := some_ (oneOf [".", "..."]))
  have hall := ((reads_tok "from" _).seq (hfrom.seq (himport.seq himported))).tree .importFrom
  exact hall.rule.mono (by omega)

/-- The tokens of the line that imports a module are read as the import. -/
theorem reads_importStmt (lineBreak : String) {d : Dotted} (hd : d.All IsName) :
    Reads (3 * d.others.length + 30) (.rule .importStmt) (moduleTokens lineBreak d) ([moduleTree d], lineEnd lineBreak) := by
  obtain ⟨hcomma, has, -⟩ := refuses_lineBreak lineBreak
  have hblank : ∀ l ∈ [(⟨.blank, " "⟩ : Leaf)], l.kind.isTrivia = true := List.forall_mem_singleton.mpr rfl
  have hmodule := @reads_dotted ⟨[], .leaf ⟨.endOfLine, lineBreak⟩⟩ [⟨[], .done⟩] d hd _ hblank rfl
  have hopt : Reads 2 (opt (.seq (tok "as") (.want .name))) (lineEnd lineBreak) ([], lineEnd lineBreak) :=
    reads_opt_nothing fun fuel => run_of_refuses _ fuel has
  have halias := (hmodule.seq hopt).tree .importAlias
  rw [List.append_nil, wrap_lead hblank .importAlias (trivia_tree d)] at halias
  have hmany : Reads 1 (.many (.seq (tok ",") (.tree .importAlias
      (.seq (.rule .dotted) (opt (.seq (tok "as") (.want .name))))))) (lineEnd lineBreak) ([], lineEnd lineBreak) :=
    reads_many_nothing fun fuel => run_of_refuses _ fuel hcomma
  have hall := ((reads_tok "import" _).seq (halias.seq hmany)).tree .importStmt
  exact hall.rule.mono (by omega)

/-- Tokens that are read as one statement up to the end of the line are read as the one statement of a module. -/
theorem reads_module {word lineBreak : String} {ts : List Token} {statement : Tree} {k : Nat} (hword : StartsImport word)
    (hts : ts ≠ []) (htrivia : statement.isTrivia = false)
    (h : Reads k Rule.simple.meaning (markTok word :: ts) ([statement], lineEnd lineBreak)) :
    Reads (k + 30) (.rule .module) (markTok word :: ts)
      ([.node .module [.node .simpleLine [statement, .leaf ⟨.endOfLine, lineBreak⟩]]], []) := by
  obtain ⟨-, -, hsemicolon⟩ := refuses_lineBreak lineBreak
  have hmany : Reads 1 (.many (.seq (tok ";") (.rule .simple))) (lineEnd lineBreak) ([], lineEnd lineBreak) :=
    reads_many_nothing fun fuel => run_of_refuses _ fuel hsemicolon
  have hopt : Reads 2 (opt (tok ";")) (lineEnd lineBreak) ([], lineEnd lineBreak) :=
    reads_opt_nothing fun fuel => run_of_refuses _ fuel hsemicolon
  have haccept : (Want.kind .endOfLine).accept (.leaf ⟨.endOfLine, lineBreak⟩) = some [⟨.endOfLine, lineBreak⟩] := rfl
  have hend : Reads 1 (.want (.kind .endOfLine)) (lineEnd lineBreak) ([.leaf ⟨.endOfLine, lineBreak⟩], [⟨[], .done⟩]) :=
    reads_want haccept
  have hline := ((h.rule.seq hmany).seq (hopt.seq hend)).tree .simpleLine
  have hwrap : wrap .simpleLine ([statement] ++ [] ++ ([] ++ [.leaf ⟨.endOfLine, lineBreak⟩])) =
      [.node .simpleLine [statement, .leaf ⟨.endOfLine, lineBreak⟩]] :=
    @wrap_lead [] (List.forall_mem_nil _) .simpleLine _ htrivia _
  rw [hwrap] at hline
  have hstatement : Reads _ Rule.statement.meaning (markTok word :: ts)
      ([.node .simpleLine [statement, .leaf ⟨.endOfLine, lineBreak⟩]], [⟨[], .done⟩]) :=
    Reads.right (run_of_fails 60 hword.1) hline.rule
  have hnone : ∀ fuel, run Rule.meaning fuel (.rule .statement) [⟨[], .done⟩] = none :=
    run_of_fails (t := ⟨[], .done⟩) 100 rfl
  have hstatements := hstatement.rule.many_cons (by simpa using List.length_pos_iff.mpr hts) (reads_many_nothing hnone)
  have hfinal : Want.done.accept .done = some [] := rfl
  have hdone : Reads 1 (.want .done) [⟨[], .done⟩] ([], []) := reads_want hfinal
  exact ((hstatements.seq hdone).tree .module).rule.mono (by omega)

end Reading

theorem length_importTokens (lineBreak : String) (d : Dotted) (n : String) (ns : List String) :
    (importTokens lineBreak d n ns).length = 2 * d.others.length + 2 * ns.length + 6 := by
  simp only [importTokens, memberTokens, nameTokens, lineEnd, List.length_cons, List.length_append, List.length_flatMap,
    List.length_nil, List.map_const', List.sum_replicate_nat]
  omega

theorem length_moduleTokens (lineBreak : String) (d : Dotted) :
    (moduleTokens lineBreak d).length = 2 * d.others.length + 4 := by
  simp only [moduleTokens, memberTokens, lineEnd, List.length_cons, List.length_append, List.length_flatMap,
    List.length_nil, List.map_const', List.sum_replicate_nat]
  omega

/-- A text that starts with a letter is read from its start. -/
theorem trimStart_eq {text : String} {c : Char} {cs : List Char} (h : text.toList = c :: cs) (hmark : c ≠ '\ufeff')
    (hfeed : c ≠ '\x0c') : trimStart text = text := by
  have hkept : trimStart text = String.ofList text.toList := by
    simp [trimStart, h, hmark, hfeed]
  rw [hkept, String.ofList_toList]

/-- The text of the line is read as the line and nothing else. -/
theorem parseModule?_importLine {lineBreak : String} (hbreak : IsLineBreak lineBreak) {d : Dotted} (hd : d.All IsName)
    {n : String} (hn : IsName n) {ns : List String} (hns : ∀ m ∈ ns, IsName m) :
    parseModule? (importText lineBreak d n ns) = some (.node .module [importLine lineBreak d n ns]) := by
  obtain ⟨-, halias, hassign, hreturn⟩ := startsImport_from
  have hskip : ∀ g, fails 60 (markTok "from").body g = true → ∀ fuel,
      run Rule.meaning fuel g (importTokens lineBreak d n ns) = none := fun g hg => run_of_fails 60 hg
  have himport := reads_importFrom lineBreak hd hn hns
  have hsimple : Reads _ Rule.simple.meaning (importTokens lineBreak d n ns) ([importTree d n ns], lineEnd lineBreak) :=
    (((himport.left.right (hskip _ fails_from)).right (hskip _ hreturn)).right (hskip _ hassign)).right (hskip _ halias)
  have hread := reads_module startsImport_from (List.cons_ne_nil _ _) rfl hsimple (parseFuel (importTokens lineBreak d n ns).length) (by
    rw [length_importTokens, parseFuel]
    omega)
  obtain ⟨cs, htext⟩ : ∃ cs, (importText lineBreak d n ns).toList = 'f' :: cs := by
    simp only [importText, String.toList_append]
    exact ⟨_, rfl⟩
  simp only [parseModule?, trimStart_eq htext (by decide) (by decide), tokens?, lexemes_importText hbreak hd hn hns,
    ofLeaves?_importLeaves, Option.bind_eq_bind, Option.bind_some, moduleOfTokens?]
  rw [show importTokens lineBreak d n ns = markTok "from" :: _ from rfl] at hread ⊢
  rw [hread]
  rfl

/-- The text of the line that imports a module is read as that line and nothing else. -/
theorem parseModule?_moduleLine {lineBreak : String} (hbreak : IsLineBreak lineBreak) {d : Dotted} (hd : d.All IsName) :
    parseModule? (moduleText lineBreak d) = some (.node .module [moduleLine lineBreak d]) := by
  obtain ⟨-, halias, hassign, hreturn⟩ := startsImport_import
  have hskip : ∀ g, fails 60 (markTok "import").body g = true → ∀ fuel,
      run Rule.meaning fuel g (moduleTokens lineBreak d) = none := fun g hg => run_of_fails 60 hg
  have himport := reads_importStmt lineBreak hd
  have hsimple : Reads _ Rule.simple.meaning (moduleTokens lineBreak d) ([moduleTree d], lineEnd lineBreak) :=
    ((himport.left.right (hskip _ hreturn)).right (hskip _ hassign)).right (hskip _ halias)
  have hread := reads_module startsImport_import (List.cons_ne_nil _ _) rfl hsimple (parseFuel (moduleTokens lineBreak d).length) (by
    rw [length_moduleTokens, parseFuel]
    omega)
  obtain ⟨cs, htext⟩ : ∃ cs, (moduleText lineBreak d).toList = 'i' :: cs := by
    simp only [moduleText, String.toList_append]
    exact ⟨_, rfl⟩
  simp only [parseModule?, trimStart_eq htext (by decide) (by decide), tokens?, lexemes_moduleText hbreak hd,
    ofLeaves?_moduleLeaves, Option.bind_eq_bind, Option.bind_some, moduleOfTokens?]
  rw [show moduleTokens lineBreak d = markTok "import" :: _ from rfl] at hread ⊢
  rw [hread]
  rfl

end FluentShift.Source
