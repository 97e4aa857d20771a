import FluentShift.Proofs.Accepted
import FluentShift.Proofs.Imports.LastLine
import FluentShift.Proofs.Source.ImportLine

/-!
# FluentShift.Proofs.Imports.Adding - what adding imports does to the lines of a module

Adding imports puts names into a line that imports from their module already, or writes a line of their own; modules get
lines of their own, and all other lines stay as they are (`woven_add`).  So the imports of the module stay, in their order,
with only the wanted ones among them (`taken_add`).
-/

namespace FluentShift.Source

/-! ### Dotted names -/

theorem flatMap_splitChars (sep : Char) (cs : List Char) :
    ∃ w ws, Text.splitChars sep cs = w :: ws ∧ w ++ ws.flatMap (sep :: ·) = cs := by
  induction cs with
  | nil => exact ⟨[], [], rfl, rfl⟩
  | cons c cs ih =>
    obtain ⟨w, ws, hsplit, hjoin⟩ := ih
    rw [Text.splitChars, hsplit]
    split
    · next h =>
      subst h
      exact ⟨[], w :: ws, rfl, by rw [List.flatMap_cons, List.nil_append, List.cons_append, hjoin]⟩
    · exact ⟨c :: w, ws, rfl, by rw [List.cons_append, hjoin]⟩

/-- The parts of a text with the separators between them are the text. -/
theorem intercalate_split (s : String) : String.intercalate "." (Text.split '.' s) = s := by
  obtain ⟨w, ws, hsplit, hjoin⟩ := flatMap_splitChars '.' s.toList
  rw [Text.split, hsplit, List.map_cons]
  refine String.toList_injective ?_
  rw [Text.toList_intercalate_cons, String.toList_ofList, List.flatMap_map, ← hjoin]
  refine congrArg _ (List.flatMap_congr fun x _ => ?_)
  exact congrArg (".".toList ++ ·) String.toList_ofList

/-- A dotted name that passes its check is made of names. -/
theorem dotted_of_checkDottedName {what s t : String} (h : Config.checkDottedName what s = .ok t) :
    ∃ d : Dotted, d.text = s ∧ d.All IsName := by
  unfold Config.checkDottedName at h
  split at h
  · cases h
  · obtain ⟨ns, hns, -⟩ := Except.bind_eq_ok.mp h
    have hall : ∀ (ss ns : List String), ss.mapM (Config.checkIdentifier what) = Except.ok ns → ∀ s ∈ ss, IsName s := by
      intro ss
      induction ss with
      | nil => exact fun _ _ => List.forall_mem_nil _
      | cons s ss ih =>
        intro ns h
        rw [List.mapM_cons] at h
        obtain ⟨n, hn, h⟩ := Except.bind_eq_ok.mp h
        obtain ⟨ns, hns, -⟩ := Except.bind_eq_ok.mp h
        exact List.forall_mem_cons.mpr ⟨(Config.checkIdentifier_ok hn).2, ih ns hns⟩
    have hnames := hall _ _ hns
    obtain ⟨w, ws, hsplit, -⟩ := flatMap_splitChars '.' s.toList
    have hparts : Text.split '.' s = String.ofList w :: ws.map String.ofList := by rw [Text.split, hsplit, List.map_cons]
    rw [hparts] at hnames
    obtain ⟨hw, hws⟩ := List.forall_mem_cons.mp hnames
    refine ⟨⟨String.ofList w, ws.map String.ofList⟩, ?_, hw, hws⟩
    rw [Dotted.text, ← hparts, intercalate_split]

end FluentShift.Source

namespace FluentShift

open FluentShift.Source

/-- The fluent type of an accepted mapping is made of names. -/
theorem Mapping.Accepted.exists_dotted {m : Mapping} (h : m.Accepted) : ∃ d : Dotted, d.text = m.fluentType ∧ d.All IsName := by
  obtain ⟨read, hread, -⟩ := h.read
  have h : (do return Value.text (← Config.checkDottedName (MappingField.key .fluentType)
      (← Config.readText (.text m.fluentType)))) = Except.ok (read.value .fluentType) := hread .fluentType
  obtain ⟨t, ht, h⟩ := Except.bind_eq_ok.mp h
  cases ht
  obtain ⟨u, hu, -⟩ := Except.bind_eq_ok.mp h
  exact dotted_of_checkDottedName hu

end FluentShift

namespace FluentShift.Imports

open FluentShift.Source FluentShift.Source.Tree FluentShift.Scope

/-! ### A line of its own -/

theorem statementLine?_import {lineBreak : String} (hbreak : IsLineBreak lineBreak) {d : Dotted} (hd : d.All IsName)
    {n : String} (hn : IsName n) {ns : List String} (hns : ∀ m ∈ ns, IsName m) :
    statementLine? lineBreak ("from " ++ d.text ++ " import " ++ String.intercalate ", " (n :: ns)) =
      some ⟨[], importLine lineBreak d n ns⟩ := by
  have hparse := parseModule?_importLine hbreak hd hn hns
  unfold statementLine?
  rw [show ("from " ++ d.text ++ " import " ++ String.intercalate ", " (n :: ns)) ++ lineBreak =
    importText lineBreak d n ns from rfl, hparse]
  rfl

theorem formed_importLine {lineBreak : String} (hbreak : IsLineBreak lineBreak) {d : Dotted} (hd : d.All IsName)
    {n : String} (hn : IsName n) {ns : List String} (hns : ∀ m ∈ ns, IsName m) : (importLine lineBreak d n ns).Formed := by
  obtain ⟨ts, hts, hformed⟩ := formed_parseModule? (parseModule?_importLine hbreak hd hn hns)
  exact hformed.child (List.mem_singleton_self _)

theorem statementLine?_module {lineBreak : String} (hbreak : IsLineBreak lineBreak) {d : Dotted} (hd : d.All IsName) :
    statementLine? lineBreak ("import " ++ d.text) = some ⟨[], moduleLine lineBreak d⟩ := by
  have hparse := parseModule?_moduleLine hbreak hd
  unfold statementLine?
  rw [show ("import " ++ d.text) ++ lineBreak = moduleText lineBreak d from rfl, hparse]
  rfl

theorem formed_moduleLine {lineBreak : String} (hbreak : IsLineBreak lineBreak) {d : Dotted} (hd : d.All IsName) :
    (moduleLine lineBreak d).Formed := by
  obtain ⟨ts, hts, hformed⟩ := formed_parseModule? (parseModule?_moduleLine hbreak hd)
  exact hformed.child (List.mem_singleton_self _)

theorem leaves_tree (d : Dotted) : d.tree.leaves = d.leaves := by
  have hmembers : ∀ ns : List String, leavesAll (ns.flatMap fun n => [Term.mark ".", Term.nameLeaf n]) =
      ns.flatMap fun n => [⟨.mark, "."⟩, ⟨.name, n⟩] := by
    intro ns
    induction ns with
    | nil => rfl
    | cons n ns ih =>
      rw [List.flatMap_cons, List.flatMap_cons, leavesAll_append, ih]
      rfl
  unfold Dotted.tree Dotted.leaves
  split
  · next h => rw [h]; rfl
  · exact congrArg (_ :: ·) (hmembers d.others)

theorem dottedText_tree (d : Dotted) : d.tree.dottedText = d.text := by
  have hparts : d.leaves.filter (!·.kind.isTrivia) = d.leaves := by
    refine List.filter_eq_self.mpr fun l hl => ?_
    rcases List.mem_cons.mp hl with rfl | hl
    · rfl
    · obtain ⟨n, -, hn⟩ := List.mem_flatMap.mp hl
      simp only [List.mem_cons, List.not_mem_nil, or_false] at hn
      rcases hn with rfl | rfl <;> rfl
  refine String.toList_injective ?_
  rw [Source.Tree.dottedText, leaves_tree, hparts, Dotted.text, Text.toList_intercalate_cons, String.toList_join]
  simp [Dotted.leaves, List.flatMap_map, List.flatMap_assoc]

theorem importedName?_aliasTree (n : String) : (aliasTree n).importedName? = some ⟨n, none⟩ := by
  have htext : (Term.nameLeaf n).dottedText = n := by
    simp [Source.Tree.dottedText, Term.nameLeaf, Source.Tree.leaves, LeafKind.isTrivia, String.join]
  show some (ImportedName.mk (Term.nameLeaf n).dottedText none) = _
  rw [htext]

/-- The names of an import after its first one. -/
theorem namesOf_more (ns : List String) :
    namesOf (ns.flatMap fun n => [Term.mark ",", blank, aliasTree n]) = ns.map fun n => ⟨n, none⟩ := by
  induction ns with
  | nil => rfl
  | cons n ns ih =>
    rw [List.flatMap_cons, namesOf_append, ih]
    show (aliasTree n).importedName?.toList ++ _ = _
    rw [importedName?_aliasTree]
    rfl

/-- What the import of some names from a module says. -/
theorem importStatement?_importTree (d : Dotted) (n : String) (ns : List String) :
    (importTree d n ns).importStatement? =
      some ⟨some ⟨0, some d.text⟩, .names ((n :: ns).map fun n => ⟨n, none⟩)⟩ := by
  -- a module is written as a name or with dots, and the two look the same to what follows
  have htree : d.tree.isTrivia = false ∧ (∀ s, d.tree.isMark s = false) ∧ d.tree.isAlias = false ∧
      (d.tree.isKind .dotted || d.tree.name?.isSome) = true := by
    unfold Dotted.tree
    split <;> exact ⟨rfl, fun _ => rfl, rfl, rfl⟩
  obtain ⟨htrivia, hmark, halias, hname⟩ := htree
  have hmarks : ∀ s, (Term.mark s).isTrivia = false := fun _ => rfl
  have hblank : blank.isTrivia = true := rfl
  have hhead : partsOf [Term.mark "from", blank, d.tree, blank, Term.mark "import", blank] =
      [Term.mark "from", d.tree, Term.mark "import"] := by
    simp only [partsOf_cons, htrivia, hmarks, hblank, Bool.false_eq_true, if_false, if_true]
    rfl
  have hbefore : [Term.mark "from", d.tree, Term.mark "import"].takeWhile (!·.isMark "import") =
      [Term.mark "from", d.tree] := by
    rw [List.takeWhile_cons_of_pos rfl, List.takeWhile_cons_of_pos (by rw [hmark]; rfl),
      List.takeWhile_cons_of_neg (by decide)]
  have hmodule : fromModuleOf [Term.mark "from", blank, d.tree, blank, Term.mark "import", blank] = ⟨0, some d.text⟩ := by
    unfold fromModuleOf
    rw [hhead, hbefore]
    dsimp only
    rw [List.filter_cons_of_neg (by decide), List.filter_cons_of_neg (by rw [hmark, hmark]; decide),
      List.find?_cons_of_neg (by decide), List.find?_cons, hname]
    exact congrArg (fun s => FromModule.mk 0 (some s)) (dottedText_tree d)
  have hnames : namesOf (aliasTree n :: ns.flatMap fun n => [Term.mark ",", blank, aliasTree n]) =
      (n :: ns).map fun n => ⟨n, none⟩ := by
    rw [← List.singleton_append, namesOf_append, namesOf_more]
    show (aliasTree n).importedName?.toList ++ _ = _
    rw [importedName?_aliasTree]
    rfl
  have hstar : (partsOf (aliasTree n :: ns.flatMap fun n => [Term.mark ",", blank, aliasTree n])).any (·.isMark "*") =
      false := by
    refine List.any_eq_false.mpr fun t ht => ?_
    rcases List.mem_cons.mp (mem_partsOf.mp ht).1 with rfl | ht
    · exact Bool.false_ne_true
    · obtain ⟨n, -, hn⟩ := List.mem_flatMap.mp ht
      simp only [List.mem_cons, List.not_mem_nil, or_false] at hn
      rcases hn with rfl | rfl | rfl <;> exact Bool.false_ne_true
  have himport : ∃ t ∈ [Term.mark "from", blank, d.tree, blank, Term.mark "import", blank], t.isMark "import" = true :=
    ⟨Term.mark "import", by simp, rfl⟩
  have hplain : ∀ t ∈ [Term.mark "from", blank, d.tree, blank, Term.mark "import", blank], t.isAlias = false := by
    intro t ht
    simp only [List.mem_cons, List.not_mem_nil, or_false] at ht
    rcases ht with rfl | rfl | rfl | rfl | rfl | rfl <;> first | rfl | exact halias
  have hheadStar : isStarred [Term.mark "from", blank, d.tree, blank, Term.mark "import", blank] = false := by
    unfold isStarred
    rw [hhead, hbefore]
    rfl
  have hstatement := importStatement?_importFrom himport hplain (aliasTree n :: ns.flatMap fun n => [Term.mark ",", blank, aliasTree n])
  rw [hmodule, hheadStar, hstar, hnames] at hstatement
  exact hstatement

/-- What the import of a module says. -/
theorem importStatement?_moduleTree (d : Dotted) :
    (moduleTree d).importStatement? = some ⟨none, .names [⟨d.text, none⟩]⟩ := by
  have hname : (Source.Tree.node .importAlias [d.tree]).importedName? = some ⟨d.text, none⟩ := by
    have hparts : (Source.Tree.node .importAlias [d.tree]).parts = [d.tree] := by
      show [d.tree].filter (!·.isTrivia) = _
      rw [List.filter_singleton, trivia_tree]
      rfl
    unfold importedName?
    rw [hparts, ← dottedText_tree d]
    rfl
  have hnames : namesOf [Term.mark "import", blank, .node .importAlias [d.tree]] = [⟨d.text, none⟩] := by
    rw [namesOf_cons rfl, namesOf_cons rfl]
    exact List.filterMap_cons_some hname
  exact (importStatement?_importStmt _).trans (congrArg (fun ns => some (ImportStatement.mk none (.names ns))) hnames)

/-- The import of a name from a module. -/
def plainTaken (m n : String) : Taken := ⟨some ⟨0, some m⟩, some ⟨n, none⟩⟩

/-- The import that a wanted one comes to. -/
def Wanted.taken (w : Wanted) : Taken :=
  match w.name with
  | some n => plainTaken w.module n
  | none => ⟨none, some ⟨w.module, none⟩⟩

/-- A wanted import that can be written: its module is made of names, and what it takes from it is a name. -/
structure Wanted.Writable (w : Wanted) : Prop where
  module : ∃ d : Dotted, d.text = w.module ∧ d.All IsName
  name : ∀ n, w.name = some n → IsName n

/-- The imports of a tree that is an import statement. -/
theorem takenIn_import {t : Source.Tree} (ht : t.Formed) {i : ImportStatement} (hi : t.importStatement? = some i) :
    takenIn t = takenBy i := by
  cases t with
  | leaf l => cases hi
  | node k ts =>
    have hk : isLoose k = false := by
      by_contra hloose
      rw [importStatement?_other (by cases k <;> first | rfl | exact absurd rfl hloose)] at hi
      cases hi
    have hnil : ts.flatMap takenIn = [] :=
      List.flatMap_eq_nil_iff.mpr fun c hc => takenIn_mild (ht.self.endless hk c hc)
    rw [takenIn_node, hi, hnil, List.append_nil]
    exact List.append_nil _

theorem takenIn_importLine {lineBreak : String} (hbreak : IsLineBreak lineBreak) {d : Dotted} (hd : d.All IsName)
    {n : String} (hn : IsName n) {ns : List String} (hns : ∀ m ∈ ns, IsName m) :
    takenIn (importLine lineBreak d n ns) = (n :: ns).map (plainTaken d.text) := by
  have hformed : (importTree d n ns).Formed := (formed_importLine hbreak hd hn hns).child (List.mem_cons_self ..)
  have hline : takenIn (importLine lineBreak d n ns) = takenIn (importTree d n ns) := by
    rw [importLine, takenIn_node, List.flatMap_cons]
    exact List.append_nil _
  rw [hline, takenIn_import hformed (importStatement?_importTree d n ns)]
  exact List.map_map

theorem takenIn_moduleLine {lineBreak : String} (hbreak : IsLineBreak lineBreak) {d : Dotted} (hd : d.All IsName) :
    takenIn (moduleLine lineBreak d) = [Wanted.taken ⟨d.text, none⟩] := by
  have hformed : (moduleTree d).Formed := (formed_moduleLine hbreak hd).child (List.mem_cons_self ..)
  have hline : takenIn (moduleLine lineBreak d) = takenIn (moduleTree d) := by
    rw [moduleLine, takenIn_node, List.flatMap_cons]
    exact List.append_nil _
  rw [hline, takenIn_import hformed (importStatement?_moduleTree d)]
  rfl

/-! ### A line that takes more names -/

/-- The leaves of a line around its statements. -/
def IsBetween (t : Source.Tree) : Prop := ∃ l, t = .leaf l ∧ l.kind ≠ .name ∧ l.kind ≠ .string

theorem isBetween_of_isTrivia {t : Source.Tree} (h : t.isTrivia = true) : IsBetween t := by
  obtain ⟨l, rfl⟩ := exists_leaf_of_isTrivia h
  refine ⟨l, rfl, fun hk => ?_, fun hk => ?_⟩ <;>
    · rw [isTrivia, hk] at h
      cases h

theorem isBetween_of_mark {t : Source.Tree} (h : ¬(!t.isMark ";" && !t.isEndOfLine) = true) : IsBetween t := by
  cases t with
  | node k ts => exact absurd rfl h
  | leaf l =>
    refine ⟨l, rfl, fun hk => h ?_, fun hk => h ?_⟩ <;> simp [isMark, isEndOfLine, hk]

/-- A line whose only statement is an import of names from `m`. -/
inductive Joinable (m : String) : Source.Tree → Prop where
  | line {before after ts : List Source.Tree} {ns : List ImportedName} : (∀ t ∈ before ++ after, IsBetween t) →
      (Source.Tree.node .importFrom ts).importStatement? = some ⟨some ⟨0, some m⟩, .names ns⟩ →
      Joinable m (.node .simpleLine (before ++ .node .importFrom ts :: after))

/-- The only statement of a line is the only thing on it that is no leaf. -/
theorem onlyStatement?_eq_some {line s : Source.Tree} (h : line.onlyStatement? = some s) :
    ∃ before after, line = .node .simpleLine (before ++ s :: after) ∧ ∀ t ∈ before ++ after, IsBetween t := by
  unfold onlyStatement? at h
  split at h
  · next hk hs =>
    cases h
    obtain ⟨ts, rfl⟩ := exists_of_isKind hk
    have hfilter : (ts.filter (!·.isTrivia)).filter (fun c => !c.isMark ";" && !c.isEndOfLine) = [s] := hs
    rw [List.filter_filter] at hfilter
    obtain ⟨before, after, rfl, hbefore, -, hafter⟩ := List.filter_eq_cons_iff.mp hfilter
    refine ⟨before, after, rfl, fun t ht => ?_⟩
    have hout : ¬((!t.isMark ";" && !t.isEndOfLine) && !t.isTrivia) = true := by
      rcases List.mem_append.mp ht with ht | ht
      · exact hbefore t ht
      · exact List.filter_eq_nil_iff.mp hafter t ht
    by_cases htrivia : t.isTrivia = true
    · exact isBetween_of_isTrivia htrivia
    · refine isBetween_of_mark fun hmark => hout ?_
      rw [hmark, Bool.eq_false_iff.mpr htrivia]
      rfl
  · cases h

theorem joinable_of_joinableModule? {line : Source.Tree} {m : String} (h : joinableModule? line = some m) : Joinable m line := by
  unfold joinableModule? at h
  split at h
  · next m' ns hi =>
    split at h
    · next hdots =>
      obtain ⟨s, hs, hstatement⟩ := Option.bind_eq_some_iff.mp hi
      obtain ⟨before, after, rfl, hbetween⟩ := onlyStatement?_eq_some hs
      obtain ⟨k, ts, rfl⟩ : ∃ k ts, s = .node k ts := by
        cases s with
        | leaf l => cases hstatement
        | node k ts => exact ⟨k, ts, rfl⟩
      by_cases hk : (k = .importStmt || k = .importFrom) = true
      · rcases (Bool.or_eq_true _ _).mp hk with hk | hk
        · obtain rfl := of_decide_eq_true hk
          rw [importStatement?_importStmt] at hstatement
          cases hstatement
        · obtain rfl := of_decide_eq_true hk
          obtain ⟨dots, name⟩ := m'
          obtain rfl : dots = 0 := hdots
          obtain rfl : name = some m := h
          exact .line hbetween hstatement
      · rw [importStatement?_other (Bool.eq_false_iff.mpr hk)] at hstatement
        cases hstatement
    · cases h
  · cases h

/-- Joining changes the one statement of the line. -/
theorem joinLine_eq (names : List String) {before after ts : List Source.Tree} (h : ∀ t ∈ before ++ after, IsBetween t) :
    joinLine names (.node .simpleLine (before ++ .node .importFrom ts :: after)) =
      .node .simpleLine (before ++ joinNames names (.node .importFrom ts) :: after) := by
  have hkeep : ∀ us ⊆ before ++ after, us.map (fun c => if c.isKind .importFrom then joinNames names c else c) = us := by
    intro us hus
    refine (List.map_congr_left fun t ht => ?_).trans (List.map_id us)
    obtain ⟨l, rfl, -⟩ := h t (hus ht)
    rfl
  show Source.Tree.node .simpleLine (List.map _ (before ++ .node .importFrom ts :: after)) = _
  rw [List.map_append, List.map_cons, hkeep _ (List.subset_append_left _ _), hkeep _ (List.subset_append_right _ _)]
  rfl

theorem listed_newNames (names : List String) {ts : List Source.Tree} (h : Listed ts) :
    Listed (partsOf (names.flatMap newName) ++ ts) := by
  induction names with
  | nil => exact h
  | cons n names ih => exact .more rfl rfl ih

theorem worded_newName {n : String} : ∀ t ∈ newName n, Worded t ∧ t.Formed := by
  intro t ht
  simp only [newName, List.mem_cons, List.not_mem_nil, or_false] at ht
  have halias : ImportShape .importAlias [.leaf ⟨.name, n⟩] := rfl
  rcases ht with rfl | rfl | rfl
  · have hname : ∀ t ∈ [Source.Tree.leaf ⟨.name, n⟩], Worded t :=
      List.forall_mem_singleton.mpr (.leaf fun h => LeafKind.noConfusion h)
    exact ⟨.node rfl hname, .node (shaped_import (.inr (.inr rfl)) hname halias) (List.forall_mem_singleton.mpr (.leaf trivial))⟩
  · exact ⟨.leaf fun h => LeafKind.noConfusion h, .leaf trivial⟩
  · exact ⟨.leaf fun h => LeafKind.noConfusion h, .leaf trivial⟩

theorem formed_joinNames (names : List String) {ts : List Source.Tree} (h : (Source.Tree.node .importFrom ts).Formed) :
    (joinNames names (.node .importFrom ts)).Formed := by
  have hshape : ImportShape .importFrom ts := h.self.shape
  obtain ⟨hlisted, himport⟩ := listed_restOf (.inr rfl) hshape
  have hnew : ∀ t ∈ names.flatMap newName, Worded t ∧ t.Formed := by
    intro t ht
    obtain ⟨n, -, hn⟩ := List.mem_flatMap.mp ht
    exact worded_newName t hn
  have hall : ∀ P : Source.Tree → Prop, (∀ t ∈ ts, P t) → (∀ t ∈ names.flatMap newName, P t) →
      ∀ t ∈ headOf ts ++ (names.flatMap newName ++ restOf ts), P t := by
    intro P hts hnames
    exact forall_append (fun t ht => hts t ((List.takeWhile_sublist _).subset ht))
      (forall_append hnames fun t ht => hts t ((List.dropWhile_sublist _).subset ht))
  have hnames : ImportShape .importFrom (headOf ts ++ (names.flatMap newName ++ restOf ts)) := by
    refine ⟨partsOf (headOf ts), partsOf (names.flatMap newName) ++ partsOf (restOf ts), ?_, ?_, ?_,
      listed_newNames names hlisted⟩
    · rw [partsOf_append, partsOf_append]
    · exact fun t ht => isAlias_headOf ts t (mem_partsOf.mp ht).1
    · obtain ⟨t, ht, hmark⟩ := himport rfl
      refine ⟨t, mem_partsOf.mpr ⟨ht, ?_⟩, hmark⟩
      cases t with
      | node k us => rfl
      | leaf l =>
        rw [isTrivia, of_decide_eq_true ((Bool.and_eq_true _ _).mp hmark).1]
        rfl
  rw [joinNames_eq]
  refine .node (shaped_import (.inr (.inl rfl)) ?_ hnames) (hall _ (fun t ht => h.child ht) fun t ht => (hnew t ht).2)
  exact hall _ (h.self.worded rfl rfl) fun t ht => (hnew t ht).1

/-- What the imports of a line are after names have joined it. -/
theorem taken_joinLine (names : List String) {m : String} {line : Source.Tree} (hjoin : Joinable m line)
    (hline : line.Formed) :
    takenIn (joinLine names line) = names.map (plainTaken m) ++ takenIn line ∧ (joinLine names line).Formed := by
  cases hjoin with
  | @line before after ts ns hbetween hstatement =>
    have hts : (Source.Tree.node .importFrom ts).Formed :=
      hline.child (List.mem_append_right _ (List.mem_cons_self ..))
    have hjoined := importStatement?_joinNames hts.self.shape hstatement rfl names
    have hleaves : ∀ us ⊆ before ++ after, us.flatMap takenIn = [] := by
      intro us hus
      refine List.flatMap_eq_nil_iff.mpr fun t ht => ?_
      obtain ⟨l, rfl, -⟩ := hbetween t (hus ht)
      rfl
    have htaken : ∀ u, takenIn (.node .simpleLine (before ++ u :: after)) = takenIn u := by
      intro u
      rw [takenIn_node, List.flatMap_append, List.flatMap_cons, hleaves _ (List.subset_append_left _ _),
        hleaves _ (List.subset_append_right _ _), List.append_nil]
      rfl
    rw [joinLine_eq names hbetween, htaken, htaken, takenIn_import (formed_joinNames names hts) hjoined,
      takenIn_import hts hstatement]
    refine ⟨?_, .node (shaped_loose rfl fun h => Bool.noConfusion h) fun t ht => ?_⟩
    · show (names.map _ ++ ns).map _ = names.map _ ++ ns.map _
      rw [List.map_append, List.map_map]
      rfl
    · rcases List.mem_append.mp ht with ht | ht
      · exact hline.child (List.mem_append_left _ ht)
      · rcases List.mem_cons.mp ht with rfl | ht
        · exact formed_joinNames names hts
        · exact hline.child (List.mem_append_right _ (List.mem_cons_of_mem _ ht))

/-! ### The lines of a module with imports added -/

theorem mem_namesFrom {missing : List Wanted} {m n : String} : n ∈ namesFrom missing m ↔ ⟨m, some n⟩ ∈ missing := by
  rw [namesFrom, mem_sortedOnce, List.mem_filterMap]
  constructor
  · rintro ⟨⟨m', n'⟩, hw, rfl⟩
    obtain ⟨hw, hm⟩ := List.mem_filter.mp hw
    rwa [← of_decide_eq_true hm]
  · exact fun h => ⟨_, List.mem_filter.mpr ⟨h, decide_eq_true rfl⟩, rfl⟩

/-- A new line: the import of the names missing from a module, or of a module that is missing. -/
inductive Fresh (lineBreak : String) (missing : List Wanted) : Source.Tree → Prop where
  | names {d : Dotted} {n : String} {ns : List String} : d.All IsName → namesFrom missing d.text = n :: ns →
      Fresh lineBreak missing (importLine lineBreak d n ns)
  | module {d : Dotted} : d.All IsName → ⟨d.text, none⟩ ∈ missing → Fresh lineBreak missing (moduleLine lineBreak d)

/-- The lines of a module and those of the module with the missing imports: names join lines that import from their module
already, or stand on new lines as the modules do. -/
inductive Woven (lineBreak : String) (missing : List Wanted) : List Source.Tree → List Source.Tree → Prop where
  | nil : Woven lineBreak missing [] []
  | keep {c : Source.Tree} {xs ys : List Source.Tree} : Woven lineBreak missing xs ys →
      Woven lineBreak missing (c :: xs) (c :: ys)
  | join {c : Source.Tree} {m : String} {xs ys : List Source.Tree} : Joinable m c → namesFrom missing m ≠ [] →
      Woven lineBreak missing xs ys → Woven lineBreak missing (c :: xs) (joinLine (namesFrom missing m) c :: ys)
  | fresh {c : Source.Tree} {xs ys : List Source.Tree} : Fresh lineBreak missing c → Woven lineBreak missing xs ys →
      Woven lineBreak missing xs (c :: ys)

section Missing

variable {lineBreak : String} {missing : List Wanted} (hmissing : ∀ w ∈ missing, w.Writable)

include hmissing

theorem isName_namesFrom {m : String} : ∀ n ∈ namesFrom missing m, IsName n :=
  fun n hn => (hmissing _ (mem_namesFrom.mp hn)).name n rfl

/-- A new line holds missing imports only. -/
theorem Fresh.taken (hbreak : IsLineBreak lineBreak) {c : Source.Tree} (h : Fresh lineBreak missing c) :
    (∀ x ∈ takenIn c, ∃ w ∈ missing, x = w.taken) ∧ c.Formed := by
  cases h with
  | @names d n ns hd hlist =>
    obtain ⟨hn, hns⟩ := List.forall_mem_cons.mp (hlist ▸ isName_namesFrom hmissing (m := d.text))
    refine ⟨fun x hx => ?_, formed_importLine hbreak hd hn hns⟩
    rw [takenIn_importLine hbreak hd hn hns] at hx
    obtain ⟨k, hk, rfl⟩ := List.mem_map.mp hx
    exact ⟨_, mem_namesFrom.mp (hlist ▸ hk), rfl⟩
  | module hd hmem =>
    refine ⟨fun x hx => ⟨_, hmem, ?_⟩, formed_moduleLine hbreak hd⟩
    rw [takenIn_moduleLine hbreak hd] at hx
    exact List.mem_singleton.mp hx

end Missing

namespace Woven

variable {lineBreak : String} {missing : List Wanted} {xs ys xs' ys' : List Source.Tree}

theorem refl (xs : List Source.Tree) : Woven lineBreak missing xs xs := by
  induction xs with
  | nil => exact .nil
  | cons c xs ih => exact .keep ih

theorem append (h : Woven lineBreak missing xs ys) (h' : Woven lineBreak missing xs' ys') :
    Woven lineBreak missing (xs ++ xs') (ys ++ ys') := by
  induction h with
  | nil => exact h'
  | keep _ ih => exact .keep ih
  | join hc hne _ ih => exact .join hc hne ih
  | fresh hc _ ih => exact .fresh hc ih

/-- New lines alone. -/
theorem freshes (h : ∀ c ∈ ys, Fresh lineBreak missing c) : Woven lineBreak missing [] ys := by
  induction ys with
  | nil => exact .nil
  | cons c ys ih =>
    obtain ⟨hc, hys⟩ := List.forall_mem_cons.mp h
    exact .fresh hc (ih hys)

/-- The imports of the lines stay, in order; the new ones were missing. -/
theorem taken (h : Woven lineBreak missing xs ys) (hbreak : IsLineBreak lineBreak) (hmissing : ∀ w ∈ missing, w.Writable)
    (hxs : ∀ t ∈ xs, t.Formed) :
    (xs.flatMap takenIn).Sublist (ys.flatMap takenIn) ∧
      (∀ x ∈ ys.flatMap takenIn, x ∈ xs.flatMap takenIn ∨ ∃ w ∈ missing, x = w.taken) ∧ ∀ t ∈ ys, t.Formed := by
  -- a line is kept, is joined by missing names, or is new
  induction h with
  | nil => exact ⟨List.Sublist.refl _, fun x hx => .inl hx, List.forall_mem_nil _⟩
  | @keep c xs ys _ ih =>
    obtain ⟨hc, hxs⟩ := List.forall_mem_cons.mp hxs
    obtain ⟨hsub, hnew, hformed⟩ := ih hxs
    simp only [List.flatMap_cons]
    refine ⟨(List.Sublist.refl _).append hsub, fun x hx => ?_, List.forall_mem_cons.mpr ⟨hc, hformed⟩⟩
    rcases List.mem_append.mp hx with hx | hx
    · exact .inl (List.mem_append_left _ hx)
    · exact (hnew x hx).imp (List.mem_append_right _) id
  | @join c m xs ys hjoin _ _ ih =>
    obtain ⟨hc, hxs⟩ := List.forall_mem_cons.mp hxs
    obtain ⟨hsub, hnew, hformed⟩ := ih hxs
    obtain ⟨htaken, hjoined⟩ := taken_joinLine (namesFrom missing m) hjoin hc
    simp only [List.flatMap_cons, htaken]
    refine ⟨(List.sublist_append_right _ _).append hsub, fun x hx => ?_, List.forall_mem_cons.mpr ⟨hjoined, hformed⟩⟩
    rcases List.mem_append.mp hx with hx | hx
    · rcases List.mem_append.mp hx with hx | hx
      · obtain ⟨n, hn, rfl⟩ := List.mem_map.mp hx
        exact .inr ⟨_, mem_namesFrom.mp hn, rfl⟩
      · exact .inl (List.mem_append_left _ hx)
    · exact (hnew x hx).imp (List.mem_append_right _) id
  | @fresh c xs ys hfresh _ ih =>
    obtain ⟨hsub, hnew, hformed⟩ := ih hxs
    obtain ⟨hwanted, hc⟩ := hfresh.taken hmissing hbreak
    simp only [List.flatMap_cons]
    refine ⟨hsub.trans (List.sublist_append_right _ _), fun x hx => ?_, List.forall_mem_cons.mpr ⟨hc, hformed⟩⟩
    rcases List.mem_append.mp hx with hx | hx
    · exact .inr (hwanted x hx)
    · exact hnew x hx

end Woven

/-- Joining all lines that can be joined. -/
theorem woven_joinAll (lineBreak : String) (missing : List Wanted) (is : List Item) (taken : List String) :
    Woven lineBreak missing (is.map (·.body)) ((joinAll (namesFrom missing) taken is).map (·.body)) := by
  induction is generalizing taken with
  | nil => exact .nil
  | cons i is ih =>
    rw [joinAll]
    split
    · next m hm =>
      dsimp only
      rw [List.map_cons, List.map_cons]
      by_cases htaken : taken.contains m = true
      · rw [if_pos htaken, if_pos rfl]
        exact .keep (ih _)
      · rw [if_neg htaken]
        by_cases hnone : namesFrom missing m = []
        · rw [if_pos hnone]
          exact .keep (ih _)
        · rw [if_neg hnone]
          exact .join (joinable_of_joinableModule? hm) hnone (ih _)
    · exact .keep (ih _)

theorem neat_joinAll (wanted : String → List String) {is : List Item} (h : ∀ i ∈ is, i.Neat) (taken : List String) :
    ∀ i ∈ joinAll wanted taken is, i.Neat := by
  induction is generalizing taken with
  | nil => exact List.forall_mem_nil _
  | cons i is ih =>
    obtain ⟨hi, his⟩ := List.forall_mem_cons.mp h
    rw [joinAll]
    split
    · next m _ =>
      refine List.forall_mem_cons.mpr ⟨⟨hi.1, ?_⟩, ih his _⟩
      dsimp only
      generalize (if taken.contains m then [] else wanted m) = names
      split
      · exact hi.2
      · rfl
    · exact List.forall_mem_cons.mpr ⟨hi, ih his _⟩

/-! ### A module with imports added -/

theorem splitLeading_append (is : List Item) :
    (splitLeading is).1 ++ ((splitLeading is).2.1 ++ (splitLeading is).2.2) = is := by
  have hpreamble : ((is.take 1).filter fun i => isPreamble i.body) ++
      is.drop ((is.take 1).filter fun i => isPreamble i.body).length = is := by
    cases is with
    | nil => rfl
    | cons i is => cases h : isPreamble i.body <;> simp [h]
  unfold splitLeading
  dsimp only
  rw [drop_length_takeWhile, List.takeWhile_append_dropWhile, hpreamble]

/-- Items that stand for the same parts. -/
def SameBodies (is js : List Item) : Prop := js.map (·.body) = is.map (·.body) ∧ ((∀ i ∈ is, i.Neat) → ∀ i ∈ js, i.Neat)

theorem sameBodies_bare (is : List Item) : SameBodies is (bare is) := by
  cases is with
  | nil => exact ⟨rfl, id⟩
  | cons i is =>
    refine ⟨rfl, fun h => ?_⟩
    obtain ⟨hi, his⟩ := List.forall_mem_cons.mp h
    exact List.forall_mem_cons.mpr ⟨⟨List.forall_mem_nil _, hi.2⟩, his⟩

theorem sameBodies_setOff (lineBreak : String) (is : List Item) : SameBodies is (setOff lineBreak is) := by
  cases is with
  | nil => exact ⟨rfl, id⟩
  | cons i is =>
    unfold setOff
    dsimp only
    split
    · exact ⟨rfl, id⟩
    · refine ⟨rfl, fun h => ?_⟩
      obtain ⟨hi, his⟩ := List.forall_mem_cons.mp h
      exact List.forall_mem_cons.mpr ⟨⟨List.forall_mem_cons.mpr ⟨rfl, hi.1⟩, hi.2⟩, his⟩

theorem SameBodies.trans {is js ks : List Item} (h : SameBodies is js) (h' : SameBodies js ks) : SameBodies is ks :=
  ⟨h'.1.trans h.1, fun his => h'.2 (h.2 his)⟩

theorem SameBodies.append {is js is' js' : List Item} (h : SameBodies is js) (h' : SameBodies is' js') :
    SameBodies (is ++ is') (js ++ js') := by
  refine ⟨by rw [List.map_append, List.map_append, h.1, h'.1], fun hall i hi => ?_⟩
  rcases List.mem_append.mp hi with hi | hi
  · exact h.2 (fun i hi => hall i (List.mem_append_left _ hi)) i hi
  · exact h'.2 (fun i hi => hall i (List.mem_append_right _ hi)) i hi

/-- Arranging lines keeps them in order. -/
theorem sameBodies_arrange (lineBreak : String) (preamble first joined fresh rest : List Item) :
    SameBodies (preamble ++ (first ++ (joined ++ (fresh ++ rest)))) (arrange lineBreak preamble first joined fresh rest) := by
  have refl : ∀ is : List Item, SameBodies is is := fun is => ⟨rfl, id⟩
  unfold arrange
  split
  · simp only [List.append_assoc]
    exact (sameBodies_bare _).append ((refl _).append ((refl _).append ((refl _).append (sameBodies_setOff _ _))))
  · next hpreamble =>
    obtain rfl := not_not.mp hpreamble
    split
    · rw [List.nil_append, List.append_assoc, List.append_assoc]
      exact (refl _).append ((sameBodies_bare _).append ((refl _).append (sameBodies_setOff _ _)))
    · next hjoined =>
      obtain rfl := not_not.mp hjoined
      rw [List.nil_append, List.nil_append, List.append_assoc]
      exact (refl _).append ((refl _).append ((sameBodies_bare _).trans (sameBodies_setOff _ _)))

theorem of_mapM_eq_some {α β : Type} {f : α → Option β} {xs : List α} {ys : List β} (h : xs.mapM f = some ys) :
    ∀ y ∈ ys, ∃ x ∈ xs, f x = some y := by
  induction xs generalizing ys with
  | nil =>
    cases h
    exact List.forall_mem_nil _
  | cons x xs ih =>
    rw [List.mapM_cons] at h
    obtain ⟨y, hy, h⟩ := Option.bind_eq_some_iff.mp h
    obtain ⟨zs, hzs, h⟩ := Option.bind_eq_some_iff.mp h
    cases h
    refine List.forall_mem_cons.mpr ⟨⟨x, List.mem_cons_self .., hy⟩, fun z hz => ?_⟩
    obtain ⟨x', hx', hf⟩ := ih hzs z hz
    exact ⟨x', List.mem_cons_of_mem _ hx', hf⟩

theorem exists_of_mapM {α β : Type} {f : α → Option β} {xs : List α} {ys : List β} (h : xs.mapM f = some ys) :
    ∀ x ∈ xs, ∃ y ∈ ys, f x = some y := by
  induction xs generalizing ys with
  | nil => exact List.forall_mem_nil _
  | cons x xs ih =>
    rw [List.mapM_cons] at h
    obtain ⟨y, hy, h⟩ := Option.bind_eq_some_iff.mp h
    obtain ⟨zs, hzs, h⟩ := Option.bind_eq_some_iff.mp h
    cases h
    refine List.forall_mem_cons.mpr ⟨⟨y, List.mem_cons_self .., hy⟩, fun x' hx' => ?_⟩
    obtain ⟨z, hz, hf⟩ := ih hzs x' hx'
    exact ⟨z, List.mem_cons_of_mem _ hz, hf⟩

/-- Nothing joins a line when nothing is wanted from its module. -/
theorem joinAll_nil {wanted : String → List String} (h : ∀ m, wanted m = []) (is : List Item) (taken : List String) :
    joinAll wanted taken is = is := by
  induction is generalizing taken with
  | nil => rfl
  | cons i is ih =>
    rw [joinAll]
    split
    · rw [h, ite_self, ih]
      rfl
    · rw [ih]

/-! ### The new lines -/

theorem mem_modulesOf {missing : List Wanted} {m : String} : m ∈ modulesOf missing ↔ ⟨m, none⟩ ∈ missing := by
  rw [modulesOf, mem_sortedOnce, List.mem_map]
  constructor
  · rintro ⟨⟨m', n⟩, hw, rfl⟩
    obtain ⟨hw, hnone⟩ := List.mem_filter.mp hw
    rwa [← Option.isNone_iff_eq_none.mp hnone]
  · exact fun h => ⟨_, List.mem_filter.mpr ⟨h, rfl⟩, rfl⟩

/-- Names have a line of their own where no line from their module can be joined. -/
theorem mem_sourcesOf {missing : List Wanted} {joinable : List String} {m : String} :
    m ∈ sourcesOf missing joinable ↔ m ∉ joinable ∧ ∃ n, ⟨m, some n⟩ ∈ missing := by
  rw [sourcesOf, mem_sortedOnce, List.mem_map]
  constructor
  · rintro ⟨⟨m', n⟩, hw, rfl⟩
    obtain ⟨hw, hkept⟩ := List.mem_filter.mp hw
    obtain ⟨hsome, hother⟩ := (Bool.and_eq_true _ _).mp hkept
    obtain ⟨n', rfl⟩ := Option.isSome_iff_exists.mp hsome
    exact ⟨by simpa using hother, n', hw⟩
  · rintro ⟨hother, n, hw⟩
    exact ⟨_, List.mem_filter.mpr ⟨hw, by simpa using hother⟩, rfl⟩

section Missing

variable {lineBreak : String} (hbreak : IsLineBreak lineBreak) {missing : List Wanted}
  (hmissing : ∀ w ∈ missing, w.Writable)

include hbreak hmissing

/-- The line for the names missing from a module. -/
theorem fresh_of_fromLine? {m n : String} (hn : ⟨m, some n⟩ ∈ missing) {i : Item} (h : fromLine? lineBreak missing m = some i) :
    i.lead = [] ∧ Fresh lineBreak missing i.body ∧ ∀ k, ⟨m, some k⟩ ∈ missing → plainTaken m k ∈ takenIn i.body := by
  obtain ⟨d, rfl, hd⟩ := (hmissing _ hn).module
  obtain ⟨n', ns, hlist⟩ := List.exists_cons_of_ne_nil (List.ne_nil_of_mem (mem_namesFrom.mpr hn))
  obtain ⟨hfirst, hmore⟩ := List.forall_mem_cons.mp (hlist ▸ isName_namesFrom hmissing (m := d.text))
  rw [fromLine?, hlist, statementLine?_import hbreak hd hfirst hmore] at h
  cases h
  refine ⟨rfl, .names hd hlist, fun k hk => ?_⟩
  rw [takenIn_importLine hbreak hd hfirst hmore, ← hlist]
  exact List.mem_map_of_mem (mem_namesFrom.mpr hk)

/-- The line for a module that is missing. -/
theorem fresh_of_moduleLine {m : String} (hm : ⟨m, none⟩ ∈ missing) {i : Item}
    (h : statementLine? lineBreak ("import " ++ m) = some i) :
    i.lead = [] ∧ Fresh lineBreak missing i.body ∧ Wanted.taken ⟨m, none⟩ ∈ takenIn i.body := by
  obtain ⟨d, rfl, hd⟩ := (hmissing _ hm).module
  rw [statementLine?_module hbreak hd] at h
  cases h
  refine ⟨rfl, .module hd hm, ?_⟩
  rw [takenIn_moduleLine hbreak hd]
  exact List.mem_singleton_self _

end Missing

theorem isTrivia_header (ts : List Source.Tree) :
    ∀ t ∈ ((items ts).1.head?.map (·.lead)).getD (items ts).2, t.isTrivia = true := by
  intro t ht
  cases hhead : (items ts).1.head? with
  | none =>
    rw [hhead] at ht
    exact isTrivia_items t ht
  | some i =>
    rw [hhead] at ht
    exact (neat_items i (List.mem_of_head? hhead)).1 t ht

/-- How the parts of a module belong to those of the module with the wanted imports: missing names join a leading line, or
stand on new lines before or after the leading ones, as missing modules do. -/
structure Added (lineBreak : String) (wanted : List Wanted) (ts us : List Source.Tree)
    (preamble leading rest first later : List Item) : Prop where
  lines : preamble ++ (leading ++ rest) = (items ts).1
  fresh : ∀ i ∈ first ++ later, Fresh lineBreak (missingFrom wanted leading) i.body
  parts : partsOf us = (preamble ++ (first ++ (joinAll (namesFrom (missingFrom wanted leading)) [] leading ++
    (later ++ rest)))).map (·.body)
  /-- Nothing changes when nothing is missing. -/
  idle : missingFrom wanted leading = [] → us = ts
  /-- What is missing is on a new line, or there is a line for it to join. -/
  given : ∀ w ∈ missingFrom wanted leading, (∃ i ∈ first ++ later, w.taken ∈ takenIn i.body) ∨
    ∃ n, w.name = some n ∧ ∃ i ∈ leading, joinableModule? i.body = some w.module

/-- What the lines of a module are after imports have been added. -/
theorem added_add {lineBreak : String} (hbreak : IsLineBreak lineBreak) {wanted : List Wanted}
    (hwanted : ∀ w ∈ wanted, w.Writable) {ts : List Source.Tree} {t : Source.Tree}
    (h : add lineBreak wanted (.node .module ts) = some t) :
    ∃ us preamble leading rest first later, t = .node .module us ∧
      Added lineBreak wanted ts us preamble leading rest first later := by
  unfold add at h
  simp only [Source.Tree.children] at h
  obtain ⟨preamble, leading, rest, hsplit, hlines⟩ : ∃ preamble leading rest,
      splitLeading (items ts).1 = (preamble, leading, rest) ∧ preamble ++ (leading ++ rest) = (items ts).1 :=
    ⟨_, _, _, rfl, splitLeading_append (items ts).1⟩
  simp only [hsplit] at h
  have hmissing : ∀ w ∈ missingFrom wanted leading, w.Writable := fun w hw => hwanted w (List.mem_of_mem_filter hw)
  generalize hjoinable : leading.filterMap (fun i => joinableModule? i.body) = joinable at h
  split at h
  · cases h
  obtain ⟨first, hfirst, h⟩ := Option.bind_eq_some_iff.mp h
  obtain ⟨plain, hplain, h⟩ := Option.bind_eq_some_iff.mp h
  obtain ⟨named, hnamed, h⟩ := Option.bind_eq_some_iff.mp h
  -- every new line is fresh, and every module with missing imports has one unless names can join a line
  have hnames : ∀ m ∈ sourcesOf (missingFrom wanted leading) joinable, ∀ i, fromLine? lineBreak (missingFrom wanted leading) m =
      some i → i.lead = [] ∧ Fresh lineBreak (missingFrom wanted leading) i.body ∧
        ∀ k, ⟨m, some k⟩ ∈ missingFrom wanted leading → plainTaken m k ∈ takenIn i.body := by
    intro m hm i hi
    obtain ⟨-, n, hn⟩ := mem_sourcesOf.mp hm
    exact fresh_of_fromLine? hbreak hmissing hn hi
  have hnew : ∀ i ∈ first ++ (plain ++ named), i.lead = [] ∧ Fresh lineBreak (missingFrom wanted leading) i.body := by
    intro i hi
    rcases List.mem_append.mp hi with hi | hi
    · obtain ⟨m, hm, hline⟩ := of_mapM_eq_some hfirst i hi
      exact (hnames m (List.mem_of_mem_filter hm) i hline).imp id And.left
    · rcases List.mem_append.mp hi with hi | hi
      · obtain ⟨m, hm, hline⟩ := of_mapM_eq_some hplain i hi
        exact (fresh_of_moduleLine hbreak hmissing (mem_modulesOf.mp hm) hline).imp id And.left
      · obtain ⟨m, hm, hline⟩ := of_mapM_eq_some hnamed i hi
        exact (hnames m (List.mem_of_mem_filter hm) i hline).imp id And.left
  have hgiven : ∀ w ∈ missingFrom wanted leading, (∃ i ∈ first ++ (plain ++ named), w.taken ∈ takenIn i.body) ∨
      ∃ n, w.name = some n ∧ ∃ i ∈ leading, joinableModule? i.body = some w.module := by
    rintro ⟨m, name⟩ hw
    cases name with
    | none =>
      obtain ⟨i, hi, hline⟩ := exists_of_mapM hplain m (mem_modulesOf.mpr hw)
      exact .inl ⟨i, List.mem_append_right _ (List.mem_append_left _ hi), (fresh_of_moduleLine hbreak hmissing hw hline).2.2⟩
    | some n =>
      by_cases hjoin : m ∈ joinable
      · rw [← hjoinable] at hjoin
        exact .inr ⟨n, rfl, List.mem_filterMap.mp hjoin⟩
      · have hsource := mem_sourcesOf.mpr ⟨hjoin, n, hw⟩
        by_cases hfuture : m = "__future__"
        · obtain ⟨i, hi, hline⟩ := exists_of_mapM hfirst m (List.mem_filter.mpr ⟨hsource, decide_eq_true hfuture⟩)
          exact .inl ⟨i, List.mem_append_left _ hi, (hnames m hsource i hline).2.2 n hw⟩
        · obtain ⟨i, hi, hline⟩ := exists_of_mapM hnamed m (List.mem_filter.mpr ⟨hsource, decide_eq_true hfuture⟩)
          exact .inl ⟨i, List.mem_append_right _ (List.mem_append_right _ hi), (hnames m hsource i hline).2.2 n hw⟩
  have hneat : ∀ i ∈ preamble ++ (leading ++ rest), i.Neat := by
    rw [hlines]
    exact neat_items
  obtain ⟨hpreamble, hmore⟩ := List.forall_mem_append.mp hneat
  obtain ⟨hleading, hrest⟩ := List.forall_mem_append.mp hmore
  have hjoined := neat_joinAll (namesFrom (missingFrom wanted leading)) hleading []
  split at h
  · next hnone =>
    -- no line is new
    cases h
    simp only [Bool.and_eq_true, decide_eq_true_eq] at hnone
    rw [hnone.1, List.mapM_nil] at hplain
    rw [hnone.2, List.filter_nil, List.mapM_nil] at hfirst hnamed
    cases hplain
    cases hfirst
    cases hnamed
    refine ⟨_, preamble, leading, rest, [], [], rfl, hlines, List.forall_mem_nil _, ?_, fun hall => ?_, hgiven⟩
    · have hall := List.forall_mem_append.mpr ⟨List.forall_mem_append.mpr ⟨hpreamble, hjoined⟩, hrest⟩
      rw [partsOf_append, partsOf_flatten hall, partsOf_trivia isTrivia_items, List.append_nil, List.append_assoc]
      rfl
    · have hnothing : ∀ m, namesFrom [] m = [] := fun _ => rfl
      rw [hall, joinAll_nil hnothing, List.append_assoc, hlines, items_flatten]
  · next hsome =>
    cases h
    simp only [Bool.and_eq_true, decide_eq_true_eq] at hsome
    refine ⟨_, preamble, leading, rest, first, plain ++ named, rfl, hlines, fun i hi => (hnew i hi).2, ?_,
      fun hall => absurd ?_ hsome, hgiven⟩
    · obtain ⟨hbodies, hall⟩ := sameBodies_arrange lineBreak preamble first
        (joinAll (namesFrom (missingFrom wanted leading)) [] leading) (plain ++ named) rest
      have hlead : ∀ i ∈ first ++ (plain ++ named), i.Neat := by
        intro i hi
        obtain ⟨hnil, hfresh⟩ := hnew i hi
        refine ⟨hnil ▸ List.forall_mem_nil _, ?_⟩
        cases hbody : i.body with
        | leaf l => rw [hbody] at hfresh; cases hfresh
        | node k us => rfl
      obtain ⟨hfirst, hnamed⟩ := List.forall_mem_append.mp hlead
      have hneat := hall (List.forall_mem_append.mpr ⟨hpreamble, List.forall_mem_append.mpr ⟨hfirst,
        List.forall_mem_append.mpr ⟨hjoined, List.forall_mem_append.mpr ⟨hnamed, hrest⟩⟩⟩⟩)
      have hfooter : ∀ t ∈ (if (arrange lineBreak preamble first (joinAll (namesFrom (missingFrom wanted leading)) [] leading)
          (plain ++ named) rest).length = first.length + plain.length + named.length then [] else (items ts).2),
          t.isTrivia = true := by
        split
        · exact List.forall_mem_nil _
        · exact isTrivia_items
      rw [partsOf_append, partsOf_append, partsOf_trivia (isTrivia_header ts), partsOf_trivia hfooter,
        partsOf_flatten hneat, hbodies, List.append_nil]
      rfl
    · rw [hall]
      exact ⟨rfl, rfl⟩

/-- Adding imports puts names into lines that import from their module, and the rest on new lines. -/
theorem woven_add {lineBreak : String} (hbreak : IsLineBreak lineBreak) {wanted : List Wanted}
    (hwanted : ∀ w ∈ wanted, w.Writable) {ts : List Source.Tree} {t : Source.Tree}
    (h : add lineBreak wanted (.node .module ts) = some t) :
    ∃ us missing, t = .node .module us ∧ missing ⊆ wanted ∧ Woven lineBreak missing (partsOf ts) (partsOf us) := by
  obtain ⟨us, preamble, leading, rest, first, later, rfl, hadded⟩ := added_add hbreak hwanted h
  refine ⟨us, missingFrom wanted leading, rfl, fun w hw => List.mem_of_mem_filter hw, ?_⟩
  have hjoined := woven_joinAll lineBreak (missingFrom wanted leading) leading []
  obtain ⟨hfirst, hlater⟩ := List.forall_mem_append.mp hadded.fresh
  rw [hadded.parts, ← map_body_items, ← hadded.lines]
  simp only [List.map_append]
  exact (Woven.refl _).append ((Woven.freshes (List.forall_mem_map.mpr hfirst)).append (hjoined.append
    ((Woven.freshes (List.forall_mem_map.mpr hlater)).append (Woven.refl _))))

/-- The imports of a module are those of its lines. -/
theorem takenIn_module (ts : List Source.Tree) : takenIn (.node .module ts) = (partsOf ts).flatMap takenIn := by
  refine (takenIn_node _ _).trans ?_
  show ts.flatMap takenIn = _
  induction ts with
  | nil => rfl
  | cons t ts ih =>
    rw [partsOf_cons]
    split
    · next h => rw [← ih, List.flatMap_cons, takenIn_trivia h, List.nil_append]
    · rw [List.flatMap_cons, List.flatMap_cons, ih]

/-- Adding imports to a module leaves those it has, in order, with only the wanted ones among them. -/
theorem taken_add {lineBreak : String} (hbreak : IsLineBreak lineBreak) {wanted : List Wanted}
    (hwanted : ∀ w ∈ wanted, w.Writable) {ts : List Source.Tree} (hts : (Source.Tree.node .module ts).Formed)
    {t : Source.Tree} (h : add lineBreak wanted (.node .module ts) = some t) :
    ∃ us, t = .node .module us ∧ t.Formed ∧ (takenIn (.node .module ts)).Sublist (takenIn t) ∧
      ∀ x ∈ takenIn t, x ∈ takenIn (.node .module ts) ∨ ∃ w ∈ wanted, x = w.taken := by
  obtain ⟨us, missing, rfl, hmissing, hwoven⟩ := woven_add hbreak hwanted h
  obtain ⟨hsub, hnew, hformed⟩ := hwoven.taken hbreak (fun w hw => hwanted w (hmissing hw))
    fun t ht => hts.child (mem_partsOf.mp ht).1
  rw [takenIn_module, takenIn_module]
  refine ⟨us, rfl, .node (shaped_loose rfl fun h => Bool.noConfusion h) fun t ht => ?_, hsub, fun x hx => ?_⟩
  · by_cases htrivia : t.isTrivia = true
    · obtain ⟨l, rfl⟩ := exists_leaf_of_isTrivia htrivia
      exact .leaf trivial
    · exact hformed t (mem_partsOf.mpr ⟨ht, Bool.eq_false_iff.mpr htrivia⟩)
  · exact (hnew x hx).imp id fun ⟨w, hw, heq⟩ => ⟨w, hmissing hw, heq⟩

end FluentShift.Imports
