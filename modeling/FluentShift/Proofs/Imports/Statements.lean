import Mathlib.Data.List.TakeWhile
import FluentShift.Imports.Add
import FluentShift.Imports.Remove
import FluentShift.Proofs.Source.Shapes

/-!
# FluentShift.Proofs.Imports.Statements - what import statements take

The imports of a tree one by one, and what they become when a statement gets names (`importStatement?_joinNames`) or loses
some (`importStatement?_keepNames`).
-/

namespace FluentShift.Imports

open FluentShift.Source FluentShift.Source.Tree

/-! ### The imports of a tree -/

/-- One import: the module it is from, unless it is of a module, and its name, unless it is a star. -/
structure Taken where
  source : Option FromModule
  name : Option ImportedName
  deriving DecidableEq

/-- The imports of a statement. -/
def takenBy (i : ImportStatement) : List Taken :=
  match i.imported with
  | .star => [⟨i.source, none⟩]
  | .names ns => ns.map fun n => ⟨i.source, some n⟩

/-- The import statements of a tree at a path, with their paths. -/
def importsFrom (t : Tree) (p : Path) : List (Path × ImportStatement) :=
  (t.nodesFrom (fun k => k = .importStmt || k = .importFrom) p).filterMap fun n =>
    (n.2.importStatement?).map fun i => (n.1, i)

theorem importStatements_eq (t : Tree) : importStatements t = importsFrom t [] := rfl

theorem importStatement?_other {k : Kind} (hk : (k = .importStmt || k = .importFrom) = false) (ts : List Tree) :
    (Source.Tree.node k ts).importStatement? = none := by
  cases k <;> first | rfl | contradiction

theorem importsFrom_node (k : Kind) (ts : List Tree) (p : Path) :
    importsFrom (.node k ts) p =
      ((Source.Tree.node k ts).importStatement?).toList.map (p, ·) ++ (locate p ts).flatMap fun c => importsFrom c.2 c.1 := by
  unfold importsFrom
  rw [nodesFrom_node, List.filterMap_append, List.filterMap_flatMap]
  congr 1
  split
  · next hk =>
    cases h : (Source.Tree.node k ts).importStatement? <;> simp [h]
  · next hk =>
    rw [importStatement?_other (Bool.eq_false_iff.mpr hk)]
    rfl

theorem importsFrom_append (t : Tree) (r p : Path) :
    importsFrom t (r ++ p) = (importsFrom t r).map fun s => (s.1 ++ p, s.2) := by
  unfold importsFrom
  rw [nodesFrom_append, List.filterMap_map, List.map_filterMap]
  refine congrArg (List.filterMap · _) (funext fun n => ?_)
  show Option.map _ _ = Option.map _ (Option.map _ _)
  rw [Option.map_map]
  rfl

/-- The import statements of a tree. -/
def importsIn (t : Tree) : List ImportStatement := (importsFrom t []).map Prod.snd

theorem map_snd_importsFrom (t : Tree) (p : Path) : (importsFrom t p).map Prod.snd = importsIn t := by
  have h := importsFrom_append t [] p
  rw [List.nil_append] at h
  rw [h, List.map_map]
  rfl

theorem importsIn_node (k : Kind) (ts : List Tree) :
    importsIn (.node k ts) = ((Source.Tree.node k ts).importStatement?).toList ++ ts.flatMap importsIn := by
  have hchildren : ((locate [] ts).flatMap fun c => (importsFrom c.2 c.1).map Prod.snd) = ts.flatMap importsIn := by
    have h := congrArg (List.flatMap importsIn) (map_snd_locate [] ts)
    rw [List.flatMap_map] at h
    rw [← h]
    exact List.flatMap_congr fun c _ => map_snd_importsFrom c.2 c.1
  unfold importsIn
  rw [importsFrom_node, List.map_append, List.map_flatMap, List.map_map]
  congr 1
  exact List.map_id _

/-! ### The names of a statement -/

/-- The imported names among some trees. -/
def namesOf (ts : List Tree) : List ImportedName := ts.filterMap importedName?

theorem importedName?_eq_none {t : Tree} (h : t.isAlias = false) : t.importedName? = none := by
  unfold importedName?
  rw [show t.isKind .importAlias = false from h]

theorem isAlias_of_isTrivia {t : Tree} (h : t.isTrivia = true) : t.isAlias = false := by
  cases t with
  | leaf l => rfl
  | node k ts => cases h

theorem namesOf_append (ts us : List Tree) : namesOf (ts ++ us) = namesOf ts ++ namesOf us := List.filterMap_append

theorem namesOf_eq_nil {ts : List Tree} (h : ∀ t ∈ ts, t.isAlias = false) : namesOf ts = [] :=
  List.filterMap_eq_nil_iff.mpr fun t ht => importedName?_eq_none (h t ht)

theorem namesOf_cons {t : Tree} (h : t.isAlias = false) (ts : List Tree) : namesOf (t :: ts) = namesOf ts :=
  List.filterMap_cons_none (importedName?_eq_none h)

theorem namesOf_partsOf (ts : List Tree) : namesOf (partsOf ts) = namesOf ts := by
  induction ts with
  | nil => rfl
  | cons t ts ih =>
    rw [partsOf_cons]
    by_cases ht : t.isTrivia = true
    · rw [if_pos ht, ih, namesOf_cons (isAlias_of_isTrivia ht)]
    · rw [if_neg ht]
      unfold namesOf at *
      rw [List.filterMap_cons, List.filterMap_cons, ih]

theorem importStatement?_importStmt (ts : List Tree) :
    (Source.Tree.node .importStmt ts).importStatement? = some ⟨none, .names (namesOf ts)⟩ := by
  rw [← namesOf_partsOf ts]
  rfl

/-- The module after `from`. -/
def fromModuleOf (head : List Tree) : FromModule :=
  let before := (partsOf head).takeWhile (!·.isMark "import")
  ⟨(before.filter fun p => p.isMark "." || p.isMark "...").foldl (fun n p => n + p.text.length) 0,
    (before.find? fun p => p.isKind .dotted || p.name?.isSome).map dottedText⟩

/-- Whether a star comes after `import`. -/
def isStarred (head : List Tree) : Bool :=
  ((partsOf head).drop (((partsOf head).takeWhile (!·.isMark "import")).length + 1)).any (·.isMark "*")

/-- The statement that a head and what comes after it make: the module depends on the head only. -/
theorem importStatement?_importFrom {head : List Tree} (himport : ∃ t ∈ head, t.isMark "import" = true)
    (halias : ∀ t ∈ head, t.isAlias = false) (rest : List Tree) :
    (Source.Tree.node .importFrom (head ++ rest)).importStatement? =
      some ⟨some (fromModuleOf head),
        if isStarred head || (partsOf rest).any (·.isMark "*") then .star else .names (namesOf rest)⟩ := by
  obtain ⟨t, ht, hmark⟩ := himport
  have hpart : t ∈ partsOf head := by
    refine mem_partsOf.mpr ⟨ht, ?_⟩
    cases t with
    | node k ts => rfl
    | leaf l =>
      obtain ⟨hkind, -⟩ := (Bool.and_eq_true _ _).mp hmark
      show l.kind.isTrivia = false
      rw [of_decide_eq_true hkind]
      rfl
  have hparts : (Source.Tree.node .importFrom (head ++ rest)).parts = partsOf head ++ partsOf rest :=
    partsOf_append head rest
  have hshort : ((partsOf head).takeWhile (!·.isMark "import")).length < (partsOf head).length := by
    refine Nat.lt_of_le_of_ne (List.takeWhile_sublist _).length_le fun hlen => ?_
    have hall : ((partsOf head).takeWhile (!·.isMark "import")).all (!·.isMark "import") = true := List.all_takeWhile
    rw [(List.takeWhile_sublist _).eq_of_length hlen] at hall
    have himport := List.all_eq_true.mp hall t hpart
    rw [hmark] at himport
    cases himport
  have hbefore : (partsOf head ++ partsOf rest).takeWhile (!·.isMark "import") =
      (partsOf head).takeWhile (!·.isMark "import") := by
    rw [List.takeWhile_append, if_neg (Nat.ne_of_lt hshort)]
  have hnames : namesOf ((partsOf head).drop (((partsOf head).takeWhile (!·.isMark "import")).length + 1)) = [] :=
    namesOf_eq_nil fun u hu => halias u (mem_partsOf.mp (List.mem_of_mem_drop hu)).1
  unfold importStatement?
  simp only [hparts, hbefore, List.drop_append_of_le_length hshort, List.any_append]
  show some (ImportStatement.mk _ (if _ then _ else ImportedNames.names (namesOf (_ ++ _)))) = _
  rw [namesOf_append, hnames, namesOf_partsOf]
  rfl

/-! ### The place of the names -/

/-- The part of a statement before its names. -/
def headOf (ts : List Tree) : List Tree := ts.takeWhile (!·.isAlias)

/-- The names of a statement and what stands between them. -/
def restOf (ts : List Tree) : List Tree := ts.dropWhile (!·.isAlias)

theorem headOf_append_restOf (ts : List Tree) : headOf ts ++ restOf ts = ts := List.takeWhile_append_dropWhile

theorem isAlias_headOf (ts : List Tree) : ∀ t ∈ headOf ts, t.isAlias = false := fun t ht =>
  (Bool.not_eq_true' _).mp (List.all_eq_true.mp List.all_takeWhile t ht)

theorem partsOf_headOf (ts : List Tree) :
    partsOf (headOf ts) = headOf (partsOf ts) ∧ partsOf (restOf ts) = restOf (partsOf ts) := by
  unfold headOf restOf
  induction ts with
  | nil => exact ⟨rfl, rfl⟩
  | cons t ts ih =>
    rw [List.takeWhile_cons, List.dropWhile_cons, partsOf_cons]
    by_cases ht : t.isTrivia = true
    · rw [isAlias_of_isTrivia ht, if_pos ht]
      simp only [Bool.not_false, if_true]
      rw [partsOf_cons, if_pos ht]
      exact ih
    · rw [if_neg ht, List.takeWhile_cons, List.dropWhile_cons]
      cases t.isAlias with
      | true => exact ⟨rfl, by simp [partsOf_cons, ht]⟩
      | false =>
        simp only [Bool.not_false, if_true]
        rw [partsOf_cons, if_neg ht, ih.1]
        exact ⟨rfl, ih.2⟩

theorem listed_restOf_of_listed {ts : List Tree} (h : Listed ts) : Listed (restOf ts) := by
  unfold restOf
  cases h with
  | done h =>
    have hnil : ts.dropWhile (!·.isAlias) = [] :=
      List.dropWhile_eq_nil_iff.mpr fun t ht => by rw [show t.isAlias = false from h t ht]; rfl
    rw [hnil]
    exact .done (List.forall_mem_nil _)
  | last ha h =>
    rw [List.dropWhile_cons_of_neg (by rw [ha]; exact Bool.false_ne_true)]
    exact .last ha h
  | more ha hc h =>
    rw [List.dropWhile_cons_of_neg (by rw [ha]; exact Bool.false_ne_true)]
    exact .more ha hc h

/-- A statement is cut before its first name: what comes after is listed. -/
theorem listed_restOf {k : Kind} (hk : k = .importStmt ∨ k = .importFrom) {ts : List Tree} (h : ImportShape k ts) :
    Listed (partsOf (restOf ts)) ∧ (k = .importFrom → ∃ t ∈ headOf ts, t.isMark "import" = true) := by
  have cut : ∀ first names, partsOf ts = first ++ names → (∀ t ∈ first, t.isAlias = false) → Listed names →
      Listed (partsOf (restOf ts)) ∧ first ⊆ headOf ts := by
    intro first names hparts hfirst hnames
    have hall : ∀ t ∈ first, (!t.isAlias) = true := fun t ht => by rw [hfirst t ht]; rfl
    refine ⟨?_, fun t ht => ?_⟩
    · rw [(partsOf_headOf ts).2, hparts, restOf, List.dropWhile_append_of_pos hall]
      exact listed_restOf_of_listed hnames
    · refine (mem_partsOf.mp ?_).1
      rw [(partsOf_headOf ts).1, hparts, headOf, List.takeWhile_append_of_pos hall]
      exact List.mem_append_left _ ht
  rcases hk with rfl | rfl
  · obtain ⟨first, names, hparts, hfirst, hnames⟩ := h
    exact ⟨(cut first names hparts hfirst hnames).1, fun h => Kind.noConfusion h⟩
  · obtain ⟨first, names, hparts, hfirst, ⟨t, ht, hmark⟩, hnames⟩ := h
    obtain ⟨hlisted, hsub⟩ := cut first names hparts hfirst hnames
    exact ⟨hlisted, fun _ => ⟨t, hsub ht, hmark⟩⟩

/-- What a statement with the head of another one says, when the other one names what it takes. -/
theorem importStatement?_sameHead {k : Kind} (hk : k = .importStmt ∨ k = .importFrom) {ts : List Tree}
    (h : ImportShape k ts) {i : ImportStatement} (hi : (Source.Tree.node k ts).importStatement? = some i)
    {ns : List ImportedName} (hns : i.imported = .names ns) :
    ns = namesOf (restOf ts) ∧ ∀ us, ((partsOf (restOf ts)).any (·.isMark "*") = false → (partsOf us).any (·.isMark "*") = false) →
      (Source.Tree.node k (headOf ts ++ us)).importStatement? = some ⟨i.source, .names (namesOf us)⟩ := by
  rw [← headOf_append_restOf ts] at hi
  rcases hk with rfl | rfl
  · rw [importStatement?_importStmt, namesOf_append, namesOf_eq_nil (isAlias_headOf ts), List.nil_append] at hi
    cases hi
    cases hns
    refine ⟨rfl, fun us _ => ?_⟩
    rw [importStatement?_importStmt, namesOf_append, namesOf_eq_nil (isAlias_headOf ts), List.nil_append]
  · have himport := (listed_restOf (.inr rfl) h).2 rfl
    rw [importStatement?_importFrom himport (isAlias_headOf ts)] at hi
    cases hi
    simp only at hns
    split at hns
    · cases hns
    · next hstar =>
      cases hns
      rw [Bool.not_eq_true, Bool.or_eq_false_iff] at hstar
      refine ⟨rfl, fun us hus => ?_⟩
      rw [importStatement?_importFrom himport (isAlias_headOf ts), hstar.1, hus hstar.2]
      rfl

/-! ### Joining names -/

theorem namesOf_newNames (names : List String) :
    namesOf (names.flatMap newName) = names.map fun n => ⟨n, none⟩ := by
  induction names with
  | nil => rfl
  | cons n names ih =>
    have hname : namesOf (newName n) = [⟨n, none⟩] := by
      have htext : (Source.Tree.leaf ⟨.name, n⟩).dottedText = n := by simp [dottedText, Tree.leaves, LeafKind.isTrivia, String.join]
      show [ImportedName.mk (Source.Tree.leaf ⟨.name, n⟩).dottedText none] = _
      rw [htext]
    rw [List.flatMap_cons, namesOf_append, hname, ih]
    rfl

/-- The statement that more names have joined. -/
theorem joinNames_eq (names : List String) (ts : List Tree) :
    joinNames names (.node .importFrom ts) = .node .importFrom (headOf ts ++ (names.flatMap newName ++ restOf ts)) := by
  rw [joinNames, ← List.append_assoc]
  show Source.Tree.node .importFrom (_ ++ ts.drop (ts.takeWhile (!·.isAlias)).length) = _
  rw [drop_length_takeWhile]
  rfl

/-- Joining names puts them in front of those that a statement has. -/
theorem importStatement?_joinNames {ts : List Tree} (h : ImportShape .importFrom ts) {i : ImportStatement}
    (hi : (Source.Tree.node .importFrom ts).importStatement? = some i) {ns : List ImportedName}
    (hns : i.imported = .names ns) (names : List String) :
    (joinNames names (.node .importFrom ts)).importStatement? =
      some ⟨i.source, .names (names.map (fun n => ⟨n, none⟩) ++ ns)⟩ := by
  obtain ⟨rfl, hsame⟩ := importStatement?_sameHead (.inr rfl) h hi hns
  have hcommas : (partsOf (names.flatMap newName)).any (·.isMark "*") = false := by
    refine List.any_eq_false.mpr fun t ht => ?_
    obtain ⟨n, -, hmem⟩ := List.mem_flatMap.mp (mem_partsOf.mp ht).1
    simp only [newName, List.mem_cons, List.not_mem_nil, or_false] at hmem
    rcases hmem with rfl | rfl | rfl <;> exact Bool.false_ne_true
  rw [joinNames_eq, hsame _ fun hstar => by rw [partsOf_append, List.any_append, hcommas, hstar]; rfl, namesOf_append,
    namesOf_newNames]

/-! ### Losing names -/

/-- A name with what follows it. -/
def NameGroup.trees (g : NameGroup) : List Tree := g.alias_ :: g.comma

/-- Groups that each hold one name, in front of its comma. -/
def NameGroup.Single (g : NameGroup) : Prop := g.alias_.isAlias = true ∧ ∀ c ∈ g.comma, c.isAlias = false

theorem isTrivia_of_isAlias {t : Tree} (h : t.isAlias = true) : t.isTrivia = false := by
  cases t with
  | leaf l => cases h
  | node k ts => rfl

theorem head?_dropWhile_trivia (ts : List Tree) : ∀ t ∈ (ts.dropWhile Tree.isTrivia).head?, t.isTrivia = false := by
  intro t ht
  have h := List.head?_dropWhile_not Tree.isTrivia ts
  rw [ht] at h
  exact h

theorem nameGroups_other (n : Nat) {t : Tree} (ht : t.isAlias = false) (ts : List Tree) :
    nameGroups (n + 1) (t :: ts) = ([], t :: ts) := by
  simp only [nameGroups, show t.isKind .importAlias = false from ht, Bool.false_eq_true, if_false]

theorem nameGroups_last (n : Nat) {t : Tree} (ht : t.isAlias = true) {ts : List Tree}
    (hts : ∀ c ∈ (ts.dropWhile Tree.isTrivia).head?, c.isMark "," = false) :
    nameGroups (n + 1) (t :: ts) = ([⟨t, []⟩], ts) := by
  simp only [nameGroups, show t.isKind .importAlias = true from ht, if_true, drop_length_takeWhile]
  cases hdrop : ts.dropWhile Tree.isTrivia with
  | nil => rfl
  | cons c rest =>
    have hc : c.isMark "," = false := hts c (by rw [hdrop]; rfl)
    simp only [hc, Bool.false_eq_true, if_false]

theorem nameGroups_comma (n : Nat) {t c : Tree} (ht : t.isAlias = true) (hc : c.isMark "," = true) {ts rest : List Tree}
    (hts : ts.dropWhile Tree.isTrivia = c :: rest) :
    nameGroups (n + 1) (t :: ts) =
      (⟨t, ts.takeWhile Tree.isTrivia ++ c :: rest.takeWhile Tree.isTrivia⟩ ::
        (nameGroups n (rest.dropWhile Tree.isTrivia)).1, (nameGroups n (rest.dropWhile Tree.isTrivia)).2) := by
  simp only [nameGroups, show t.isKind .importAlias = true from ht, if_true, drop_length_takeWhile, hts, hc]

theorem isAlias_partsOf {ts : List Tree} (h : ∀ t ∈ partsOf ts, t.isAlias = false) : ∀ t ∈ ts, t.isAlias = false := by
  intro t ht
  by_cases htrivia : t.isTrivia = true
  · exact isAlias_of_isTrivia htrivia
  · exact h t (mem_partsOf.mpr ⟨ht, Bool.eq_false_iff.mpr htrivia⟩)

theorem isAlias_takeWhile_trivia (ts : List Tree) : ∀ t ∈ ts.takeWhile Tree.isTrivia, t.isAlias = false := fun t ht =>
  isAlias_of_isTrivia (List.all_eq_true.mp List.all_takeWhile t ht)

/-- After a listed name comes a comma and more of the list, or no name. -/
theorem listed_cons {t : Tree} (ht : t.isAlias = true) {ts : List Tree} (h : Listed (t :: ts)) :
    (∀ u ∈ ts, u.isAlias = false) ∨ ∃ c us, ts = c :: us ∧ c.isMark "," = true ∧ Listed us := by
  generalize hall : t :: ts = all at h
  cases h with
  | done h =>
    rw [← hall] at h
    rw [h t (List.mem_cons_self ..)] at ht
    cases ht
  | last _ h =>
    cases hall
    exact .inl h
  | more _ hc h =>
    cases hall
    exact .inr ⟨_, _, rfl, hc, h⟩

theorem listed_other {t : Tree} (ht : t.isAlias = false) {ts : List Tree} (h : Listed (t :: ts)) :
    ∀ u ∈ t :: ts, u.isAlias = false := by
  cases h with
  | done h => exact h
  | last ha _ =>
    rw [ht] at ha
    cases ha
  | more ha _ _ =>
    rw [ht] at ha
    cases ha

/-- Listed names are taken apart one by one. -/
theorem nameGroups_listed (fuel : Nat) {ts : List Tree} (hfuel : ts.length ≤ fuel)
    (hstart : ∀ t ∈ ts.head?, t.isTrivia = false) (h : Listed (partsOf ts)) :
    (nameGroups fuel ts).1.flatMap NameGroup.trees ++ (nameGroups fuel ts).2 = ts ∧
      (∀ g ∈ (nameGroups fuel ts).1, g.Single) ∧ ∀ t ∈ (nameGroups fuel ts).2, t.isAlias = false := by
  induction fuel generalizing ts with
  | zero =>
    obtain rfl := List.eq_nil_of_length_eq_zero (Nat.le_zero.mp hfuel)
    exact ⟨rfl, List.forall_mem_nil _, List.forall_mem_nil _⟩
  | succ fuel ih =>
    cases ts with
    | nil => exact ⟨rfl, List.forall_mem_nil _, List.forall_mem_nil _⟩
    | cons t ts =>
      have hparts : partsOf (t :: ts) = t :: partsOf ts := by
        rw [partsOf_cons, hstart t rfl]
        rfl
      rw [hparts] at h
      cases halias : t.isAlias with
      | false =>
        rw [nameGroups_other fuel halias]
        exact ⟨rfl, List.forall_mem_nil _, isAlias_partsOf (hparts ▸ listed_other halias h)⟩
      | true =>
        -- an alias goes on to the next part that is not trivia, which is a comma or none at all
        have hcut := List.takeWhile_append_dropWhile (p := Tree.isTrivia) (l := ts)
        have hhead := head?_dropWhile_trivia ts
        have hmore := partsOf_dropWhile ts
        cases hdrop : ts.dropWhile Tree.isTrivia with
        | nil =>
          rw [hdrop] at hmore
          rw [nameGroups_last fuel halias fun c hc => by rw [hdrop] at hc; cases hc]
          refine ⟨rfl, List.forall_mem_singleton.mpr ⟨halias, List.forall_mem_nil _⟩, isAlias_partsOf ?_⟩
          rw [← hmore]
          exact List.forall_mem_nil _
        | cons c rest =>
          rw [hdrop] at hhead hcut hmore
          rw [partsOf_cons, hhead c rfl] at hmore
          simp only [Bool.false_eq_true, if_false] at hmore
          rw [← hmore] at h
          cases hcomma : c.isMark "," with
          | false =>
            rw [nameGroups_last fuel halias fun d hd => by rw [hdrop] at hd; cases hd; exact hcomma]
            refine ⟨rfl, List.forall_mem_singleton.mpr ⟨halias, List.forall_mem_nil _⟩, isAlias_partsOf ?_⟩
            rw [← hmore]
            rcases listed_cons halias h with hnone | ⟨d, us, heq, hd, -⟩
            · exact hnone
            · cases heq
              rw [hcomma] at hd
              cases hd
          | true =>
            -- after the comma the same again, with fewer trees
            have hc : c.isAlias = false := by
              cases c with
              | leaf l => rfl
              | node k us => cases hcomma
            have hlisted : Listed (partsOf rest) := by
              rcases listed_cons halias h with hnone | ⟨d, us, heq, -, hus⟩
              · exact .done fun u hu => hnone u (List.mem_cons_of_mem _ hu)
              · cases heq
                exact hus
            have hlen : (rest.dropWhile Tree.isTrivia).length ≤ fuel := by
              have hle := (List.dropWhile_sublist Tree.isTrivia (l := rest)).length_le
              have hlen := congrArg List.length hcut
              rw [List.length_append, List.length_cons] at hlen
              rw [List.length_cons] at hfuel
              omega
            obtain ⟨hflat, hsingle, htail⟩ := ih hlen (head?_dropWhile_trivia rest) (by rwa [partsOf_dropWhile])
            rw [nameGroups_comma fuel halias hcomma hdrop]
            refine ⟨?_, List.forall_mem_cons.mpr ⟨⟨halias, ?_⟩, hsingle⟩, htail⟩
            · rw [List.flatMap_cons, List.append_assoc, hflat]
              show t :: ((_ ++ c :: rest.takeWhile Tree.isTrivia) ++ rest.dropWhile Tree.isTrivia) = _
              rw [List.append_assoc, List.cons_append, List.takeWhile_append_dropWhile, hcut]
            · exact forall_append (isAlias_takeWhile_trivia ts)
                (List.forall_mem_cons.mpr ⟨hc, isAlias_takeWhile_trivia rest⟩)

/-- The names of some groups. -/
theorem namesOf_flatMap_trees {gs : List NameGroup} (h : ∀ g ∈ gs, g.Single) :
    namesOf (gs.flatMap NameGroup.trees) = gs.filterMap (·.alias_.importedName?) := by
  induction gs with
  | nil => rfl
  | cons g gs ih =>
    obtain ⟨⟨-, hcomma⟩, hgs⟩ := List.forall_mem_cons.mp h
    have hnil : g.comma.filterMap importedName? = [] := namesOf_eq_nil hcomma
    rw [List.flatMap_cons, namesOf_append, ih hgs]
    show List.filterMap importedName? (g.alias_ :: g.comma) ++ _ = _
    rw [List.filterMap_cons, List.filterMap_cons, hnil]
    cases g.alias_.importedName? <;> rfl

/-- Of groups that can all be read, those that stay have the names that stay. -/
theorem filterMap_kept {f : NameGroup → Option ImportedName} {gs : List NameGroup} (h : ∀ g ∈ gs, (f g).isSome = true)
    (kept : List Bool) :
    (((gs.zip kept).filter (·.2)).map (·.1)).filterMap f = ((((gs.filterMap f).zip kept).filter (·.2)).map (·.1)) := by
  induction gs generalizing kept with
  | nil => rfl
  | cons g gs ih =>
    obtain ⟨hg, hgs⟩ := List.forall_mem_cons.mp h
    obtain ⟨n, hn⟩ := Option.isSome_iff_exists.mp hg
    cases kept with
    | nil => simp
    | cons b kept =>
      have hrest := ih hgs kept
      rw [List.filterMap_cons_some hn, List.zip_cons_cons, List.zip_cons_cons]
      cases b with
      | false => exact hrest
      | true =>
        show List.filterMap f (g :: ((gs.zip kept).filter (·.2)).map (·.1)) = n :: _
        rw [List.filterMap_cons_some hn, hrest]

/-- What is left of the names: the groups that stay, the last one perhaps without its comma. -/
def keptTrees (gs : List NameGroup) (lastStays : Bool) : List Tree :=
  gs.dropLast.flatMap NameGroup.trees ++
    match gs.getLast? with
    | some g => if lastStays then g.trees else [g.alias_]
    | none => []

theorem keptTrees_sublist (gs : List NameGroup) (lastStays : Bool) :
    (keptTrees gs lastStays).Sublist (gs.flatMap NameGroup.trees) := by
  rcases List.eq_nil_or_concat gs with rfl | ⟨gs, g, rfl⟩
  · exact List.Sublist.refl _
  · rw [keptTrees, List.concat_eq_append, List.dropLast_concat, List.getLast?_concat, List.flatMap_append]
    refine (List.Sublist.refl _).append ?_
    show List.Sublist (if lastStays then g.trees else [g.alias_]) (g.trees ++ [])
    rw [List.append_nil]
    split
    · exact List.Sublist.refl _
    · exact (List.nil_sublist _).cons_cons _

theorem namesOf_keptTrees {gs : List NameGroup} (h : ∀ g ∈ gs, g.Single) (lastStays : Bool) :
    namesOf (keptTrees gs lastStays) = gs.filterMap (·.alias_.importedName?) := by
  rw [← namesOf_flatMap_trees h]
  rcases List.eq_nil_or_concat gs with rfl | ⟨gs, g, rfl⟩
  · rfl
  · rw [List.concat_eq_append] at h ⊢
    rw [keptTrees, List.dropLast_concat, List.getLast?_concat, List.flatMap_append, namesOf_append, namesOf_append]
    congr 1
    show namesOf (if lastStays then g.trees else [g.alias_]) = namesOf (g.trees ++ [])
    have hcomma : namesOf g.comma = [] := namesOf_eq_nil (h g (List.mem_append_right _ (List.mem_singleton_self _))).2
    have htrees : namesOf g.trees = namesOf [g.alias_] ++ namesOf g.comma := namesOf_append [g.alias_] g.comma
    rw [List.append_nil, htrees, hcomma, List.append_nil]
    split
    · rw [htrees, hcomma, List.append_nil]
    · rfl

/-- A statement that loses names has the others left, in their order. -/
theorem importStatement?_keepNames {k : Kind} (hk : k = .importStmt ∨ k = .importFrom) {ts : List Tree}
    (h : ImportShape k ts) (hread : ∀ t ∈ ts, t.isAlias = true → t.importedName?.isSome = true) {i : ImportStatement}
    (hi : (Source.Tree.node k ts).importStatement? = some i) {ns : List ImportedName} (hns : i.imported = .names ns)
    (kept : List Bool) :
    ∃ us, keepNames kept (.node k ts) = .node k us ∧ us.Sublist ts ∧
      (Source.Tree.node k us).importStatement? =
        some ⟨i.source, .names (((ns.zip kept).filter (·.2)).map (·.1))⟩ := by
  obtain ⟨rfl, hsame⟩ := importStatement?_sameHead hk h hi hns
  have hstart : ∀ t ∈ (restOf ts).head?, t.isTrivia = false := by
    intro t ht
    have hhead := List.head?_dropWhile_not (fun t : Source.Tree => !t.isAlias) ts
    rw [show (ts.dropWhile fun t : Source.Tree => !t.isAlias).head? = some t from ht] at hhead
    exact isTrivia_of_isAlias (by simpa using hhead)
  have hfuel : (restOf ts).length ≤ ts.length := (List.dropWhile_sublist _).length_le
  obtain ⟨hflat, hsingle, htail⟩ := nameGroups_listed ts.length hfuel hstart (listed_restOf hk h).1
  have hkeep : keepNames kept (.node k ts) =
      .node k (headOf ts ++ (keptTrees ((((nameGroups ts.length (restOf ts)).1.zip kept).filter (·.2)).map (·.1))
        (kept.getLast?.getD true) ++ (nameGroups ts.length (restOf ts)).2)) := by
    rw [keepNames, ← List.append_assoc]
    simp only [Source.Tree.children, show (fun t : Source.Tree => !t.isKind .importAlias) = (!·.isAlias) from rfl,
      drop_length_takeWhile]
    rfl
  -- from here on only what is known of the groups matters, not how they were cut
  generalize (nameGroups ts.length (restOf ts)).1 = gs at hflat hsingle hkeep
  generalize (nameGroups ts.length (restOf ts)).2 = tail at hflat htail hkeep
  have hleft : (((gs.zip kept).filter (·.2)).map (·.1)).Sublist gs :=
    (List.filter_sublist.map _).trans (map_fst_zip_sublist gs kept)
  have hsub : (keptTrees (((gs.zip kept).filter (·.2)).map (·.1)) (kept.getLast?.getD true) ++ tail).Sublist (restOf ts) := by
    rw [← hflat]
    exact ((keptTrees_sublist _ _).trans (hleft.flatMap _)).append (List.Sublist.refl tail)
  have hnames : namesOf (restOf ts) = gs.filterMap (·.alias_.importedName?) := by
    rw [← hflat, namesOf_append, namesOf_eq_nil htail, List.append_nil, namesOf_flatMap_trees hsingle]
  refine ⟨_, hkeep, ?_, ?_⟩
  · have h := (List.Sublist.refl (headOf ts)).append hsub
    rwa [headOf_append_restOf] at h
  · rw [hsame]
    · rw [namesOf_append, namesOf_eq_nil htail, List.append_nil,
        namesOf_keptTrees fun g hg => hsingle g (hleft.subset hg), hnames, filterMap_kept]
      intro g hg
      refine hread g.alias_ ?_ (hsingle g hg).1
      have hmem : g.alias_ ∈ restOf ts := by
        rw [← hflat]
        exact List.mem_append_left _ (List.mem_flatMap.mpr ⟨g, hg, List.mem_cons_self ..⟩)
      exact (List.dropWhile_sublist _).subset hmem
    · intro hstar
      refine List.any_eq_false.mpr fun t ht => ?_
      exact List.any_eq_false.mp hstar t ((hsub.filter _).subset ht)

end FluentShift.Imports
