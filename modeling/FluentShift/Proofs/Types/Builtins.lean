import FluentShift.Proofs.Scope.Meaning
import FluentShift.Proofs.Source.Paths
import FluentShift.Proofs.Types.Inference
import FluentShift.Rewrite.Plan

/-!
# FluentShift.Proofs.Types.Builtins - names of the language that a module gives a meaning of its own

A name like `float` that resolves to bindings of the module is taken for that of the language exactly when one of the
bindings goes by that very name (`takenForBuiltin_iff`): it is made where names have no qualification.  Otherwise what the
module says about the name decides.
-/

namespace FluentShift.Types

open FluentShift.Source FluentShift.Source.Tree FluentShift.Scope FluentShift.Rewrite

/-! ### The names of a binding -/

/-- A binding has this name among its qualified ones, without the mark of the language's own names. -/
def GoesBy (t : Table) (b : Binding) (n : String) : Prop := ∃ q ∈ b.qualified t b.name, stripBuiltins q = n

instance (t : Table) (b : Binding) (n : String) : Decidable (GoesBy t b n) :=
  inferInstanceAs (Decidable (∃ q ∈ b.qualified t b.name, stripBuiltins q = n))

theorem stripBuiltins_of_plain {g : String} (hg : '.' ∉ g.toList) : stripBuiltins g = g := by
  refine if_neg fun h => hg ?_
  rw [String.startsWith_string_iff] at h
  exact h.subset (by decide)

/-- Of a name below a label, the name itself is left exactly when the label is the mark of the language's own names. -/
theorem stripBuiltins_append (label g : String) : stripBuiltins (label ++ "." ++ g) = g ↔ label = "builtins" := by
  have htext : (label ++ "." ++ g).toList = label.toList ++ '.' :: g.toList := by
    rw [String.toList_append, String.toList_append, List.append_assoc]
    rfl
  unfold stripBuiltins
  constructor
  · intro h
    split at h
    · next hstart =>
      rw [String.startsWith_string_iff, htext] at hstart
      have hlength := congrArg (fun s => s.toList.length) h
      simp only [String.toList_ofList, List.length_drop, htext, List.length_append, List.length_cons] at hlength
      have hlong := hstart.length_le
      have hnine : "builtins.".toList.length = 9 ∧ "builtins.".length = 9 := by decide
      have height : "builtins".toList.length = 8 := by decide
      rw [List.length_append, List.length_cons] at hlong
      have hmark : "builtins".toList <+: label.toList ++ '.' :: g.toList := List.IsPrefix.trans (by decide) hstart
      have hbegins := List.prefix_of_prefix_length_le hmark (List.prefix_append label.toList _) (by omega)
      exact String.toList_injective (hbegins.eq_of_length (by omega)).symm
    · have hlength := congrArg (fun s => s.toList.length) h
      simp only [htext, List.length_append, List.length_cons] at hlength
      omega
  · rintro rfl
    have hstart : ("builtins" ++ "." ++ g).startsWith "builtins." = true := by
      rw [String.startsWith_string_iff, htext]
      exact ⟨g.toList, by rw [show "builtins.".toList = "builtins".toList ++ ['.'] by decide, List.append_assoc]; rfl⟩
    rw [if_pos hstart, htext]
    have hdrop : ("builtins.".toList ++ g.toList).drop "builtins.".toList.length = g.toList := List.drop_left
    exact (congrArg String.ofList hdrop).trans String.ofList_toList

/-- A binding that is no import goes by its own name exactly where names have no qualification. -/
theorem goesBy_name_iff {t : Table} {b : Binding} (hb : b.origin = .defined) (hname : '.' ∉ b.name.toList) :
    GoesBy t b b.name ↔ IsBare (t.info b.scope).label := by
  unfold GoesBy Binding.qualified IsBare
  rw [hb]
  simp only [List.mem_singleton, exists_eq_left]
  split
  · next hempty => exact ⟨fun _ => .inl hempty, fun _ => stripBuiltins_of_plain hname⟩
  · next hne => exact (stripBuiltins_append ..).trans ⟨.inr, fun h => h.resolve_left hne⟩

namespace Typing

variable (ty : Typing) {p : Path} {e : Tree} {g : String}

theorem unparenPath_paren {ts : List Tree} {a b c : Tree × Nat} (h : placedParts ts = [a, b, c]) (p : Path) :
    unparenPath (.node .paren ts) p = unparenPath b.1 (b.2 :: p) := by
  have hparts : (locate p (ts.map fun t => (t, unparenPath t))).filter (fun c => !c.2.1.isTrivia) =
      (placedParts ts).map fun b => (b.2 :: p, b.1, unparenPath b.1) := by
    simp only [locate, List.zipIdx_map, List.map_map, List.filter_map, placedParts]
    rfl
  have hfold : unparenPath = Tree.para _ _ := rfl
  rw [h, hfold] at hparts
  rw [hfold, para_node, hparts]
  rfl

theorem ofHint_paren {ts : List Tree} {a b c : Tree × Nat} (h : placedParts ts = [a, b, c]) (p : Path) :
    ty.ofHint p (.node .paren ts) = ty.ofHint (b.2 :: p) b.1 := by
  have hparts : (locate p (ts.map fun t => (t, fun q => ty.ofHint q t))).filter (fun c => !c.2.1.isTrivia) =
      (placedParts ts).map fun b => (b.2 :: p, b.1, fun q => ty.ofHint q b.1) := by
    simp only [locate, List.zipIdx_map, List.map_map, List.filter_map, placedParts]
    rfl
  rw [h] at hparts
  conv_lhs => unfold ofHint
  dsimp only
  rw [para_node]
  erw [hparts]
  rfl

/-- A name that resolves goes by the names of the bindings that it means. -/
theorem mem_namesFor (he : e.unparen = .leaf ⟨.name, g⟩) (h : ty.table.ResolvesAt (unparenPath e p) g)
    (hnames : ∀ b ∈ ty.table.bindings, b.qualified ty.table b.name ≠ []) {n : String} :
    n ∈ ty.namesFor p e ↔ ∃ b ∈ ty.table.meanings (unparenPath e p), GoesBy ty.table b n := by
  have hfound : ∀ m, m ∈ (ty.table.qualifiedAt (unparenPath e p) (.leaf ⟨.name, g⟩)).map stripBuiltins ↔
      ∃ b ∈ ty.table.meanings (unparenPath e p), GoesBy ty.table b m := by
    intro m
    rw [List.mem_map]
    constructor
    · rintro ⟨q, hq, rfl⟩
      obtain ⟨b, hb, hq⟩ := h.mem_qualifiedAt.mp hq
      exact ⟨b, hb, q, hq, rfl⟩
    · rintro ⟨b, hb, q, hq, rfl⟩
      exact ⟨q, h.mem_qualifiedAt.mpr ⟨b, hb, hq⟩, rfl⟩
  obtain ⟨b, hb⟩ := List.exists_mem_of_ne_nil _ h.meanings_ne_nil
  obtain ⟨q, hq⟩ := List.exists_mem_of_ne_nil _ (hnames b (h.of_mem_meanings hb).1)
  have hne : (ty.table.qualifiedAt (unparenPath e p) (.leaf ⟨.name, g⟩)).map stripBuiltins ≠ [] :=
    List.ne_nil_of_mem ((hfound _).mpr ⟨b, hb, q, hq, rfl⟩)
  unfold namesFor
  dsimp only
  rw [he, show isNameLike (.leaf ⟨.name, g⟩) = true from rfl, if_pos rfl, if_neg (by rwa [List.isEmpty_iff]),
    List.mem_eraseDups]
  exact hfound n

/-- A name in parentheses goes by the same names as the name itself. -/
theorem namesFor_unparen {l : Leaf} (he : e.unparen = .leaf l) (p : Path) :
    ty.namesFor (unparenPath e p) (.leaf l) = ty.namesFor p e := by
  unfold namesFor
  rw [he]
  rfl

/-- An annotation in parentheses is that of the name itself. -/
theorem ofHint_unparen {l : Leaf} (he : e.unparen = .leaf l) (p : Path) :
    ty.ofHint p e = ofHint.byName ty (unparenPath e p) (.leaf l) := by
  induction e using induct generalizing p with
  | leaf l' => cases he; rfl
  | node k ts ih =>
    by_cases hk : k = .paren
    · subst hk
      rw [unparen_paren, ← map_fst_placedParts] at he
      split at he
      · next heq =>
        obtain ⟨a, bs, hbs, -, hb⟩ := List.map_eq_cons_iff.mp heq
        obtain ⟨b, cs, rfl, rfl, hc⟩ := List.map_eq_cons_iff.mp hb
        obtain ⟨c, ds, rfl, -, hnil⟩ := List.map_eq_cons_iff.mp hc
        cases List.map_eq_nil_iff.mp hnil
        have hmem : b ∈ placedParts ts := by rw [hbs]; simp
        rw [ty.ofHint_paren hbs, unparenPath_paren hbs]
        exact ih b.1 (mem_of_mem_placedParts hmem) he _
      · cases he
    · rw [unparen_node hk] at he
      cases he

end Typing

/-! ### What a name of the language decides -/

/-- The names by which a call or an annotation is known without a look at the module. -/
def trustedNames (v : Vocabulary) : List String :=
  stringProducers ++ TypeDesc.primitives.map (·.name) ++ v.floats ++ v.strings

theorem mem_trustedNames {v : Vocabulary} {n : String} : n ∈ trustedNames v ↔
    n ∈ stringProducers ∨ n ∈ TypeDesc.primitives.map (·.name) ∨ n ∈ v.floats ∨ n ∈ v.strings := by
  rw [trustedNames, List.mem_append, List.mem_append, List.mem_append, or_assoc, or_assoc]

/-- The type of a call of something that goes by this name, if the name decides it. -/
def builtinCall (v : Vocabulary) (n : String) : Option TypeDesc :=
  if stringProducers.contains n then some .str
  else if n = "float" then some .float
  else if n = "int" then some .int
  else if v.floats.contains n then some (.nominal n)
  else none

/-- The type of an annotation that goes by this name, if the name decides it. -/
def builtinHint (v : Vocabulary) (n : String) : Option TypeDesc :=
  if TypeDesc.primitives.any (·.name = n) then some (.primitive n)
  else if v.floats.contains n || v.strings.contains n then some (.nominal n)
  else none

/-- What is known in the module about what a name at a node returns. -/
def Typing.recordedResult (ty : Typing) (p : Path) (n : String) : Option TypeDesc :=
  match ty.bindings.lookup p n with
  | some d => if d.kind = .callable then d.result? else none
  | none => none

/-- Of names that are all the same the first one is that name. -/
theorem leastName_of_forall {ns : List String} {g : String} (h : ∀ n ∈ ns, n = g) (hne : ns ≠ []) : leastName ns = some g := by
  have hfold : ∀ ns : List String, (∀ n ∈ ns, n = g) → ns.foldl (fun a b => if b < a then b else a) g = g := by
    intro ns h
    induction ns with
    | nil => rfl
    | cons n ns ih =>
      rw [List.foldl_cons, h n (List.mem_cons_self ..), ite_self]
      exact ih fun m hm => h m (List.mem_cons_of_mem _ hm)
  cases ns with
  | nil => exact absurd rfl hne
  | cons n ns =>
    rw [leastName, h n (List.mem_cons_self ..), hfold ns fun m hm => h m (List.mem_cons_of_mem _ hm)]

section Decide

variable {v : Vocabulary} {names : List String} {g : String}

/-- Some of the names are in a list of trusted ones exactly when the name itself is. -/
theorem any_contains_iff (honly : ∀ n ∈ names, n ≠ g → n ∉ trustedNames v) (trusted : List String)
    (hsub : trusted ⊆ trustedNames v) : names.any trusted.contains = true ↔ g ∈ names ∧ g ∈ trusted := by
  rw [List.any_eq_true]
  constructor
  · rintro ⟨n, hn, htrusted⟩
    have hmem := List.contains_iff_mem.mp htrusted
    have heq : n = g := by
      by_contra hne
      exact honly n hn hne (hsub hmem)
    subst heq
    exact ⟨hn, hmem⟩
  · rintro ⟨hn, htrusted⟩
    exact ⟨g, hn, List.contains_iff_mem.mpr htrusted⟩

theorem leastName_filter (honly : ∀ n ∈ names, n ≠ g → n ∉ trustedNames v) (trusted : String → Bool)
    (hsub : ∀ n, trusted n = true → n ∈ trustedNames v) :
    leastName (names.filter trusted) = if g ∈ names ∧ trusted g = true then some g else none := by
  have hall : ∀ n ∈ names.filter trusted, n = g := by
    intro n hn
    obtain ⟨hn, htrusted⟩ := List.mem_filter.mp hn
    by_contra hne
    exact honly n hn hne (hsub n htrusted)
  split
  · next hg => exact leastName_of_forall hall (List.ne_nil_of_mem (List.mem_filter.mpr hg))
  · next hg =>
    have hnil : names.filter trusted = [] := by
      refine List.eq_nil_iff_forall_not_mem.mpr fun n hn => hg ?_
      obtain rfl := hall n hn
      exact List.mem_filter.mp hn
    rw [hnil]
    rfl

theorem contains_iff (honly : ∀ n ∈ names, n ≠ g → n ∉ trustedNames v) {n : String} (hn : n ∈ trustedNames v) :
    names.contains n = true ↔ g ∈ names ∧ g = n := by
  rw [List.contains_iff_mem]
  constructor
  · intro hmem
    have heq : n = g := by
      by_contra hne
      exact honly n hmem hne hn
    exact ⟨heq ▸ hmem, heq.symm⟩
  · rintro ⟨hg, rfl⟩
    exact hg

end Decide

namespace Typing

variable (ty : Typing) {p : Path} {e : Tree} {g : String}

/-- A call of a name that goes by no other trusted name. -/
theorem called_eq (he : e.unparen = .leaf ⟨.name, g⟩)
    (honly : ∀ n ∈ ty.namesFor p e, n ≠ g → n ∉ trustedNames ty.vocabulary) (receiver : Option TypeDesc) :
    ty.called p e receiver = (if g ∈ ty.namesFor p e then builtinCall ty.vocabulary g else none).or
      (ty.recordedResult (unparenPath e p) g) := by
  have hstr := any_contains_iff honly stringProducers fun n hn => mem_trustedNames.mpr (.inl hn)
  have hfloat := contains_iff honly (n := "float") (mem_trustedNames.mpr (.inr (.inl (by decide))))
  have hint := contains_iff honly (n := "int") (mem_trustedNames.mpr (.inr (.inl (by decide))))
  have hfloats := leastName_filter honly ty.vocabulary.floats.contains
    fun n hn => mem_trustedNames.mpr (.inr (.inr (.inl (List.contains_iff_mem.mp hn))))
  unfold called
  dsimp only
  rw [hfloats, he]
  simp only [hstr, hfloat, hint]
  by_cases hg : g ∈ ty.namesFor p e
  · simp only [hg, true_and, if_true, builtinCall, List.contains_iff_mem]
    by_cases hproducer : g ∈ stringProducers
    · rw [if_pos hproducer, if_pos hproducer]; rfl
    · rw [if_neg hproducer, if_neg hproducer]
      by_cases hisFloat : g = "float"
      · rw [if_pos hisFloat, if_pos hisFloat]; rfl
      · rw [if_neg hisFloat, if_neg hisFloat]
        by_cases hisInt : g = "int"
        · rw [if_pos hisInt, if_pos hisInt]; rfl
        · rw [if_neg hisInt, if_neg hisInt]
          by_cases hlisted : g ∈ ty.vocabulary.floats
          · rw [if_pos hlisted, if_pos hlisted]; rfl
          · rw [if_neg hlisted, if_neg hlisted]; rfl
  · simp only [hg, false_and, if_false]
    rfl

/-- An annotation with a name that goes by no other trusted name. -/
theorem ofHint_eq (he : e.unparen = .leaf ⟨.name, g⟩)
    (honly : ∀ n ∈ ty.namesFor p e, n ≠ g → n ∉ trustedNames ty.vocabulary) :
    ty.ofHint p e = (if g ∈ ty.namesFor p e then builtinHint ty.vocabulary g else none).or
      ((leastName (ty.namesFor p e)).map .nominal) := by
  have hprimitive := leastName_filter honly (fun n => TypeDesc.primitives.any (·.name = n)) fun n hn => by
    obtain ⟨d, hd, hname⟩ := List.any_eq_true.mp hn
    exact mem_trustedNames.mpr (.inr (.inl (List.mem_map.mpr ⟨d, hd, of_decide_eq_true hname⟩)))
  have hfloats := leastName_filter honly ty.vocabulary.floats.contains
    fun n hn => mem_trustedNames.mpr (.inr (.inr (.inl (List.contains_iff_mem.mp hn))))
  have hstrings := leastName_filter honly ty.vocabulary.strings.contains
    fun n hn => mem_trustedNames.mpr (.inr (.inr (.inr (List.contains_iff_mem.mp hn))))
  rw [ty.ofHint_unparen he, ofHint.byName, ty.namesFor_unparen he, show isNameLike (.leaf ⟨.name, g⟩) = true from rfl]
  simp only [Bool.not_true, Bool.false_eq_true, if_false]
  rw [hprimitive, hfloats, hstrings]
  by_cases hg : g ∈ ty.namesFor p e
  · simp only [hg, true_and, if_true, builtinHint]
    by_cases hprim : TypeDesc.primitives.any (fun d => decide (d.name = g)) = true
    · rw [if_pos hprim, if_pos hprim]; rfl
    · rw [if_neg hprim, if_neg hprim]
      by_cases hlisted : ty.vocabulary.floats.contains g = true
      · rw [if_pos hlisted, hlisted]; rfl
      · rw [if_neg hlisted, Bool.eq_false_iff.mpr hlisted, Bool.false_or]
        by_cases hstring : ty.vocabulary.strings.contains g = true
        · rw [if_pos hstring, if_pos hstring]; rfl
        · rw [if_neg hstring, if_neg hstring]; rfl
  · simp only [hg, false_and, if_false]
    rfl

end Typing

/-! ### Names of a module -/

/-- A plain name that resolves to bindings of a module is taken for the name of the language exactly when one of these
bindings goes by that name; if it is no import, exactly when the names of its scope have no qualification, as at the top of
the module.  If they go by no other trusted name, then the name decides the type of a call and of an annotation in that
case only: otherwise a call has the type that the module says it returns, and an annotation is the class of that name. -/
theorem takenForBuiltin_iff (v : Vocabulary) (known : Bindings) (t : Tree) {p : Path} {e : Tree} {g : String}
    (hg : '.' ∉ g.toList) (he : e.unparen = .leaf ⟨.name, g⟩)
    (h : (Table.ofModule t).ResolvesAt (unparenPath e p) g) :
    let ty : Typing := ⟨v, Table.ofModule t, known⟩
    let meanings := (Table.ofModule t).meanings (unparenPath e p)
    let taken := ∃ b ∈ meanings, GoesBy (Table.ofModule t) b g
    (g ∈ ty.namesFor p e ↔ taken) ∧
    (∀ b ∈ meanings, b.origin = .defined →
      (GoesBy (Table.ofModule t) b g ↔ IsBare ((Table.ofModule t).info b.scope).label) ∧
      (b.scope = 0 → IsBare ((Table.ofModule t).info b.scope).label) ∧
      (IsBare ((Table.ofModule t).info b.scope).label → ((Table.ofModule t).info b.scope).kind.IsOpen)) ∧
    ((∀ b ∈ meanings, ∀ n, GoesBy (Table.ofModule t) b n → n ≠ g → n ∉ trustedNames v) →
      (∀ q i ts bs, p = i :: q → placedParts ts = (e, i) :: bs →
        ty.infer q (.node .call ts) =
          (if taken then builtinCall v g else none).or (ty.recordedResult (unparenPath e p) g)) ∧
      ty.ofHint p e =
        (if taken then builtinHint v g else none).or ((leastName (ty.namesFor p e)).map .nominal)) := by
  intro ty meanings taken
  -- both halves come down to the names that the bindings go by
  have hnames : ∀ n, n ∈ ty.namesFor p e ↔ ∃ b ∈ meanings, GoesBy (Table.ofModule t) b n :=
    fun n => ty.mem_namesFor he h fun b hb => qualified_ne_nil hb
  have hlabelled := labelled_ofModule t
  refine ⟨hnames g, fun b hb hdefined => ?_, fun honly => ?_⟩
  · obtain ⟨-, rfl⟩ := h.of_mem_meanings hb
    refine ⟨goesBy_name_iff hdefined hg, fun hscope => ?_, hlabelled.bare _⟩
    rw [hscope]
    exact .inl hlabelled.module
  · have hother : ∀ n ∈ ty.namesFor p e, n ≠ g → n ∉ trustedNames v := by
      intro n hn hne
      obtain ⟨b, hb, hgoes⟩ := (hnames n).mp hn
      exact honly b hb n hgoes hne
    refine ⟨?_, ?_⟩
    · rintro q i ts bs rfl hparts
      rw [ty.infer_call hparts, ty.called_eq he hother]
      exact congrArg (Option.or · _) (if_congr (hnames g) rfl rfl)
    · rw [ty.ofHint_eq he hother]
      exact congrArg (Option.or · _) (if_congr (hnames g) rfl rfl)

/-- A function inside another one, with the name of a type of the language. -/
def innerText : String := "def f():\n    def float(x) -> str:\n        return x\n    check(float(1))\n"

/-- The tree of `innerText`. -/
def innerTree : Tree := ((SourceFile.parse? innerText).map (·.tree)).getD default

set_option maxRecDepth 100000 in
theorem takenForBuiltin_innerTree :
    (Table.ofModule innerTree).ResolvesAt [0, 0, 2, 0, 4, 6, 0] "float" ∧
      "float" ∉ (Typing.ofModule .standard (Table.ofModule innerTree) innerTree).namesFor [0, 0, 2, 0, 4, 6, 0]
        (.leaf ⟨.name, "float"⟩) := by
  have hinner : (Table.ofModule innerTree).ResolvesAt [0, 0, 2, 0, 4, 6, 0] "float" ∧
      ¬ ∃ b ∈ (Table.ofModule innerTree).meanings [0, 0, 2, 0, 4, 6, 0], GoesBy (Table.ofModule innerTree) b "float" := by
    decide +kernel
  refine ⟨hinner.1, fun hname => ?_⟩
  have htaken := (takenForBuiltin_iff .standard
    (Typing.ofModule .standard (Table.ofModule innerTree) innerTree).bindings innerTree (e := .leaf ⟨.name, "float"⟩)
    (by decide) rfl hinner.1).1.mp hname
  exact absurd htaken hinner.2

/-- A function and a class at the top of a module, with the names of types of the language. -/
def outerText : String :=
  "def float(x) -> str:\n    return x\nclass int:\n    pass\ndef f(y: int):\n    check(float(1), y)\n"

/-- The call of `float` and the annotation `int` of a tree mean its own definitions at its top, the function is known to
return text, and the oracle gives both arguments of `check` the types of the language all the same. -/
def Misread (t : Tree) : Prop :=
  (Table.ofModule t).ResolvesAt [0, 0, 2, 0, 2, 7, 2] "float" ∧
  (Table.ofModule t).meanings [0, 0, 2, 0, 2, 7, 2] = [⟨"float", 0, .defined, 0⟩] ∧
  (Typing.ofModule .standard (Table.ofModule t) t).recordedResult [0, 0, 2, 0, 2, 7, 2] "float" = some .str ∧
  (Table.ofModule t).ResolvesAt [2, 1, 0, 4, 2] "int" ∧
  (Table.ofModule t).meanings [2, 1, 0, 4, 2] = [⟨"int", 0, .defined, 1⟩] ∧
  (allCalls t).map (fun c =>
    argumentTypes (Oracle.local_.prepare .standard (Table.ofModule t) t) c.path c.call) =
      [[some .float, some .int], [some .int]]

instance (t : Tree) : Decidable (Misread t) := by unfold Misread; infer_instance

set_option maxRecDepth 100000 in
theorem any_misread_outerText : (SourceFile.parse? outerText).any (fun f => decide (Misread f.tree)) = true := by
  decide +kernel

/-- In `outerText` the oracle takes two definitions of the module for what the language calls like them. -/
theorem misread_outerText : ∃ f, SourceFile.parse? outerText = some f ∧ Misread f.tree := by
  obtain ⟨hsome, h⟩ := (Option.any_eq_true_iff_get ..).mp any_misread_outerText
  exact ⟨_, Option.eq_some_of_isSome hsome, of_decide_eq_true h⟩

end FluentShift.Types
