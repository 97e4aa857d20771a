import FluentShift.Proofs.Rewrite.Leftover
import FluentShift.Proofs.Scope.Grown

/-!
# FluentShift.Proofs.Rewrite.Capture - what an added import does to the names of a module

Adding names from a module leaves every use of a name where it is, and leaves what it means unless it stands for one of
the added names (`add_uses`); so do the imports that a rewrite adds (`rewrite_uses`).  A use of such a name that meant
nothing before means the import then, though, and nobody has looked for such uses (`captured_starText`).
-/

namespace FluentShift.Imports

open FluentShift.Source FluentShift.Source.Tree FluentShift.Scope

/-! ### Walking a line with an import -/

section Line

variable {d : Nat}

/-- The walk of a tree, with strings read up to `d` inside one another. -/
abbrev walkOf (d : Nat) (t : Source.Tree) : Walk := t.para (walkLeaf (walkString d)) (walkNode (walkString d))

theorem walkOf_isBetween {t : Source.Tree} (h : IsBetween t) (p : Path) (g : Here) : walkOf d t p g = pure () := by
  obtain ⟨l, rfl, hname, hstring⟩ := h
  show walkLeaf _ l p g = _
  unfold walkLeaf
  split
  · contradiction
  · contradiction
  · rfl

theorem walkOf_node (k : Kind) (ts : List Source.Tree) :
    walkOf d (.node k ts) = walkNode (walkString d) k (ts.zip (ts.map (walkOf d))) := by
  rw [walkOf, para_node, map_eq_zip]

theorem walkOf_importFrom {ts : List Source.Tree} {i : ImportStatement}
    (hi : (Source.Tree.node .importFrom ts).importStatement? = some i) (p : Path) (g : Here) :
    walkOf d (.node .importFrom ts) p g = (do place p g; walkImport i g.scope) := by
  have hself : (ts.zip (ts.map (walkOf d))).map Prod.fst = ts :=
    List.map_fst_zip (Nat.le_of_eq (List.length_map ..).symm)
  rw [walkOf_node]
  unfold walkNode
  simp only [hself, hi]

/-- The nodes that only hold lines or statements read them one after the other. -/
theorem walkOf_parts {k : Kind} (hk : k = .module ∨ k = .simpleLine) (ts : List Source.Tree) (p : Path) (g : Here) :
    walkOf d (.node k ts) p g =
      (do place p g; forM (placedParts ts) fun c => walkOf d c.1 (c.2 :: p) g.load) := by
  have hwalk : ∀ c ∈ placedParts ts, walkAt (ts.map (walkOf d)) c.2 = walkOf d c.1 := by
    intro c hc
    have hget := List.mem_zipIdx_iff_getElem?.mp (List.mem_of_mem_filter hc)
    simp [walkAt, hget]
  have hgo : ∀ S ⊆ placedParts ts, (forM S fun c => walkAt (ts.map (walkOf d)) c.2 (c.2 :: p) g.load) =
      forM S fun c => walkOf d c.1 (c.2 :: p) g.load := by
    intro S hS
    induction S with
    | nil => rfl
    | cons c S ih =>
      rw [List.forM_cons, List.forM_cons, hwalk c (hS (List.mem_cons_self ..)),
        ih fun c hc => hS (List.mem_cons_of_mem _ hc)]
  have hlen : (ts.map (walkOf d)).length = ts.length := List.length_map ..
  have hchildren := children_eq_kids p hlen
  rw [walkOf_node]
  rcases hk with rfl | rfl <;>
    · show (place p g >>= fun _ => goAll _ g.load) = _
      rw [hchildren, goAll_kids, List.forM_eq_forM, hgo _ (List.Subset.refl _)]

/-- A line whose only statement is an import. -/
theorem walkOf_line {before after ts : List Source.Tree} (hbetween : ∀ t ∈ before ++ after, IsBetween t)
    {i : ImportStatement} (hi : (Source.Tree.node .importFrom ts).importStatement? = some i) (p : Path) (g : Here) :
    walkOf d (.node .simpleLine (before ++ .node .importFrom ts :: after)) p g =
      (do place p g; place (before.length :: p) g.load; walkImport i g.scope) := by
  have hskip : ∀ S : List (Source.Tree × Nat), (∀ c ∈ S, IsBetween c.1) →
      (forM S fun c => walkOf d c.1 (c.2 :: p) g.load) = pure () := by
    intro S hS
    induction S with
    | nil => rfl
    | cons c S ih =>
      obtain ⟨hc, hS⟩ := List.forall_mem_cons.mp hS
      rw [List.forM_cons, walkOf_isBetween hc, pure_bind]
      exact ih hS
  have hparts : placedParts (before ++ .node .importFrom ts :: after) =
      (before.zipIdx.filter fun c => !c.1.isTrivia) ++ (.node .importFrom ts, before.length) ::
        (after.zipIdx (before.length + 1)).filter fun c => !c.1.isTrivia := by
    rw [placedParts, List.zipIdx_append, List.filter_append, List.zipIdx_cons, List.filter_cons, Nat.zero_add]
    rfl
  have hbefore := hskip (before.zipIdx.filter fun c => !c.1.isTrivia) fun c hc =>
    hbetween _ (List.mem_append_left _ (List.fst_mem_of_mem_zipIdx (List.mem_of_mem_filter hc)))
  have hafter := hskip ((after.zipIdx (before.length + 1)).filter fun c => !c.1.isTrivia) fun c hc =>
    hbetween _ (List.mem_append_right _ (List.fst_mem_of_mem_zipIdx (List.mem_of_mem_filter hc)))
  rw [walkOf_parts (.inr rfl), hparts, List.forM_append, hbefore, pure_bind, List.forM_cons, hafter,
    walkOf_importFrom hi, bind_pure_unit]
  rfl

end Line

/-! ### Growing a table -/

section Growth

variable {P : Path → Path → Prop} {module : String} {names : List String} {d : Nat}

theorem grown_empty : Grown P module names .empty .empty := by
  refine ⟨[], [], ?_⟩
  constructor
  case early => exact fun _ _ h => absurd h List.not_mem_nil
  case order => exact fun _ _ h => absurd h List.not_mem_nil
  case inner => exact fun _ _ => rfl
  case some_scope => exact Nat.one_pos
  all_goals first | rfl | exact List.forall_mem_nil _

theorem grown_place {t u : Table} (h : Grown P module names t u) (p q : Path) (g g' : Here) :
    Grown P module names ((place p g).run t).2 ((place q g').run u).2 := by
  obtain ⟨rows, uses, hG⟩ := h
  unfold place
  refine ⟨rows, uses, ?_⟩
  split <;> split <;> exact hG.placed _ _

theorem grown_place_right {t u : Table} (h : Grown P module names t u) (q : Path) (g : Here) :
    Grown P module names t ((place q g).run u).2 := by
  obtain ⟨rows, uses, hG⟩ := h
  unfold place
  refine ⟨rows, uses, ?_⟩
  split <;> exact hG.placed _ _

/-- Work in the larger module before the work in both. -/
theorem Keep.before {R : Table → Table → Prop} {x y z : StateM Table Unit} (hx : Keep R (pure ()) x)
    (h : Keep R y z) : Keep R y (x >>= fun _ => z) :=
  fun t u hR => h t _ (hx t u hR).1

/-- Binds what one imported name stands for. -/
def bindImported (i : ImportStatement) (s : ScopeId) (n : ImportedName) : StateM Table Unit :=
  match n.alias_ with
  | some a => bind s a (.imported i)
  | none => (dottedPrefixes n.name).forM fun m => bind s m (.imported i)

theorem walkImport_eq (i : ImportStatement) (s : ScopeId) : walkImport i s = forM i.list (bindImported i s) := rfl

/-- The larger module imports more names. -/
theorem keep_newNames (hnames : ∀ n ∈ names, IsSimple n) {j : ImportStatement} (hj : j.moduleName = module)
    (ns : List String) (hns : ns ⊆ names) :
    Keep (Grown P module names) (pure ()) (forM (ns.map fun n => (⟨n, none⟩ : ImportedName)) (bindImported j 0)) := by
  induction ns with
  | nil => exact sim_pure trivial
  | cons n ns ih =>
    have hn := hns (List.mem_cons_self ..)
    rw [List.map_cons, List.forM_cons]
    refine Keep.before (keep_of fun t u h => ?_) (ih fun m hm => hns (List.mem_cons_of_mem _ hm))
    obtain ⟨rows, uses, hG⟩ := h
    show Grown P module names t (((dottedPrefixes n).forM fun m => bind 0 m (.imported j)).run u).2
    rw [(hnames n hn).dottedPrefixes]
    exact hG.boundNew hn hj

/-- Both modules import the same names, the larger one more of them. -/
theorem keep_joinedNames {i j : ImportStatement} (hi : i.moduleName = module) (hj : j.moduleName = module)
    (hlist : j.list = names.map (⟨·, none⟩) ++ i.list) (ns : List ImportedName) :
    Keep (Grown P module names) (forM ns (bindImported i 0)) (forM ns (bindImported j 0)) := by
  have hbind : ∀ m, Keep (Grown P module names) (bind 0 m (.imported i)) (bind 0 m (.imported j)) := by
    intro m
    refine keep_of fun t u h => ?_
    obtain ⟨rows, uses, hG⟩ := h
    exact hG.bound 0 m (.joined hi hj hlist)
  refine keep_forM fun n _ => ?_
  unfold bindImported
  split
  · exact hbind _
  · exact keep_forM fun m _ => hbind m

theorem moduleName_plain (m : String) (imported : ImportedNames) :
    ImportStatement.moduleName ⟨some ⟨0, some m⟩, imported⟩ = m := String.empty_append

/-- The line that imports the names. -/
theorem keep_fresh (hnames : ∀ n ∈ names, IsSimple n) (lineBreak : String) {D : Dotted} (hmodule : D.text = module)
    {n : String} {ns : List String} (hlist : names = n :: ns) (q : Path) {g : Here} (hg : g.scope = 0) :
    Keep (Grown P module names) (pure ()) (walkOf d (importLine lineBreak D n ns) q g) := by
  have hend : ∀ t ∈ [] ++ [Source.Tree.leaf ⟨.endOfLine, lineBreak⟩], IsBetween t := by
    intro t ht
    rw [List.mem_singleton.mp ht]
    exact ⟨_, rfl, nofun, nofun⟩
  have hwalk : walkOf d (importLine lineBreak D n ns) q g = _ :=
    walkOf_line hend (importStatement?_importTree D n ns) q g
  rw [hwalk, hg, walkImport_eq]
  refine Keep.before (keep_of fun t u h => grown_place_right h _ _) ?_
  refine Keep.before (keep_of fun t u h => grown_place_right h _ _) ?_
  exact keep_newNames hnames ((moduleName_plain _ _).trans hmodule) (n :: ns) (hlist ▸ List.Subset.refl _)

/-- A line that takes the names too. -/
theorem keep_joined (hnames : ∀ n ∈ names, IsSimple n) {line : Source.Tree} (hline : line.Formed)
    (hjoin : Joinable module line) (p q : Path) {g : Here} (hg : g.scope = 0) :
    Keep (Grown P module names) (walkOf d line p g) (walkOf d (joinLine names line) q g) := by
  cases hjoin with
  | @line before after ts ns hbetween hstatement =>
    have hts : (Source.Tree.node .importFrom ts).Formed := hline.child (List.mem_append_right _ (List.mem_cons_self ..))
    have hjoined := importStatement?_joinNames hts.self.shape hstatement rfl names
    rw [joinNames_eq] at hjoined
    rw [joinLine_eq names hbetween, joinNames_eq, walkOf_line hbetween hstatement, walkOf_line hbetween hjoined, hg,
      walkImport_eq, walkImport_eq]
    refine Keep.then (keep_of fun t u h => grown_place h _ _ _ _) ?_
    refine Keep.then (keep_of fun t u h => grown_place h _ _ _ _) ?_
    show Keep (Grown P module names) _ (forM (names.map _ ++ ns) _)
    rw [List.forM_append]
    refine Keep.before (keep_newNames hnames (moduleName_plain _ _) names (List.Subset.refl _)) ?_
    exact keep_joinedNames (moduleName_plain _ _) (moduleName_plain _ _) rfl ns

/-- The walks over the lines of a module, and over the lines with the names imported. -/
theorem keep_woven (hP : ∀ {p q : Path} (i : Nat), P p q → P (i :: p) (i :: q)) (hmodule : Untyping module)
    {lineBreak : String} {missing : List Wanted} (hmissing : ∀ w ∈ missing, w.module = module ∧ w.name.isSome = true)
    (hlist : namesFrom missing module = names) (hnames : ∀ n ∈ names, IsSimple n) {g : Here} (hg : g.scope = 0)
    (hchain : g.chain = none) {xs ys : List Source.Tree} (hwoven : Woven lineBreak missing xs ys)
    {S S' : List (Source.Tree × Nat)} (hxs : S.map Prod.fst = xs) (hys : S'.map Prod.fst = ys)
    (hformed : ∀ x ∈ xs, x.Formed) (hsame : ∀ c ∈ S, ∀ c' ∈ S', c.1 = c'.1 → P [c.2] [c'.2]) :
    Keep (Grown P module names) (forM S fun c => walkOf d c.1 [c.2] g) (forM S' fun c => walkOf d c.1 [c.2] g) := by
  have htwin : HereTwin P g g := ⟨none, by rw [← hchain], hchain ▸ .none⟩
  induction hwoven generalizing S S' with
  | nil =>
    rw [List.map_eq_nil_iff.mp hxs, List.map_eq_nil_iff.mp hys]
    exact sim_pure trivial
  | keep _ ih =>
    obtain ⟨c, S, rfl, rfl, hS⟩ := List.map_eq_cons_iff.mp hxs
    obtain ⟨c', S', rfl, hc', hS'⟩ := List.map_eq_cons_iff.mp hys
    obtain ⟨-, hformed⟩ := List.forall_mem_cons.mp hformed
    rw [List.forM_cons, List.forM_cons]
    refine Keep.then ?_ (ih hS hS' hformed fun b hb b' hb' =>
      hsame b (List.mem_cons_of_mem _ hb) b' (List.mem_cons_of_mem _ hb'))
    rw [hc']
    have hpath := hsame c (List.mem_cons_self ..) c' (List.mem_cons_self ..) hc'.symm
    exact mirrors_walk (steady_grown hP hmodule hnames) (.inl rfl) _ _ _ _ (.inr hpath) htwin fun _ _ _ => trivial
  | @join c m xs ys hjoin hne _ ih =>
    -- the names that are missing are all from the one module
    obtain ⟨n, hn⟩ := List.exists_mem_of_ne_nil _ hne
    obtain rfl : m = module := (hmissing _ (mem_namesFrom.mp hn)).1
    rw [hlist] at hys
    obtain ⟨c, S, rfl, rfl, hS⟩ := List.map_eq_cons_iff.mp hxs
    obtain ⟨c', S', rfl, hc', hS'⟩ := List.map_eq_cons_iff.mp hys
    obtain ⟨hline, hformed⟩ := List.forall_mem_cons.mp hformed
    rw [List.forM_cons, List.forM_cons, hc']
    exact (keep_joined hnames hline hjoin _ _ hg).then (ih hS hS' hformed fun b hb b' hb' =>
      hsame b (List.mem_cons_of_mem _ hb) b' (List.mem_cons_of_mem _ hb'))
  | fresh hfresh _ ih =>
    obtain ⟨c', S', rfl, hc', hS'⟩ := List.map_eq_cons_iff.mp hys
    rw [List.forM_cons, hc']
    refine Keep.before ?_ (ih hxs hS' hformed fun b hb b' hb' => hsame b hb b' (List.mem_cons_of_mem _ hb'))
    cases hfresh with
    | @names D n ns hD hcons =>
      have htext : D.text = module := (hmissing _ (mem_namesFrom.mp (hcons ▸ List.mem_cons_self ..))).1
      exact keep_fresh hnames lineBreak htext (hlist ▸ htext ▸ hcons) _ hg
    | module hD hmem => cases (hmissing _ hmem).2

end Growth

/-! ### A module with imports added -/

/-- The uses of two modules are at the same expressions, and mean the same unless they stand for one of the names or a
part of it. -/
def KeepsUses (names : List String) (t u : Source.Tree) : Prop :=
  ∃ uses : List (Use × Use),
    (Table.ofModule t).uses = uses.map Prod.fst ∧ (Table.ofModule u).uses = uses.map Prod.snd ∧
      ∀ x ∈ uses, x.2.name = x.1.name ∧ Option.Rel (fun p q => u.at? q = t.at? p) x.1.node x.2.node ∧
        ((∀ n ∈ names, (dottedParts ((Table.ofModule t).resolveUse x.1).1).head? ≠ some n) →
          (Table.ofModule u).qualifiedUse x.2 = (Table.ofModule t).qualifiedUse x.1)

theorem isSimple_of_isName {n : String} (h : IsName n) : IsSimple n := by
  obtain ⟨c, cs, hn, hc, hcs⟩ := h.spelled
  refine ⟨fun hempty => ?_, fun hdot => ?_⟩
  · rw [hempty] at hn
    cases hn
  · rw [hn] at hdot
    rcases List.mem_cons.mp hdot with rfl | hdot
    · cases hc
    · have hcontinue := List.all_eq_true.mp hcs '.' hdot
      cases hcontinue

theorem at?_placedParts {k : Kind} {ts : List Source.Tree} {c : Source.Tree × Nat} (hc : c ∈ placedParts ts) :
    (Source.Tree.node k ts).at? [c.2] = some c.1 :=
  List.mem_zipIdx_iff_getElem?.mp (List.mem_of_mem_filter hc)

/-- Adding names from one module to a module keeps its uses, and what they mean unless they stand for a wanted name. -/
theorem add_uses {lineBreak : String} (hbreak : IsLineBreak lineBreak) {D : Dotted} (hD : D.All IsName)
    (htyping : ¬IsTyping (D.text ++ ".")) {wanted : List Wanted} {required : List String}
    (hwanted : ∀ w ∈ wanted, w.module = D.text ∧ ∃ n, w.name = some n ∧ IsName n ∧ n ∈ required)
    {ts : List Source.Tree} (hts : (Source.Tree.node .module ts).Formed) {t : Source.Tree}
    (h : add lineBreak wanted (.node .module ts) = some t) : KeepsUses required (.node .module ts) t := by
  have hwritable : ∀ w ∈ wanted, w.Writable := by
    intro w hw
    obtain ⟨hmodule, n, hn, hname, -⟩ := hwanted w hw
    exact ⟨⟨D, hmodule.symm, hD⟩, fun k hk => Option.some.inj (hn.symm.trans hk) ▸ hname⟩
  obtain ⟨us, missing, rfl, hmissing, hwoven⟩ := woven_add hbreak hwritable h
  -- all that was added and was missing comes from the one module, under simple names that were asked for
  obtain ⟨names, hlist⟩ : ∃ names, namesFrom missing D.text = names := ⟨_, rfl⟩
  have hsingle : ∀ w ∈ missing, w.module = D.text ∧ w.name.isSome = true := by
    intro w hw
    obtain ⟨hmodule, n, hn, -⟩ := hwanted w (hmissing hw)
    exact ⟨hmodule, by rw [hn]; rfl⟩
  have hall : ∀ n ∈ names, IsSimple n ∧ n ∈ required := by
    intro n hn
    rw [← hlist] at hn
    obtain ⟨-, n', hn', hname, hrequired⟩ := hwanted _ (hmissing (mem_namesFrom.mp hn))
    cases hn'
    exact ⟨isSimple_of_isName hname, hrequired⟩
  have hmodule : Untyping D.text := by
    refine untyping_of_not_isTyping (fun hempty => ?_) htyping
    have hfirst := (isSimple_of_isName hD.1).some_letter
    rw [Dotted.text] at hempty
    have hempty := congrArg String.toList hempty
    rw [Text.toList_intercalate_cons] at hempty
    exact hfirst (String.toList_injective (List.append_eq_nil_iff.mp hempty).1)
  -- a place of the new module is that of the old one where the same tree stands
  let P (p q : Path) : Prop := (Source.Tree.node .module us).at? q = (Source.Tree.node .module ts).at? p
  have hP : ∀ {p q : Path} (i : Nat), P p q → P (i :: p) (i :: q) := by
    intro p q i hpq
    show Source.Tree.at? _ _ = Source.Tree.at? _ _
    rw [at?_cons, at?_cons, hpq]
  let d := (Source.Tree.node .module ts).text.length + (Source.Tree.node .module us).text.length
  have hkeep : Keep (Grown P D.text names) (walkOf d (.node .module ts) [] .start)
      (walkOf d (.node .module us) [] .start) := by
    rw [walkOf_parts (.inl rfl), walkOf_parts (.inl rfl)]
    refine Keep.then (keep_of fun t u hG => grown_place hG _ _ _ _) ?_
    refine keep_woven hP hmodule hsingle hlist (fun n hn => (hall n hn).1) rfl rfl hwoven (map_fst_placedParts ts)
      (map_fst_placedParts us) (fun x hx => hts.child (mem_partsOf.mp hx).1) fun c hc c' hc' heq => ?_
    show Source.Tree.at? _ _ = Source.Tree.at? _ _
    rw [at?_placedParts hc, at?_placedParts hc', heq]
  obtain ⟨rows, uses, hG⟩ := (hkeep _ _ grown_empty).1
  -- both tables are those of walks with the same fuel
  have hleft : Table.ofModule (.node .module ts) = ((walkOf d (.node .module ts) [] .start).run .empty).2 :=
    ofModule_eq (Nat.le_add_right _ _)
  have hright : Table.ofModule (.node .module us) = ((walkOf d (.node .module us) [] .start).run .empty).2 :=
    ofModule_eq (Nat.le_add_left _ _)
  rw [← hleft, ← hright] at hG
  refine ⟨uses, hG.usesLeft, hG.usesRight, fun x hx => ?_⟩
  have htwin := hG.twins x hx
  exact ⟨htwin.name, htwin.node, fun hstart =>
    hG.qualifiedUse_eq (fun n hn => (hall n hn).1) hx fun n hn => hstart n (hall n hn).2⟩

end FluentShift.Imports

namespace FluentShift.Rewrite

open FluentShift.Source FluentShift.Source.Tree FluentShift.Scope FluentShift.Imports

/-- The imports that rewritten calls need change what a use means only where it stands for one of the fluent names. -/
theorem rewrite_uses {s : Setup} (hm : s.mapping.Accepted) (htyping : ¬IsTyping (s.mapping.fluentType ++ "."))
    {text : String} {f : SourceFile} (hparse : SourceFile.parse? text = some f) {o : Outcome}
    (h : (rewrite s f).value = .ok o) (hrewritten : o.rewritten ≠ []) :
    ∃ o₁ t, (rewriteCalls s f).value = .ok o₁ ∧ Reconciles s.mapping o₁ t o ∧
      KeepsUses o₁.required o₁.file.closedTree t := by
  obtain ⟨o₁, t, hcalls, -, hreconciles⟩ := rewrite_ok hm h hrewritten
  refine ⟨o₁, t, hcalls, hreconciles, ?_⟩
  obtain ⟨ts, hts, hformed⟩ := formed_parse? hparse
  obtain ⟨us, hus, hformed₁, -⟩ := formed_rewriteCalls hm hts hformed hcalls
  obtain ⟨vs, hvs, hclosed, -⟩ := closedTree_spec hus hformed₁
  obtain ⟨d, hdotted, hd⟩ := hm.exists_dotted
  have hbreak : IsLineBreak o₁.file.lineBreak := by
    rw [lineBreak_rewriteCalls hcalls]
    exact isLineBreak_parse? hparse
  have hadd := hreconciles.added
  rw [hvs] at hadd hclosed ⊢
  refine add_uses hbreak hd (hdotted ▸ htyping) (fun w hw => ?_) hclosed hadd
  obtain ⟨n, hn, rfl⟩ := mem_wantedOf_plan.mp hw
  exact ⟨hdotted.symm, n, rfl, isName_required hm hcalls n hn, hn⟩

/-! ### A use that means the import -/

/-- What the callees of the calls with a text mean in a module. -/
def meanings (t : Tree) (call : String) : List (List String) :=
  ((allCalls t).filter (·.call.text = call)).map fun c => calleeNames (Table.ofModule t) c.path c.call

/-- What the callees of the calls with a text mean in a module and after it is rewritten, with the number of rewritten
calls. -/
structure Meanings where
  rewritten : Nat
  before : List (List String)
  after : List (List String)
  deriving DecidableEq

/-- Rewrites a text and asks what the callees of a call mean. -/
def rewrittenMeanings (s : Setup) (text call : String) : Option Meanings := do
  let f ← SourceFile.parse? text
  let o ← (rewrite s f).value.toOption
  return ⟨o.rewritten.length, meanings f.tree call, meanings o.file.tree call⟩

theorem of_rewrittenMeanings {s : Setup} {text call : String} {r : Meanings}
    (h : rewrittenMeanings s text call = some r) :
    ∃ f o, SourceFile.parse? text = some f ∧ (rewrite s f).value = .ok o ∧ o.rewritten.length = r.rewritten ∧
      meanings f.tree call = r.before ∧ meanings o.file.tree call = r.after := by
  obtain ⟨f, hf, h⟩ := Option.bind_eq_some_iff.mp h
  obtain ⟨o, ho, h⟩ := Option.bind_eq_some_iff.mp h
  cases h
  exact ⟨f, o, hf, Except.eq_ok_of_toOption ho, rfl, rfl, rfl⟩

set_option maxRecDepth 100000 in
theorem rewrittenMeanings_twoFormsText :
    rewrittenMeanings plainSetup twoFormsText "A.fail()" =
      some ⟨1, [["junit.Assertions.fail"]], [["junit.Assertions.fail"]]⟩ := by
  simp only [rewrittenMeanings,
    (rewrite_direct (s := plainSetup) Mapping.accepted_standard chainNames_standard _).value]
  decide +kernel

/-- The call of `twoFormsText` that stays keeps its meaning. -/
theorem uses_twoFormsText :
    ∃ f o, SourceFile.parse? twoFormsText = some f ∧ (rewrite plainSetup f).value = .ok o ∧ o.rewritten ≠ [] ∧
      meanings f.tree "A.fail()" = [["junit.Assertions.fail"]] ∧
      meanings o.file.tree "A.fail()" = [["junit.Assertions.fail"]] ∧
      ∃ o₁ t, Reconciles .standard o₁ t o ∧ KeepsUses o₁.required o₁.file.closedTree t := by
  obtain ⟨f, o, hf, ho, hlen, hbefore, hafter⟩ := of_rewrittenMeanings rewrittenMeanings_twoFormsText
  have hrewritten : o.rewritten ≠ [] := List.ne_nil_of_length_eq_add_one hlen
  have htyping : ¬IsTyping (plainSetup.mapping.fluentType ++ ".") := by
    unfold IsTyping
    decide +kernel
  obtain ⟨o₁, t, -, hreconciles, huses⟩ :=
    rewrite_uses (s := plainSetup) Mapping.accepted_standard htyping hf ho hrewritten
  exact ⟨f, o, hf, ho, hrewritten, hbefore, hafter, o₁, t, hreconciles, huses⟩

/-- A text that gets a name of its own, like that of the entry point, from a star import. -/
def starText : String :=
  "from helpers import *\nfrom junit.Assertions import assertEquals\nassertEquals(1, 2)\nassertThat(3)\n"

set_option maxRecDepth 100000 in
theorem rewrittenMeanings_starText :
    rewrittenMeanings plainSetup starText "assertThat(3)" = some ⟨1, [[]], [["assertj.Assertions.assertThat"]]⟩ := by
  simp only [rewrittenMeanings,
    (rewrite_direct (s := plainSetup) Mapping.accepted_standard chainNames_standard _).value]
  decide +kernel

/-- The last call of `starText` is not rewritten, but its callee means the fluent import afterwards. -/
theorem captured_starText :
    ∃ f o, SourceFile.parse? starText = some f ∧ (rewrite plainSetup f).value = .ok o ∧ o.rewritten ≠ [] ∧
      meanings f.tree "assertThat(3)" = [[]] ∧
      meanings o.file.tree "assertThat(3)" = [["assertj.Assertions.assertThat"]] := by
  obtain ⟨f, o, hf, ho, hrewritten, hbefore, hafter⟩ := of_rewrittenMeanings rewrittenMeanings_starText
  exact ⟨f, o, hf, ho, List.ne_nil_of_length_eq_add_one hrewritten, hbefore, hafter⟩

end FluentShift.Rewrite
