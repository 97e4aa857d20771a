import FluentShift.Proofs.Scope.Steady

/-!
# FluentShift.Proofs.Scope.Grown - a table with more imports

A table has `Grown` out of another one when it has the same scopes, uses and bindings, and on top of them bindings of
some names that the module imports from one other module.  Walking on keeps that (`steady_grown`), and a use means the
same in both tables unless it stands for one of these names (`Grown.qualifiedUse_eq`).
-/

namespace FluentShift.Scope

open FluentShift.Source FluentShift.Source.Tree

/-! ### Bindings, uses and tables that stand for each other -/

section Twins

variable (P : Path → Path → Prop) (module : String) (names : List String)

/-- The same origin, or an import from the module and the same import that takes the names too. -/
inductive OriginTwin : Origin → Origin → Prop where
  | same (o : Origin) : OriginTwin o o
  | joined {i j : ImportStatement} : i.moduleName = module → j.moduleName = module →
      j.list = names.map (⟨·, none⟩) ++ i.list → OriginTwin (.imported i) (.imported j)

/-- The same binding; in the scope of the module it may have another number. -/
structure BindingTwin (b b' : Binding) : Prop where
  name : b'.name = b.name
  scope : b'.scope = b.scope
  origin : OriginTwin module names b.origin b'.origin
  index : b.scope ≠ 0 → b'.index = b.index

/-- A binding of one of the names that the module itself imports. -/
structure NewBinding (b : Binding) : Prop where
  name : b.name ∈ names
  scope : b.scope = 0
  origin : ∃ i, b.origin = .imported i ∧ i.moduleName = module

/-- A binding of the larger table, with the one that it stands for unless it is new. -/
inductive Fits : Option Binding × Binding → Prop where
  | twin {b b' : Binding} : BindingTwin module names b b' → Fits (some b, b')
  | new {b : Binding} : NewBinding module names b → Fits (none, b)

/-- The same use; in the scope of the module it may have another number. -/
structure UseTwin (u v : Use) : Prop where
  name : v.name = u.name
  scope : v.scope = u.scope
  node : Option.Rel P u.node v.node
  chain : u.chain.map Prod.fst = v.chain.map Prod.fst
  dotted : ∀ c ∈ u.chain.dropLast, '.' ∈ c.1.toList
  index : u.scope ≠ 0 → v.index = u.index

/-- What two scopes have to share: everything but the number of their bindings. -/
def ScopeInfo.frame (i : ScopeInfo) : ScopeInfo := { i with count := 0 }

/-- The second table has the same scopes and uses as the first one, and the same bindings with new ones among them. -/
structure GrownBy (rows : List (Option Binding × Binding)) (uses : List (Use × Use)) (t u : Table) : Prop where
  size : t.scopes.size = u.scopes.size
  some_scope : 0 < t.scopes.size
  inner : ∀ s, s ≠ 0 → t.info s = u.info s
  outer : (t.info 0).frame = (u.info 0).frame
  plain : (t.info 0).redirects = []
  left : t.bindings = rows.filterMap Prod.fst
  right : u.bindings = rows.map Prod.snd
  fits : ∀ r ∈ rows, Fits module names r
  usesLeft : t.uses = uses.map Prod.fst
  usesRight : u.uses = uses.map Prod.snd
  twins : ∀ y ∈ uses, UseTwin P y.1 y.2
  /-- A binding of the module is before the end of its scope, and a use is not behind it. -/
  early : ∀ b b', (some b, b') ∈ rows → b.scope = 0 → b.index < (t.info 0).count ∧ b'.index < (u.info 0).count
  late : ∀ y ∈ uses, y.1.scope = 0 → y.1.index ≤ (t.info 0).count ∧ y.2.index ≤ (u.info 0).count
  order : ∀ b b', (some b, b') ∈ rows → ∀ y ∈ uses, b.scope = 0 → y.1.scope = 0 →
    (b.index < y.1.index ↔ b'.index < y.2.index)

/-- The second table has the same scopes and uses as the first one, and the same bindings with new ones among them. -/
def Grown (t u : Table) : Prop := ∃ rows uses, GrownBy P module names rows uses t u

end Twins

/-! ### Scopes after a step -/

section Scopes

theorem info_modify (t : Table) (bs : List Binding) (target s : ScopeId) (f : ScopeInfo → ScopeInfo) :
    Table.info { t with bindings := bs, scopes := t.scopes.modify target f } s =
      if s = target ∧ s < t.scopes.size then f (t.info s) else t.info s := by
  unfold Table.info
  dsimp only
  rw [Array.getElem?_modify]
  by_cases hs : target = s
  · subst hs
    rw [if_pos rfl]
    by_cases hlt : target < t.scopes.size
    · rw [if_pos ⟨rfl, hlt⟩, Array.getElem?_eq_getElem hlt]
      rfl
    · rw [if_neg fun h => hlt h.2, Array.getElem?_eq_none (Nat.le_of_not_lt hlt)]
      rfl
  · rw [if_neg hs, if_neg fun h => hs h.1.symm]

theorem info_push (t : Table) (i : ScopeInfo) (s : ScopeId) :
    Table.info { t with scopes := t.scopes.push i } s = if s = t.scopes.size then i else t.info s := by
  unfold Table.info
  dsimp only
  rw [Array.getElem?_push]
  split <;> rfl

/-- The table with one more binding in scope `target`. -/
def Table.withBinding (t : Table) (target : ScopeId) (n : String) (o : Origin) : Table :=
  { t with
    bindings := t.bindings ++ [⟨n, target, o, (t.info target).count⟩]
    scopes := t.scopes.modify target fun i => { i with count := i.count + 1 } }

theorem run_bind (t : Table) (s : ScopeId) (n : String) (o : Origin) :
    ((Scope.bind s n o).run t).2 = t.withBinding (t.bindTarget n (t.scopes.size + 1) s) n o := rfl

theorem size_withBinding (t : Table) (target : ScopeId) (n : String) (o : Origin) :
    (t.withBinding target n o).scopes.size = t.scopes.size := Array.size_modify ..

theorem info_withBinding (t : Table) (target : ScopeId) (n : String) (o : Origin) (s : ScopeId) :
    (t.withBinding target n o).info s =
      if s = target ∧ s < t.scopes.size then { t.info s with count := (t.info s).count + 1 } else t.info s :=
  info_modify ..

theorem frame_withBinding (t : Table) (target : ScopeId) (n : String) (o : Origin) (s : ScopeId) :
    ((t.withBinding target n o).info s).frame = (t.info s).frame := by
  rw [info_withBinding]
  split <;> rfl

theorem count_le_withBinding (t : Table) (target : ScopeId) (n : String) (o : Origin) (s : ScopeId) :
    (t.info s).count ≤ ((t.withBinding target n o).info s).count := by
  rw [info_withBinding]
  split
  · exact Nat.le_succ _
  · exact Nat.le_refl _

theorem count_lt_withBinding {t : Table} {s : ScopeId} (h : s < t.scopes.size) (n : String) (o : Origin) :
    (t.info s).count < ((t.withBinding s n o).info s).count := by
  rw [info_withBinding, if_pos ⟨rfl, h⟩]
  exact Nat.lt_succ_self _

end Scopes

section Steps

variable {P : Path → Path → Prop} {module : String} {names : List String} {rows : List (Option Binding × Binding)}
  {uses : List (Use × Use)} {t u : Table}

theorem GrownBy.frame (hG : GrownBy P module names rows uses t u) (s : ScopeId) :
    (t.info s).frame = (u.info s).frame := by
  by_cases hs : s = 0
  · rw [hs]
    exact hG.outer
  · rw [hG.inner s hs]

theorem GrownBy.kind (hG : GrownBy P module names rows uses t u) (s : ScopeId) : (t.info s).kind = (u.info s).kind :=
  (congrArg ScopeInfo.kind (hG.frame s) :)

theorem GrownBy.parent (hG : GrownBy P module names rows uses t u) (s : ScopeId) :
    (t.info s).parent = (u.info s).parent :=
  (congrArg ScopeInfo.parent (hG.frame s) :)

theorem GrownBy.label (hG : GrownBy P module names rows uses t u) (s : ScopeId) :
    (t.info s).label = (u.info s).label :=
  (congrArg ScopeInfo.label (hG.frame s) :)

theorem GrownBy.redirects (hG : GrownBy P module names rows uses t u) (s : ScopeId) :
    (t.info s).redirects = (u.info s).redirects :=
  (congrArg ScopeInfo.redirects (hG.frame s) :)

theorem GrownBy.bindTarget (hG : GrownBy P module names rows uses t u) (n : String) (fuel : Nat) (s : ScopeId) :
    t.bindTarget n fuel s = u.bindTarget n fuel s := by
  induction fuel generalizing s with
  | zero => rfl
  | succ fuel ih => simp only [Table.bindTarget, hG.redirects, hG.parent, hG.kind, ih]

/-- A name bound on both sides. -/
theorem GrownBy.bound (hG : GrownBy P module names rows uses t u) (s : ScopeId) (n : String) {o o' : Origin}
    (ho : OriginTwin module names o o') :
    Grown P module names ((bind s n o).run t).2 ((bind s n o').run u).2 := by
  rw [run_bind, run_bind, ← hG.bindTarget, ← hG.size]
  generalize t.bindTarget n (t.scopes.size + 1) s = target
  refine ⟨rows ++ [(some ⟨n, target, o, (t.info target).count⟩, ⟨n, target, o', (u.info target).count⟩)], uses, ?_⟩
  constructor
  case size => rw [size_withBinding, size_withBinding, hG.size]
  case some_scope => exact size_withBinding t .. ▸ hG.some_scope
  case inner =>
    intro s hs
    rw [info_withBinding, info_withBinding, hG.size, hG.inner s hs]
  case outer => rw [frame_withBinding, frame_withBinding, hG.outer]
  case plain => exact (congrArg ScopeInfo.redirects (frame_withBinding t target n o 0) :).trans hG.plain
  case left => simp [Table.withBinding, hG.left]
  case right => simp [Table.withBinding, hG.right]
  case fits =>
    refine List.forall_mem_append.mpr ⟨hG.fits, List.forall_mem_singleton.mpr (.twin ⟨rfl, rfl, ho, fun htarget => ?_⟩)⟩
    show (u.info target).count = (t.info target).count
    rw [hG.inner target htarget]
  case usesLeft => exact hG.usesLeft
  case usesRight => exact hG.usesRight
  case twins => exact hG.twins
  case early =>
    intro b b' hmem hscope
    -- what was bound before has smaller numbers than what is bound now
    rcases List.mem_append.mp hmem with hmem | hmem
    · obtain ⟨hl, hr⟩ := hG.early b b' hmem hscope
      exact ⟨Nat.lt_of_lt_of_le hl (count_le_withBinding ..), Nat.lt_of_lt_of_le hr (count_le_withBinding ..)⟩
    · cases List.mem_singleton.mp hmem
      obtain rfl : target = 0 := hscope
      exact ⟨count_lt_withBinding hG.some_scope n o, count_lt_withBinding (hG.size ▸ hG.some_scope) n o'⟩
  case late =>
    intro y hy hscope
    obtain ⟨hl, hr⟩ := hG.late y hy hscope
    exact ⟨Nat.le_trans hl (count_le_withBinding ..), Nat.le_trans hr (count_le_withBinding ..)⟩
  case order =>
    intro b b' hmem y hy hscope hscope'
    rcases List.mem_append.mp hmem with hmem | hmem
    · -- the new binding comes after every use so far, on both sides
      exact hG.order b b' hmem y hy hscope hscope'
    · cases List.mem_singleton.mp hmem
      obtain rfl : target = 0 := hscope
      obtain ⟨hl, hr⟩ := hG.late y hy hscope'
      exact iff_of_false (Nat.not_lt_of_le hl) (Nat.not_lt_of_le hr)

/-- A name that only the larger module imports. -/
theorem GrownBy.boundNew (hG : GrownBy P module names rows uses t u) {n : String} (hn : n ∈ names) {i : ImportStatement}
    (hi : i.moduleName = module) : Grown P module names t ((bind 0 n (.imported i)).run u).2 := by
  have htarget : u.bindTarget n (u.scopes.size + 1) 0 = 0 := by
    have hnone : (u.info 0).redirects.lookup n = none := by
      rw [← hG.redirects, hG.plain]
      rfl
    rw [Table.bindTarget, hnone]
  rw [run_bind, htarget]
  refine ⟨rows ++ [(none, ⟨n, 0, .imported i, (u.info 0).count⟩)], uses, ?_⟩
  constructor
  case size => rw [size_withBinding, hG.size]
  case some_scope => exact hG.some_scope
  case inner =>
    intro s hs
    rw [info_withBinding, if_neg fun h => hs h.1, hG.inner s hs]
  case outer => rw [frame_withBinding, hG.outer]
  case plain => exact hG.plain
  case left => simp [hG.left]
  case right => simp [Table.withBinding, hG.right]
  case fits => exact List.forall_mem_append.mpr ⟨hG.fits, List.forall_mem_singleton.mpr (.new ⟨hn, rfl, i, rfl, hi⟩)⟩
  case usesLeft => exact hG.usesLeft
  case usesRight => exact hG.usesRight
  case twins => exact hG.twins
  case early =>
    intro b b' hmem hscope
    rcases List.mem_append.mp hmem with hmem | hmem
    · obtain ⟨hl, hr⟩ := hG.early b b' hmem hscope
      exact ⟨hl, Nat.lt_of_lt_of_le hr (count_le_withBinding ..)⟩
    · cases List.mem_singleton.mp hmem
  case late =>
    intro y hy hscope
    obtain ⟨hl, hr⟩ := hG.late y hy hscope
    exact ⟨hl, Nat.le_trans hr (count_le_withBinding ..)⟩
  case order =>
    intro b b' hmem
    rcases List.mem_append.mp hmem with hmem | hmem
    · exact hG.order b b' hmem
    · cases List.mem_singleton.mp hmem

/-- A name used on both sides. -/
theorem GrownBy.used (hG : GrownBy P module names rows uses t u) (n : String) {p q : Path} {h g : Here}
    (hp : Twin P h.quoted p q) (hg : HereTwin P h g) :
    Grown P module names ((use n p h).run t).2 ((use n q g).run u).2 := by
  obtain ⟨c, rfl, hc⟩ := hg
  obtain ⟨hall, hdotted⟩ := chain_getD hc namesTwin_nil
  let node (r : Path) : Option Path := if h.quoted then none else some r
  refine ⟨rows, (⟨n, h.scope, (t.info h.scope).count, node p, (h.chain.getD []).map fun b => (b.1, node b.2)⟩,
    ⟨n, h.scope, (u.info h.scope).count, node q, (c.getD []).map fun b => (b.1, node b.2)⟩) :: uses, ?_⟩
  constructor
  case size => exact hG.size
  case some_scope => exact hG.some_scope
  case inner => exact hG.inner
  case outer => exact hG.outer
  case plain => exact hG.plain
  case left => exact hG.left
  case right => exact hG.right
  case fits => exact hG.fits
  case usesLeft => exact congrArg (_ :: ·) hG.usesLeft
  case usesRight => exact congrArg (_ :: ·) hG.usesRight
  case twins =>
    refine List.forall_mem_cons.mpr ⟨⟨rfl, rfl, ?_, ?_, fun b hb => ?_, fun hs => ?_⟩, hG.twins⟩
    · show Option.Rel P (if h.quoted then none else some p) (if h.quoted then none else some q)
      split
      · exact .none
      · next hq => exact .some (hp.resolve_left hq)
    · rw [List.map_map, List.map_map]
      -- the chains are alike link by link, so their names are the same
      generalize h.chain.getD [] = xs at hall
      generalize c.getD [] = ys at hall
      induction hall with
      | nil => rfl
      | cons hb _ ih => exact congrArg₂ List.cons hb.1 ih
    · rw [← List.map_dropLast] at hb
      obtain ⟨c', hc', rfl⟩ := List.mem_map.mp hb
      exact hdotted c' hc'
    · show (u.info h.scope).count = (t.info h.scope).count
      rw [hG.inner _ hs]
  case early => exact hG.early
  case late =>
    refine List.forall_mem_cons.mpr ⟨fun hs => ?_, hG.late⟩
    have hs : h.scope = 0 := hs
    simp only [hs]
    exact ⟨Nat.le_refl _, Nat.le_refl _⟩
  case order =>
    intro b b' hmem y hy hscope hscope'
    -- an early binding of the module comes before the new use on both sides
    rcases List.mem_cons.mp hy with rfl | hy
    · have hs : h.scope = 0 := hscope'
      obtain ⟨hl, hr⟩ := hG.early b b' hmem hscope
      simp only [hs]
      exact iff_of_true hl hr
    · exact hG.order b b' hmem y hy hscope hscope'

/-- Places do not count. -/
theorem GrownBy.placed (hG : GrownBy P module names rows uses t u) (ps qs : List (Path × ScopeId)) :
    GrownBy P module names rows uses { t with places := ps } { u with places := qs } :=
  ⟨hG.size, hG.some_scope, hG.inner, hG.outer, hG.plain, hG.left, hG.right, hG.fits, hG.usesLeft, hG.usesRight,
    hG.twins, hG.early, hG.late, hG.order⟩

/-- Scopes changed in the same way on both sides, but not that of the module. -/
theorem GrownBy.rescoped (hG : GrownBy P module names rows uses t u) {ss ss' : Array ScopeInfo}
    (hsize : ss.size = ss'.size) (hsome : 0 < ss.size)
    (hinner : ∀ s, s ≠ 0 → Table.info { t with scopes := ss } s = Table.info { u with scopes := ss' } s)
    (hleft : Table.info { t with scopes := ss } 0 = t.info 0)
    (hright : Table.info { u with scopes := ss' } 0 = u.info 0) :
    GrownBy P module names rows uses { t with scopes := ss } { u with scopes := ss' } where
  size := hsize
  some_scope := hsome
  inner := hinner
  outer := by rw [hleft, hright, hG.outer]
  plain := by rw [hleft, hG.plain]
  left := hG.left
  right := hG.right
  fits := hG.fits
  usesLeft := hG.usesLeft
  usesRight := hG.usesRight
  twins := hG.twins
  early := by
    rw [hleft, hright]
    exact hG.early
  late := by
    rw [hleft, hright]
    exact hG.late
  order := hG.order

/-- A scope opened on both sides. -/
theorem GrownBy.opened (hG : GrownBy P module names rows uses t u) (k : ScopeKind) (h : Here) :
    GrownBy P module names rows uses ((openScope k h).run t).2 ((openScope k h).run u).2 := by
  obtain ⟨i, hleft, hright⟩ : ∃ i : ScopeInfo,
      ((openScope k h).run t).2 = { t with scopes := t.scopes.push i } ∧
      ((openScope k h).run u).2 = { u with scopes := u.scopes.push i } := by
    refine ⟨_, rfl, ?_⟩
    show { u with scopes := u.scopes.push _ } = { u with scopes := u.scopes.push _ }
    rw [hG.label]
  rw [hleft, hright]
  have hne : (0 : ScopeId) ≠ t.scopes.size := Nat.ne_of_lt hG.some_scope
  refine hG.rescoped (by simpa using hG.size) (by simp) (fun s hs => ?_) ?_ ?_
  · rw [info_push, info_push, hG.size, hG.inner s hs]
  · rw [info_push, if_neg hne]
  · rw [info_push, if_neg (hG.size ▸ hne)]

/-- Names redirected on both sides. -/
theorem GrownBy.redirected (hG : GrownBy P module names rows uses t u) (s : ScopeId) (ns : List String)
    (r : Redirect) :
    GrownBy P module names rows uses ((redirect s ns r).run t).2 ((redirect s ns r).run u).2 := by
  unfold redirect
  split
  · exact hG
  · rename_i hs
    refine hG.rescoped (by simpa using hG.size) (by simpa using hG.some_scope) (fun s' hs' => ?_) ?_ ?_
    · rw [info_modify t t.bindings, info_modify u u.bindings, hG.size, hG.inner s' hs']
    · rw [info_modify t t.bindings, if_neg fun h => hs h.1.symm]
    · rw [info_modify u u.bindings, if_neg fun h => hs h.1.symm]

end Steps

/-! ### Looking names up -/

/-- Whether the bindings of a scope are seen from the one where a search started. -/
def Table.sees (t : Table) (origin s : ScopeId) : Bool :=
  match (t.info s).kind with
  | .class _ => origin = s || ((t.info origin).parent = s && (t.info origin).kind = .hint)
  | _ => true

/-- What a search finds in a scope, from the bindings of the module, those of the scope and what is found outside. -/
def foundIn (seen : Bool) (redirect : Option Redirect) (module own outward : List Binding) : List Binding :=
  if !seen then outward
  else match redirect with
    | some .toModule => module
    | some .toParent => outward
    | none =>
      match own with
      | [] => outward
      | bs => bs

theorem Table.search_succ (t : Table) (n : String) (origin : ScopeId) (fuel : Nat) (s : ScopeId) :
    t.search n origin (fuel + 1) s = foundIn (t.sees origin s) ((t.info s).redirects.lookup n) (t.own 0 n) (t.own s n)
      (if s = 0 then [] else t.search n origin fuel (t.info s).parent) := rfl

section Lookup

variable {P : Path → Path → Prop} {module : String} {names : List String} {rows : List (Option Binding × Binding)}
  {uses : List (Use × Use)} {t u : Table}

theorem GrownBy.own (hG : GrownBy P module names rows uses t u) (s : ScopeId) (n : String) :
    ∃ zs : List (Option Binding × Binding), (∀ z ∈ zs, z ∈ rows ∧ z.2.scope = s ∧ z.2.name = n) ∧
      t.own s n = zs.filterMap Prod.fst ∧ u.own s n = zs.map Prod.snd := by
  refine ⟨rows.filter fun z => z.2.scope = s && z.2.name = n, fun z hz => ?_, ?_, ?_⟩
  · obtain ⟨hmem, hz⟩ := List.mem_filter.mp hz
    simpa [hmem] using hz
  · rw [Table.own, hG.left, List.filter_filterMap, List.filterMap_filter]
    refine List.filterMap_congr fun z hz => ?_
    cases hG.fits z hz with
    | twin htwin => rw [htwin.scope, htwin.name]; rfl
    | new _ => split <;> rfl
  · rw [Table.own, hG.right, List.filter_map]
    rfl

/-- Bindings of a name that stand for each other, with new ones among the larger table's. -/
def Found (rows : List (Option Binding × Binding)) (n : String) (bs bs' : List Binding) : Prop :=
  ∃ zs : List (Option Binding × Binding), (∀ z ∈ zs, z ∈ rows ∧ z.2.name = n) ∧ bs = zs.filterMap Prod.fst ∧
    bs' = zs.map Prod.snd

/-- What a search finds stands for each other, with new bindings among it. -/
theorem GrownBy.search (hG : GrownBy P module names rows uses t u) (n : String) (origin : ScopeId) (fuel : Nat)
    (s : ScopeId) : Found rows n (t.search n origin fuel s) (u.search n origin fuel s) := by
  have hnil : Found rows n [] [] := ⟨[], List.forall_mem_nil _, rfl, rfl⟩
  induction fuel generalizing s with
  | zero => exact hnil
  | succ fuel ih =>
    have houtward : Found rows n (if s = 0 then [] else t.search n origin fuel (t.info s).parent)
        (if s = 0 then [] else u.search n origin fuel (t.info s).parent) := by
      split
      · exact hnil
      · exact ih _
    have hsees : t.sees origin s = u.sees origin s := by simp only [Table.sees, hG.kind, hG.parent]
    rw [Table.search_succ, Table.search_succ, ← hsees, ← hG.redirects, ← hG.parent]
    unfold foundIn
    split
    · exact houtward
    · split
      · obtain ⟨zs, hzs, hleft, hright⟩ := hG.own 0 n
        exact ⟨zs, fun z hz => ⟨(hzs z hz).1, (hzs z hz).2.2⟩, hleft, hright⟩
      · exact houtward
      · obtain ⟨zs, hzs, hleft, hright⟩ := hG.own s n
        rw [hleft, hright]
        cases zs with
        | nil => exact houtward
        | cons z zs =>
          refine ⟨z :: zs, fun z hz => ⟨(hzs z hz).1, (hzs z hz).2.2⟩, ?_, rfl⟩
          split
          · next hnone =>
            -- a scope with new bindings only is that of the module, where the search ends
            obtain ⟨hmem, hscope, -⟩ := hzs z (List.mem_cons_self ..)
            have hs : s = 0 := by
              cases hG.fits z hmem with
              | twin => cases hnone
              | new hnew => exact hscope.symm.trans hnew.scope
            rw [if_pos hs, hnone]
          · rfl

theorem GrownBy.lookup (hG : GrownBy P module names rows uses t u) (s : ScopeId) (n : String) :
    Found rows n (t.lookup s n) (u.lookup s n) := by
  unfold Table.lookup
  rw [← hG.size]
  exact hG.search n s _ s

/-- Without new bindings both tables find the same. -/
theorem GrownBy.lookup_old (hG : GrownBy P module names rows uses t u) (s : ScopeId) {n : String} (hn : n ∉ names) :
    ∃ ys : List (Binding × Binding), (∀ y ∈ ys, (some y.1, y.2) ∈ rows ∧ y.2.name = n) ∧
      t.lookup s n = ys.map Prod.fst ∧ u.lookup s n = ys.map Prod.snd := by
  obtain ⟨zs, hzs, hleft, hright⟩ := hG.lookup s n
  rw [hleft, hright]
  clear hleft hright
  induction zs with
  | nil => exact ⟨[], List.forall_mem_nil _, rfl, rfl⟩
  | cons z zs ih =>
    obtain ⟨⟨hmem, hname⟩, hzs⟩ := List.forall_mem_cons.mp hzs
    obtain ⟨ys, hys, hleft, hright⟩ := ih hzs
    obtain ⟨_ | b, b'⟩ := z
    · cases hG.fits _ hmem with
      | new hnew => exact absurd (hname ▸ hnew.name) hn
    · refine ⟨(b, b') :: ys, List.forall_mem_cons.mpr ⟨⟨hmem, hname⟩, hys⟩, ?_, ?_⟩
      · exact congrArg (b :: ·) hleft
      · exact congrArg (b' :: ·) hright

theorem GrownBy.binds_eq (hG : GrownBy P module names rows uses t u) (s : ScopeId) {n : String} (hn : n ∉ names) :
    t.binds s n = u.binds s n := by
  obtain ⟨ys, -, hleft, hright⟩ := hG.lookup_old s hn
  rw [Table.binds, Table.binds, hleft, hright]
  cases ys <;> rfl

theorem GrownBy.binds_of_binds (hG : GrownBy P module names rows uses t u) {s : ScopeId} {n : String}
    (h : t.binds s n = true) : u.binds s n = true := by
  obtain ⟨zs, -, hleft, hright⟩ := hG.lookup s n
  rw [Table.binds, hleft] at h
  rw [Table.binds, hright]
  cases zs with
  | nil => exact h
  | cons z zs => rfl

end Lookup

/-! ### Dotted names -/

/-- A name without dots. -/
structure IsSimple (n : String) : Prop where
  some_letter : n ≠ ""
  plain : '.' ∉ n.toList

theorem IsSimple.dottedParts {n : String} (h : IsSimple n) : dottedParts n = [n] := by
  rw [Scope.dottedParts, Text.split, Text.splitChars_of_notMem h.plain, List.map_singleton, String.ofList_toList]

theorem IsSimple.dottedPrefixes {n : String} (h : IsSimple n) : dottedPrefixes n = [n] := by
  rw [Scope.dottedPrefixes, h.dottedParts]
  exact congrArg (· :: []) (String.intercalate_singleton ..)

/-- A name without dots is before no dotted name that starts with another one. -/
theorem IsSimple.afterHead? {n full : String} (h : IsSimple n) (hhead : (Scope.dottedParts full).head? ≠ some n) :
    afterHead? full n = none := by
  unfold Scope.afterHead?
  dsimp only
  split
  · next hprefix =>
    obtain ⟨rest, hrest⟩ := List.isPrefixOf_iff_prefix.mp hprefix
    rw [← hrest, List.drop_left]
    cases rest with
    | nil =>
      rw [List.append_nil] at hrest
      rw [← String.toList_injective hrest, h.dottedParts] at hhead
      exact absurd rfl hhead
    | cons c rest =>
      have hdot : c ≠ '.' := by
        rintro rfl
        rw [Scope.dottedParts, Text.split, ← hrest, Text.splitChars_append_cons h.plain, List.map_cons,
          String.ofList_toList] at hhead
        exact hhead rfl
      split
      · contradiction
      · next heq => exact absurd (List.cons.inj heq).1 hdot
      · exact if_neg fun hnil => h.some_letter (String.toList_injective hnil)
  · rfl

/-- All leading parts of a dotted name but the first one have a dot. -/
theorem dotted_of_mem_dropLast {name c : String} (h : c ∈ (dottedPrefixes name).dropLast) : '.' ∈ c.toList := by
  unfold dottedPrefixes at h
  dsimp only at h
  rw [← List.map_dropLast] at h
  obtain ⟨i, hi, rfl⟩ := List.mem_map.mp h
  match hparts : dottedParts name with
  | [] => simp [hparts] at hi
  | a :: parts =>
    rw [hparts, List.length_cons, List.range_succ, List.dropLast_concat, List.mem_range] at hi
    obtain ⟨k, hk⟩ : ∃ k, (a :: parts).length - i = k + 2 := ⟨parts.length - i - 1, by simp; omega⟩
    cases parts with
    | nil => exact absurd hi (Nat.not_lt_zero _)
    | cons b parts =>
      rw [hk, List.take_succ_cons, List.take_succ_cons, Text.toList_intercalate_cons]
      simp

/-! ### Names that make strings be read as types -/

/-- Nothing from the module makes strings be read as types. -/
def Untyping (module : String) : Prop :=
  ∀ (i : ImportStatement) (full q : String), i.moduleName = module → q ∈ importedQualified i full → ¬IsTyping q

theorem not_isTyping_builtin (n : String) : ¬IsTyping ("builtins." ++ n) := by
  have hfirst : ∀ {m : String} {cs : List Char}, m.toList = 't' :: cs → ("builtins." ++ n).startsWith m ≠ true := by
    intro m cs hm h
    rw [String.startsWith_string_iff, hm, String.toList_append] at h
    obtain ⟨rest, hrest⟩ := h
    cases hrest
  rintro (h | h)
  · exact hfirst rfl h
  · exact hfirst rfl h

/-- Whether a name makes strings be read as types is decided by its start, as far as a dot. -/
theorem isTyping_of_append {a b : String} (hdot : a.toList.getLast? = some '.') (h : IsTyping (a ++ b)) :
    IsTyping a := by
  have hstart : ∀ {m : String},
      (∀ k < m.toList.length + 1, (m.toList.take k).getLast? = some '.' → m.toList.take k = m.toList) →
      (a ++ b).startsWith m = true → a.startsWith m = true := by
    intro m hm h
    rw [String.startsWith_string_iff, String.toList_append] at h
    rw [String.startsWith_string_iff]
    rcases List.prefix_or_prefix_of_prefix h (List.prefix_append a.toList b.toList) with hprefix | hprefix
    · exact hprefix
    · have htake := List.prefix_iff_eq_take.mp hprefix
      rw [htake] at hdot
      have hwhole := hm _ (Nat.lt_succ_of_le hprefix.length_le) hdot
      exact ⟨[], by rw [List.append_nil, htake, hwhole]⟩
  exact h.imp (hstart (by decide)) (hstart (by decide))

/-- A module with a name makes no strings be read as types if it is none of the typing modules. -/
theorem untyping_of_not_isTyping {module : String} (hname : module ≠ "") (h : ¬IsTyping (module ++ ".")) :
    Untyping module := by
  have hdot : (module ++ ".").toList.getLast? = some '.' := by
    rw [String.toList_append]
    exact List.getLast?_concat ..
  intro i full q hi hq htyping
  unfold importedQualified at hq
  dsimp only at hq
  rw [hi, if_neg hname] at hq
  obtain ⟨a, -, ha⟩ := List.mem_filterMap.mp hq
  obtain ⟨real, -, hreal⟩ := List.exists_of_findSome?_eq_some ha
  obtain ⟨rest, -, hrest⟩ := Option.map_eq_some_iff.mp hreal
  -- the qualified name starts with that of the module and a dot
  have hstart : ∀ m : String, m = (if module.endsWith "." then module else module ++ ".") →
      ∃ tail, q = m ++ tail := by
    rintro m rfl
    split at hrest
    · exact ⟨real, hrest.symm⟩
    · exact ⟨real ++ "." ++ rest, by rw [← hrest, String.append_assoc, String.append_assoc, String.append_assoc]⟩
  obtain ⟨tail, rfl⟩ := hstart _ rfl
  split at htyping
  · next hends =>
    have hlast : module.toList.getLast? = some '.' := by
      rw [← String.endsWith_toSlice, String.Slice.endsWith_string_iff, String.copy_toSlice] at hends
      obtain ⟨before, hbefore⟩ := hends
      rw [← hbefore]
      exact List.getLast?_concat ..
    have hmodule := isTyping_of_append hlast htyping
    refine h (hmodule.imp ?_ ?_) <;>
      · intro hprefix
        rw [String.startsWith_string_iff] at hprefix ⊢
        rw [String.toList_append]
        exact hprefix.trans (List.prefix_append _ _)
  · exact h (isTyping_of_append hdot htyping)

/-- Two searches in one list where the second one may find more, but only in the last place. -/
theorem find?_more {p q : String → Bool} {cs : List String} (hmore : ∀ c, p c = true → q c = true)
    (hsame : ∀ c ∈ cs.dropLast, p c = q c) :
    cs.find? q = cs.find? p ∨ ∃ c, cs.find? p = none ∧ cs.find? q = some c ∧ cs.getLast? = some c ∧ p c = false := by
  induction cs with
  | nil => exact .inl rfl
  | cons c cs ih =>
    rw [List.find?_cons, List.find?_cons]
    cases hp : p c with
    | true =>
      rw [hmore c hp]
      exact .inl rfl
    | false =>
      cases cs with
      | nil =>
        cases q c with
        | true => exact .inr ⟨c, rfl, rfl, rfl, hp⟩
        | false => exact .inl rfl
      | cons d cs =>
        rw [← hsame c (by simp), hp]
        rcases ih fun e he => hsame e (by simpa using .inr he) with h | ⟨e, hnone, hsome, hlast, hpe⟩
        · exact .inl h
        · exact .inr ⟨e, hnone, hsome, by rw [List.getLast?_cons_cons, hlast], hpe⟩

section Meaning

variable {P : Path → Path → Prop} {module : String} {names : List String} {rows : List (Option Binding × Binding)}
  {uses : List (Use × Use)} {t u : Table}

/-- Bindings that stand for each other give the same typing names, and new ones none. -/
theorem GrownBy.mem_qualified_iff (hG : GrownBy P module names rows uses t u) (hmodule : Untyping module)
    {z : Option Binding × Binding} (hz : z ∈ rows) {full q : String} (hq : IsTyping q) :
    q ∈ z.2.qualified u full ↔ ∃ b, z.1 = some b ∧ q ∈ b.qualified t full := by
  have hnone : ∀ {b : Binding} {t : Table} {i : ImportStatement}, b.origin = .imported i → i.moduleName = module →
      q ∉ b.qualified t full := by
    intro b t i horigin hi hmem
    rw [Binding.qualified, horigin] at hmem
    exact hmodule i full q hi hmem hq
  obtain ⟨b, b'⟩ := z
  cases hG.fits _ hz with
  | @twin b _ htwin =>
    have hsame : b'.qualified u full = b.qualified t full ∨ ∃ i j, b.origin = .imported i ∧ b'.origin = .imported j ∧
        i.moduleName = module ∧ j.moduleName = module := by
      obtain ⟨b'', scope, origin, index⟩ := b'
      obtain rfl : scope = b.scope := htwin.scope
      generalize ho : b.origin = o
      have htwin := htwin.origin
      rw [ho] at htwin
      cases htwin with
      | same => exact .inl (by rw [Binding.qualified, Binding.qualified, ho, hG.label])
      | joined hi hj _ => exact .inr ⟨_, _, rfl, rfl, hi, hj⟩
    rcases hsame with hsame | ⟨i, j, hb, hb', hi, hj⟩
    · rw [hsame]
      exact ⟨fun h => ⟨b, rfl, h⟩, fun ⟨c, hc, h⟩ => by cases hc; exact h⟩
    · refine iff_of_false (hnone hb' hj) ?_
      rintro ⟨c, hc, h⟩
      cases hc
      exact hnone hb hi h
  | new hnew =>
    obtain ⟨i, horigin, hi⟩ := hnew.origin
    exact iff_of_false (hnone horigin hi) fun ⟨c, hc, _⟩ => by cases hc

theorem GrownBy.mem_flatMap_qualified_iff (hG : GrownBy P module names rows uses t u) (hmodule : Untyping module)
    {n : String} {bs bs' : List Binding} (hbs : Found rows n bs bs') {full q : String} (hq : IsTyping q) :
    q ∈ bs'.flatMap (·.qualified u full) ↔ q ∈ bs.flatMap (·.qualified t full) := by
  obtain ⟨zs, hzs, rfl, rfl⟩ := hbs
  simp only [List.mem_flatMap, List.mem_map, List.mem_filterMap]
  constructor
  · rintro ⟨_, ⟨z, hz, rfl⟩, hmem⟩
    obtain ⟨b, hb, hmem⟩ := (hG.mem_qualified_iff hmodule (hzs z hz).1 hq).mp hmem
    exact ⟨b, ⟨z, hz, hb⟩, hmem⟩
  · rintro ⟨b, ⟨z, hz, hb⟩, hmem⟩
    exact ⟨z.2, ⟨z, hz, rfl⟩, (hG.mem_qualified_iff hmodule (hzs z hz).1 hq).mpr ⟨b, hb, hmem⟩⟩

/-- What a head that both tables find gives of typing names. -/
theorem GrownBy.mem_head_iff (hG : GrownBy P module names rows uses t u) (hmodule : Untyping module) (s : ScopeId)
    (head full : String) {q : String} (hq : IsTyping q) :
    (q ∈ match u.lookup s head with
      | [] => ["builtins." ++ head]
      | bs => (bs.flatMap fun b : Binding => b.qualified u full).eraseDups) ↔
    q ∈ match t.lookup s head with
      | [] => ["builtins." ++ head]
      | bs => (bs.flatMap fun b : Binding => b.qualified t full).eraseDups := by
  have hbuiltin : q ∉ ["builtins." ++ head] := by
    rintro hmem
    exact not_isTyping_builtin head (List.mem_singleton.mp hmem ▸ hq)
  have hiff : q ∈ (u.lookup s head).flatMap (·.qualified u full) ↔ q ∈ (t.lookup s head).flatMap (·.qualified t full) :=
    hG.mem_flatMap_qualified_iff hmodule (hG.lookup s head) hq
  obtain ⟨zs, -, hleft, hright⟩ := hG.lookup s head
  cases ht : t.lookup s head with
  | nil =>
    refine iff_of_false ?_ hbuiltin
    cases hu : u.lookup s head with
    | nil => exact hbuiltin
    | cons b bs =>
      rw [ht, hu] at hiff
      simpa [List.mem_eraseDups] using hiff.not.mpr List.not_mem_nil
  | cons b bs =>
    cases hu : u.lookup s head with
    | nil =>
      rw [hright, List.map_eq_nil_iff] at hu
      rw [hleft, hu] at ht
      cases ht
    | cons b' bs' =>
      rw [ht, hu] at hiff
      simpa only [List.mem_eraseDups] using hiff

theorem GrownBy.hints (hG : GrownBy P module names rows uses t u) (hmodule : Untyping module)
    (hnames : ∀ n ∈ names, IsSimple n) (s : ScopeId) (name : String) {q : String} (hq : IsTyping q) :
    q ∈ t.qualifiedIn s name ↔ q ∈ u.qualifiedIn s name := by
  have hsame : ∀ c ∈ (dottedPrefixes name).dropLast, t.binds s c = u.binds s c := fun c hc =>
    hG.binds_eq s fun hmem => (hnames c hmem).plain (dotted_of_mem_dropLast hc)
  unfold Table.qualifiedIn
  rcases find?_more (fun c => hG.binds_of_binds) hsame with h | ⟨c, hnone, hsome, -, hc⟩
  · rw [h]
    cases (dottedPrefixes name).find? (t.binds s) with
    | none => exact Iff.rfl
    | some head => exact (hG.mem_head_iff hmodule s head name hq).symm
  · rw [hnone, hsome]
    refine iff_of_false List.not_mem_nil fun hmem => ?_
    have hmem := (hG.mem_head_iff hmodule s c name hq).mp hmem
    have hempty : t.lookup s c = [] := by
      unfold Table.binds at hc
      simpa using (Bool.or_eq_false_iff.mp hc).1
    rw [hempty] at hmem
    exact not_isTyping_builtin c (List.mem_singleton.mp hmem ▸ hq)

/-- Walking on keeps a table grown. -/
theorem steady_grown (hP : ∀ {p q : Path} (i : Nat), P p q → P (i :: p) (i :: q)) (hmodule : Untyping module)
    (hnames : ∀ n ∈ names, IsSimple n) : Steady (Grown P module names) P fun _ _ => True where
  cons i h := hP i h
  parent := by
    rintro t u s ⟨rows, uses, hG⟩
    exact hG.parent s
  size := by
    rintro t u ⟨rows, uses, hG⟩
    exact hG.size
  hints := by
    rintro t u s name q ⟨rows, uses, hG⟩ hq
    exact hG.hints hmodule hnames s name hq
  bind := by
    rintro t u s n o - ⟨rows, uses, hG⟩
    exact hG.bound s n (.same o)
  use := by
    rintro t u n p q h g hp hg ⟨rows, uses, hG⟩
    exact hG.used n hp hg
  place := by
    rintro t u p q s - ⟨rows, uses, hG⟩
    exact ⟨rows, uses, hG.placed _ _⟩
  openScope := by
    rintro t u k h ⟨rows, uses, hG⟩
    exact ⟨rows, uses, hG.opened k h⟩
  redirect := by
    rintro t u s ns r ⟨rows, uses, hG⟩
    exact ⟨rows, uses, hG.redirected s ns r⟩

/-! ### What uses mean -/

/-- Bindings that stand for each other give a dotted name the same meaning, unless it starts with one of the names. -/
theorem GrownBy.qualified_eq (hG : GrownBy P module names rows uses t u) (hnames : ∀ n ∈ names, IsSimple n)
    {b b' : Binding} (h : BindingTwin module names b b') {full : String}
    (hstart : ∀ n ∈ names, (dottedParts full).head? ≠ some n) : b'.qualified u full = b.qualified t full := by
  obtain ⟨name, scope, origin, index⟩ := b
  obtain ⟨name', scope', origin', index'⟩ := b'
  obtain rfl : scope' = scope := h.scope
  have horigin : OriginTwin module names origin origin' := h.origin
  cases horigin with
  | same => simp only [Binding.qualified, hG.label]
  | @joined i j hi hj hlist =>
    show importedQualified j full = importedQualified i full
    unfold importedQualified
    rw [hi, hj, hlist, List.filterMap_append]
    refine (congrArg (· ++ _) (List.filterMap_eq_nil_iff.mpr fun a ha => ?_)).trans (List.nil_append _)
    obtain ⟨n, hn, rfl⟩ := List.mem_map.mp ha
    rw [(hnames n hn).dottedPrefixes]
    simp [(hnames n hn).afterHead? (hstart n hn)]

theorem Table.resolveUse_fst (t : Table) (x : Use) :
    (t.resolveUse x).1 = ((x.chain.map Prod.fst).find? (t.binds x.scope)).getD
      ((x.chain.map Prod.fst).getLast?.getD x.name) := by
  unfold Table.resolveUse
  rw [List.find?_map, List.getLast?_map]
  show _ = ((x.chain.find? fun c => t.binds x.scope c.1).map Prod.fst).getD _
  cases x.chain.find? fun c => t.binds x.scope c.1 <;> rfl

variable {x y : Use} (hG : GrownBy P module names rows uses t u) (hnames : ∀ n ∈ names, IsSimple n)
  (hxy : (x, y) ∈ uses) (hstart : ∀ n ∈ names, (dottedParts (t.resolveUse x).1).head? ≠ some n)

include hG hnames hxy hstart

omit hG hxy in
theorem resolveUse_notMem : (t.resolveUse x).1 ∉ names := fun hmem =>
  hstart _ hmem (by rw [(hnames _ hmem).dottedParts]; rfl)

/-- A use that stands for none of the names stands for the same in the larger table. -/
theorem GrownBy.resolveUse_eq : (u.resolveUse y).1 = (t.resolveUse x).1 := by
  have htwin := hG.twins _ hxy
  have hnot := resolveUse_notMem hnames hstart
  have hsame : ∀ c ∈ (x.chain.map Prod.fst).dropLast, t.binds x.scope c = u.binds x.scope c := by
    intro c hc
    rw [← List.map_dropLast] at hc
    obtain ⟨part, hpart, rfl⟩ := List.mem_map.mp hc
    exact hG.binds_eq _ fun hmem => (hnames _ hmem).plain (htwin.dotted part hpart)
  rw [Table.resolveUse_fst] at hnot
  rw [Table.resolveUse_fst, Table.resolveUse_fst, htwin.scope, ← htwin.chain, htwin.name]
  rcases find?_more (fun c => hG.binds_of_binds) hsame with h | ⟨c, hnone, hsome, hlast, hc⟩
  · rw [h]
  · -- a last part that only the larger table binds is one of the names
    rw [hnone, hlast] at hnot
    rw [hnone, hsome, hlast]
    rfl

/-- The bindings that a use refers to stand for each other. -/
theorem GrownBy.referents_eq :
    ∃ ys : List (Binding × Binding), (∀ y ∈ ys, (some y.1, y.2) ∈ rows ∧ y.2.name = (t.resolveUse x).1) ∧
      t.referents x = ys.map Prod.fst ∧ u.referents y = ys.map Prod.snd := by
  have htwin : UseTwin P x y := hG.twins _ hxy
  -- no binding of the resolved name is new, so both look it up in the same rows
  have hnot := resolveUse_notMem hnames hstart
  obtain ⟨ys, hys, hleft, hright⟩ := hG.lookup_old x.scope hnot
  obtain ⟨zs, hzs, hleft', hright'⟩ := hG.lookup_old (t.info x.scope).parent hnot
  have hbefore : ∀ z ∈ ys, (decide (z.2.scope ≠ y.scope) || decide (z.2.index < y.index)) =
      (decide (z.1.scope ≠ x.scope) || decide (z.1.index < x.index)) := by
    rintro ⟨b, b'⟩ hz
    have hb : BindingTwin module names b b' := by
      cases hG.fits _ (hys _ hz).1 with
      | twin h => exact h
    simp only [hb.scope, htwin.scope]
    -- in one scope the order counts: in the module it is kept, elsewhere the numbers are the same
    by_cases hscope : b.scope = x.scope
    · have hindex : b.index < x.index ↔ b'.index < y.index := by
        by_cases hmodule : x.scope = 0
        · exact hG.order b b' (hys _ hz).1 _ hxy (hscope.trans hmodule) hmodule
        · rw [hb.index (hscope ▸ hmodule), htwin.index hmodule]
      simp [hscope, hindex]
    · simp [hscope]
  have hfilter : (ys.map Prod.snd).filter (fun b => b.scope ≠ y.scope || b.index < y.index) =
      (ys.filter fun z => z.1.scope ≠ x.scope || z.1.index < x.index).map Prod.snd := by
    rw [List.filter_map]
    exact congrArg _ (List.filter_congr hbefore)
  unfold Table.referents
  simp only [hG.resolveUse_eq hnames hxy hstart, htwin.scope, hleft, hright, ← hG.parent, hleft', hright'] at hfilter ⊢
  rw [hfilter, List.filter_map]
  have hempty : ∀ {α β : Type} (f : α → β) (as : List α), (as.map f).isEmpty = as.isEmpty := by
    intro α β f as
    cases as <;> rfl
  simp only [hempty]
  split
  · next hparent => exact ⟨zs, hzs, rfl, if_pos hparent⟩
  · next hparent => exact ⟨_, fun z hz => hys z (List.mem_of_mem_filter hz), rfl, if_neg hparent⟩

/-- A use that stands for none of the names means the same in the larger table. -/
theorem GrownBy.qualifiedUse_eq : u.qualifiedUse y = t.qualifiedUse x := by
  have htwin : UseTwin P x y := hG.twins _ hxy
  have hnot := resolveUse_notMem hnames hstart
  obtain ⟨zs, -, hlookup, hlookup'⟩ := hG.lookup_old x.scope hnot
  obtain ⟨ys, hys, hrefer, hrefer'⟩ := hG.referents_eq hnames hxy hstart
  have hmeaning : (ys.map Prod.snd).flatMap (fun b => b.qualified u b.name) =
      (ys.map Prod.fst).flatMap (fun b => b.qualified t b.name) := by
    rw [List.flatMap_map, List.flatMap_map]
    refine List.flatMap_congr fun z hz => ?_
    obtain ⟨b, b'⟩ := z
    obtain ⟨hmem, hname⟩ := hys _ hz
    cases hG.fits _ hmem with
    | twin h =>
      have hname : b'.name = (t.resolveUse x).1 := hname
      show b'.qualified u b'.name = b.qualified t b.name
      rw [← h.name, hname]
      exact hG.qualified_eq hnames h hstart
  unfold Table.qualifiedUse
  simp only [hG.resolveUse_eq hnames hxy hstart, htwin.scope, hlookup, hlookup', hrefer, hrefer']
  cases zs with
  | nil => rfl
  | cons z zs =>
    cases ys with
    | nil => rfl
    | cons y ys => exact congrArg List.eraseDups hmeaning

end Meaning

end FluentShift.Scope
