import FluentShift.Proofs.Source.Quotes
import FluentShift.Scope.Walk

/-!
# FluentShift.Proofs.Scope.Steady - what a walk over the scopes keeps

`Binds` says, without walking, which names a tree can bind and to what.  A relation between tables is `Steady` when every
step that a walk takes keeps it; then two walks over one tree keep it (`mirrors_walk`), whatever the tree is.  An invariant
of one table is the case where both tables are the same.
-/

namespace FluentShift.Scope

open FluentShift.Source FluentShift.Source.Tree

/-! ### What a tree can bind -/

/-- The names that an import statement binds. -/
def importNames (i : ImportStatement) : List String :=
  i.list.flatMap fun n => match n.alias_ with
    | some a => [a]
    | none => dottedPrefixes n.name

/-- The names that a node binds itself, and to what. -/
def ownBindings (k : Kind) (ts : List Tree) : List (String × Origin) :=
  match k with
  | .importStmt | .importFrom =>
    match (Source.Tree.node k ts).importStatement? with
    | some i => (importNames i).map (·, .imported i)
    | none => []
  | .funcDef | .param | .starParam | .dictParam | .typeAlias | .typeParam =>
    (definedName? (.node k ts)).toList.map (·, .defined)
  | .classDef => [((definedName? (.node k ts)).getD "", .defined)]
  | _ => []

/-- Whether a name inside a node of this kind is bound where the node is. -/
def isCarrier : Kind → Bool
  | .paren | .tuple | .starred | .list | .typeAlias => true
  | _ => false

/-- Of some parts of a node, those in which names are bound; `f` gives the tree of a part. -/
def targetsOf {α : Type} (f : α → Tree) (k : Kind) (parts : List α) : List α :=
  match k with
  | .assign => parts.dropLast
  | .annAssign | .augAssign | .walrus => parts.take 1
  | .compFor | .forStmt =>
    (parts.filter fun c => !(f c).isMark "async" && !(f c).isMark "for").takeWhile fun c => !(f c).isMark "in"
  | .withItem => parts.drop 1
  | .handler =>
    (parts.drop (parts.takeWhile fun c => !(f c).isMark "as").length).filter fun c => (f c).name?.isSome
  | _ => []

/-- The parts of a node in which names are bound. -/
def targets (k : Kind) (ts : List Tree) : List Tree :=
  targetsOf id k (ts.filter (!·.isTrivia))

/-- What a tree can bind a name to, where names are bound (`store`) or used. -/
inductive Binds : Bool → Tree → String → Origin → Prop where
  | name {l : Leaf} : l.kind = .name → Binds true (.leaf l) l.text .defined
  | own {store : Bool} {k : Kind} {ts : List Tree} {n : String} {o : Origin} :
      (n, o) ∈ ownBindings k ts → Binds store (.node k ts) n o
  | carried {k : Kind} {ts : List Tree} {t : Tree} {n : String} {o : Origin} :
      isCarrier k = true → t ∈ ts → Binds true t n o → Binds true (.node k ts) n o
  | target {store : Bool} {k : Kind} {ts : List Tree} {t : Tree} {n : String} {o : Origin} :
      t ∈ targets k ts → Binds true t n o → Binds store (.node k ts) n o
  | child {store : Bool} {k : Kind} {ts : List Tree} {t : Tree} {n : String} {o : Origin} :
      t ∈ ts → Binds false t n o → Binds store (.node k ts) n o
  | quoted {store : Bool} {t u : Tree} {s n : String} {o : Origin} :
      t.stringValue? = some s → parseModule? s = some u → Binds store u n o → Binds store t n o

/-! ### Two pieces of work -/

/-- Two pieces of work keep a relation between tables, and what they give is related. -/
def Sim {α β : Type} (R : Table → Table → Prop) (Q : α → β → Prop) (x : StateM Table α) (y : StateM Table β) : Prop :=
  ∀ t u, R t u → R (x.run t).2 (y.run u).2 ∧ Q (x.run t).1 (y.run u).1

/-- Two pieces of work keep a relation between tables. -/
abbrev Keep (R : Table → Table → Prop) (x y : StateM Table Unit) : Prop := Sim R (fun _ _ => True) x y

section Sim

variable {α β γ δ : Type} {R : Table → Table → Prop} {Q : α → β → Prop} {Q' : γ → δ → Prop}

theorem sim_pure {a : α} {b : β} (h : Q a b) : Sim R Q (pure a) (pure b) := fun _ _ hR => ⟨hR, h⟩

theorem Sim.bind {x : StateM Table α} {y : StateM Table β} {f : α → StateM Table γ} {g : β → StateM Table δ}
    (hx : Sim R Q x y) (hf : ∀ a b, Q a b → Sim R Q' (f a) (g b)) : Sim R Q' (x >>= f) (y >>= g) := by
  intro t u hR
  obtain ⟨hR', hQ⟩ := hx t u hR
  exact hf _ _ hQ _ _ hR'

theorem sim_get : Sim R R (get : StateM Table Table) get := fun _ _ hR => ⟨hR, hR⟩

theorem Keep.then {x y : StateM Table Unit} {f : Unit → StateM Table γ} {g : Unit → StateM Table δ} (hx : Keep R x y)
    (hf : Sim R Q' (f ()) (g ())) : Sim R Q' (x >>= f) (y >>= g) :=
  hx.bind fun _ _ _ => hf

theorem keep_of {x y : StateM Table Unit} (h : ∀ t u, R t u → R (x.run t).2 (y.run u).2) : Keep R x y :=
  fun t u hR => ⟨h t u hR, trivial⟩

theorem keep_forM {xs : List α} {f g : α → StateM Table Unit} (h : ∀ a ∈ xs, Keep R (f a) (g a)) :
    Keep R (xs.forM f) (xs.forM g) := by
  induction xs with
  | nil => exact sim_pure trivial
  | cons a xs ih =>
    exact (h a (List.mem_cons_self ..)).then (ih fun b hb => h b (List.mem_cons_of_mem _ hb))

end Sim

/-! ### Steady relations -/

/-- Nodes that stand for each other, or stand in a string, where nodes do not count. -/
def Twin (P : Path → Path → Prop) (quoted : Bool) (p q : Path) : Prop := quoted = true ∨ P p q

/-- Two chains of dotted names are the same, at nodes that stand for each other; all but the last have a dot. -/
def NamesTwin (P : Path → Path → Prop) (quoted : Bool) (xs ys : List (String × Path)) : Prop :=
  List.Forall₂ (fun a b => a.1 = b.1 ∧ Twin P quoted a.2 b.2) xs ys ∧ ∀ a ∈ xs.dropLast, '.' ∈ a.1.toList

/-- The dotted names around two places are the same, at nodes that stand for each other. -/
def ChainTwin (P : Path → Path → Prop) (quoted : Bool) :
    Option (List (String × Path)) → Option (List (String × Path)) → Prop :=
  Option.Rel (NamesTwin P quoted)

/-- Two places are alike up to the nodes of the dotted names around them. -/
def HereTwin (P : Path → Path → Prop) (h g : Here) : Prop :=
  ∃ c, g = { h with chain := c } ∧ ChainTwin P h.quoted h.chain c

/-- Whether a qualified name is one of those that make strings be read as types. -/
def IsTyping (n : String) : Prop := n.startsWith "typing." = true ∨ n.startsWith "typing_extensions." = true

/-- Every step of a walk keeps the relation `R` between tables: `P` tells which nodes stand for each other, `A` what may be
bound to what. -/
structure Steady (R : Table → Table → Prop) (P : Path → Path → Prop) (A : String → Origin → Prop) : Prop where
  cons : ∀ {p q : Path} (i : Nat), P p q → P (i :: p) (i :: q)
  parent : ∀ {t u : Table} (s : ScopeId), R t u → (t.info s).parent = (u.info s).parent
  size : ∀ {t u : Table}, R t u → t.scopes.size = u.scopes.size
  hints : ∀ {t u : Table} (s : ScopeId) (name : String) {n : String}, R t u → IsTyping n →
    (n ∈ t.qualifiedIn s name ↔ n ∈ u.qualifiedIn s name)
  bind : ∀ {t u : Table} (s : ScopeId) {n : String} {o : Origin}, A n o → R t u →
    R ((bind s n o).run t).2 ((bind s n o).run u).2
  use : ∀ {t u : Table} (n : String) {p q : Path} {h g : Here}, Twin P h.quoted p q → HereTwin P h g → R t u →
    R ((use n p h).run t).2 ((use n q g).run u).2
  place : ∀ {t u : Table} {p q : Path} (s : ScopeId), P p q → R t u →
    R { t with places := (p, s) :: t.places } { u with places := (q, s) :: u.places }
  openScope : ∀ {t u : Table} (k : ScopeKind) (h : Here), R t u →
    R ((openScope k h).run t).2 ((openScope k h).run u).2
  redirect : ∀ {t u : Table} (s : ScopeId) (ns : List String) (r : Redirect), R t u →
    R ((redirect s ns r).run t).2 ((redirect s ns r).run u).2

/-! ### One node -/

/-- Two walks over one tree keep the relation. -/
def Mirrors (R : Table → Table → Prop) (P : Path → Path → Prop) (A : String → Origin → Prop) (t : Tree) (w v : Walk) :
    Prop :=
  ∀ p q h g, Twin P h.quoted p q → HereTwin P h g → (∀ n o, Binds h.store t n o → A n o) → Keep R (w p h) (v q g)

/-- Reading the string that a tree is as code keeps the relation. -/
def MirrorsCode (R : Table → Table → Prop) (P : Path → Path → Prop) (A : String → Origin → Prop)
    (w v : String → Here → StateM Table Unit) (t : Tree) : Prop :=
  ∀ s h g, t.stringValue? = some s → s ≠ "" → HereTwin P h g → (∀ n o, Binds h.store t n o → A n o) →
    Keep R (w s h) (v s g)

/-- Children with their places among all children below a path; `W` reads the child at a place. -/
def kids (W : Nat → Walk) (p : Path) (S : List (Tree × Nat)) : List Child :=
  S.map fun c => ⟨c.2 :: p, c.1, W c.2⟩

section Kids

variable (W : Nat → Walk) (p : Path) (S : List (Tree × Nat))

theorem kids_filter (f : Tree → Bool) : (kids W p S).filter (fun c => f c.tree) = kids W p (S.filter fun c => f c.1) :=
  List.filter_map

theorem kids_takeWhile (f : Tree → Bool) :
    (kids W p S).takeWhile (fun c => f c.tree) = kids W p (S.takeWhile fun c => f c.1) :=
  List.takeWhile_map ..

theorem kids_take (n : Nat) : (kids W p S).take n = kids W p (S.take n) := List.map_take.symm

theorem kids_drop (n : Nat) : (kids W p S).drop n = kids W p (S.drop n) := List.map_drop.symm

theorem kids_dropLast : (kids W p S).dropLast = kids W p S.dropLast := List.map_dropLast.symm

theorem kids_reverse : (kids W p S).reverse = kids W p S.reverse := List.map_reverse.symm

theorem kids_any (f : Tree → Bool) : (kids W p S).any (fun c => f c.tree) = S.any fun c => f c.1 := List.any_map

theorem kids_length : (kids W p S).length = S.length := List.length_map ..

theorem kids_find? (f : Tree → Bool) :
    (kids W p S).find? (fun c => f c.tree) = (S.find? fun c => f c.1).map fun c => ⟨c.2 :: p, c.1, W c.2⟩ :=
  List.find?_map

/-- The first name among some children. -/
theorem find?_name : ((kids W p S).find? (·.tree.name?.isSome)).bind (·.tree.name?) =
    (S.find? (·.1.name?.isSome)).bind (·.1.name?) := by
  rw [kids_find? W p S (·.name?.isSome), Option.bind_map]
  rfl

theorem goAll_kids (h : Here) : goAll (kids W p S) h = S.forM fun c => W c.2 (c.2 :: p) h := by
  show List.forM _ _ = List.forM _ _
  rw [List.forM_eq_forM, List.forM_eq_forM]
  exact List.forM_map

theorem ofKind_kids (k : Kind) : ofKind k (kids W p S) = kids W p (S.filter fun c => c.1.isKind k) :=
  kids_filter W p S (·.isKind k)

end Kids

/-- The walks over some children keep the relation, and what these can bind, with names bound (`store`) or used, is
allowed. -/
def Ready (R : Table → Table → Prop) (P : Path → Path → Prop) (A : String → Origin → Prop) (W V : Nat → Walk)
    (store : Bool) (S : List (Tree × Nat)) : Prop :=
  ∀ c ∈ S, Mirrors R P A c.1 (W c.2) (V c.2) ∧ ∀ n o, Binds store c.1 n o → A n o

section Walk

variable {R : Table → Table → Prop} {P : Path → Path → Prop} {A : String → Origin → Prop} {W V : Nat → Walk}
  {p q : Path} {S S' : List (Tree × Nat)} {h : Here} {c : Option (List (String × Path))}

theorem Ready.mono {store : Bool} (hS : Ready R P A W V store S) (hsub : S' ⊆ S) : Ready R P A W V store S' :=
  fun c hc => hS c (hsub hc)

theorem Ready.filter {store : Bool} (hS : Ready R P A W V store S) (f : Tree × Nat → Bool) :
    Ready R P A W V store (S.filter f) :=
  hS.mono (List.filter_subset_self _)

theorem Steady.twin_cons (hR : Steady R P A) {quoted : Bool} (i : Nat) (hp : Twin P quoted p q) :
    Twin P quoted (i :: p) (i :: q) :=
  hp.imp id (hR.cons i)

theorem keep_goAll (hR : Steady R P A) (hS : Ready R P A W V h.store S) (hp : Twin P h.quoted p q)
    (hc : ChainTwin P h.quoted h.chain c) : Keep R (goAll (kids W p S) h) (goAll (kids V q S) { h with chain := c }) := by
  rw [goAll_kids, goAll_kids]
  exact keep_forM fun b hb => (hS b hb).1 _ _ _ _ (hR.twin_cons b.2 hp) ⟨c, rfl, hc⟩ (hS b hb).2

theorem keep_bind (hR : Steady R P A) (s : ScopeId) {n : String} {o : Origin} (hA : A n o) :
    Keep R (bind s n o) (bind s n o) :=
  keep_of fun _ _ => hR.bind s hA

theorem keep_bind? (hR : Steady R P A) (s : ScopeId) (n : Option String) : (∀ m, n = some m → A m .defined) →
    Keep R (match n with | some m => bind s m .defined | none => pure ())
      (match n with | some m => bind s m .defined | none => pure ()) := by
  intro hA
  cases n with
  | none => exact sim_pure trivial
  | some m => exact keep_bind hR s (hA m rfl)

theorem keep_place (hR : Steady R P A) (hp : Twin P h.quoted p q) :
    Keep R (place p h) (place q { h with chain := c }) := by
  unfold place
  show Keep R (if h.quoted = true then _ else _) (if h.quoted = true then _ else _)
  rcases hp with hq | hp
  · rw [if_pos hq, if_pos hq]
    exact sim_pure trivial
  · split
    · exact sim_pure trivial
    · exact keep_of fun _ _ => hR.place h.scope hp

/-- Opening a scope inside two places that are alike gives two places that are alike. -/
theorem sim_openScope (hR : Steady R P A) (k : ScopeKind) :
    Sim R (fun a b => ∃ s, a = { h with scope := s } ∧ b = { h with scope := s, chain := c })
      (openScope k h) (openScope k { h with chain := c }) := by
  intro t u hRt
  exact ⟨hR.openScope k h hRt, t.scopes.size, rfl, by rw [hR.size hRt]; rfl⟩

/-! ### The constructs that open scopes -/

theorem keep_walkComprehension (hR : Steady R P A) (hload : Ready R P A W V false S) (hp : Twin P h.quoted p q)
    (hc : ChainTwin P h.quoted h.chain c) :
    Keep R (walkNode.walkComprehension (kids W p S) h) (walkNode.walkComprehension (kids V q S) { h with chain := c }) := by
  refine (sim_openScope hR .comprehension (h := h.load)).bind ?_
  rintro _ _ ⟨s, rfl, rfl⟩
  rw [ofKind_kids, ofKind_kids, kids_filter W p S (!·.isKind .compFor), kids_filter V q S (!·.isKind .compFor)]
  refine (keep_goAll hR (h := { h.load with scope := s, iterable := some h.scope }) (hload.filter _) hp hc).then ?_
  exact keep_goAll hR (h := { h.load with scope := s }) (hload.filter _) hp hc

/-- Work in the place around the parameters of a type, which have a scope of their own if there are any. -/
theorem sim_around {α β : Type} {Q : α → β → Prop} {f : Here → StateM Table α} {g : Here → StateM Table β}
    (hR : Steady R P A) (T : List (Tree × Nat))
    (hf : ∀ s, Sim R Q (f { h with scope := s }) (g { h with scope := s, chain := c })) :
    Sim R Q (if (kids W p T).isEmpty then pure h >>= f else openScope .hint h >>= f)
      (if (kids V q T).isEmpty then pure { h with chain := c } >>= g else openScope .hint { h with chain := c } >>= g) := by
  cases T with
  | nil => exact hf h.scope
  | cons b T =>
    refine (sim_openScope hR .hint).bind ?_
    rintro _ _ ⟨s, rfl, rfl⟩
    exact hf s

theorem keep_walkFunction (hR : Steady R P A) (hload : Ready R P A W V h.store S) (hp : Twin P h.quoted p q)
    (hc : ChainTwin P h.quoted h.chain c)
    (hname : ∀ m, (S.find? (·.1.name?.isSome)).bind (·.1.name?) = some m → A m .defined) :
    Keep R (walkFunction (kids W p S) h) (walkFunction (kids V q S) { h with chain := c }) := by
  unfold walkFunction
  simp only [find?_name, ofKind_kids, kids_filter _ _ S fun t => t.isKind .block || t.isKind .suite]
  refine sim_around hR _ fun s => ?_
  refine (keep_goAll hR (h := { h with scope := s }) (hload.filter _) hp hc).then ?_
  refine (sim_openScope hR _ (h := { h with scope := s })).bind ?_
  rintro _ _ ⟨s', rfl, rfl⟩
  refine (keep_goAll hR (h := { h with scope := s' }) (hload.filter _) hp hc).then ?_
  refine (keep_goAll hR (h := { h with scope := s' }) (hload.filter _) hp hc).then ?_
  refine (keep_goAll hR (h := { h with scope := s }) (hload.filter _) hp hc).then ?_
  refine (keep_goAll hR (h := { h with scope := s }) (hload.filter _) hp hc).then ?_
  exact keep_bind? hR h.scope _ hname

theorem keep_walkClass (hR : Steady R P A) (hload : Ready R P A W V h.store S) (hp : Twin P h.quoted p q)
    (hc : ChainTwin P h.quoted h.chain c)
    (hname : A (((S.find? (·.1.name?.isSome)).bind (·.1.name?)).getD "") .defined) :
    Keep R (walkClass (kids W p S) h) (walkClass (kids V q S) { h with chain := c }) := by
  unfold walkClass
  simp only [find?_name, ofKind_kids, kids_filter _ _ S fun t => t.isKind .block || t.isKind .suite]
  refine (keep_goAll hR (hload.filter _) hp hc).then ?_
  refine sim_around hR _ fun s => ?_
  refine (keep_goAll hR (h := { h with scope := s }) (hload.filter _) hp hc).then ?_
  refine (keep_goAll hR (h := { h with scope := s }) (hload.filter _) hp hc).then ?_
  refine (sim_openScope hR _ (h := { h with scope := s })).bind ?_
  rintro _ _ ⟨s', rfl, rfl⟩
  refine (keep_goAll hR (h := { h with scope := s' }) (hload.filter _) hp hc).then ?_
  exact keep_bind hR h.scope hname

theorem keep_walkLambda (hR : Steady R P A) (hload : Ready R P A W V h.store S) (hp : Twin P h.quoted p q)
    (hc : ChainTwin P h.quoted h.chain c) :
    Keep R (walkLambda (kids W p S) h) (walkLambda (kids V q S) { h with chain := c }) := by
  refine (sim_openScope hR (.function none)).bind ?_
  rintro _ _ ⟨s, rfl, rfl⟩
  exact keep_goAll hR (h := { h with scope := s }) hload hp hc

/-- A child is left out by its path as by its place. -/
theorem kids_filter_path (W : Nat → Walk) (p : Path) (S : List (Tree × Nat)) (i : Nat) :
    (kids W p S).filter (fun c => decide (c.path ≠ i :: p)) = kids W p (S.filter fun c => decide (c.2 ≠ i)) := by
  unfold kids
  rw [List.filter_map]
  refine congrArg _ (List.filter_congr fun b _ => ?_)
  simp [Function.comp]

theorem keep_walkParam (hR : Steady R P A) (hload : Ready R P A W V h.store S) (hp : Twin P h.quoted p q)
    (hc : ChainTwin P h.quoted h.chain c)
    (hname : ∀ m, (S.find? (·.1.name?.isSome)).bind (·.1.name?) = some m → A m .defined) :
    Keep R (walkParam (kids W p S) h) (walkParam (kids V q S) { h with chain := c }) := by
  refine sim_get.bind fun t u hRt => ?_
  dsimp only
  rw [hR.parent h.scope hRt]
  simp only [kids_find? _ _ S (·.name?.isSome)]
  generalize (u.info h.scope).parent = s
  cases hfind : S.find? (·.1.name?.isSome) with
  | none =>
    simp only [Option.map_none, Option.bind_none, ofKind_kids, kids_filter _ _ S (!·.isKind .hint)]
    refine (keep_goAll hR (h := { h with scope := s }) (hload.filter _) hp hc).then ?_
    exact keep_goAll hR (h := { h with scope := s }) (hload.filter _) hp hc
  | some b =>
    simp only [Option.map_some, Option.bind_some, kids_filter_path]
    generalize hrest : S.filter (fun c => decide (c.2 ≠ b.2)) = rest
    have hready : Ready R P A W V h.store rest := hrest ▸ hload.filter _
    simp only [ofKind_kids, kids_filter _ _ rest (!·.isKind .hint)]
    refine (keep_goAll hR (h := { h with scope := s }) (hready.filter _) hp hc).then ?_
    refine (keep_goAll hR (h := { h with scope := s }) (hready.filter _) hp hc).then ?_
    exact keep_bind? hR h.scope b.1.name? fun m hm => hname m (by rw [hfind]; exact hm)

/-! ### The other constructs -/

theorem keep_walkImport (hR : Steady R P A) (i : ImportStatement) (s : ScopeId)
    (hA : ∀ n ∈ importNames i, A n (.imported i)) : Keep R (walkImport i s) (walkImport i s) := by
  unfold walkImport
  refine keep_forM fun n hn => ?_
  have hA' := fun m hm => hA m (List.mem_flatMap_of_mem hn hm)
  cases ha : n.alias_ with
  | some a => exact keep_bind hR s (hA' a (by rw [ha]; exact List.mem_singleton_self a))
  | none => exact keep_forM fun m hm => keep_bind hR s (hA' m (by rw [ha]; exact hm))

/-- Two lists of qualified names agree on those that make strings be read as types. -/
def SameTyping (xs ys : List String) : Prop := ∀ n, IsTyping n → (n ∈ xs ↔ n ∈ ys)

theorem sim_spelledNames (hR : Steady R P A) (e : Tree) (s : ScopeId) :
    Sim R SameTyping (spelledNames e s) (spelledNames e s) := by
  refine sim_get.bind fun t u hRt => sim_pure fun n hn => ?_
  cases fullName? e with
  | none => exact Iff.rfl
  | some name => exact hR.hints s name hRt hn

theorem SameTyping.contains {xs ys : List String} (h : SameTyping xs ys) {n : String} (hn : IsTyping n) :
    xs.contains n = ys.contains n := by
  rw [Bool.eq_iff_iff, List.contains_iff_mem, List.contains_iff_mem]
  exact h n hn

theorem SameTyping.any {xs ys : List String} (h : SameTyping xs ys) :
    (xs.any fun n => n.startsWith "typing." || n.startsWith "typing_extensions.") =
      ys.any fun n => n.startsWith "typing." || n.startsWith "typing_extensions." := by
  rw [Bool.eq_iff_iff, List.any_eq_true, List.any_eq_true]
  have hiff : ∀ n : String, (n.startsWith "typing." || n.startsWith "typing_extensions.") = true ↔ IsTyping n := fun n => by
    rw [Bool.or_eq_true]
    rfl
  constructor
  · rintro ⟨n, hn, htyping⟩
    exact ⟨n, (h n ((hiff n).mp htyping)).mp hn, htyping⟩
  · rintro ⟨n, hn, htyping⟩
    exact ⟨n, (h n ((hiff n).mp htyping)).mpr hn, htyping⟩

theorem keep_walkCall (hR : Steady R P A) (e : Tree) (hload : Ready R P A W V h.store S) (hp : Twin P h.quoted p q) :
    Keep R (walkCall e (kids W p S) h) (walkCall e (kids V q S) { h with chain := c }) := by
  refine (sim_spelledNames hR e h.scope).bind fun xs ys hnames => ?_
  have hnew := hnames.contains (n := "typing.NewType") (.inl (String.startsWith_string_iff.mpr (by decide)))
  have hvar := hnames.contains (n := "typing.TypeVar") (.inl (String.startsWith_string_iff.mpr (by decide)))
  have hcast := hnames.contains (n := "typing.cast") (.inl (String.startsWith_string_iff.mpr (by decide)))
  simp only [hnew, hvar, hcast, ofKind_kids, kids_take, kids_drop]
  have hnone : ChainTwin P h.quoted none none := .none
  have hplain := fun (T : List (Tree × Nat)) (hT : T ⊆ S) =>
    keep_goAll hR (h := { h with chain := none, typeHint := false }) (hload.mono hT) hp hnone
  have hhint := fun (T : List (Tree × Nat)) (hT : T ⊆ S) =>
    keep_goAll hR (h := { h with chain := none, typeHint := true }) (hload.mono hT) hp hnone
  have hargs : (S.filter fun b => b.1.isKind .argument) ⊆ S := List.filter_subset_self _
  have htake := fun (T : List (Tree × Nat)) => List.take_subset 1 T
  have hdrop := fun (T : List (Tree × Nat)) => List.drop_subset 1 T
  split
  · exact (hplain _ (htake S)).then (hhint _ (List.Subset.trans (hdrop _) hargs))
  · split
    · exact (hplain _ (htake S)).then
        ((hhint _ (List.Subset.trans (htake _) hargs)).then (hplain _ (List.Subset.trans (hdrop _) hargs)))
    · exact hplain S (List.Subset.refl S)

theorem keep_walkSubscript (hR : Steady R P A) (hload : Ready R P A W V h.store S) (hp : Twin P h.quoted p q)
    (hc : ChainTwin P h.quoted h.chain c) :
    Keep R (walkSubscript (kids W p S) h) (walkSubscript (kids V q S) { h with chain := c }) := by
  have hrest : ∀ xs ys : List String, SameTyping xs ys →
      Keep R
        (goAll (kids W p S) { h with
          typeHint := xs.any fun n => n.startsWith "typing." || n.startsWith "typing_extensions.",
          verbatim := h.verbatim || (xs.contains "typing.Literal" || xs.contains "typing_extensions.Literal") })
        (goAll (kids V q S) { h with
          chain := c,
          typeHint := ys.any fun n => n.startsWith "typing." || n.startsWith "typing_extensions.",
          verbatim := h.verbatim || (ys.contains "typing.Literal" || ys.contains "typing_extensions.Literal") }) := by
    intro xs ys hnames
    rw [hnames.any, hnames.contains (n := "typing.Literal") (.inl (String.startsWith_string_iff.mpr (by decide))),
      hnames.contains (n := "typing_extensions.Literal") (.inr (String.startsWith_string_iff.mpr (by decide)))]
    exact keep_goAll hR (h := { h with typeHint := _, verbatim := _ }) hload hp hc
  cases S with
  | nil => exact hrest [] [] fun n _ => Iff.rfl
  | cons b S => exact (sim_spelledNames hR b.1 h.scope).bind hrest

/-- Names may be bound in some children of a node: nothing is, inside a string. -/
theorem Ready.bindNames (hload : Ready R P A W V false S) (htarget : Ready R P A W V true S') (hsub : S' ⊆ S)
    (h : Here) : Ready R P A W V h.bindNames.store S' := by
  show Ready R P A W V (!h.quoted) S'
  cases h.quoted with
  | false => exact htarget
  | true => exact hload.mono hsub

theorem targetsOf_subset {α : Type} (f : α → Tree) (k : Kind) (xs : List α) : targetsOf f k xs ⊆ xs := by
  have hwhile : ∀ (g : α → Bool) (ys : List α), ys.takeWhile g ⊆ ys := fun g ys => (List.takeWhile_prefix g).subset
  unfold targetsOf
  split
  · exact List.dropLast_subset xs
  all_goals first
    | exact List.take_subset 1 xs
    | exact List.drop_subset 1 xs
    | exact List.nil_subset xs
    | exact List.Subset.trans (hwhile _ _) (List.filter_subset_self _)
    | exact List.Subset.trans (List.filter_subset_self _) (List.drop_subset _ xs)

theorem targetsOf_map {α : Type} (f : α → Tree) (k : Kind) (xs : List α) :
    targetsOf id k (xs.map f) = (targetsOf f k xs).map f := by
  cases k
  case handler =>
    simp only [targetsOf, id, List.takeWhile_map, List.length_map, Function.comp_def]
    rw [← List.map_drop, List.filter_map]
    rfl
  all_goals first
    | rfl
    | simp only [targetsOf, id, List.map_dropLast, List.map_take, List.map_drop, List.takeWhile_map, List.filter_map,
        Function.comp_def]

/-- The children that are no trivia, with their places among all children. -/
def placedParts (ts : List Tree) : List (Tree × Nat) := ts.zipIdx.filter fun c => !c.1.isTrivia

theorem map_fst_placedParts (ts : List Tree) : (placedParts ts).map Prod.fst = ts.filter (!·.isTrivia) := by
  have h := List.filter_map (f := Prod.fst) (p := fun t : Tree => !t.isTrivia) (l := ts.zipIdx)
  rw [List.zipIdx_map_fst] at h
  exact h.symm

theorem mem_of_mem_placedParts {ts : List Tree} {b : Tree × Nat} (h : b ∈ placedParts ts) : b.1 ∈ ts := by
  have hmem := List.mem_map_of_mem (f := Prod.fst) h
  rw [map_fst_placedParts] at hmem
  exact List.mem_of_mem_filter hmem

theorem mem_targets_of_mem {k : Kind} {ts : List Tree} {b : Tree × Nat}
    (h : b ∈ targetsOf Prod.fst k (placedParts ts)) : b.1 ∈ targets k ts := by
  have hmem := List.mem_map_of_mem (f := Prod.fst) h
  rwa [← targetsOf_map, map_fst_placedParts] at hmem

theorem definedName?_placedParts (k : Kind) (ts : List Tree) :
    ((placedParts ts).find? (·.1.name?.isSome)).bind (·.1.name?) = definedName? (.node k ts) := by
  show _ = ((ts.filter (!·.isTrivia)).find? (·.name?.isSome)).bind name?
  rw [← map_fst_placedParts, List.find?_map, Option.bind_map]
  rfl

theorem map_eq_zip {α β : Type} (f : α → β) (xs : List α) : (xs.map fun x => (x, f x)) = xs.zip (xs.map f) := by
  have h := List.zip_map' (f := id) (g := f) (l := xs)
  rw [List.map_id] at h
  exact h.symm

/-- The walk of the child at a place. -/
def walkAt (ws : List Walk) (i : Nat) : Walk := ws[i]?.getD fun _ _ => pure ()

/-- The children of a node as its walk sees them. -/
theorem children_eq_kids (p : Path) {ts : List Tree} {ws : List Walk} (hlen : ws.length = ts.length) :
    (((locate p (ts.zip ws)).filter fun c => !c.2.1.isTrivia).map fun c => (⟨c.1, c.2.1, c.2.2⟩ : Child)) =
      kids (walkAt ws) p (placedParts ts) := by
  have hzip : (ts.zip ws).zipIdx = ts.zipIdx.map fun c => ((c.1, walkAt ws c.2), c.2) := by
    refine List.ext_getElem (by simp [hlen]) fun i h₁ h₂ => ?_
    have hi : i < ws.length := by simpa [hlen] using h₁
    simp [walkAt, hi]
  simp only [locate, hzip, List.map_map, List.filter_map, kids, placedParts]
  rfl

theorem dottedChain_node (p : Path) (k : Kind) (ts : List Tree) :
    dottedChain p (.node k ts) =
      match k, (placedParts ts).map fun b => (b.2 :: p, b.1, fun r : Path => dottedChain r b.1) with
      | .paren, [_, e, _] => e.2.2 e.1
      | .attribute, [v, _, a] =>
        match v.2.2 v.1 with
        | [] => []
        | (n, r) :: rest => (n ++ "." ++ a.2.1.text, p) :: (n, r) :: rest
      | _, _ => [] := by
  have hparts : ((locate p (ts.map fun t => (t, fun r : Path => dottedChain r t))).filter fun t => !t.2.1.isTrivia) =
      (placedParts ts).map fun b => (b.2 :: p, b.1, fun r : Path => dottedChain r b.1) := by
    simp only [locate, List.zipIdx_map, List.map_map, List.filter_map, placedParts]
    rfl
  rw [← hparts]
  simp only [dottedChain]
  rw [para_node]
  rfl

theorem namesTwin_nil {quoted : Bool} : NamesTwin P quoted [] [] := ⟨.nil, fun _ h => absurd h List.not_mem_nil⟩

theorem NamesTwin.cons {quoted : Bool} {n s : String} {r r' : Path} {xs ys : List (String × Path)}
    (h : NamesTwin P quoted ((n, r) :: xs) ((n, r') :: ys)) (hp : Twin P quoted p q) :
    NamesTwin P quoted ((n ++ "." ++ s, p) :: (n, r) :: xs) ((n ++ "." ++ s, q) :: (n, r') :: ys) := by
  refine ⟨.cons ⟨rfl, hp⟩ h.1, fun a ha => ?_⟩
  rcases List.mem_cons.mp ha with rfl | ha
  · simp [String.toList_append]
  · exact h.2 a ha

/-- The dotted names in a tree are the same at nodes that stand for each other. -/
theorem dottedChain_twin (hR : Steady R P A) {quoted : Bool} (t : Tree) (hp : Twin P quoted p q) :
    NamesTwin P quoted (dottedChain p t) (dottedChain q t) := by
  induction t using induct generalizing p q with
  | leaf l =>
    show NamesTwin P quoted (if l.kind = .name then [(l.text, p)] else []) (if l.kind = .name then [(l.text, q)] else [])
    split
    · exact ⟨.cons ⟨rfl, hp⟩ .nil, fun _ h => absurd h List.not_mem_nil⟩
    · exact namesTwin_nil
  | node k ts ih =>
    have hchild : ∀ b ∈ placedParts ts,
        NamesTwin P quoted (dottedChain (b.2 :: p) b.1) (dottedChain (b.2 :: q) b.1) := fun b hb =>
      ih b.1 (mem_of_mem_placedParts hb) (hR.twin_cons b.2 hp)
    rw [dottedChain_node, dottedChain_node]
    generalize placedParts ts = S at hchild
    -- only an attribute and a node in parentheses have a chain, and both have three parts
    match S, hchild with
    | [], _ | [_], _ | [_, _], _ | _ :: _ :: _ :: _ :: _, _ => cases k <;> exact namesTwin_nil
    | [a, b, d], hchild =>
      have ha := hchild a (by simp)
      have hb := hchild b (by simp)
      cases k
      case paren => exact hb
      case «attribute» =>
        simp only [List.map_cons, List.map_nil]
        generalize dottedChain (a.2 :: p) a.1 = xs at ha
        generalize dottedChain (a.2 :: q) a.1 = ys at ha
        obtain ⟨hall, hdots⟩ := ha
        cases hall with
        | nil => exact namesTwin_nil
        | @cons x y xs ys hx hrest =>
          obtain ⟨n, r⟩ := x
          obtain ⟨n', r'⟩ := y
          obtain ⟨rfl, hr⟩ := hx
          exact NamesTwin.cons ⟨.cons ⟨rfl, hr⟩ hrest, hdots⟩ hp
      all_goals exact namesTwin_nil

theorem chain_getD {quoted : Bool} {a b : Option (List (String × Path))} {xs ys : List (String × Path)}
    (hab : ChainTwin P quoted a b) (h : NamesTwin P quoted xs ys) : NamesTwin P quoted (a.getD xs) (b.getD ys) := by
  cases hab with
  | none => exact h
  | some hchain => exact hchain

/-- The parts of a `for` are those of its places. -/
theorem forParts_kids (S : List (Tree × Nat)) :
    ∃ I L : List (Tree × Nat), I ⊆ S ∧ L ⊆ S ∧
      ∀ (W : Nat → Walk) (p : Path),
        forParts (kids W p S) = (kids W p (targetsOf Prod.fst .forStmt S), kids W p I, kids W p L) := by
  let N := S.filter fun c => !c.1.isMark "async" && !c.1.isMark "for"
  let M := N.drop ((N.takeWhile fun c => !c.1.isMark "in").length + 1)
  have hM : M ⊆ S := List.Subset.trans (List.drop_subset _ N) (List.filter_subset_self _)
  refine ⟨M.take 1, M.drop 1, List.Subset.trans (List.take_subset 1 M) hM, List.Subset.trans (List.drop_subset 1 M) hM, fun W p => ?_⟩
  simp only [forParts, kids_filter W p S fun t => !t.isMark "async" && !t.isMark "for",
    kids_takeWhile W p _ fun t => !t.isMark "in", kids_length, kids_drop, kids_take]
  rfl

theorem keep_compFor (hR : Steady R P A) (hload : Ready R P A W V false S)
    (htarget : Ready R P A W V true (targetsOf Prod.fst .forStmt S)) (hp : Twin P h.quoted p q)
    (hc : ChainTwin P h.quoted h.chain c) :
    Keep R
      (match h.iterable with
        | some s => do
          goAll (forParts (kids W p S)).2.1 { { h with iterable := none }.load with scope := s }
          goAll (forParts (kids W p S)).1 { h with iterable := none }.bindNames
          goAll (forParts (kids W p S)).2.2 { h with iterable := none }.load
        | none => do
          goAll (forParts (kids W p S)).1 { h with iterable := none }.bindNames
          goAll (forParts (kids W p S)).2.1 { h with iterable := none }.load
          goAll (forParts (kids W p S)).2.2 { h with iterable := none }.load)
      (match h.iterable with
        | some s => do
          goAll (forParts (kids V q S)).2.1 { { h with chain := c, iterable := none }.load with scope := s }
          goAll (forParts (kids V q S)).1 { h with chain := c, iterable := none }.bindNames
          goAll (forParts (kids V q S)).2.2 { h with chain := c, iterable := none }.load
        | none => do
          goAll (forParts (kids V q S)).1 { h with chain := c, iterable := none }.bindNames
          goAll (forParts (kids V q S)).2.1 { h with chain := c, iterable := none }.load
          goAll (forParts (kids V q S)).2.2 { h with chain := c, iterable := none }.load) := by
  obtain ⟨I, L, hI, hL, hparts⟩ := forParts_kids S
  simp only [hparts]
  have hbind := hload.bindNames htarget (targetsOf_subset ..) { h with iterable := none }
  cases h.iterable with
  | none =>
    refine (keep_goAll hR (h := { h with iterable := none }.bindNames) hbind hp hc).then ?_
    refine (keep_goAll hR (h := { h with iterable := none }.load) (hload.mono hI) hp hc).then ?_
    exact keep_goAll hR (h := { h with iterable := none }.load) (hload.mono hL) hp hc
  | some s =>
    refine (keep_goAll hR (h := { { h with iterable := none }.load with scope := s }) (hload.mono hI) hp hc).then ?_
    refine (keep_goAll hR (h := { h with iterable := none }.bindNames) hbind hp hc).then ?_
    exact keep_goAll hR (h := { h with iterable := none }.load) (hload.mono hL) hp hc

theorem keep_import (hR : Steady R P A) (k : Kind) (ts : List Tree) (s : ScopeId) :
    (∀ n o, (n, o) ∈ (match (Source.Tree.node k ts).importStatement? with
      | some i => (importNames i).map (·, Origin.imported i)
      | none => []) → A n o) →
    Keep R (match (Source.Tree.node k ts).importStatement? with | some i => walkImport i s | none => pure ())
      (match (Source.Tree.node k ts).importStatement? with | some i => walkImport i s | none => pure ()) := by
  intro hA
  cases hi : (Source.Tree.node k ts).importStatement? with
  | none => exact sim_pure trivial
  | some i =>
    rw [hi] at hA
    exact keep_walkImport hR i s fun n hn => hA n _ (List.mem_map_of_mem hn)

theorem declaredNames_kids (W : Nat → Walk) (p : Path) (S : List (Tree × Nat)) :
    declaredNames (kids W p S) = S.filterMap (·.1.name?) :=
  List.filterMap_map ..

theorem keep_typeAlias (hR : Steady R P A) (hcarry : Ready R P A W V h.store S) (hload : Ready R P A W V false S)
    (hp : Twin P h.quoted p q) (hc : ChainTwin P h.quoted h.chain c)
    (hname : ∀ m, (S.find? (·.1.name?.isSome)).bind (·.1.name?) = some m → A m .defined) :
    Keep R
      (do
        match ((kids W p S).find? (·.tree.name?.isSome)).bind (·.tree.name?) with
        | some n => bind h.scope n .defined
        | none => pure ()
        let inside ← openScope .hint h
        goAll (ofKind .typeParams (kids W p S)) inside
        goAll ((kids W p S).reverse.take 1) inside.load)
      (do
        match ((kids V q S).find? (·.tree.name?.isSome)).bind (·.tree.name?) with
        | some n => bind h.scope n .defined
        | none => pure ()
        let inside ← openScope .hint { h with chain := c }
        goAll (ofKind .typeParams (kids V q S)) inside
        goAll ((kids V q S).reverse.take 1) inside.load) := by
  -- the name is bound outside, the parameters and the value are walked in a scope of their own
  have hlast : S.reverse.take 1 ⊆ S := List.Subset.trans (List.take_subset 1 _) (List.reverse_subset.mpr (List.Subset.refl S))
  have hrest : Keep R
      (do
        let inside ← openScope .hint h
        goAll (ofKind .typeParams (kids W p S)) inside
        goAll ((kids W p S).reverse.take 1) inside.load)
      (do
        let inside ← openScope .hint { h with chain := c }
        goAll (ofKind .typeParams (kids V q S)) inside
        goAll ((kids V q S).reverse.take 1) inside.load) := by
    refine (sim_openScope hR .hint).bind ?_
    rintro _ _ ⟨s, rfl, rfl⟩
    simp only [ofKind_kids, kids_reverse, kids_take]
    refine (keep_goAll hR (h := { h with scope := s }) (hcarry.filter _) hp hc).then ?_
    exact keep_goAll hR (h := { h.load with scope := s }) (hload.mono hlast) hp hc
  simp only [find?_name]
  cases hm : (S.find? (·.1.name?.isSome)).bind (·.1.name?) with
  | none => exact hrest
  | some m => exact (keep_bind hR h.scope (hname m hm)).then hrest

theorem keep_typeParam (hR : Steady R P A) (hload : Ready R P A W V false S)
    (hp : Twin P h.quoted p q) (hc : ChainTwin P h.quoted h.chain c)
    (hname : ∀ m, (S.find? (·.1.name?.isSome)).bind (·.1.name?) = some m → A m .defined) :
    Keep R
      (do
        match ((kids W p S).find? (·.tree.name?.isSome)).bind (·.tree.name?) with
        | some n => bind h.scope n .defined
        | none => pure ()
        goAll ((kids W p S).filter fun c =>
          decide (some c.path ≠ ((kids W p S).find? (·.tree.name?.isSome)).map (·.path))) h.load)
      (do
        match ((kids V q S).find? (·.tree.name?.isSome)).bind (·.tree.name?) with
        | some n => bind h.scope n .defined
        | none => pure ()
        goAll ((kids V q S).filter fun c =>
          decide (some c.path ≠ ((kids V q S).find? (·.tree.name?.isSome)).map (·.path)))
          { h with chain := c }.load) := by
  have hrest : Keep R
      (goAll ((kids W p S).filter fun c =>
        decide (some c.path ≠ ((kids W p S).find? (·.tree.name?.isSome)).map (·.path))) h.load)
      (goAll ((kids V q S).filter fun c =>
        decide (some c.path ≠ ((kids V q S).find? (·.tree.name?.isSome)).map (·.path))) { h with chain := c }.load) := by
    simp only [kids_find? _ _ S (·.name?.isSome)]
    cases hfind : S.find? (·.1.name?.isSome) with
    | none =>
      simp only [Option.map_none, ne_eq, reduceCtorEq, not_false_eq_true, decide_true, List.filter_true]
      exact keep_goAll hR (h := h.load) hload hp hc
    | some b =>
      simp only [Option.map_some, ne_eq, Option.some.injEq]
      rw [kids_filter_path, kids_filter_path]
      exact keep_goAll hR (h := h.load) (hload.filter _) hp hc
  simp only [find?_name]
  cases hm : (S.find? (·.1.name?.isSome)).bind (·.1.name?) with
  | none => exact hrest
  | some m => exact (keep_bind hR h.scope (hname m hm)).then hrest

/-- One node keeps the relation if its children do. -/
theorem mirrors_walkNode (hR : Steady R P A) {os os' : String → Here → StateM Table Unit} {k : Kind} {ts : List Tree}
    {ws vs : List Walk} (hw : ws.length = ts.length) (hv : vs.length = ts.length)
    (hts : ∀ i t, ts[i]? = some t → Mirrors R P A t (walkAt ws i) (walkAt vs i))
    (hos : MirrorsCode R P A os os' (.node k ts)) :
    Mirrors R P A (.node k ts) (walkNode os k (ts.zip ws)) (walkNode os' k (ts.zip vs)) := by
  rintro p q h _ hp ⟨c, rfl, hc⟩ hA
  -- what the parts may do: be read, be bound, and be either for a node that carries both
  have hts : ∀ b ∈ placedParts ts, Mirrors R P A b.1 (walkAt ws b.2) (walkAt vs b.2) := fun b hb =>
    hts b.2 b.1 (List.mem_zipIdx_iff_getElem?.mp (List.mem_of_mem_filter hb))
  have hload : Ready R P A (walkAt ws) (walkAt vs) false (placedParts ts) := fun b hb =>
    ⟨hts b hb, fun n o ho => hA n o (.child (mem_of_mem_placedParts hb) ho)⟩
  have htarget : Ready R P A (walkAt ws) (walkAt vs) true (targetsOf Prod.fst k (placedParts ts)) := fun b hb =>
    ⟨hts b (targetsOf_subset _ _ _ hb), fun n o ho => hA n o (.target (mem_targets_of_mem hb) ho)⟩
  have hbind := hload.bindNames htarget (targetsOf_subset ..)
  have hself : ∀ ws : List Walk, ws.length = ts.length → (ts.zip ws).map Prod.fst = ts := fun ws h =>
    List.map_fst_zip (Nat.le_of_eq h.symm)
  have hname : ∀ m, (m, .defined) ∈ ownBindings k ts → A m .defined := fun m hm => hA m .defined (.own hm)
  have hcarry : isCarrier k = true → Ready R P A (walkAt ws) (walkAt vs) h.store (placedParts ts) := by
    intro hk b hb
    refine ⟨hts b hb, fun n o ho => ?_⟩
    cases hstore : h.store with
    | false => exact (hload b hb).2 n o (hstore ▸ ho)
    | true => exact hA n o (hstore ▸ .carried hk (mem_of_mem_placedParts hb) (hstore ▸ ho))
  have hdefined : ownBindings k ts = (definedName? (.node k ts)).toList.map (·, .defined) →
      ∀ m, ((placedParts ts).find? (·.1.name?.isSome)).bind (·.1.name?) = some m → A m .defined := by
    intro hk m hm
    rw [definedName?_placedParts k] at hm
    exact hname m (by rw [hk, hm]; exact List.mem_singleton_self _)
  -- the place of the node is written down first, and then each kind walks its own parts in its own way
  unfold walkNode
  simp only [children_eq_kids _ hw, children_eq_kids _ hv, hself _ hw, hself _ hv]
  refine (keep_place hR hp).then ?_
  cases k
  -- these hand on whether they are bound
  case paren => exact keep_goAll hR (hcarry rfl) hp hc
  case tuple => exact keep_goAll hR (hcarry rfl) hp hc
  case starred => exact keep_goAll hR (hcarry rfl) hp hc
  case list =>
    simp only [kids_any _ _ _ (·.isKind .compFor)]
    split
    · exact keep_walkComprehension hR hload hp hc
    · exact keep_goAll hR (hcarry rfl) hp hc
  case brace =>
    simp only [kids_any _ _ _ (·.isKind .compFor)]
    split
    · exact keep_walkComprehension hR hload hp hc
    · exact keep_goAll hR (h := h.load) hload hp hc
  case generator => exact keep_walkComprehension hR hload hp hc
  case compFor => exact keep_compFor hR hload htarget hp hc
  case «attribute» =>
    simp only [kids_take]
    exact keep_goAll hR (h := { h.load with chain := some _ }) (hload.mono (List.take_subset 1 _)) hp
      (.some (chain_getD hc (dottedChain_twin hR _ hp)))
  case call => exact keep_walkCall hR (h := h.load) _ hload hp
  case subscript => exact keep_walkSubscript hR (h := h.load) hload hp hc
  case argument =>
    simp only [kids_any _ _ _ (·.isMark "="), kids_drop]
    split
    · exact keep_goAll hR (h := h.load) (hload.mono (List.drop_subset 2 _)) hp hc
    · exact keep_goAll hR (h := h.load) hload hp hc
  case concatenation =>
    dsimp only
    split
    · next heq =>
      split
      · exact keep_goAll hR (h := h.load) hload hp hc
      · -- the one leaf that is code itself: a hint in quotes
        next hne => exact hos _ _ _ heq hne ⟨c, rfl, hc⟩ hA
    · exact keep_goAll hR (h := h.load) hload hp hc
  case hint => exact keep_goAll hR (h := { h.load with hinted := true }) hload hp hc
  case returns => exact keep_goAll hR (h := { h.load with hinted := true }) hload hp hc
  -- the value is walked before what it is bound to
  case assign =>
    simp only [kids_reverse, kids_take, kids_dropLast]
    refine (keep_goAll hR (h := h.load) (hload.mono ?_) hp hc).then (keep_goAll hR (h := h.bindNames) (hbind h) hp hc)
    exact List.Subset.trans (List.take_subset 1 _) (List.reverse_subset.mpr (List.Subset.refl _))
  case annAssign =>
    simp only [kids_take, kids_drop]
    exact (keep_goAll hR (h := h.load) (hload.mono (List.drop_subset 1 _)) hp hc).then
      (keep_goAll hR (h := h.bindNames) (hbind h) hp hc)
  case augAssign =>
    simp only [kids_take, kids_drop]
    exact (keep_goAll hR (h := h.load) (hload.mono (List.drop_subset 1 _)) hp hc).then
      (keep_goAll hR (h := h.bindNames) (hbind h) hp hc)
  case walrus =>
    simp only [kids_take, kids_drop]
    exact (keep_goAll hR (h := h.load) (hload.mono (List.drop_subset 1 _)) hp hc).then
      (keep_goAll hR (h := h.bindNames) (hbind h) hp hc)
  case forStmt =>
    obtain ⟨I, L, hI, hL, hparts⟩ := forParts_kids (placedParts ts)
    simp only [hparts]
    refine (keep_goAll hR (h := h.bindNames) (hbind h) hp hc).then ?_
    refine (keep_goAll hR (h := h.load) (hload.mono hI) hp hc).then ?_
    exact keep_goAll hR (h := h.load) (hload.mono hL) hp hc
  case withItem =>
    simp only [kids_take, kids_drop]
    exact (keep_goAll hR (h := h.load) (hload.mono (List.take_subset 1 _)) hp hc).then
      (keep_goAll hR (h := h.bindNames) (hbind h) hp hc)
  case handler =>
    simp only [kids_takeWhile _ _ _ (!·.isMark "as"), kids_length, kids_drop, kids_filter _ _ _ (·.name?.isSome),
      kids_filter _ _ _ (!·.name?.isSome)]
    refine (keep_goAll hR (h := h.load) (hload.mono (List.takeWhile_prefix _).subset) hp hc).then ?_
    refine (keep_goAll hR (h := h.bindNames) (hbind h) hp hc).then ?_
    exact keep_goAll hR (h := h.load) ((hload.mono (List.drop_subset _ _)).filter _) hp hc
  case importStmt => exact keep_import hR .importStmt ts h.scope fun n o ho => hA n o (.own ho)
  case importFrom => exact keep_import hR .importFrom ts h.scope fun n o ho => hA n o (.own ho)
  case globalStmt =>
    simp only [declaredNames_kids]
    exact keep_of fun _ _ => hR.redirect h.scope _ _
  case nonlocalStmt =>
    simp only [declaredNames_kids]
    exact keep_of fun _ _ => hR.redirect h.scope _ _
  case funcDef => exact keep_walkFunction hR (h := h.load) hload hp hc (hdefined rfl)
  case classDef =>
    refine keep_walkClass hR (h := h.load) hload hp hc (hname _ ?_)
    rw [definedName?_placedParts .classDef]
    exact List.mem_singleton_self _
  case lambda => exact keep_walkLambda hR (h := h.load) hload hp hc
  case param => exact keep_walkParam hR (h := h.load) hload hp hc (hdefined rfl)
  case starParam => exact keep_walkParam hR (h := h.load) hload hp hc (hdefined rfl)
  case dictParam => exact keep_walkParam hR (h := h.load) hload hp hc (hdefined rfl)
  case typeAlias => exact keep_typeAlias hR (hcarry rfl) hload hp hc (hdefined rfl)
  case typeParam => exact keep_typeParam hR hload hp hc (hdefined rfl)
  -- every other kind only reads
  all_goals exact keep_goAll hR (h := h.load) hload hp hc

/-- One leaf keeps the relation. -/
theorem mirrors_walkLeaf (hR : Steady R P A) {os os' : String → Here → StateM Table Unit} {l : Leaf}
    (hos : MirrorsCode R P A os os' (.leaf l)) : Mirrors R P A (.leaf l) (walkLeaf os l) (walkLeaf os' l) := by
  rintro p q h _ hp ⟨c, rfl, hc⟩ hA
  unfold walkLeaf
  dsimp only
  split
  · next hkind =>
    refine (keep_place hR hp).then ?_
    split
    · next hstore =>
      refine keep_bind hR h.scope (hA l.text .defined ?_)
      rw [hstore]
      exact .name hkind
    · exact keep_of fun _ _ => hR.use l.text hp ⟨c, rfl, hc⟩
  · next hkind =>
    have hvalue : (Tree.leaf l).stringValue? = literalValue? l.text := by rw [stringValue?_leaf, if_pos hkind]
    split
    · split
      · next s hs =>
        split
        · exact sim_pure trivial
        · next hne => exact hos s h _ (hvalue.trans hs) hne ⟨c, rfl, hc⟩ hA
      · exact sim_pure trivial
    · exact sim_pure trivial
  · exact sim_pure trivial

/-! ### Whole trees -/

/-- Reading a string as code keeps the relation. -/
def KeepsCode (R : Table → Table → Prop) (P : Path → Path → Prop) (A : String → Origin → Prop)
    (w v : String → Here → StateM Table Unit) (s : String) : Prop :=
  ∀ h g, HereTwin P h g → (∀ u, parseModule? s = some u → ∀ n o, Binds h.store u n o → A n o) → Keep R (w s h) (v s g)

/-- Two walks over one tree keep the relation if reading the strings in it as code does. -/
theorem mirrors_para (hR : Steady R P A) {os os' : String → Here → StateM Table Unit} {t : Tree}
    (hos : ∀ s, t.Strings s → KeepsCode R P A os os' s) :
    Mirrors R P A t (t.para (walkLeaf os) (walkNode os)) (t.para (walkLeaf os') (walkNode os')) := by
  have hcode : ∀ t : Tree, (∀ s, t.Strings s → KeepsCode R P A os os' s) → MirrorsCode R P A os os' t :=
    fun t hos s h g hs hne hg hA => hos s (.self hne hs) h g hg fun u hu n o ho => hA n o (.quoted hs hu ho)
  induction t using induct with
  | leaf l => exact mirrors_walkLeaf hR (hcode _ hos)
  | node k ts ih =>
    rw [para_node, para_node, map_eq_zip, map_eq_zip]
    refine mirrors_walkNode hR (List.length_map ..) (List.length_map ..) (fun i t hi => ?_) (hcode _ hos)
    have ht := List.mem_of_getElem? hi
    have hmirrors := ih t ht fun s hs => hos s (hs.child ht)
    simpa [walkAt, hi] using hmirrors

theorem ChainTwin.inString {quoted : Bool} {a b : Option (List (String × Path))} (h : ChainTwin P quoted a b) :
    ChainTwin P true a b := by
  cases h with
  | none => exact .none
  | some hchain => exact .some ⟨hchain.1.imp fun _ _ hb => ⟨hb.1, .inl rfl⟩, hchain.2⟩

/-- Reading a string as code keeps the relation; both sides go equally deep, or deep enough. -/
theorem keepsCode_walkString (hR : Steady R P A) (d d' : Nat) (s : String)
    (hd : d = d' ∨ s.length < d ∧ s.length < d') : KeepsCode R P A (walkString d) (walkString d') s := by
  induction d generalizing d' s with
  | zero =>
    obtain rfl | ⟨hlt, -⟩ := hd
    · exact fun _ _ _ _ => sim_pure trivial
    · exact absurd hlt (Nat.not_lt_zero _)
  | succ d ih =>
    obtain ⟨e, rfl⟩ : ∃ e, d' = e + 1 := ⟨d' - 1, by omega⟩
    rintro h _ ⟨c, rfl, hc⟩ hA
    unfold walkString
    cases hparse : parseModule? s with
    | none => exact sim_pure trivial
    | some t =>
      refine mirrors_para hR (fun s' hs' => ih e s' ?_) [] [] { h with quoted := true } _ (.inl rfl) ⟨c, rfl, ?_⟩
        (hA t hparse)
      · have hlt := length_lt_of_strings hparse hs'
        omega
      · exact hc.inString

/-- Two walks over one tree keep the relation; both read strings equally deep, or deep enough. -/
theorem mirrors_walk (hR : Steady R P A) {t : Tree} {d d' : Nat}
    (hd : d = d' ∨ t.text.length ≤ d ∧ t.text.length ≤ d') :
    Mirrors R P A t (t.para (walkLeaf (walkString d)) (walkNode (walkString d)))
      (t.para (walkLeaf (walkString d')) (walkNode (walkString d'))) := by
  refine mirrors_para hR fun s hs => keepsCode_walkString hR d d' s ?_
  have hlt := length_lt_text_of_strings hs
  omega

end Walk

end FluentShift.Scope
