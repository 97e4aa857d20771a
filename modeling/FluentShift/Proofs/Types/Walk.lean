import FluentShift.Types.Collect
import FluentShift.Proofs.Source.Paths
import FluentShift.Proofs.Types.Bindings

/-!
# FluentShift.Proofs.Types.Walk - what the walk over a module leaves in the tables

Every step of the walk leaves the tables `Orderly`: an entry is made by bindings alone, and a scope lies inside the scope
around it, so its node has the longer path.  That is all a way outwards needs to come to an end (`exists_outwards`), and so
the tables of a module say what their bindings agree on, and a name in it means what the nearest scope says
(`tables_ofModule`).  Nor does a step give an entry another type: the tables before it are only refined, so more statements
at the end of a module leave an entry as it is or empty it (`refines_ofModule`).
-/

namespace FluentShift.Types

open FluentShift.Source FluentShift.Scope FluentShift.Types.Bindings

/-- Tables whose entries come from bindings, over scopes that lie inside one another. -/
structure Orderly (b : Bindings) : Prop where
  bound : ∃ bs, b.entries = (Bindings.empty.bindAll bs).entries
  inner : ∀ s ∈ b.scopes, ∀ p, s.parent = some p → p.length < s.node.length

/-- The second tables have the entries of the first ones, but some of them may be empty. -/
def Refines (b b' : Bindings) : Prop :=
  ∀ k d, b.entries.lookup k = some d → b'.entries.lookup k = some d ∨ b'.entries.lookup k = some none

theorem Refines.refl (b : Bindings) : Refines b b := fun _ _ h => .inl h

theorem Refines.trans {b b' b'' : Bindings} (h : Refines b b') (h' : Refines b' b'') : Refines b b'' := by
  intro k d hd
  rcases h k d hd with hd | hnone
  · exact h' k d hd
  · exact .inr ((h' k none hnone).elim id id)

theorem refines_bind (b : Bindings) (k : Key) (d : Option TypeDesc) : Refines b (b.bind k d) := by
  intro k' d' hd'
  show (b.entries.bind k d).lookup k' = _ ∨ (b.entries.bind k d).lookup k' = _
  rw [lookup_bind]
  by_cases hk : k' = k
  · subst hk
    rw [if_pos rfl, hd']
    by_cases hd : d' = d
    · exact .inl (by rw [hd, settle_self])
    · exact .inr (by rw [settle_of_ne hd])
  · rw [if_neg hk]
    exact .inl hd'

section Outwards

variable {scopes : List TypeScope} (h : ∀ s ∈ scopes, ∀ p, s.parent = some p → p.length < s.node.length)

include h

theorem exists_outwards_from (p : Path) : ∃ chain, Outwards scopes (some p) chain := by
  cases hs : scopes.find? (·.node = p) with
  | none => exact ⟨[], .unknown hs⟩
  | some s =>
    cases hparent : s.parent with
    | none => exact ⟨[s], .scope hs (hparent ▸ .nowhere)⟩
    | some q =>
      have hnode : s.node = p := by simpa using List.find?_some hs
      have hq : q.length < p.length := hnode ▸ h s (List.mem_of_find?_eq_some hs) q hparent
      obtain ⟨chain, hchain⟩ := exists_outwards_from q
      exact ⟨s :: chain, .scope hs (hparent ▸ hchain)⟩
termination_by p.length

/-- Where scopes lie inside one another there is a way outwards from everywhere. -/
theorem exists_outwards (start : Option Path) : ∃ chain, Outwards scopes start chain := by
  cases start with
  | none => exact ⟨[], .nowhere⟩
  | some p => exact exists_outwards_from h p

end Outwards

/-! ### Steps of the walk -/

/-- A part of the walk that leaves the tables orderly, and only refines them. -/
def StaysOrderly {α : Type} (act : StateM Bindings α) : Prop :=
  ∀ b, Orderly b → Orderly (act.run b).2 ∧ Refines b (act.run b).2

section Steps

variable {α β : Type}

theorem stays_pure (a : α) : StaysOrderly (pure a) := fun b h => ⟨h, .refl b⟩

theorem StaysOrderly.bind {x : StateM Bindings α} {f : α → StateM Bindings β} (hx : StaysOrderly x)
    (hf : ∀ a, StaysOrderly (f a)) : StaysOrderly (x >>= f) := by
  intro b h
  obtain ⟨hfirst, hrefined⟩ := hx b h
  obtain ⟨hsecond, hmore⟩ := hf (x.run b).1 _ hfirst
  exact ⟨hsecond, hrefined.trans hmore⟩

theorem stays_forM {f : α → StateM Bindings Unit} {xs : List α} (h : ∀ a ∈ xs, StaysOrderly (f a)) :
    StaysOrderly (xs.forM f) := by
  induction xs with
  | nil => exact stays_pure ()
  | cons a xs ih =>
    exact (h a List.mem_cons_self).bind fun _ => ih fun a' ha' => h a' (List.mem_cons_of_mem _ ha')

theorem stays_forIn {f : α → β → StateM Bindings (ForInStep β)} {xs : List α}
    (h : ∀ a ∈ xs, ∀ b, StaysOrderly (f a b)) (b : β) : StaysOrderly (forIn xs b f) := by
  induction xs generalizing b with
  | nil => exact stays_pure b
  | cons a xs ih =>
    rw [List.forIn_cons]
    refine (h a List.mem_cons_self b).bind fun r => ?_
    cases r with
    | done b => exact stays_pure b
    | yield b => exact ih (fun a' ha' => h a' (List.mem_cons_of_mem _ ha')) b

theorem stays_record (k : Key) (d : Option TypeDesc) : StaysOrderly (modify (·.bind k d)) := by
  rintro b ⟨⟨bs, hbs⟩, hinner⟩
  refine ⟨⟨⟨bs ++ [(k, d)], ?_⟩, hinner⟩, refines_bind b k d⟩
  rw [bindAll_concat]
  show b.entries.bind k d = (Bindings.empty.bindAll bs).entries.bind k d
  rw [hbs]

theorem stays_typingNow (v : Vocabulary) (table : Table) : StaysOrderly (typingNow v table) :=
  fun b h => ⟨h, .refl b⟩

theorem stays_bindInferred (scope : Path) (name : String) (d : Option TypeDesc) :
    StaysOrderly (bindInferred scope name d) := stays_record _ _

theorem stays_bindAnnotated (scope : Path) (name : String) (d : Option TypeDesc) :
    StaysOrderly (bindAnnotated scope name d) := stays_record _ _

theorem stays_bindTarget (scope : Path) (target : Tree) (d : Option TypeDesc) :
    StaysOrderly (bindTarget scope target d) := stays_forM fun _ _ => stays_bindInferred _ _ _

theorem stays_enterScope {node : Path} {parent : Option Path} (h : ∀ p, parent = some p → p.length < node.length)
    (isClass : Bool) : StaysOrderly (enterScope node parent isClass) :=
  fun b hb => ⟨⟨hb.bound, List.forall_mem_cons.mpr ⟨h, hb.inner⟩⟩, .refl b⟩

theorem stays_bindParameters (v : Vocabulary) (table : Table) (p : Path) (t : Tree) :
    StaysOrderly (bindParameters v table p t) := by
  unfold bindParameters
  refine (stays_forIn (fun c _ _ => ?_) _).bind fun _ => stays_forM fun _ _ => stays_bindInferred _ _ _
  refine (stays_typingNow v table).bind fun ty => ?_
  split
  · exact (stays_bindAnnotated _ _ _).bind fun _ => stays_pure _
  · split <;> exact (stays_bindInferred _ _ _).bind fun _ => stays_pure _

end Steps

/-! ### The walk -/

/-- Reading a tree inside the scope of a node above it leaves the tables orderly. -/
def CollectsOrderly (c : Collect) : Prop := ∀ p scope, scope.length < p.length → StaysOrderly (c p scope)

section Walk

variable {ts : List (Tree × Collect)} {p : Path}

theorem collects_leaf (l : Leaf) : CollectsOrderly (collectLeaf l) := by
  intro p scope _
  unfold collectLeaf
  split
  · exact fun b h => ⟨⟨h.bound, h.inner⟩, .refl b⟩
  · exact stays_pure ()

theorem stays_inside (h : ∀ c ∈ ts, CollectsOrderly c.2) {scope : Path} (hscope : scope.length ≤ p.length) :
    StaysOrderly ((Tree.locate p ts).forM fun c => c.2.2 c.1 scope) := by
  refine stays_forM fun c hc => ?_
  obtain ⟨i, hpath, -⟩ := Tree.mem_locate.mp hc
  refine h c.2 (Tree.mem_of_mem_locate hc) c.1 scope ?_
  rw [hpath, List.length_cons]
  exact Nat.lt_succ_of_le hscope

theorem stays_module (v : Vocabulary) (table : Table) (h : ∀ c ∈ ts, CollectsOrderly c.2) (p scope : Path) :
    StaysOrderly (collectNode v table .module ts p scope) :=
  (stays_enterScope (by simp) _).bind fun _ => stays_inside h (Nat.le_refl _)

theorem collects_node (v : Vocabulary) (table : Table) (k : Kind) (h : ∀ c ∈ ts, CollectsOrderly c.2) :
    CollectsOrderly (collectNode v table k ts) := by
  intro p scope hscope
  unfold collectNode
  extract_lets self parts inside
  have hinner : StaysOrderly (inside p) := stays_inside h (Nat.le_refl _)
  have houter : StaysOrderly (inside scope) := stays_inside h (Nat.le_of_lt hscope)
  have hbelow : ∀ q, some scope = some q → q.length < p.length := by
    rintro q ⟨⟩
    exact hscope
  clear_value self parts inside
  split
  · -- a module
    exact (stays_enterScope (by simp) _).bind fun _ => hinner
  · -- a class
    exact (stays_bindInferred _ _ _).bind fun _ => (stays_enterScope hbelow _).bind fun _ => hinner
  · -- a function
    refine (stays_typingNow v table).bind fun ty => (stays_bindInferred _ _ _).bind fun _ => ?_
    exact (stays_enterScope hbelow _).bind fun _ => (stays_bindParameters v table p self).bind fun _ => hinner
  · -- a lambda
    exact (stays_enterScope hbelow _).bind fun _ => (stays_bindParameters v table p self).bind fun _ => hinner
  · -- an annotation
    split
    · split
      · exact (stays_typingNow v table).bind fun _ => (stays_bindAnnotated _ _ _).bind fun _ => houter
      · exact houter
    · exact houter
  · -- an assignment
    refine houter.bind fun _ => ?_
    split
    · exact (stays_typingNow v table).bind fun _ => stays_forM fun _ _ => stays_bindTarget _ _ _
    · exact stays_pure ()
  · -- an assignment with an operator
    refine houter.bind fun _ => ?_
    split
    · exact stays_bindTarget _ _ _
    · exact stays_pure ()
  · -- an assignment inside an expression
    refine houter.bind fun _ => ?_
    split
    · exact (stays_typingNow v table).bind fun _ => stays_bindTarget _ _ _
    · exact stays_pure ()
  · -- a loop
    exact (stays_forM fun _ _ => stays_bindTarget _ _ _).bind fun _ => houter
  · -- an item of a `with`
    exact (stays_forM fun _ _ => stays_bindTarget _ _ _).bind fun _ => houter
  · -- a handler
    split
    · exact (stays_forM fun _ _ => stays_bindTarget _ _ _).bind fun _ => houter
    · exact houter
  · exact houter

/-- Reading any tree below a scope leaves the tables orderly. -/
theorem collects_para (v : Vocabulary) (table : Table) (t : Tree) :
    CollectsOrderly (t.para collectLeaf (collectNode v table)) := by
  induction t using Tree.induct with
  | leaf l => exact collects_leaf l
  | node k ts ih =>
    rw [Tree.para_node]
    refine collects_node v table k fun c hc => ?_
    obtain ⟨t, ht, rfl⟩ := List.mem_map.mp hc
    exact ih t ht

theorem orderly_ofModule (v : Vocabulary) (table : Table) {t : Tree} (ht : t.isKind .module = true) :
    Orderly (Typing.ofModule v table t).bindings := by
  obtain ⟨ts, rfl⟩ := Tree.exists_of_isKind ht
  have hwalk : StaysOrderly ((Source.Tree.node .module ts).para collectLeaf (collectNode v table) [] []) := by
    rw [Tree.para_node]
    refine stays_module v table (fun c hc => ?_) [] []
    obtain ⟨t, -, rfl⟩ := List.mem_map.mp hc
    exact collects_para v table t
  exact (hwalk .empty ⟨⟨[], rfl⟩, nofun⟩).1

/-- What is read of a module with more statements at its end is what is read of it, and then refined. -/
theorem refines_ofModule (v : Vocabulary) (table : Table) (ts us : List Tree) :
    Refines (Typing.ofModule v table (.node .module ts)).bindings
      (Typing.ofModule v table (.node .module (ts ++ us))).bindings := by
  let read (c : Path × Tree) : StateM Bindings Unit := c.2.para collectLeaf (collectNode v table) c.1 []
  have hmodule : ∀ ts : List Tree, (Source.Tree.node .module ts).para collectLeaf (collectNode v table) [] [] =
      enterScope [] none false >>= fun _ => (Tree.locate [] ts).forM read := by
    intro ts
    rw [Tree.para_node]
    show enterScope [] none false >>= (fun _ =>
      (Tree.locate [] (ts.map fun t => (t, t.para collectLeaf (collectNode v table)))).forM fun c => c.2.2 c.1 []) = _
    rw [Tree.locate_map]
    exact congrArg _ (funext fun _ => List.forM_map ..)
  have hrest : StaysOrderly (((us.zipIdx ts.length).map fun t => (t.2 :: [], t.1)).forM read) := by
    refine stays_forM fun c hc => ?_
    obtain ⟨t, -, rfl⟩ := List.mem_map.mp hc
    exact collects_para v table t.1 _ _ (by simp)
  have hsplit : (Tree.locate [] (ts ++ us)).forM read =
      (Tree.locate [] ts).forM read >>= fun _ => ((us.zipIdx ts.length).map fun t => (t.2 :: [], t.1)).forM read := by
    rw [Tree.locate, List.zipIdx_append, List.map_append, Nat.zero_add]
    exact List.forM_append ..
  have hall : (Typing.ofModule v table (.node .module (ts ++ us))).bindings =
      ((((us.zipIdx ts.length).map fun t => (t.2 :: [], t.1)).forM read).run
        (Typing.ofModule v table (.node .module ts)).bindings).2 := by
    unfold Typing.ofModule
    dsimp only
    rw [hmodule, hmodule, hsplit]
    rfl
  rw [hall]
  exact (hrest _ (orderly_ofModule v table rfl)).2

end Walk

/-- The tables of a module hold what the bindings in it agree on, and a name means what the nearest scope says that has an
entry for it. -/
theorem tables_ofModule (v : Vocabulary) (table : Table) {t : Tree} (ht : t.isKind .module = true) :
    let b := (Typing.ofModule v table t).bindings
    (∃ bs, ∀ k, Leaves bs k (b.entries.lookup k)) ∧
      ∀ node, ∃ chain, Outwards b.scopes (b.names.lookup node) chain ∧
        ∀ name, b.lookup node name = b.nearest name (visible chain) := by
  intro b
  obtain ⟨⟨bs, hbs⟩, hinner⟩ := orderly_ofModule v table ht
  refine ⟨⟨bs, fun k => ?_⟩, fun node => ?_⟩
  · rw [hbs, lookup_bindAll rfl]
    exact leaves_agreed bs k
  · obtain ⟨chain, hchain⟩ := exists_outwards hinner (b.names.lookup node)
    exact ⟨chain, hchain, lookup_of_outwards hchain⟩

end FluentShift.Types
