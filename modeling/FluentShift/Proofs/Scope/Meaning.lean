import FluentShift.Proofs.Scope.Bound
import FluentShift.Proofs.Scope.Grown

/-!
# FluentShift.Proofs.Scope.Meaning - what the name at a node means

A name that resolves in a module means bindings of the module (`Table.meanings`), and has their qualified names and no
others (`mem_qualifiedAt`).  Only a scope that is no function, no comprehension and no class with a name of its own gives
the names in it no qualification (`isOpen_of_label`).
-/

namespace FluentShift.Scope

open FluentShift.Source FluentShift.Source.Tree

/-! ### Bindings that a name means -/

namespace Table

variable {t : Table} {p : Path} {g : String}

/-- The bindings that the name at a node means. -/
def meanings (t : Table) (p : Path) : List Binding :=
  (t.uses.filter fun u => (t.resolveUse u).2 = some p).flatMap t.referents

/-- The name at a node is read as an expression, and every use there means bindings of the name `g`. -/
structure ResolvesAt (t : Table) (p : Path) (g : String) : Prop where
  placed : t.places.lookup p ≠ none
  used : ∃ u ∈ t.uses, (t.resolveUse u).2 = some p
  bound : ∀ u ∈ t.uses, (t.resolveUse u).2 = some p →
    (t.resolveUse u).1 = g ∧ t.lookup u.scope g ≠ [] ∧ t.referents u ≠ []

instance (t : Table) (p : Path) (g : String) : Decidable (t.ResolvesAt p g) :=
  decidable_of_iff (t.places.lookup p ≠ none ∧ (∃ u ∈ t.uses, (t.resolveUse u).2 = some p) ∧
    ∀ u ∈ t.uses, (t.resolveUse u).2 = some p →
      (t.resolveUse u).1 = g ∧ t.lookup u.scope g ≠ [] ∧ t.referents u ≠ [])
    ⟨fun h => ⟨h.1, h.2.1, h.2.2⟩, fun h => ⟨h.placed, h.used, h.bound⟩⟩

/-- A search finds bindings of the name. -/
theorem of_mem_search {n : String} {origin : ScopeId} {b : Binding} {fuel : Nat} {s : ScopeId}
    (h : b ∈ t.search n origin fuel s) : b ∈ t.bindings ∧ b.name = n := by
  have hown : ∀ {s}, b ∈ t.own s n → b ∈ t.bindings ∧ b.name = n := by
    intro s hb
    obtain ⟨hmem, hb⟩ := List.mem_filter.mp hb
    rw [Bool.and_eq_true] at hb
    exact ⟨hmem, of_decide_eq_true hb.2⟩
  induction fuel generalizing s with
  | zero => cases h
  | succ fuel ih =>
    have hout : b ∈ (if s = 0 then [] else t.search n origin fuel (t.info s).parent) → b ∈ t.bindings ∧ b.name = n := by
      intro hb
      split at hb
      · cases hb
      · exact ih hb
    rw [search_succ] at h
    unfold foundIn at h
    split at h
    · exact hout h
    · split at h
      · exact hown h
      · exact hout h
      · split at h
        · exact hout h
        · exact hown h

theorem of_mem_referents {u : Use} {b : Binding} (h : b ∈ t.referents u) :
    b ∈ t.bindings ∧ b.name = (t.resolveUse u).1 := by
  unfold referents at h
  dsimp only at h
  split at h
  · exact of_mem_search h
  · exact of_mem_search (List.mem_of_mem_filter h)

theorem mem_meanings {b : Binding} :
    b ∈ t.meanings p ↔ ∃ u ∈ t.uses, (t.resolveUse u).2 = some p ∧ b ∈ t.referents u := by
  simp only [meanings, List.mem_flatMap, List.mem_filter, decide_eq_true_eq, and_assoc]

theorem ResolvesAt.meanings_ne_nil (h : t.ResolvesAt p g) : t.meanings p ≠ [] := by
  obtain ⟨u, hu, hnode⟩ := h.used
  obtain ⟨b, hb⟩ := List.exists_mem_of_ne_nil _ (h.bound u hu hnode).2.2
  exact List.ne_nil_of_mem (mem_meanings.mpr ⟨u, hu, hnode, hb⟩)

theorem ResolvesAt.of_mem_meanings (h : t.ResolvesAt p g) {b : Binding} (hb : b ∈ t.meanings p) :
    b ∈ t.bindings ∧ b.name = g := by
  obtain ⟨u, hu, hnode, hb⟩ := mem_meanings.mp hb
  obtain ⟨hmem, hname⟩ := of_mem_referents hb
  exact ⟨hmem, hname.trans (h.bound u hu hnode).1⟩

theorem ResolvesAt.mem_qualifiedUse (h : t.ResolvesAt p g) {u : Use} (hu : u ∈ t.uses)
    (hnode : (t.resolveUse u).2 = some p) {n : String} :
    n ∈ t.qualifiedUse u ↔ ∃ b ∈ t.referents u, n ∈ b.qualified t b.name := by
  obtain ⟨hname, hlookup, href⟩ := h.bound u hu hnode
  unfold qualifiedUse
  dsimp only
  rw [hname]
  split
  · next hnil => exact absurd hnil hlookup
  · split
    · next hnil => exact absurd hnil href
    · rw [List.mem_eraseDups, List.mem_flatMap]

/-- A name that resolves has the qualified names of the bindings that it means. -/
theorem ResolvesAt.mem_qualifiedAt (h : t.ResolvesAt p g) {e : Source.Tree} {n : String} :
    n ∈ t.qualifiedAt p e ↔ ∃ b ∈ t.meanings p, n ∈ b.qualified t b.name := by
  unfold qualifiedAt
  split
  · next hnone => exact absurd hnone h.placed
  · split
    · next hnil =>
      obtain ⟨u, hu, hnode⟩ := h.used
      exact absurd hnil (List.ne_nil_of_mem (List.mem_filter.mpr ⟨hu, decide_eq_true hnode⟩))
    · simp only [List.mem_eraseDups, List.mem_flatMap, mem_meanings]
      constructor
      · rintro ⟨u, hu, hn⟩
        obtain ⟨hu, hnode⟩ := List.mem_filter.mp hu
        obtain ⟨b, hb, hn⟩ := (h.mem_qualifiedUse hu (of_decide_eq_true hnode)).mp hn
        exact ⟨b, ⟨u, hu, of_decide_eq_true hnode, hb⟩, hn⟩
      · rintro ⟨b, ⟨u, hu, hnode, hb⟩, hn⟩
        exact ⟨u, List.mem_filter.mpr ⟨hu, decide_eq_true hnode⟩, (h.mem_qualifiedUse hu hnode).mpr ⟨b, hb, hn⟩⟩

end Table

/-! ### Qualified names of the bindings of a module -/

theorem afterHead?_self (n : String) : afterHead? n n = some "" := by
  unfold afterHead?
  dsimp only
  rw [if_pos (List.isPrefixOf_iff_prefix.mpr (List.prefix_refl _)), List.drop_length]

theorem dottedPrefixes_ne_nil (n : String) : dottedPrefixes n ≠ [] := by
  have hparts : (dottedParts n).length ≠ 0 := by
    rw [dottedParts, Text.split, List.length_map]
    cases n.toList with
    | nil => exact Nat.succ_ne_zero _
    | cons c cs =>
      rw [Text.splitChars]
      split
      · exact Nat.succ_ne_zero _
      · split <;> exact Nat.succ_ne_zero _
  intro h
  have hlength := congrArg List.length h
  rw [dottedPrefixes, List.length_map, List.length_range] at hlength
  exact hparts hlength

/-- An import gives a qualified name to every name that it binds. -/
theorem importedQualified_ne_nil {i : ImportStatement} {n : String} (h : n ∈ importNames i) :
    importedQualified i n ≠ [] := by
  obtain ⟨m, hm, hn⟩ := List.mem_flatMap.mp h
  obtain ⟨real, hreal, hhead⟩ : ∃ real ∈ dottedPrefixes m.name, m.alias_.getD real = n := by
    cases halias : m.alias_ with
    | none => rw [halias] at hn; exact ⟨n, hn, rfl⟩
    | some a =>
      rw [halias] at hn
      obtain ⟨real, hreal⟩ := List.exists_mem_of_ne_nil _ (dottedPrefixes_ne_nil m.name)
      exact ⟨real, hreal, (List.mem_singleton.mp hn).symm⟩
  intro hnil
  have hnone := List.filterMap_eq_nil_iff.mp hnil m hm
  have hself := List.findSome?_eq_none_iff.mp hnone real hreal
  rw [hhead, afterHead?_self] at hself
  cases hself

theorem mem_importNames_of_own {k : Kind} {ts : List Source.Tree} {n : String} {i : ImportStatement}
    (h : (n, Origin.imported i) ∈ ownBindings k ts) : n ∈ importNames i := by
  have himport : ∀ j : ImportStatement, (n, Origin.imported i) ∈ (importNames j).map (·, Origin.imported j) →
      n ∈ importNames i := by
    intro j h
    obtain ⟨m, hm, heq⟩ := List.mem_map.mp h
    cases heq
    exact hm
  have hdefined : ∀ names : List String, (n, Origin.imported i) ∉ names.map (·, Origin.defined) := by
    intro names h
    obtain ⟨m, -, heq⟩ := List.mem_map.mp h
    cases heq
  cases k with
  | importStmt | importFrom =>
    dsimp only [ownBindings] at h
    split at h
    · exact himport _ h
    · cases h
  | funcDef | param | starParam | dictParam | typeAlias | typeParam => exact absurd h (hdefined _)
  | classDef => cases List.mem_singleton.mp h
  | _ => cases h

theorem mem_importNames_of_binds {store : Bool} {t : Source.Tree} {n : String} {o : Origin} (h : Binds store t n o)
    {i : ImportStatement} (ho : o = .imported i) : n ∈ importNames i := by
  induction h with
  | name => cases ho
  | own hmem =>
    subst ho
    exact mem_importNames_of_own hmem
  | carried _ _ _ ih | target _ _ ih | child _ _ ih | quoted _ _ _ ih => exact ih ho

/-- Every binding of a module has a qualified name. -/
theorem qualified_ne_nil {t : Source.Tree} {b : Binding} (h : b ∈ (Table.ofModule t).bindings) :
    b.qualified (Table.ofModule t) b.name ≠ [] := by
  unfold Binding.qualified
  split
  · next i ho => exact importedQualified_ne_nil (mem_importNames_of_binds (binds_of_mem_bindings h) ho)
  · exact List.cons_ne_nil _ _

/-! ### Scopes without a label -/

/-- A scope that is no function, no comprehension, and no class with a name of its own. -/
def ScopeKind.IsOpen : ScopeKind → Prop
  | .module | .hint => True
  | .class n => n = "" ∨ n = "builtins"
  | .function _ | .comprehension => False

/-- A label that leaves names as they are, once the mark of the language's own names is taken off. -/
def IsBare (label : String) : Prop := label = "" ∨ label = "builtins"

theorem not_isBare_of_mem {label : String} {c : Char} (hc : c = '.' ∨ c = '<') (h : c ∈ label.toList) : ¬IsBare label := by
  rintro (rfl | rfl) <;> obtain rfl | rfl := hc <;> exact absurd h (by decide)

theorem mem_toList_intercalate {sep : String} {parts : List String} (part : String) (h : part ∈ parts) {c : Char}
    (hc : c ∈ part.toList) : c ∈ (String.intercalate sep parts).toList := by
  cases parts with
  | nil => cases h
  | cons a as =>
    rw [Text.toList_intercalate_cons, List.mem_append, List.mem_flatMap]
    obtain rfl | h := List.mem_cons.mp h
    · exact .inl hc
    · exact .inr ⟨part, h, List.mem_append_right _ hc⟩

/-- A scope that is opened has a bare label only if it is open. -/
theorem run_openScope (k : ScopeKind) (h : Here) (t : Table) :
    ∃ label, ((openScope k h).run t).2 = { t with scopes := t.scopes.push ⟨k, h.scope, label, [], 0⟩ } ∧
      (IsBare label → k.IsOpen) := by
  refine ⟨_, rfl, ?_⟩
  cases k with
  | module | hint => exact fun _ => trivial
  -- what opens a scope of its own is part of the label, which is not bare then
  | function name =>
    refine fun hbare => absurd hbare (not_isBare_of_mem (.inr rfl) (mem_toList_intercalate "<locals>" ?_ ?_))
    · exact List.mem_filter.mpr ⟨by simp, rfl⟩
    · decide
  | comprehension =>
    refine fun hbare => absurd hbare
      (not_isBare_of_mem (.inr rfl) (mem_toList_intercalate "<comprehension>" ?_ ?_))
    · exact List.mem_filter.mpr ⟨by simp, rfl⟩
    · decide
  | «class» name =>
    intro hbare
    by_cases hname : name = ""
    · exact .inl hname
    · by_cases houter : (t.info h.scope).label = ""
      · simp only [houter, hname, List.filter_cons, decide_not, decide_true, decide_false, Bool.not_true, Bool.not_false,
          Bool.false_eq_true, if_true, if_false, List.filter_nil, String.intercalate_singleton] at hbare
        exact .inr (hbare.resolve_left hname)
      · refine absurd hbare (not_isBare_of_mem (.inl rfl) ?_)
        simp only [houter, hname, List.filter_cons, decide_not, decide_false, Bool.not_false, if_true, List.filter_nil,
          Text.toList_intercalate_cons, List.flatMap_cons]
        simp

/-- The module has no label, and only an open scope has a bare one. -/
structure Labelled (t : Table) : Prop where
  some_scope : 0 < t.scopes.size
  module : (t.info 0).label = ""
  bare : ∀ s, IsBare (t.info s).label → (t.info s).kind.IsOpen

theorem Labelled.modify {t : Table} (ht : Labelled t) (bs : List Binding) (target : ScopeId)
    {f : ScopeInfo → ScopeInfo} (hf : ∀ i, (f i).label = i.label ∧ (f i).kind = i.kind) :
    Labelled { t with bindings := bs, scopes := t.scopes.modify target f } := by
  have hsame : ∀ s, (Table.info { t with bindings := bs, scopes := t.scopes.modify target f } s).label = (t.info s).label ∧
      (Table.info { t with bindings := bs, scopes := t.scopes.modify target f } s).kind = (t.info s).kind := by
    intro s
    rw [info_modify]
    split
    · exact hf _
    · exact ⟨rfl, rfl⟩
  refine ⟨?_, ?_, fun s => ?_⟩
  · show 0 < (t.scopes.modify target f).size
    rw [Array.size_modify]
    exact ht.some_scope
  · rw [(hsame 0).1]
    exact ht.module
  · rw [(hsame s).1, (hsame s).2]
    exact ht.bare s

theorem steady_labelled : Steady (fun t u => t = u ∧ Labelled t) Eq (fun _ _ => True) := by
  refine steady_invariant (fun s n o _ ht => ht.modify _ _ fun _ => ⟨rfl, rfl⟩)
    (fun ht => ⟨ht.some_scope, ht.module, ht.bare⟩) (fun ht => ⟨ht.some_scope, ht.module, ht.bare⟩) ?_ ?_
  · intro t k h ht
    obtain ⟨label, heq, hopen⟩ := run_openScope k h t
    rw [heq]
    refine ⟨?_, ?_, fun s => ?_⟩
    · show 0 < (t.scopes.push _).size
      rw [Array.size_push]
      exact Nat.succ_pos _
    · rw [info_push, if_neg (Nat.ne_of_lt ht.some_scope)]
      exact ht.module
    · rw [info_push]
      split
      · exact hopen
      · exact ht.bare s
  · intro t s ns r ht
    unfold redirect
    split
    · exact ht
    · exact ht.modify _ _ fun _ => ⟨rfl, rfl⟩

/-- In a module only an open scope has a bare label. -/
theorem labelled_ofModule (t : Source.Tree) : Labelled (Table.ofModule t) := by
  have hkeep := mirrors_walk steady_labelled (t := t) (d := t.text.length) (.inl rfl) [] [] .start .start (.inr rfl)
    ⟨none, rfl, .none⟩ (fun _ _ _ => trivial)
  refine (hkeep .empty .empty ⟨rfl, ⟨Nat.one_pos, rfl, fun s _ => ?_⟩⟩).1.2
  cases s with
  | zero => trivial
  | succ s => trivial

end FluentShift.Scope
