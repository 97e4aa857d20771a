import FluentShift.Proofs.Scope.Steady

/-!
# FluentShift.Proofs.Scope.Bound - where the bindings of a module come from

Every binding of a module is one that its tree can make (`binds_of_mem_bindings`).
-/

namespace FluentShift.Scope

open FluentShift.Source FluentShift.Source.Tree

theorem bindings_bind (s : ScopeId) (n : String) (o : Origin) (t : Table) :
    ∃ target index, ((bind s n o).run t).2.bindings = t.bindings ++ [⟨n, target, o, index⟩] := ⟨_, _, rfl⟩

theorem bindings_redirect (s : ScopeId) (ns : List String) (r : Redirect) (t : Table) :
    ((redirect s ns r).run t).2.bindings = t.bindings := by
  unfold redirect
  split <;> rfl

/-- A use is recorded alike at places that are alike. -/
theorem use_eq {n : String} {p q : Path} {h g : Here} (hp : Twin Eq h.quoted p q) (hg : HereTwin Eq h g) :
    use n p h = use n q g := by
  obtain ⟨c, rfl, hc⟩ := hg
  have hnode : ∀ r r' : Path, Twin Eq h.quoted r r' →
      (if h.quoted then none else some r : Option Path) = if h.quoted then none else some r' := by
    intro r r' hr
    split
    · rfl
    · next hq => exact congrArg some (hr.resolve_left hq)
  have hchain : ((h.chain.getD []).map fun b => (b.1, (if h.quoted then none else some b.2 : Option Path))) =
      (c.getD []).map fun b => (b.1, (if h.quoted then none else some b.2 : Option Path)) := by
    obtain ⟨hall, -⟩ := chain_getD hc namesTwin_nil
    generalize h.chain.getD [] = xs at hall
    generalize c.getD [] = ys at hall
    induction hall with
    | nil => rfl
    | cons hb _ ih => rw [List.map_cons, List.map_cons, ih, hb.1, hnode _ _ hb.2]
  unfold use
  simp only [hchain, hnode p q hp]

/-- A table whose bindings are all allowed. -/
def Allowed (A : String → Origin → Prop) (t : Table) : Prop := ∀ b ∈ t.bindings, A b.name b.origin

/-- What every step of a walk keeps is a steady relation of a table to itself. -/
theorem steady_invariant {I : Table → Prop} {A : String → Origin → Prop}
    (bind : ∀ {t : Table} (s : ScopeId) (n : String) (o : Origin), A n o → I t → I ((bind s n o).run t).2)
    (use : ∀ {t : Table} {us : List Use}, I t → I { t with uses := us })
    (place : ∀ {t : Table} {ps : List (Path × ScopeId)}, I t → I { t with places := ps })
    (openScope : ∀ {t : Table} (k : ScopeKind) (h : Here), I t → I ((openScope k h).run t).2)
    (redirect : ∀ {t : Table} (s : ScopeId) (ns : List String) (r : Redirect), I t → I ((redirect s ns r).run t).2) :
    Steady (fun t u => t = u ∧ I t) Eq A where
  cons i h := by rw [h]
  parent s h := by rw [h.1]
  size h := by rw [h.1]
  hints s name n h _ := by rw [h.1]
  bind := by
    rintro t _ s n o hA ⟨rfl, ht⟩
    exact ⟨rfl, bind s n o hA ht⟩
  use := by
    rintro t _ n p q h g hp hg ⟨rfl, ht⟩
    exact ⟨by rw [use_eq hp hg], use ht⟩
  place := by
    rintro t _ p _ s rfl ⟨rfl, ht⟩
    exact ⟨rfl, place ht⟩
  openScope := by
    rintro t _ k h ⟨rfl, ht⟩
    exact ⟨rfl, openScope k h ht⟩
  redirect := by
    rintro t _ s ns r ⟨rfl, ht⟩
    exact ⟨rfl, redirect s ns r ht⟩

theorem steady_allowed (A : String → Origin → Prop) : Steady (fun t u => t = u ∧ Allowed A t) Eq A := by
  refine steady_invariant ?_ id id (fun _ _ ht => ht) ?_
  · intro t s n o hA ht b hb
    obtain ⟨target, index, heq⟩ := bindings_bind s n o t
    rw [heq] at hb
    rcases List.mem_append.mp hb with hb | hb
    · exact ht b hb
    · rw [List.mem_singleton.mp hb]
      exact hA
  · intro t s ns r ht b hb
    rw [bindings_redirect] at hb
    exact ht b hb

/-- Every binding of a module is one that its tree can make. -/
theorem binds_of_mem_bindings {t : Tree} {b : Binding} (h : b ∈ (Table.ofModule t).bindings) :
    Binds false t b.name b.origin := by
  have hkeep := mirrors_walk (steady_allowed (Binds false t)) (t := t) (d := t.text.length) (.inl rfl) [] [] .start .start
    (.inr rfl) ⟨none, rfl, .none⟩ (fun _ _ ho => ho)
  exact (hkeep .empty .empty ⟨rfl, fun b hb => absurd hb List.not_mem_nil⟩).1.2 b h

end FluentShift.Scope
