import Mathlib.Data.List.Flatten
import FluentShift.Proofs.Source.Paths
import FluentShift.Source.File

/-!
# FluentShift.Proofs.Source.Items - children with and without trivia

The parts of a node are its children that are no trivia (`partsOf`).  Taking children apart into items keeps the parts as
bodies (`map_body_items`), and the end of a file loses trivia only (`parts_trimEnd`).
-/

namespace FluentShift.Source

/-! ### Children that are no trivia -/

/-- The trees that are no trivia. -/
def partsOf (ts : List Tree) : List Tree := ts.filter (!·.isTrivia)

theorem parts_node (k : Kind) (ts : List Tree) : (Tree.node k ts).parts = partsOf ts := rfl

theorem partsOf_append (ts us : List Tree) : partsOf (ts ++ us) = partsOf ts ++ partsOf us := List.filter_append ..

theorem partsOf_cons (t : Tree) (ts : List Tree) :
    partsOf (t :: ts) = if t.isTrivia then partsOf ts else t :: partsOf ts := by
  rw [partsOf, List.filter_cons]
  cases t.isTrivia <;> rfl

theorem partsOf_trivia {ts : List Tree} (h : ∀ t ∈ ts, t.isTrivia = true) : partsOf ts = [] :=
  List.filter_eq_nil_iff.mpr fun t ht => by rw [h t ht]; exact Bool.false_ne_true

theorem mem_partsOf {t : Tree} {ts : List Tree} : t ∈ partsOf ts ↔ t ∈ ts ∧ t.isTrivia = false := by
  rw [partsOf, List.mem_filter, Bool.not_eq_true']

theorem partsOf_takeWhile (ts : List Tree) : partsOf (ts.takeWhile Tree.isTrivia) = [] :=
  partsOf_trivia fun t ht => List.all_eq_true.mp List.all_takeWhile t ht

theorem partsOf_dropWhile (ts : List Tree) : partsOf (ts.dropWhile Tree.isTrivia) = partsOf ts := by
  have hsplit := partsOf_append (ts.takeWhile Tree.isTrivia) (ts.dropWhile Tree.isTrivia)
  rw [List.takeWhile_append_dropWhile, partsOf_takeWhile, List.nil_append] at hsplit
  exact hsplit.symm

theorem partsOf_wrap (k : Kind) (ts : List Tree) : partsOf (wrap k ts) = [.node k (ts.dropWhile Tree.isTrivia)] := by
  rw [wrap, partsOf_append, partsOf_takeWhile]
  rfl

theorem drop_length_takeWhile {α : Type} (p : α → Bool) (xs : List α) :
    xs.drop (xs.takeWhile p).length = xs.dropWhile p := by
  calc xs.drop (xs.takeWhile p).length
      = (xs.takeWhile p ++ xs.dropWhile p).drop (xs.takeWhile p).length := by rw [List.takeWhile_append_dropWhile]
    _ = xs.dropWhile p := List.drop_left' rfl

theorem map_fst_zip_sublist {α β : Type} (as : List α) (bs : List β) : ((as.zip bs).map Prod.fst).Sublist as := by
  induction as generalizing bs with
  | nil => simp
  | cons a as ih =>
    cases bs with
    | nil => simp
    | cons b bs => exact (ih bs).cons_cons a

/-! ### Items -/

/-- Trivia stands before something that is none. -/
def Item.Neat (i : Item) : Prop := (∀ t ∈ i.lead, t.isTrivia = true) ∧ i.body.isTrivia = false

theorem neat_itemsIn {lead ts : List Tree} (hlead : ∀ t ∈ lead, t.isTrivia = true) :
    (∀ i ∈ (itemsIn lead ts).1, i.Neat) ∧ ∀ t ∈ (itemsIn lead ts).2, t.isTrivia = true := by
  induction ts generalizing lead with
  | nil => exact ⟨List.forall_mem_nil _, hlead⟩
  | cons t ts ih =>
    unfold itemsIn
    by_cases ht : t.isTrivia = true
    · rw [if_pos ht]
      refine ih fun u hu => ?_
      rcases List.mem_append.mp hu with hu | hu
      · exact hlead u hu
      · rw [List.mem_singleton.mp hu]
        exact ht
    · rw [if_neg ht]
      obtain ⟨hneat, htail⟩ := ih (List.forall_mem_nil _)
      exact ⟨List.forall_mem_cons.mpr ⟨⟨hlead, Bool.eq_false_iff.mpr ht⟩, hneat⟩, htail⟩

theorem neat_items {ts : List Tree} : ∀ i ∈ (items ts).1, i.Neat := (neat_itemsIn (List.forall_mem_nil _)).1

theorem isTrivia_items {ts : List Tree} : ∀ t ∈ (items ts).2, t.isTrivia = true :=
  (neat_itemsIn (List.forall_mem_nil _)).2

/-- The parts among the children that neat items stand for are the bodies. -/
theorem partsOf_flatten {is : List Item} (h : ∀ i ∈ is, i.Neat) : partsOf (Item.flatten is) = is.map (·.body) := by
  induction is with
  | nil => rfl
  | cons i is ih =>
    obtain ⟨⟨hlead, hbody⟩, his⟩ := List.forall_mem_cons.mp h
    show partsOf ((i.lead ++ [i.body]) ++ Item.flatten is) = _
    rw [partsOf_append, partsOf_append, partsOf_trivia hlead, ih his, partsOf_cons, hbody]
    rfl

theorem map_body_items (ts : List Tree) : (items ts).1.map (·.body) = partsOf ts := by
  have h := congrArg partsOf (items_flatten ts)
  rwa [partsOf_append, partsOf_flatten neat_items, partsOf_trivia isTrivia_items, List.append_nil] at h

/-! ### The end of a file -/

theorem flatten_lineUp (ts : List Tree) : (lineUp ts).flatten = ts := by
  induction ts with
  | nil => rfl
  | cons t ts ih =>
    rw [lineUp]
    split
    · rw [List.flatten_cons, ih]
      rfl
    · cases hlines : lineUp ts with
      | nil =>
        rw [hlines] at ih
        rw [← ih]
        rfl
      | cons line rest =>
        rw [hlines] at ih
        rw [← ih]
        rfl

/-- The end of a module is cut off after its last statement. -/
theorem trimEnd_cases (t : Tree) :
    trimEnd t = t ∨
      ∃ kept, kept.Sublist (items t.children).2 ∧ trimEnd t = .node .module (Item.flatten (items t.children).1 ++ kept) := by
  unfold trimEnd
  by_cases hempty : (items t.children).1.isEmpty = true
  · exact .inl (if_pos hempty)
  · refine .inr ⟨_, ?_, if_neg hempty⟩
    have hdrop : ∀ n, ((lineUp (items t.children).2).drop n).flatten.Sublist (items t.children).2 := by
      intro n
      have h := List.sublist_append_right ((lineUp (items t.children).2).take n).flatten
        ((lineUp (items t.children).2).drop n).flatten
      rwa [← List.flatten_append, List.take_append_drop, flatten_lineUp] at h
    exact hdrop _

/-- The end of a module is trivia. -/
theorem trimEnd_node (ts : List Tree) :
    ∃ us, trimEnd (.node .module ts) = .node .module us ∧ us.Sublist ts ∧ partsOf us = partsOf ts := by
  rcases trimEnd_cases (.node .module ts) with h | ⟨kept, hkept, h⟩
  · exact ⟨ts, h, .refl ts, rfl⟩
  · have hflat := items_flatten ts
    refine ⟨_, h, ?_, ?_⟩
    · have hsub := (List.append_sublist_append_left (Item.flatten (items ts).1)).mpr hkept
      rwa [show (items (Source.Tree.node .module ts).children) = items ts from rfl, hflat] at hsub
    · have htrivia : ∀ t ∈ (items ts).2, t.isTrivia = true := isTrivia_items
      have hparts := congrArg partsOf hflat
      rw [partsOf_append, partsOf_trivia htrivia] at hparts
      rw [partsOf_append, partsOf_trivia fun t ht => htrivia t (hkept.subset ht)]
      exact hparts

end FluentShift.Source
