/-!
# FluentShift.Text.Split - cutting texts at a character, and putting lists in order

Both are written by structural recursion, so that a closed text or list is cut or ordered by computation.
-/

namespace FluentShift.Text

/-- The parts of a list of characters between the occurrences of `sep`; there is one part more than there are
occurrences. -/
def splitChars (sep : Char) : List Char → List (List Char)
  | [] => [[]]
  | c :: cs =>
    if c = sep then [] :: splitChars sep cs
    else match splitChars sep cs with
      | [] => [[c]]
      | w :: ws => (c :: w) :: ws

/-- The parts of a text between the occurrences of `sep`. -/
def split (sep : Char) (s : String) : List String :=
  (splitChars sep s.toList).map String.ofList

/-- Whether a list of texts comes before another or is the same: the first texts that differ decide. -/
def listLe : List String → List String → Bool
  | [], _ => true
  | _ :: _, [] => false
  | a :: as, b :: bs => if a = b then listLe as bs else decide (a ≤ b)

/-- Puts an item into an ordered list, before the items that are not less. -/
def insertBy {α : Type} (le : α → α → Bool) (a : α) : List α → List α
  | [] => [a]
  | b :: bs => if le a b then a :: b :: bs else b :: insertBy le a bs

/-- A list in order; items that are alike keep theirs. -/
def sortBy {α : Type} (le : α → α → Bool) (as : List α) : List α :=
  as.foldr (insertBy le) []

/-! ### Cutting and joining -/

theorem splitChars_of_notMem {sep : Char} {cs : List Char} (h : sep ∉ cs) : splitChars sep cs = [cs] := by
  induction cs with
  | nil => rfl
  | cons c cs ih =>
    rw [List.mem_cons, not_or] at h
    rw [splitChars, if_neg (Ne.symm h.1), ih h.2]

theorem splitChars_append_cons {sep : Char} {w : List Char} (h : sep ∉ w) (cs : List Char) :
    splitChars sep (w ++ sep :: cs) = w :: splitChars sep cs := by
  induction w with
  | nil => rw [List.nil_append, splitChars, if_pos rfl]
  | cons c w ih =>
    rw [List.mem_cons, not_or] at h
    rw [List.cons_append, splitChars, if_neg (Ne.symm h.1), ih h.2]

theorem notMem_of_mem_splitChars {sep : Char} {cs w : List Char} (h : w ∈ splitChars sep cs) : sep ∉ w := by
  induction cs generalizing w with
  | nil =>
    rw [List.mem_singleton.mp h]
    exact List.not_mem_nil
  | cons c cs ih =>
    rw [splitChars] at h
    split at h
    · rcases List.mem_cons.mp h with rfl | hw
      · exact List.not_mem_nil
      · exact ih hw
    · rename_i hc
      split at h
      · rw [List.mem_singleton.mp h, List.mem_singleton]
        exact Ne.symm hc
      · rename_i v vs hsplit
        rcases List.mem_cons.mp h with rfl | hw
        · have hv : sep ∉ v := ih (hsplit ▸ List.mem_cons_self)
          rw [List.mem_cons, not_or]
          exact ⟨Ne.symm hc, hv⟩
        · exact ih (hsplit ▸ List.mem_cons_of_mem _ hw)

theorem toList_intercalate_cons (sep a : String) (as : List String) :
    (String.intercalate sep (a :: as)).toList = a.toList ++ as.flatMap fun x => sep.toList ++ x.toList := by
  induction as generalizing a with
  | nil => rw [String.intercalate_singleton, List.flatMap_nil, List.append_nil]
  | cons b as ih =>
    rw [String.intercalate_cons_cons, String.toList_append, String.toList_append, ih, List.flatMap_cons, List.append_assoc,
      List.append_assoc]

/-- Texts without the separator that are joined with it are cut apart again. -/
theorem splitChars_intercalate {sep : Char} {a : String} {as : List String} (h : ∀ s ∈ a :: as, sep ∉ s.toList) :
    splitChars sep (String.intercalate (String.singleton sep) (a :: as)).toList = (a :: as).map String.toList := by
  rw [toList_intercalate_cons, String.toList_singleton]
  induction as generalizing a with
  | nil => rw [List.flatMap_nil, List.append_nil, splitChars_of_notMem (h a List.mem_cons_self)]; rfl
  | cons b as ih =>
    rw [List.flatMap_cons, List.append_assoc, List.singleton_append, splitChars_append_cons (h a List.mem_cons_self),
      List.map_cons, ih fun s hs => h s (List.mem_cons_of_mem _ hs)]

/-! ### Order -/

theorem insertBy_perm {α : Type} (le : α → α → Bool) (a : α) (bs : List α) : (insertBy le a bs).Perm (a :: bs) := by
  induction bs with
  | nil => exact List.Perm.refl _
  | cons b bs ih =>
    rw [insertBy]
    split
    · exact List.Perm.refl _
    · exact (ih.cons b).trans (List.Perm.swap a b bs)

/-- Ordering a list neither loses nor invents an item. -/
theorem sortBy_perm {α : Type} (le : α → α → Bool) (as : List α) : (sortBy le as).Perm as := by
  induction as with
  | nil => exact List.Perm.refl _
  | cons a as ih => exact (insertBy_perm le a _).trans (ih.cons a)

end FluentShift.Text
