import FluentShift.Proofs.Source.Spacing
import FluentShift.Source.Literal

/-!
# FluentShift.Proofs.Source.Quotes - strings inside a text are shorter than it

The quotes of a string are no part of its value, so a text that is read as code and the strings in it, read as code in
turn, get shorter and shorter (`length_lt_of_strings`).
-/

namespace FluentShift.Source

open FluentShift.Source.Tree

/-- The strings in a tree that are not empty: values of literals, or of several literals in a row. -/
def Tree.Strings (t : Tree) (s : String) : Prop :=
  s ≠ "" ∧ ∃ r u, t.at? r = some u ∧ u.stringValue? = some s

theorem Tree.Strings.self {t : Tree} {s : String} (hne : s ≠ "") (h : t.stringValue? = some s) : t.Strings s :=
  ⟨hne, [], t, rfl, h⟩

theorem Tree.Strings.child {k : Kind} {ts : List Tree} {t : Tree} {s : String} (h : t.Strings s) (ht : t ∈ ts) :
    (Tree.node k ts).Strings s := by
  obtain ⟨hne, r, u, hr, hu⟩ := h
  obtain ⟨i, hi⟩ := List.mem_iff_getElem?.mp ht
  refine ⟨hne, r ++ [i], u, ?_, hu⟩
  rw [at?_node_concat, hi]
  exact hr

/-! ### Literals -/

/-- One character that an escape stands for, and what comes after the escape. -/
theorem length_escape {fuel n : Nat} {cs ds : List Char} {v : Option Char}
    (ih : ∀ {ds}, unescape fuel (cs.drop n) = some ds → ds.length ≤ (cs.drop n).length)
    (h : (do return (← v) :: (← unescape fuel (cs.drop n))) = some ds) : ds.length ≤ cs.length + 1 := by
  obtain ⟨c, -, h⟩ := Option.bind_eq_some_iff.mp h
  obtain ⟨rest, hrest, h⟩ := Option.bind_eq_some_iff.mp h
  cases h
  have hlen := ih hrest
  rw [List.length_drop] at hlen
  rw [List.length_cons]
  omega

/-- An escape stands for at most as many characters as it has. -/
theorem length_unescape {fuel : Nat} {cs ds : List Char} (h : unescape fuel cs = some ds) : ds.length ≤ cs.length := by
  fun_induction unescape fuel cs generalizing ds with
  | case1 => cases h
  | case2 => cases h; exact Nat.le_refl 0
  | case3 =>
    rename_i ih
    have hlen := ih h
    simp only [List.length_cons]
    omega
  | case4 =>
    rename_i ih
    have hlen := ih h
    simp only [List.length_cons]
    split at hlen
    · simp only [List.length_drop] at hlen
      omega
    · omega
  -- the escapes of a fixed number of digits
  | case5 | case6 | case7 =>
    rename_i ih
    refine Nat.le_succ_of_le ?_
    dsimp +zetaDelta only at h
    split at h
    · cases h
    · obtain ⟨v, -, h⟩ := Option.bind_eq_some_iff.mp h
      exact length_escape (fun hr => ih _ hr) h
  | case8 => cases h
  | case9 =>
    rename_i ih
    have hlen := length_escape ih h
    simp only [List.length_cons]
    omega
  | case10 | case11 | case12 | case13 | case14 =>
    rename_i ih
    obtain ⟨r, hr, rfl⟩ := Option.map_eq_some_iff.mp h
    have hlen := ih hr
    simp only [List.length_cons]
    omega

/-- What stands between `n` quotes on each side. -/
theorem length_between {quoted : List Char} {raw : Bool} {n : Nat} {s : String} (hn : 1 ≤ n)
    (h : (if raw then some (String.ofList ((quoted.drop n).take (quoted.length - 2 * n)))
      else (unescape (((quoted.drop n).take (quoted.length - 2 * n)).length + 1)
        ((quoted.drop n).take (quoted.length - 2 * n))).map String.ofList) = some s) :
    s.length ≤ quoted.length ∧ (s ≠ "" → s.length < quoted.length) := by
  have hbody : s.toList.length ≤ ((quoted.drop n).take (quoted.length - 2 * n)).length := by
    split at h
    · cases h
      exact Nat.le_of_eq (by rw [String.toList_ofList])
    · obtain ⟨cs, hcs, rfl⟩ := Option.map_eq_some_iff.mp h
      rw [String.toList_ofList]
      exact length_unescape hcs
  rw [String.length_toList, List.length_take] at hbody
  refine ⟨by omega, fun hne => ?_⟩
  have hlen : s.length ≠ 0 := fun h0 => hne (String.length_eq_zero_iff.mp h0)
  omega

/-- The quotes of a literal are no part of its value. -/
theorem length_literalValue? {text s : String} (h : literalValue? text = some s) :
    s.length ≤ text.length ∧ (s ≠ "" → s.length < text.length) := by
  have hquoted : (text.toList.drop (stringPrefix text).length).length ≤ text.length := by
    rw [List.length_drop, String.length_toList]
    omega
  have hbetween : s.length ≤ (text.toList.drop (stringPrefix text).length).length ∧
      (s ≠ "" → s.length < (text.toList.drop (stringPrefix text).length).length) := by
    unfold literalValue? at h
    simp only at h
    split at h
    · cases h
    · exact length_between (by split <;> omega) h
  exact ⟨by omega, fun hne => by have := hbetween.2 hne; omega⟩

/-! ### Expressions -/

/-- A value that is not longer than a text, and shorter if it is not empty. -/
def Within (s text : String) : Prop := s.length ≤ text.length ∧ (s ≠ "" → s.length < text.length)

theorem Within.mono {s text text' : String} (h : Within s text) (hle : text.length ≤ text'.length) : Within s text' :=
  ⟨Nat.le_trans h.1 hle, fun hne => Nat.lt_of_lt_of_le (h.2 hne) hle⟩

theorem Within.append {s s' text text' : String} (h : Within s text) (h' : Within s' text') :
    Within (s ++ s') (text ++ text') := by
  unfold Within
  rw [String.length_append, String.length_append]
  refine ⟨Nat.add_le_add h.1 h'.1, fun hne => ?_⟩
  by_cases hs : s = ""
  · by_cases hs' : s' = ""
    · exact absurd (by rw [hs, hs']; rfl) hne
    · exact Nat.add_lt_add_of_le_of_lt h.1 (h'.2 hs')
  · exact Nat.add_lt_add_of_lt_of_le (h.2 hs) h'.1

theorem within_empty (text : String) : Within "" text := ⟨Nat.zero_le _, fun h => absurd rfl h⟩

theorem length_textAll_le {ts us : List Tree} (h : us.Sublist ts) : (textAll us).length ≤ (textAll ts).length := by
  induction h with
  | slnil => exact Nat.le_refl _
  | cons t _ ih =>
    rw [textAll_cons, String.length_append]
    omega
  | cons_cons t _ ih =>
    rw [textAll_cons, textAll_cons, String.length_append, String.length_append]
    omega

theorem length_text_le_textAll {t : Tree} {ts : List Tree} (h : t ∈ ts) : t.text.length ≤ (textAll ts).length := by
  have hle := length_textAll_le (List.singleton_sublist.mpr h)
  rwa [textAll_cons, textAll_nil, String.append_empty] at hle

theorem stringValue?_leaf (l : Leaf) :
    (Tree.leaf l).stringValue? = if l.kind = .string then literalValue? l.text else none := rfl

theorem stringValue?_node (k : Kind) (ts : List Tree) :
    (Tree.node k ts).stringValue? =
      match k, (ts.filter fun t => !t.isTrivia && !t.isMark "(" && !t.isMark ")") with
      | .paren, [t] => t.stringValue?
      | .concatenation, us => us.foldl (fun acc t => do return (← acc) ++ (← t.stringValue?)) (some "")
      | _, _ => none := by
  have hfilter := List.filter_map (f := fun t : Tree => (t, t.stringValue?))
    (p := fun t : Tree × Option String => !t.1.isTrivia && !t.1.isMark "(" && !t.1.isMark ")") (l := ts)
  unfold stringValue? at hfilter ⊢
  simp only at hfilter ⊢
  rw [para_node]
  simp only [hfilter, Function.comp_def]
  generalize ts.filter (fun t => !t.isTrivia && !t.isMark "(" && !t.isMark ")") = us
  cases k
  case paren => match us with | [] | [_] | _ :: _ :: _ => rfl
  case concatenation => exact List.foldl_map
  all_goals rfl

theorem within_concatenation {us : List Tree} (hus : ∀ t ∈ us, ∀ s, t.stringValue? = some s → Within s t.text)
    {a s text : String} (ha : Within a text)
    (h : us.foldl (fun acc t => do return (← acc) ++ (← t.stringValue?)) (some a) = some s) :
    Within s (text ++ textAll us) := by
  induction us generalizing a text with
  | nil =>
    cases h
    rwa [textAll_nil, String.append_empty]
  | cons t us ih =>
    rw [List.foldl_cons] at h
    cases ht : t.stringValue? with
    -- a part that is no string leaves no value for the whole
    | none =>
      have hnone : us.foldl (fun acc t => do return (← acc) ++ (← t.stringValue?)) none = (none : Option String) := by
        clear ih h hus
        induction us with
        | nil => rfl
        | cons u us ih => exact ih
      rw [ht] at h
      exact absurd (hnone.symm.trans h) (by simp)
    | some v =>
      rw [ht] at h
      have hv := hus t (List.mem_cons_self ..) v ht
      have hrest := ih (fun u hu => hus u (List.mem_cons_of_mem _ hu)) (ha.append hv) h
      rwa [textAll_cons, ← String.append_assoc]

/-- The value of a string expression is shorter than its text. -/
theorem within_stringValue? {t : Tree} {s : String} (h : t.stringValue? = some s) : Within s t.text := by
  induction t using induct generalizing s with
  | leaf l =>
    rw [stringValue?_leaf] at h
    split at h
    · exact length_literalValue? h
    · cases h
  | node k ts ih =>
    rw [stringValue?_node] at h
    generalize hus : ts.filter (fun t => !t.isTrivia && !t.isMark "(" && !t.isMark ")") = us at h
    have hsub : us.Sublist ts := hus ▸ List.filter_sublist
    split at h
    · next t =>
      have ht := hsub.subset (List.mem_singleton_self t)
      exact (ih t ht h).mono (length_text_le_textAll ht)
    · have hwithin := within_concatenation (fun t ht s hs => ih t (hsub.subset ht) hs) (within_empty "") h
      rw [String.empty_append] at hwithin
      exact hwithin.mono (length_textAll_le hsub)
    · cases h

theorem length_text_of_at? {t u : Tree} {r : Path} (h : t.at? r = some u) : u.text.length ≤ t.text.length := by
  induction t using induct generalizing r with
  | leaf l =>
    cases r with
    | nil => cases h; exact Nat.le_refl _
    | cons i r => rw [at?_leaf_cons] at h; cases h
  | node k ts ih =>
    rcases List.eq_nil_or_concat' r with rfl | ⟨r, i, rfl⟩
    · cases h; exact Nat.le_refl _
    · rw [at?_node_concat] at h
      obtain ⟨t, hi, h⟩ := Option.bind_eq_some_iff.mp h
      have ht := List.mem_of_getElem? hi
      exact Nat.le_trans (ih t ht h) (length_text_le_textAll ht)

theorem length_lt_text_of_strings {t : Tree} {s : String} (hs : t.Strings s) : s.length < t.text.length := by
  obtain ⟨hne, r, u, hr, hu⟩ := hs
  exact Nat.lt_of_lt_of_le ((within_stringValue? hu).2 hne) (length_text_of_at? hr)

theorem length_trimStart_le (text : String) : (trimStart text).length ≤ text.length := by
  have hdrop : ∀ cs : List Char, (if cs.take 1 = ['\ufeff'] then cs.drop 1 else cs).length ≤ cs.length := by
    intro cs
    split
    · exact (List.drop_sublist 1 cs).length_le
    · exact Nat.le_refl _
  have hlen : (trimStart text).toList.length ≤ text.toList.length := by
    unfold trimStart
    rw [String.toList_ofList]
    exact Nat.le_trans (List.dropWhile_suffix _).length_le (hdrop _)
  rwa [String.length_toList, String.length_toList] at hlen

/-- The strings in a text that is read as code are shorter than the text. -/
theorem length_lt_of_strings {text s : String} {t : Tree} (h : parseModule? text = some t) (hs : t.Strings s) :
    s.length < text.length := by
  have hlen := length_lt_text_of_strings hs
  rw [text_parseModule? h] at hlen
  exact Nat.lt_of_lt_of_le hlen (length_trimStart_le text)

end FluentShift.Source
