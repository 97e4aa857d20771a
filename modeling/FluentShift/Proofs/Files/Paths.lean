import FluentShift.Files.Access
import Mathlib.Data.List.Infix

/-!
# FluentShift.Proofs.Files.Paths - paths, their texts and the places they go through

A path that was read is normal, and a normal path is what its text reads as (`ofString_text`).  So the text of a path can
stand for the path.
-/

namespace FluentShift.Files

namespace FilePath

/-! ### Normal paths -/

/-- Says something, and is not cut by a slash. -/
def IsName (s : String) : Prop := isPart s = true ∧ '/' ∉ s.toList

/-- A path that its text reads as. -/
structure IsNormal (p : FilePath) : Prop where
  start : p.start = "" ∨ p.start = "/" ∨ p.start = "//"
  parts : ∀ s ∈ p.parts, IsName s

theorem startOf_cases (text : String) : startOf text = "" ∨ startOf text = "/" ∨ startOf text = "//" := by
  unfold startOf
  split <;> simp

theorem isNormal_ofString (text : String) : (ofString text).IsNormal := by
  refine ⟨startOf_cases text, fun s hs => ?_⟩
  obtain ⟨hmem, hpart⟩ := List.mem_filter.mp hs
  obtain ⟨cs, hcs, rfl⟩ := List.mem_map.mp hmem
  refine ⟨hpart, ?_⟩
  rw [String.toList_ofList]
  exact Text.notMem_of_mem_splitChars hcs

theorem IsNormal.parent {p : FilePath} (h : p.IsNormal) : p.parent.IsNormal :=
  ⟨h.start, fun s hs => h.parts s (List.dropLast_subset _ hs)⟩

theorem IsNormal.join {p q : FilePath} (hp : p.IsNormal) (hq : q.IsNormal) : (p.join q).IsNormal := by
  unfold FilePath.join
  split
  · exact hq
  · refine ⟨hp.start, fun s hs => ?_⟩
    rcases List.mem_append.mp hs with h | h
    · exact hp.parts s h
    · exact hq.parts s h

theorem IsNormal.withName {p : FilePath} {name : String} (h : p.IsNormal) (hname : IsName name) :
    (p.withName name).IsNormal := by
  refine ⟨h.start, fun s hs => ?_⟩
  rcases List.mem_append.mp hs with hs | hs
  · exact h.parts s (List.dropLast_subset _ hs)
  · rw [List.mem_singleton.mp hs]
    exact hname

theorem IsNormal.name {p : FilePath} (h : p.IsNormal) : '/' ∉ p.name.toList := by
  unfold FilePath.name
  cases hlast : p.parts.getLast? with
  | none => exact List.not_mem_nil
  | some s => exact (h.parts s (List.mem_of_getLast? hlast)).2

/-! ### Writing and reading -/

theorem toList_slash : "/".toList = ['/'] := rfl

theorem split_intercalate {s : String} {ss : List String} (h : ∀ t ∈ s :: ss, '/' ∉ t.toList) :
    Text.split '/' (String.intercalate "/" (s :: ss)) = s :: ss := by
  have hsplit := Text.splitChars_intercalate h
  rw [Text.split, show "/" = String.singleton '/' from rfl, hsplit, List.map_map]
  exact List.map_id'' (fun t => String.ofList_toList) _

theorem split_slash (text : String) : Text.split '/' ("/" ++ text) = "" :: Text.split '/' text := by
  rw [Text.split, String.toList_append, toList_slash, List.singleton_append, Text.splitChars, if_pos rfl]
  rfl

theorem split_slashes (text : String) : Text.split '/' ("//" ++ text) = "" :: "" :: Text.split '/' text := by
  rw [show "//" ++ text = "/" ++ ("/" ++ text) from by rw [← String.append_assoc]; rfl, split_slash, split_slash]

theorem text_of_parts {p : FilePath} (h : p.parts ≠ []) : p.text = p.start ++ String.intercalate "/" p.parts := by
  rw [text, if_neg]
  simp [h]

/-- The parts of a path are the last parts of its text; there is nothing before them but what it starts from. -/
theorem split_text {p : FilePath} (h : p.IsNormal) (hparts : p.parts ≠ []) :
    ∃ lead, Text.split '/' p.text = lead ++ p.parts ∧ ∀ s ∈ lead, s = "" := by
  obtain ⟨start, parts⟩ := p
  obtain ⟨s, ss, rfl⟩ := List.exists_cons_of_ne_nil hparts
  have hsplit := split_intercalate fun t ht => (h.parts t ht).2
  rw [text_of_parts hparts]
  rcases h.start with rfl | rfl | rfl
  · exact ⟨[], by rw [String.empty_append, hsplit]; rfl, fun _ ht => (List.not_mem_nil ht).elim⟩
  · exact ⟨[""], by rw [split_slash, hsplit]; rfl, fun _ ht => List.mem_singleton.mp ht⟩
  · refine ⟨["", ""], by rw [split_slashes, hsplit]; rfl, fun t ht => ?_⟩
    rcases List.mem_cons.mp ht with rfl | ht
    · rfl
    · exact List.mem_singleton.mp ht

theorem startOf_text {p : FilePath} (h : p.IsNormal) (hparts : p.parts ≠ []) : startOf p.text = p.start := by
  obtain ⟨start, parts⟩ := p
  obtain ⟨s, ss, rfl⟩ := List.exists_cons_of_ne_nil hparts
  obtain ⟨hpart, hslash⟩ := h.parts s List.mem_cons_self
  have hne : s.toList ≠ [] := by
    intro hnil
    rw [String.toList_eq_nil_iff] at hnil
    subst hnil
    cases hpart
  obtain ⟨c, cs, hcs⟩ := List.exists_cons_of_ne_nil hne
  have hc : c ≠ '/' := by
    rintro rfl
    exact hslash (hcs ▸ List.mem_cons_self)
  have htext : (text ⟨start, s :: ss⟩).toList = start.toList ++ c :: (cs ++ ss.flatMap fun x => "/".toList ++ x.toList) := by
    rw [text_of_parts hparts, String.toList_append, Text.toList_intercalate_cons, hcs, List.cons_append]
  rw [startOf, htext]
  -- nothing, one slash or two before the first part, which does not start with one itself
  rcases h.start with rfl | rfl | rfl
  · rw [show "".toList = [] from rfl, List.nil_append]
    split <;> simp_all
  · rw [toList_slash, List.singleton_append]
    split <;> simp_all
  · rw [show "//".toList = ['/', '/'] from rfl, List.cons_append, List.singleton_append]
    split
    · simp_all
    · rfl
    · rename_i hother heq
      exact (hother _ (List.cons.inj heq).2.symm).elim
    · simp_all

/-- A normal path is read from its text. -/
theorem ofString_text {p : FilePath} (h : p.IsNormal) : ofString p.text = p := by
  by_cases hparts : p.parts = []
  · obtain ⟨start, parts⟩ := p
    obtain rfl : parts = [] := hparts
    rcases h.start with rfl | rfl | rfl <;> rfl
  · obtain ⟨lead, hsplit, hlead⟩ := split_text h hparts
    have hnone : lead.filter isPart = [] := by
      refine List.filter_eq_nil_iff.mpr fun s hs => ?_
      rw [hlead s hs]
      exact Bool.false_ne_true
    rw [ofString, startOf_text h hparts, hsplit, List.filter_append, hnone, List.nil_append,
      List.filter_eq_self.mpr fun s hs => (h.parts s hs).1]

@[simp] theorem ofString_text_ofString (text : String) : ofString (ofString text).text = ofString text :=
  ofString_text (isNormal_ofString text)

end FilePath

/-! ### Places -/

namespace Place

/-- The place that a path starts from. -/
def root (p : FilePath) : Place := if p.isAbsolute then ["/"] else []

/-- The place that one part of a path leads to. -/
def enter (at_ : Place) (c : String) : Place := if c = ".." then up at_ else at_ ++ [c]

theorem ofPath_eq (p : FilePath) : ofPath p = p.parts.foldl enter (root p) := rfl

theorem named_text {p : FilePath} (h : p.IsNormal) : named p.text = ofPath p := by
  rw [named, FilePath.ofString_text h]

end Place

namespace FilePath

/-- The places that a path goes through, up to the one it leads to. -/
def reach (p : FilePath) : List Place := p.parts.inits.map fun ps => Place.ofPath ⟨p.start, ps⟩

theorem mem_reach {p : FilePath} {q : Place} : q ∈ p.reach ↔ ∃ ps, ps <+: p.parts ∧ Place.ofPath ⟨p.start, ps⟩ = q := by
  simp [reach]

theorem ofPath_mem_reach (p : FilePath) : Place.ofPath p ∈ p.reach := mem_reach.mpr ⟨p.parts, List.prefix_rfl, rfl⟩

theorem reach_parent_subset (p : FilePath) : p.parent.reach ⊆ p.reach := by
  intro q hq
  obtain ⟨ps, hps, hq⟩ := mem_reach.mp hq
  exact mem_reach.mpr ⟨ps, hps.trans (List.dropLast_prefix _), hq⟩

end FilePath

/-! ### The paths of copies -/

theorem isName_backup {s : String} (h : '/' ∉ s.toList) : FilePath.IsName (s ++ ".backup") := by
  have hlen : (s ++ ".backup").toList.length = s.toList.length + 7 := by
    rw [String.toList_append, List.length_append]
    rfl
  refine ⟨?_, ?_⟩
  · have hempty : s ++ ".backup" ≠ "" := by
      intro heq
      rw [heq] at hlen
      cases hlen
    have hdot : s ++ ".backup" ≠ "." := by
      intro heq
      rw [heq] at hlen
      cases hlen
    simp [FilePath.isPart, hempty, hdot]
  · rw [String.toList_append, List.mem_append, not_or]
    exact ⟨h, by decide⟩

/-- A name is a path of one part. -/
theorem ofString_name {s : String} (h : FilePath.IsName s) : FilePath.ofString s = ⟨"", [s]⟩ := by
  have hnormal : (⟨"", [s]⟩ : FilePath).IsNormal := ⟨.inl rfl, fun t ht => List.mem_singleton.mp ht ▸ h⟩
  have htext : (⟨"", [s]⟩ : FilePath).text = s := by
    rw [FilePath.text_of_parts (List.cons_ne_nil _ _), String.empty_append, String.intercalate_singleton]
  rw [← FilePath.ofString_text hnormal, htext]

/-- The path of a copy is normal and ends with a name that is not double dots. -/
theorem backupPath_ok {source : String} {root : Option String} {p : FilePath} (h : backupPath source root = .ok p) :
    p.IsNormal ∧ ∃ init c, p.parts = init ++ [c] ∧ FilePath.isPart c = true ∧ c ≠ ".." := by
  have hsource := FilePath.isNormal_ofString source
  have hname := isName_backup hsource.name
  have hup : (FilePath.ofString source).name ++ ".backup" ≠ ".." := by
    intro heq
    have hlen := congrArg (fun s : String => s.toList.length) heq
    simp at hlen
  rw [backupPath] at h
  split at h
  · rename_i r _
    cases h
    refine ⟨(FilePath.isNormal_ofString r).join (FilePath.isNormal_ofString _), (FilePath.ofString r).parts, _, ?_,
      hname.1, hup⟩
    rw [ofString_name hname]
    rfl
  · split at h
    · cases h
    · cases h
      exact ⟨hsource.withName hname, _, _, rfl, hname.1, hup⟩

end FluentShift.Files
