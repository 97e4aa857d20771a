import FluentShift.Proofs.Files.Walk

/-!
# FluentShift.Proofs.Files.Tree - disks that are trees, and paths that go down

On a disk that is a tree everything lies in a directory (`IsTree`).  A path is a `Lane` when it leads to a directory that
is there and goes down from it by names: then its place is those names below that directory, and what lies on the way
decides where it leads.  Making a directory at the end of a lane makes all that is missing on the way, up to a place that
the system refuses (`makeDirectories_open`); where a file is in the way nothing is made (`makeDirectories_barred`).
-/

namespace FluentShift.Files

/-! ### Texts of paths -/

namespace FilePath

variable {p : FilePath}

theorem text_ne_empty (h : p.IsNormal) : p.text ≠ "" := by
  intro hempty
  have hp : (⟨"", []⟩ : FilePath) = p := by
    rw [← ofString_text h, hempty]
    rfl
  subst hp
  exact absurd hempty (by decide)

/-- The parts of a path are the last parts of its text, and nothing before them says anything. -/
theorem split_text_parts (h : p.IsNormal) :
    ∃ lead, Text.split '/' p.text = lead ++ p.parts ∧ ∀ s ∈ lead, isPart s = false := by
  by_cases hparts : p.parts = []
  · refine ⟨Text.split '/' p.text, by rw [hparts, List.append_nil], fun s hs => ?_⟩
    have hnone : (ofString p.text).parts = [] := by rw [ofString_text h, hparts]
    exact Bool.eq_false_iff.mpr (List.filter_eq_nil_iff.mp hnone s hs)
  · obtain ⟨lead, hsplit, hlead⟩ := split_text h hparts
    exact ⟨lead, hsplit, fun s hs => by rw [hlead s hs]; rfl⟩

/-- The text of a path ends with its last part, after the text of its parent if that has parts. -/
theorem text_concat (start c : String) (init : List String) :
    ∃ before : String, text ⟨start, init ++ [c]⟩ = before ++ c ∧
      (init ≠ [] → before = text ⟨start, init⟩ ++ "/") := by
  rw [text_of_parts (p := ⟨start, init ++ [c]⟩) (by simp)]
  cases init with
  | nil => exact ⟨start, by simp, fun h => absurd rfl h⟩
  | cons s ss =>
    refine ⟨text ⟨start, s :: ss⟩ ++ "/", ?_, fun _ => rfl⟩
    rw [text_of_parts (p := ⟨start, s :: ss⟩) (List.cons_ne_nil _ _), ← String.toList_inj]
    simp only [List.cons_append, String.toList_append, Text.toList_intercalate_cons, List.flatMap_append,
      List.flatMap_cons, List.flatMap_nil, List.append_assoc, List.append_nil]

theorem utf8ByteSize_parent_le (h : 1 < p.parts.length) : p.parent.text.utf8ByteSize ≤ p.text.utf8ByteSize := by
  obtain ⟨start, parts⟩ := p
  obtain ⟨init, c, rfl⟩ := (List.eq_nil_or_concat parts).resolve_left (by rintro rfl; cases h)
  obtain ⟨before, htext, hbefore⟩ := text_concat start c init
  have hinit : init ≠ [] := by
    rintro rfl
    simp at h
  rw [parent, List.concat_eq_append, List.dropLast_concat, htext, hbefore hinit]
  simp only [String.utf8ByteSize_append]
  omega

/-- The text of a path with parts does not end with a slash. -/
theorem withoutEndSlashes_text (h : p.IsNormal) (hparts : p.parts ≠ []) : Disk.withoutEndSlashes p.text = p.text := by
  obtain ⟨start, parts⟩ := p
  obtain ⟨init, c, rfl⟩ := (List.eq_nil_or_concat parts).resolve_left hparts
  rw [List.concat_eq_append] at *
  obtain ⟨before, htext, -⟩ := text_concat start c init
  obtain ⟨hpart, hslash⟩ := h.parts c (by simp)
  have hne : c.toList ≠ [] := by
    intro hnil
    rw [String.toList_eq_nil_iff] at hnil
    subst hnil
    cases hpart
  obtain ⟨cs, x, hcs⟩ := (List.eq_nil_or_concat c.toList).resolve_left hne
  have hx : x ≠ '/' := by
    rintro rfl
    exact hslash (by simp [hcs])
  rw [Disk.withoutEndSlashes, htext, String.toList_append, hcs, List.concat_eq_append, ← List.append_assoc,
    List.reverse_concat, List.dropWhile_cons_of_neg (by simpa using hx), List.reverse_cons, List.reverse_reverse,
    List.append_assoc, ← List.concat_eq_append, ← hcs, ← String.toList_append, String.ofList_toList]

end FilePath

namespace Disk

variable {d d' : Disk} {p : FilePath} {base q : Place} {names : List String}

/-! ### Trees -/

/-- Everything lies in a directory. -/
def IsTree (d : Disk) : Prop := ∀ p c, d.at? (p ++ [c]) ≠ none → d.at? p = some .directory

/-- On a tree there are only directories above what is there. -/
theorem IsTree.above (h : IsTree d) {p q : Place} (hpq : p <+: q) (hne : p ≠ q) (hq : d.at? q ≠ none) :
    d.at? p = some .directory := by
  obtain ⟨names, rfl⟩ := hpq
  induction names using List.reverseRecOn with
  | nil => exact absurd (List.append_nil p).symm hne
  | append_singleton names c ih =>
    have hparent : d.at? (p ++ names) = some .directory := h _ c (by rwa [List.append_assoc])
    by_cases hnil : names = []
    · rwa [hnil, List.append_nil] at hparent
    · exact ih (by simpa using hnil) (by rw [hparent]; exact Option.some_ne_none _)

theorem IsTree.up (h : IsTree d) {p : Place} (hp : d.at? p = some .directory) : d.at? p.up = some .directory := by
  unfold Place.up
  split
  · exact hp
  · split
    · rename_i hanchor
      refine if_pos ?_
      rw [Place.isAnchor] at hanchor ⊢
      rw [List.all_append, hanchor]
      rfl
    · obtain rfl | ⟨init, c, rfl⟩ := List.eq_nil_or_concat p
      · exact hp
      · rw [List.concat_eq_append] at hp ⊢
        rw [List.dropLast_concat]
        exact h init c (by rw [hp]; exact Option.some_ne_none _)

/-- A disk is a tree when each of its entries lies in a directory. -/
theorem isTree_of_entries (h : ∀ e ∈ d.entries, d.at? e.1.dropLast = some .directory) : IsTree d := by
  intro p c hpc
  by_cases hanchor : Place.isAnchor (p ++ [c]) = true
  · rw [Place.isAnchor, List.all_append, Bool.and_eq_true] at hanchor
    exact if_pos hanchor.1
  · rw [Bool.not_eq_true] at hanchor
    rw [at?_eq_lookup hanchor] at hpc
    obtain ⟨e, he⟩ := Option.ne_none_iff_exists'.mp hpc
    obtain ⟨l, l', hentries, -⟩ := List.lookup_eq_some_iff.mp he
    have hparent := h (p ++ [c], e) (by rw [hentries]; simp)
    rwa [List.dropLast_concat] at hparent

/-! ### Lanes -/

/-- A name by which a path goes down: not double dots, and not too long. -/
def IsStep (c : String) : Prop := c ≠ ".." ∧ c.utf8ByteSize ≤ longestName

instance (c : String) : Decidable (IsStep c) := inferInstanceAs (Decidable (_ ∧ _))

/-- The path leads to the directory `base`, which is there, and goes down from it by `names`. -/
structure Lane (d : Disk) (p : FilePath) (base : Place) (names : List String) : Prop where
  normal : p.IsNormal
  parts : ∃ lead, p.parts = lead ++ names ∧
    d.walk (.found (Place.root p) .directory) lead = .ok (.found base .directory)
  steps : ∀ c ∈ names, IsStep c

/-- The path leads to a directory that is there and goes down from it by names. -/
def Descends (d : Disk) (p : FilePath) : Prop := ∃ base names, Lane d p base names

/-- A path without double dots goes down from where it starts. -/
theorem descends_of_steps (h : p.IsNormal) (hsteps : ∀ c ∈ p.parts, IsStep c) : Descends d p :=
  ⟨Place.root p, p.parts, h, ⟨[], rfl, rfl⟩, hsteps⟩

theorem walk_step {c : String} {cs : List String} {p : Place} (hpart : FilePath.isPart c = true) (hstep : IsStep c) :
    d.walk (.found p .directory) (c :: cs) =
      match d.at? (p ++ [c]) with
      | some e => d.walk (.found (p ++ [c]) e) cs
      | none => d.walk (.free (p ++ [c])) cs := by
  rw [walk]
  exact (if_neg (by simp [hpart])).trans ((if_neg hstep.1).trans (if_neg (Nat.not_lt.mpr hstep.2)))

/-- On a tree a path from a directory leads to a directory only where one lies. -/
theorem Leads.at?_directory (h : IsTree d) {p : Place} {cs : List String} {spot : Spot} (hleads : Leads d p cs spot)
    (hp : d.at? p = some .directory) (hentry : spot.entry? = some .directory) : d.at? spot.place = some .directory := by
  induction hleads with
  | here => exact hp
  | skip _ _ ih => exact ih hp hentry
  | up _ ih => exact ih (h.up hp) hentry
  | down _ _ hat _ ih => exact ih hat hentry
  | file | free => cases hentry

theorem at?_root (d : Disk) (p : FilePath) : d.at? (Place.root p) = some .directory := by
  refine if_pos ?_
  rw [Place.root]
  split <;> rfl

namespace Lane

theorem mono (h : Lane d p base names) (hdirs : ∀ q, d.at? q = some .directory → d'.at? q = some .directory) :
    Lane d' p base names := by
  obtain ⟨lead, hparts, hwalk⟩ := h.parts
  exact ⟨h.normal, ⟨lead, hparts, ((leads_of_walk hwalk).kept hdirs rfl).walk⟩, h.steps⟩

theorem isPart (h : Lane d p base names) {c : String} (hc : c ∈ names) : FilePath.isPart c = true := by
  obtain ⟨lead, hparts, -⟩ := h.parts
  exact (h.normal.parts c (by rw [hparts]; exact List.mem_append_right _ hc)).1

theorem at?_base (h : Lane d p base names) (htree : IsTree d) : d.at? base = some .directory := by
  obtain ⟨lead, -, hwalk⟩ := h.parts
  exact (leads_of_walk hwalk).at?_directory htree (at?_root d p) rfl

/-- The place of a lane is its names below its directory. -/
theorem place (h : Lane d p base names) : Place.ofPath p = base ++ names := by
  obtain ⟨lead, hparts, hwalk⟩ := h.parts
  have hlead : lead.filter FilePath.isPart = lead :=
    List.filter_eq_self.mpr fun c hc => (h.normal.parts c (by rw [hparts]; exact List.mem_append_left _ hc)).1
  have hbase : base = lead.foldl Place.enter (Place.root p) := by
    have hplace := (leads_of_walk hwalk).place
    rwa [hlead] at hplace
  have hdown : ∀ {names : List String} {q : Place}, (∀ c ∈ names, IsStep c) → names.foldl Place.enter q = q ++ names := by
    intro names
    induction names with
    | nil => exact fun _ => (List.append_nil _).symm
    | cons c names ih =>
      intro q hsteps
      rw [List.foldl_cons, Place.enter, if_neg (hsteps c List.mem_cons_self).1,
        ih fun c hc => hsteps c (List.mem_cons_of_mem _ hc), List.append_assoc, List.singleton_append]
  rw [Place.ofPath_eq, hparts, List.foldl_append, ← hbase, hdown h.steps]

/-- What is missing among the places that a lane goes through lies above its end. -/
theorem prefix_of_mem_reach (h : Lane d p base names) (htree : IsTree d) (hq : q ∈ p.reach) (hnone : d.at? q = none) :
    q <+: Place.ofPath p := by
  obtain ⟨ps, hps, rfl⟩ := FilePath.mem_reach.mp hq
  obtain ⟨lead, hparts, hwalk⟩ := h.parts
  rcases List.prefix_or_prefix_of_prefix hps (hparts ▸ List.prefix_append lead names) with ⟨rest, rfl⟩ | ⟨ns, rfl⟩
  · -- on the way to the directory everything is there
    rw [walk_append] at hwalk
    obtain ⟨s, hinit, hrest⟩ := Except.bind_eq_ok.mp hwalk
    obtain ⟨q, rfl⟩ : ∃ q, s = .found q .directory := by
      match s with
      | .free _ => cases rest <;> cases hrest
      | .found _ (.file _) => cases rest <;> cases hrest
      | .found q .directory => exact ⟨q, rfl⟩
    have hlane : Lane d ⟨p.start, ps⟩ q [] := by
      refine ⟨⟨h.normal.start, fun c hc => h.normal.parts c (hps.subset hc)⟩, ⟨ps, (List.append_nil ps).symm, hinit⟩, ?_⟩
      exact fun _ hc => absurd hc List.not_mem_nil
    rw [hlane.place, List.append_nil, hlane.at?_base htree] at hnone
    cases hnone
  · rw [hparts] at hps
    have hns : ns <+: names := (List.prefix_append_right_inj lead).mp hps
    have hlane : Lane d ⟨p.start, lead ++ ns⟩ base ns := by
      refine ⟨⟨h.normal.start, fun c hc => h.normal.parts c ?_⟩, ⟨lead, rfl, hwalk⟩, fun c hc => h.steps c (hns.subset hc)⟩
      rw [hparts]
      exact hps.subset hc
    rw [hlane.place, h.place]
    exact (List.prefix_append_right_inj base).mpr hns

/-- Where a lane leads. -/
theorem look (h : Lane d p base names) :
    d.look p.text = if longestPath < p.text.utf8ByteSize then .error .tooLong
      else d.walk (.found base .directory) names := by
  obtain ⟨lead, hparts, hwalk⟩ := h.parts
  obtain ⟨blank, hsplit, hblank⟩ := FilePath.split_text_parts h.normal
  have hskip : ∀ {blank cs : List String} {s : Place}, (∀ c ∈ blank, FilePath.isPart c = false) →
      d.walk (.found s .directory) (blank ++ cs) = d.walk (.found s .directory) cs := by
    intro blank
    induction blank with
    | nil => exact fun _ => rfl
    | cons c blank ih =>
      intro cs s hnone
      rw [List.cons_append, walk, if_pos (by rw [hnone c List.mem_cons_self]; rfl)]
      exact ih fun c hc => hnone c (List.mem_cons_of_mem _ hc)
  have hroot : (if p.text.toList.head? = some '/' then ["/"] else []) = Place.root p := by
    rw [← root_ofString, FilePath.ofString_text h.normal]
  rw [Disk.look, if_neg (FilePath.text_ne_empty h.normal), hroot, hsplit, hskip hblank, hparts, walk_append, hwalk]
  rfl

theorem look_short (h : Lane d p base names) (hshort : p.text.utf8ByteSize ≤ longestPath) :
    d.look p.text = d.walk (.found base .directory) names := by
  rw [h.look, if_neg (Nat.not_lt.mpr hshort)]

theorem length_le (h : Lane d p base names) : names.length ≤ p.parts.length := by
  obtain ⟨lead, hparts, -⟩ := h.parts
  rw [hparts, List.length_append]
  exact Nat.le_add_left _ _

/-- The lane above a lane. -/
theorem parent {c : String} (h : Lane d p base (names ++ [c])) : Lane d p.parent base names := by
  obtain ⟨lead, hparts, hwalk⟩ := h.parts
  refine ⟨h.normal.parent, ⟨lead, ?_, hwalk⟩, fun c hc => h.steps c (List.mem_append_left _ hc)⟩
  show p.parts.dropLast = lead ++ names
  rw [hparts, ← List.append_assoc, List.dropLast_concat]

/-- Above a path that leads to a directory there is one, too. -/
theorem parent_nil (h : Lane d p base []) : ∃ base', Lane d p.parent base' [] := by
  obtain ⟨lead, hparts, hwalk⟩ := h.parts
  rw [List.append_nil] at hparts
  have hnone : ∀ c ∈ ([] : List String), IsStep c := fun _ hc => absurd hc List.not_mem_nil
  obtain rfl | ⟨init, c, rfl⟩ := List.eq_nil_or_concat lead
  · exact ⟨base, h.normal.parent, ⟨[], by rw [FilePath.parent, hparts]; rfl, hwalk⟩, hnone⟩
  · rw [List.concat_eq_append] at hparts hwalk
    rw [walk_append] at hwalk
    obtain ⟨s, hinit, hlast⟩ := Except.bind_eq_ok.mp hwalk
    match s with
    | .free _ => cases hlast
    | .found _ (.file _) => cases hlast
    | .found base' .directory =>
      refine ⟨base', h.normal.parent, ⟨init, ?_, hinit⟩, hnone⟩
      show p.parts.dropLast = init ++ []
      rw [hparts, List.dropLast_concat, List.append_nil]

end Lane

/-! ### What lies on a lane -/

/-- There is a file on the way from a directory down by names, or at the end of it. -/
def Barred (d : Disk) (base : Place) (names : List String) : Prop :=
  ∃ ns b, ns <+: names ∧ d.at? (base ++ ns) = some (.file b)

/-- Nothing is there. -/
def Vacant (r : Except SystemFault Spot) : Prop := r = .error .missing ∨ ∃ q, r = .ok (.free q)

theorem not_barred (h : IsTree d) (hdir : d.at? (base ++ names) = some .directory) : ¬ Barred d base names := by
  rintro ⟨ns, b, hns, hfile⟩
  by_cases heq : ns = names
  · rw [heq, hdir] at hfile
    cases hfile
  · have habove := h.above ((List.prefix_append_right_inj base).mpr hns) (by simpa using heq)
      (by rw [hdir]; exact Option.some_ne_none _)
    rw [habove] at hfile
    cases hfile

theorem Barred.concat (h : Barred d base names) (c : String) : Barred d base (names ++ [c]) := by
  obtain ⟨ns, b, hns, hfile⟩ := h
  exact ⟨ns, b, hns.trans (List.prefix_append _ _), hfile⟩

theorem Barred.of_concat {c : String} (h : Barred d base (names ++ [c])) :
    Barred d base names ∨ ∃ b, d.at? (base ++ (names ++ [c])) = some (.file b) := by
  obtain ⟨ns, b, hns, hfile⟩ := h
  rcases List.prefix_concat_iff.mp hns with rfl | hns
  · exact .inr ⟨b, hfile⟩
  · exact .inl ⟨ns, b, hns, hfile⟩

namespace Lane

theorem walk_concat {c : String} {q : Place} (h : Lane d p base (names ++ [c]))
    (hinit : d.walk (.found base .directory) names = .ok (.found q .directory)) :
    d.walk (.found base .directory) (names ++ [c]) = match d.at? (q ++ [c]) with
      | some e => .ok (.found (q ++ [c]) e)
      | none => .ok (.free (q ++ [c])) := by
  have hc : c ∈ names ++ [c] := by simp
  rw [walk_append, hinit]
  show d.walk (.found q .directory) [c] = _
  rw [walk_step (h.isPart hc) (h.steps c hc)]
  split <;> rfl

/-- A lane leads to what is at its end. -/
theorem walk_found (h : Lane d p base names) (htree : IsTree d) {e : Entry} (he : d.at? (base ++ names) = some e) :
    d.walk (.found base .directory) names = .ok (.found (base ++ names) e) := by
  induction names using List.reverseRecOn generalizing p e with
  | nil =>
    rw [List.append_nil] at he ⊢
    rw [h.at?_base htree, Option.some.injEq] at he
    rw [← he]
    rfl
  | append_singleton names c ih =>
    rw [← List.append_assoc] at he ⊢
    rw [h.walk_concat (ih h.parent (htree _ c (by rw [he]; exact Option.some_ne_none _))), he]

theorem walk_free {c : String} (h : Lane d p base (names ++ [c])) (htree : IsTree d)
    (hdir : d.at? (base ++ names) = some .directory) (hnone : d.at? (base ++ names ++ [c]) = none) :
    d.walk (.found base .directory) (names ++ [c]) = .ok (.free (base ++ names ++ [c])) := by
  rw [h.walk_concat (h.parent.walk_found htree hdir), hnone]

theorem walk_vacant_concat {c : String} (h : Vacant (d.walk (.found base .directory) names)) :
    d.walk (.found base .directory) (names ++ [c]) = .error .missing := by
  rw [walk_append]
  rcases h with hwalk | ⟨q, hwalk⟩ <;> rw [hwalk] <;> rfl

/-- Where nothing is at its end, a lane is barred by a file or leads to something vacant. -/
theorem walk_none (h : Lane d p base names) (htree : IsTree d) (hnone : d.at? (base ++ names) = none) :
    Barred d base names ∧ d.walk (.found base .directory) names = .error .notDirectory ∨
      ¬ Barred d base names ∧ Vacant (d.walk (.found base .directory) names) := by
  induction names using List.reverseRecOn generalizing p with
  | nil =>
    rw [List.append_nil, h.at?_base htree] at hnone
    cases hnone
  | append_singleton names c ih =>
    have hopen : ¬ Barred d base names → ¬ Barred d base (names ++ [c]) := fun hopen hbarred => by
      rcases hbarred.of_concat with hbarred | ⟨b, hfile⟩
      · exact hopen hbarred
      · rw [hnone] at hfile
        cases hfile
    cases hinit : d.at? (base ++ names) with
    | some e =>
      cases e with
      | directory =>
        rw [← List.append_assoc] at hnone
        exact .inr ⟨hopen (not_barred htree hinit), .inr ⟨_, h.walk_free htree hinit hnone⟩⟩
      | file b =>
        refine .inl ⟨Barred.concat ⟨names, b, List.prefix_rfl, hinit⟩ c, ?_⟩
        rw [walk_append, h.parent.walk_found htree hinit]
        rfl
    | none =>
      rcases ih h.parent hinit with ⟨hbarred, hwalk⟩ | ⟨hvacant, hwalk⟩
      · refine .inl ⟨hbarred.concat c, ?_⟩
        rw [walk_append, hwalk]
        rfl
      · exact .inr ⟨hopen hvacant, .inl (walk_vacant_concat hwalk)⟩

end Lane

/-! ### Making directories -/

/-- All places from a directory down by names have become directories, and nothing else has changed. -/
def Made (base : Place) (names : List String) (d d' : Disk) : Prop :=
  ∀ q, d'.at? q = if base <+: q ∧ q <+: base ++ names then some .directory else d.at? q

namespace Made

theorem directory (h : Made base names d d') {q : Place} (hq : d.at? q = some .directory) :
    d'.at? q = some .directory := by
  rw [h q]
  split
  · rfl
  · exact hq

theorem tree (h : Made base names d d') (hbase : d.at? base = some .directory) (htree : IsTree d) : IsTree d' := by
  intro q c hqc
  rw [h] at hqc ⊢
  split at hqc
  · rename_i hmem
    obtain ⟨hbelow, hqc⟩ := hmem
    split
    · rfl
    · rename_i hout
      rcases List.prefix_concat_iff.mp hbelow with heq | hbelow
      · exact htree q c (by rw [← heq, hbase]; exact Option.some_ne_none _)
      · exact absurd ⟨hbelow, (List.prefix_append q [c]).trans hqc⟩ hout
  · split
    · rfl
    · exact htree q c hqc

theorem refl (htree : IsTree d) (hdir : d.at? (base ++ names) = some .directory) : Made base names d d := by
  intro q
  split
  · rename_i hmem
    by_cases heq : q = base ++ names
    · rw [heq, hdir]
    · exact htree.above hmem.2 heq (by rw [hdir]; exact Option.some_ne_none _)
  · rfl

theorem put {c : String} (h : Made base names d d') (hnone : d.at? (base ++ names ++ [c]) = none) :
    Made base (names ++ [c]) d (d'.put (base ++ names ++ [c]) .directory) := by
  intro q
  have hanchor : (base ++ names ++ [c]).isAnchor = false := isAnchor_of_at? (d := d) (by rw [hnone]; exact nofun)
  rw [at?_put hanchor, h q, ← List.append_assoc]
  by_cases hq : q = base ++ names ++ [c]
  · subst hq
    rw [if_pos rfl, if_pos ⟨List.append_assoc base names [c] ▸ List.prefix_append _ _, List.prefix_rfl⟩]
  · simp only [hq, if_false, List.prefix_concat_iff, false_or]

end Made

/-- What the disk refuses is refused, whatever the system allows. -/
theorem makeDirectoryUnder_error {a : Answers} {path : String} {f : Failure} (h : d.makeDirectory path = .error f) :
    d.makeDirectoryUnder a path = .error f := by
  rw [makeDirectoryUnder, h]
  rfl

/-- Down to a place nothing that is missing is refused. -/
def Allowed (a : Answers) (d : Disk) (base : Place) (names : List String) : Prop :=
  ∀ ns, ns <+: names → d.at? (base ++ ns) = none → a.obstacle? (.makeDirectory (base ++ ns)) = none

theorem Allowed.of_directory {a : Answers} (htree : IsTree d) (hdir : d.at? (base ++ names) = some .directory) :
    Allowed a d base names := by
  intro ns hns hnone
  by_cases heq : ns = names
  · rw [heq, hdir] at hnone
    cases hnone
  · rw [htree.above ((List.prefix_append_right_inj base).mpr hns) (by simpa using heq)
      (by rw [hdir]; exact Option.some_ne_none _)] at hnone
    cases hnone

/-- Where making the directories on the lane of a path stops: nowhere, or above a place that is refused. -/
inductive Stops (a : Answers) (d : Disk) (p : FilePath) (base : Place) (names : List String) :
    List String → Option Failure → Prop
  | nowhere : Stops a d p base names names none
  | above {ns rest : List String} {c : String} {o : Obstacle} (split : names = ns ++ c :: rest)
      (free : d.at? (base ++ (ns ++ [c])) = none) (refused : a.obstacle? (.makeDirectory (base ++ (ns ++ [c]))) = some o) :
      Stops a d p base names ns (some (refusal o.fault (FilePath.parent^[rest.length] p).text))

/-- What stops the directories above a path stops the path. -/
theorem Stops.concat {a : Answers} {ns : List String} {f : Failure} (h : Stops a d p.parent base names ns (some f))
    (c : String) : Stops a d p base (names ++ [c]) ns (some f) := by
  cases h with
  | @above _ rest c' o split free refused =>
    have hsplit : names ++ [c] = ns ++ c' :: (rest ++ [c]) := by rw [split, List.append_assoc, List.cons_append]
    have hstops : Stops a d p base (names ++ [c]) ns _ := .above hsplit free refused
    rwa [List.length_append, List.length_singleton, Function.iterate_succ_apply] at hstops

theorem Stops.below {a : Answers} {ns : List String} {answer : Option Failure} (h : Stops a d p base names ns answer) :
    ns <+: names := by
  cases h with
  | nowhere => exact List.prefix_rfl
  | above split => exact split ▸ List.prefix_append _ _

/-- Where making directories stops early, the next place down is missing and refused. -/
theorem Stops.refused {a : Answers} {ns ns' : List String} {answer : Option Failure} (h : Stops a d p base names ns answer)
    (hnames : ns' <+: names) : ns' <+: ns ∨
      ∃ c o, ns ++ [c] <+: names ∧ ns ++ [c] <+: ns' ∧ d.at? (base ++ (ns ++ [c])) = none ∧
        a.obstacle? (.makeDirectory (base ++ (ns ++ [c]))) = some o := by
  cases h with
  | nowhere => exact .inl hnames
  | @above _ rest c o split free refused =>
    have hbelow : ns ++ [c] <+: names := ⟨rest, by rw [split, List.append_assoc, List.singleton_append]⟩
    rcases List.prefix_or_prefix_of_prefix hnames hbelow with hns | hns
    · rcases List.prefix_concat_iff.mp hns with rfl | hns
      · exact .inr ⟨c, o, hbelow, List.prefix_rfl, free, refused⟩
      · exact .inl hns
    · exact .inr ⟨c, o, hbelow, hns, free, refused⟩

/-- After the directories above the end of a lane were made, the one at the end is made, or refused. -/
theorem Lane.makeDirectory_last {a : Answers} {c : String} (h : Lane d p base (names ++ [c])) (htree : IsTree d)
    (hshort : p.text.utf8ByteSize ≤ longestPath) (hnone : d.at? (base ++ names ++ [c]) = none)
    (hmade : Made base names d d') (hallowed : Allowed a d base names) :
    (∃ d'', d'.makeDirectoryUnder a p.text = .ok d'' ∧ Made base (names ++ [c]) d d'' ∧ Allowed a d base (names ++ [c])) ∨
      ∃ o : Obstacle, d'.makeDirectoryUnder a p.text = .error (refusal o.fault p.text) ∧ d'.hasDirectory p.text = false ∧
        Stops a d p base (names ++ [c]) names (some (refusal o.fault p.text)) := by
  have hnone' : d'.at? (base ++ names ++ [c]) = none := by
    rw [hmade, if_neg, hnone]
    rintro ⟨-, hbelow⟩
    have hlen := hbelow.length_le
    simp only [List.length_append, List.length_singleton] at hlen
    omega
  have hdir : d'.at? (base ++ names) = some .directory := by
    rw [hmade, if_pos ⟨List.prefix_append _ _, List.prefix_rfl⟩]
  have hlook : d'.look p.text = .ok (.free (base ++ names ++ [c])) := by
    have hlane := h.mono fun _ => hmade.directory
    rw [hlane.look_short hshort, hlane.walk_free (hmade.tree (h.at?_base htree) htree) hdir hnone']
  have hmake : d'.makeDirectoryUnder a p.text = a.grant (.makeDirectory (base ++ names ++ [c])) p.text
      (.ok (d'.put (base ++ names ++ [c]) .directory)) := by
    rw [makeDirectoryUnder, makeDirectory, hlook, Place.named_text h.normal, h.place, ← List.append_assoc]
  cases hobstacle : a.obstacle? (.makeDirectory (base ++ names ++ [c])) with
  | none =>
    rw [Answers.grant, hobstacle] at hmake
    refine .inl ⟨_, hmake, hmade.put hnone, fun ns hns hfree => ?_⟩
    rcases List.prefix_concat_iff.mp hns with rfl | hns
    · rwa [List.append_assoc] at hobstacle
    · exact hallowed ns hns hfree
  | some o =>
    rw [Answers.grant, hobstacle] at hmake
    rw [List.append_assoc] at hnone hobstacle
    have hstops : Stops a d p base (names ++ [c]) names _ := .above rfl hnone hobstacle
    exact .inr ⟨o, hmake, by rw [hasDirectory, entry?, hlook], hstops⟩

/-- Where no file is in the way, the directories on a lane are made from the top down, until one is refused. -/
theorem Lane.makeDirectoriesFrom {a : Answers} (h : Lane d p base names) (htree : IsTree d)
    (hshort : p.text.utf8ByteSize ≤ longestPath) (hopen : ¬ Barred d base names) {levels : Nat}
    (hlevels : names.length < levels) :
    ∃ ns d' answer, d.makeDirectoriesFrom a p true levels = (d', answer) ∧ Made base ns d d' ∧ Allowed a d base ns ∧
      Stops a d p base names ns answer := by
  -- by induction on the levels: the directories above are made first
  induction levels generalizing p names with
  | zero => exact absurd hlevels (Nat.not_lt_zero _)
  | succ levels ih =>
    cases hat : d.at? (base ++ names) with
    | some e =>
      have hlook : d.look p.text = .ok (.found (base ++ names) e) := by
        rw [h.look_short hshort, h.walk_found htree hat]
      cases e with
      | file b => exact absurd ⟨names, b, List.prefix_rfl, hat⟩ hopen
      | directory =>
        have hdirectory : d.hasDirectory p.text = true := by rw [hasDirectory, entry?, hlook]
        have hmake : d.makeDirectoryUnder a p.text = .error (refusal .exists_ p.text) :=
          makeDirectoryUnder_error (by rw [makeDirectory, hlook])
        refine ⟨names, d, none, ?_, Made.refl htree hat, Allowed.of_directory htree hat, .nowhere⟩
        rw [Disk.makeDirectoriesFrom, hmake]
        show (d, if true && d.hasDirectory p.text then none else _) = _
        rw [hdirectory]
        rfl
    | none =>
      obtain rfl | ⟨init, c, rfl⟩ := List.eq_nil_or_concat names
      · rw [List.append_nil, h.at?_base htree] at hat
        cases hat
      rw [List.concat_eq_append] at *
      rw [← List.append_assoc] at hat
      cases hinit : d.at? (base ++ init) with
      | some e =>
        cases e with
        | file b => exact absurd ⟨init, b, List.prefix_append _ _, hinit⟩ hopen
        | directory =>
          have hallowed : Allowed a d base init := Allowed.of_directory htree hinit
          rw [Disk.makeDirectoriesFrom]
          rcases h.makeDirectory_last htree hshort hat (Made.refl htree hinit) hallowed with
            ⟨d'', hmake, hmade, hallowed'⟩ | ⟨o, hmake, hfree, hstops⟩
          · rw [hmake]
            exact ⟨_, d'', none, rfl, hmade, hallowed', .nowhere⟩
          · refine ⟨init, d, _, ?_, Made.refl htree hinit, hallowed, hstops⟩
            rw [hmake]
            cases o <;>
            · show (d, if true && d.hasDirectory p.text then none else _) = _
              rw [hfree]
              rfl
      | none =>
        -- the directory above is missing as well, and made first
        have hopen' : ¬ Barred d base init := fun hbarred => hopen (hbarred.concat c)
        have hvacant : Vacant (d.walk (.found base .directory) init) :=
          ((h.parent.walk_none htree hinit).resolve_left fun hbarred => hopen' hbarred.1).2
        have hmissing : d.makeDirectoryUnder a p.text = .error (refusal .missing p.text) :=
          makeDirectoryUnder_error (by rw [makeDirectory, h.look_short hshort, walk_vacant_concat hvacant])
        have hne : init ≠ [] := by
          rintro rfl
          rw [List.append_nil, h.at?_base htree] at hinit
          cases hinit
        have hlength : 1 < p.parts.length := by
          have hpos := List.length_pos_of_ne_nil hne
          have hle := h.length_le
          rw [List.length_append, List.length_singleton] at hle
          omega
        have hparent : p.parent ≠ p := by
          intro heq
          have hlen := congrArg (fun p : FilePath => p.parts.length) heq
          simp only [FilePath.parent, List.length_dropLast] at hlen
          omega
        obtain ⟨ns, d₁, answer, hrun, hmade, hallowed, hstops⟩ := ih h.parent
          ((FilePath.utf8ByteSize_parent_le hlength).trans hshort) hopen' (by simpa using hlevels)
        rw [Disk.makeDirectoriesFrom, hmissing]
        show ∃ ns d' answer, (if p.parent = p then _ else _) = (d', answer) ∧ _
        rw [if_neg hparent, hrun]
        cases answer with
        | some f => exact ⟨ns, d₁, some f, rfl, hmade, hallowed, hstops.concat c⟩
        | none =>
          cases hstops
          rcases h.makeDirectory_last htree hshort hat hmade hallowed with
            ⟨d'', hmake, hmade', hallowed'⟩ | ⟨o, hmake, hfree, hstops⟩
          · refine ⟨_, d'', none, ?_, hmade', hallowed', .nowhere⟩
            dsimp only
            rw [hmake]
          · refine ⟨init, d₁, _, ?_, hmade, hallowed, hstops⟩
            dsimp only
            rw [hmake]
            show (d₁, if true && _ && d₁.hasDirectory p.text then none else _) = _
            rw [hfree, Bool.and_false]
            rfl

/-- Where no file is in the way, the directories on a lane are made from the top down, until one is refused. -/
theorem Lane.makeDirectories_open (a : Answers) (h : Lane d p base names) (htree : IsTree d)
    (hshort : p.text.utf8ByteSize ≤ longestPath) (hopen : ¬ Barred d base names) :
    ∃ ns d' answer, d.makeDirectories a p true = (d', answer) ∧ Made base ns d d' ∧ Allowed a d base ns ∧
      Stops a d p base names ns answer :=
  h.makeDirectoriesFrom htree hshort hopen (Nat.lt_succ_of_le h.length_le)

theorem makeDirectories_refused {a : Answers} {f : SystemFault} (hmake : d.makeDirectory p.text = .error (refusal f p.text))
    (hf : f ≠ .missing) (hdir : d.hasDirectory p.text = false) :
    d.makeDirectories a p true = (d, some (refusal f p.text)) := by
  rw [makeDirectories, Disk.makeDirectoriesFrom, makeDirectoryUnder_error hmake]
  cases f with
  | missing => exact absurd rfl hf
  | isDirectory | notDirectory | exists_ | permission | tooLong | other =>
    show (d, if true && d.hasDirectory p.text then none else _) = _
    rw [hdir]
    rfl

/-- Where a path is too long, no directory is made. -/
theorem Lane.makeDirectories_long (a : Answers) (h : Lane d p base names) (hlong : longestPath < p.text.utf8ByteSize) :
    d.makeDirectories a p true = (d, some (refusal .tooLong p.text)) := by
  have hlook : d.look p.text = .error .tooLong := by rw [h.look, if_pos hlong]
  refine makeDirectories_refused ?_ (by decide) ?_
  · rw [makeDirectory, hlook]
  · rw [hasDirectory, entry?, hlook]

/-- Where a file is in the way, no directory is made. -/
theorem Lane.makeDirectories_barred (a : Answers) (h : Lane d p base names) (htree : IsTree d)
    (hshort : p.text.utf8ByteSize ≤ longestPath) (hbarred : Barred d base names) :
    d.makeDirectories a p true =
      (d, some (refusal (if d.at? (base ++ names) = none then .notDirectory else .exists_) p.text)) := by
  cases hat : d.at? (base ++ names) with
  | none =>
    have hlook : d.look p.text = .error .notDirectory := by
      rw [h.look_short hshort]
      exact ((h.walk_none htree hat).resolve_right fun hopen => hopen.1 hbarred).2
    rw [if_pos rfl]
    refine makeDirectories_refused ?_ (by decide) ?_
    · rw [makeDirectory, hlook]
    · rw [hasDirectory, entry?, hlook]
  | some e =>
    cases e with
    | directory => exact absurd hbarred (not_barred htree hat)
    | file b =>
      have hlook : d.look p.text = .ok (.found (base ++ names) (.file b)) := by
        rw [h.look_short hshort, h.walk_found htree hat]
      rw [if_neg (Option.some_ne_none _)]
      refine makeDirectories_refused ?_ (by decide) ?_
      · rw [makeDirectory, hlook]
      · rw [hasDirectory, entry?, hlook]

end Disk

end FluentShift.Files
