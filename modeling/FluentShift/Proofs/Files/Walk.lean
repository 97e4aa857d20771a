import FluentShift.Proofs.Files.Paths
import FluentShift.Proofs.Runs

/-!
# FluentShift.Proofs.Files.Walk - where paths lead

What was put at a place lies there (`at?_put`).  `Leads d p cs spot` says how the parts of a path lead from a directory to a
spot; a path leads to the place that its words mean (`place_look`), and where it leads depends on the directories on the
way and on that place alone (`look_grown`).
-/

namespace FluentShift.Files

namespace Disk

/-! ### Putting -/

section Lookup

variable {κ ν : Type} [BEq κ] [LawfulBEq κ]

theorem lookup_cons_of_ne {es : List (κ × ν)} {p q : κ} {e : ν} (h : p ≠ q) : ((q, e) :: es).lookup p = es.lookup p := by
  rw [List.lookup_cons, beq_false_of_ne h]

theorem lookup_map_put [DecidableEq κ] {es : List (κ × ν)} {p q : κ} {e : ν} :
    (es.map fun x => if x.1 = q then (q, e) else x).lookup p =
      if p = q then (es.lookup q).map fun _ => e else es.lookup p := by
  induction es with
  | nil => simp
  | cons x es ih =>
    obtain ⟨r, f⟩ := x
    rw [List.map_cons]
    by_cases hr : r = q
    · subst hr
      rw [if_pos rfl]
      by_cases hp : p = r
      · subst hp
        rw [List.lookup_cons_self, if_pos rfl, List.lookup_cons_self, Option.map_some]
      · rw [lookup_cons_of_ne hp, lookup_cons_of_ne hp, ih, if_neg hp, if_neg hp]
    · rw [if_neg hr, lookup_cons_of_ne (Ne.symm hr)]
      by_cases hp : p = r
      · subst hp
        rw [List.lookup_cons_self, if_neg hr, List.lookup_cons_self]
      · rw [lookup_cons_of_ne hp, lookup_cons_of_ne hp, ih]

/-- What is found under a key after something was put under a key. -/
theorem lookup_put [DecidableEq κ] {es : List (κ × ν)} {p q : κ} {e : ν} :
    (if (es.lookup q).isSome then es.map fun x => if x.1 = q then (q, e) else x else es ++ [(q, e)]).lookup p =
      if p = q then some e else es.lookup p := by
  split
  · rename_i hsome
    obtain ⟨f, hf⟩ := Option.isSome_iff_exists.mp hsome
    rw [lookup_map_put, hf]
    rfl
  · rename_i hnone
    rw [Option.not_isSome_iff_eq_none] at hnone
    rw [List.lookup_append]
    by_cases hp : p = q
    · subst hp
      rw [hnone, List.lookup_cons_self, if_pos rfl, Option.none_or]
    · rw [lookup_cons_of_ne hp, List.lookup_nil, Option.or_none, if_neg hp]

end Lookup

theorem at?_eq_lookup {d : Disk} {p : Place} (h : p.isAnchor = false) : d.at? p = d.entries.lookup p :=
  if_neg (by rw [h]; exact Bool.false_ne_true)

theorem isAnchor_of_at? {d : Disk} {p : Place} (h : d.at? p ≠ some .directory) : p.isAnchor = false := by
  by_contra hanchor
  exact h (if_pos (by simpa using hanchor))

theorem at?_put {d : Disk} {p q : Place} {e : Entry} (hq : q.isAnchor = false) :
    (d.put q e).at? p = if p = q then some e else d.at? p := by
  have hlookup : (d.put q e).entries.lookup p = if p = q then some e else d.entries.lookup p := by
    rw [← lookup_put, put]
    split <;> rfl
  by_cases hanchor : p.isAnchor = true
  · have hp : p ≠ q := by
      rintro rfl
      rw [hq] at hanchor
      cases hanchor
    rw [if_neg hp, at?, at?, if_pos hanchor, if_pos hanchor]
  · rw [Bool.not_eq_true] at hanchor
    rw [at?_eq_lookup hanchor, at?_eq_lookup hanchor, hlookup]

/-! ### Where paths lead -/

/-- The place that was led to. -/
def Spot.place : Spot → Place
  | .found p _ => p
  | .free p => p

/-- What lies at a spot. -/
def Spot.entry? : Spot → Option Entry
  | .found _ e => some e
  | .free _ => none

/-- From a directory the parts of a path lead to a spot. -/
inductive Leads (d : Disk) : Place → List String → Spot → Prop
  | here (p : Place) : Leads d p [] (.found p .directory)
  | skip {p : Place} {c : String} {cs : List String} {spot : Spot} (hpart : FilePath.isPart c = false)
      (h : Leads d p cs spot) : Leads d p (c :: cs) spot
  | up {p : Place} {cs : List String} {spot : Spot} (h : Leads d p.up cs spot) : Leads d p (".." :: cs) spot
  | down {p : Place} {c : String} {cs : List String} {spot : Spot} (hname : FilePath.isPart c = true ∧ c ≠ "..")
      (hshort : c.utf8ByteSize ≤ longestName) (hat : d.at? (p ++ [c]) = some .directory) (h : Leads d (p ++ [c]) cs spot) :
      Leads d p (c :: cs) spot
  | file {p : Place} {c : String} {b : ByteArray} (hname : FilePath.isPart c = true ∧ c ≠ "..")
      (hshort : c.utf8ByteSize ≤ longestName) (hat : d.at? (p ++ [c]) = some (.file b)) :
      Leads d p [c] (.found (p ++ [c]) (.file b))
  | free {p : Place} {c : String} (hname : FilePath.isPart c = true ∧ c ≠ "..") (hshort : c.utf8ByteSize ≤ longestName)
      (hat : d.at? (p ++ [c]) = none) : Leads d p [c] (.free (p ++ [c]))

theorem leads_of_walk {d : Disk} {p : Place} {cs : List String} {spot : Spot}
    (h : d.walk (.found p .directory) cs = .ok spot) : Leads d p cs spot := by
  induction cs generalizing p with
  | nil =>
    cases h
    exact .here p
  | cons c cs ih =>
    rw [walk] at h
    -- a part that means nothing, one that leads up, or a name that lies here or is still free
    split at h
    · rename_i hpart
      exact .skip (by simpa using hpart) (ih h)
    · rename_i hpart
      rw [Bool.not_eq_true, Bool.not_eq_false'] at hpart
      split at h
      · rename_i hup
        rw [hup]
        exact .up (ih h)
      · rename_i hup
        split at h
        · cases h
        · rename_i hshort
          have hshort := Nat.le_of_not_lt hshort
          split at h
          · rename_i e hat
            cases e with
            | directory => exact .down ⟨hpart, hup⟩ hshort hat (ih h)
            | file b =>
              cases cs <;> cases h
              exact .file ⟨hpart, hup⟩ hshort hat
          · cases cs <;> cases h
            exact .free ⟨hpart, hup⟩ hshort (by assumption)

namespace Leads

variable {d d' : Disk} {p : Place} {cs : List String} {spot : Spot}

theorem walk (h : Leads d p cs spot) : d.walk (.found p .directory) cs = .ok spot := by
  induction h with
  | here => rfl
  | skip hpart _ ih =>
    rw [Disk.walk, if_pos (by rw [hpart]; rfl)]
    exact ih
  | up _ ih =>
    rw [Disk.walk, if_neg (by decide), if_pos rfl]
    exact ih
  | down hname hshort hat _ ih =>
    rw [Disk.walk, if_neg (by simp [hname.1]), if_neg hname.2, if_neg (Nat.not_lt.mpr hshort), hat]
    exact ih
  | file hname hshort hat | free hname hshort hat =>
    rw [Disk.walk, if_neg (by simp [hname.1]), if_neg hname.2, if_neg (Nat.not_lt.mpr hshort), hat]
    rfl

theorem place (h : Leads d p cs spot) : spot.place = (cs.filter FilePath.isPart).foldl Place.enter p := by
  have hdown : ∀ {p : Place} {c : String} {cs : List String}, FilePath.isPart c = true ∧ c ≠ ".." →
      ((c :: cs).filter FilePath.isPart).foldl Place.enter p = (cs.filter FilePath.isPart).foldl Place.enter (p ++ [c]) := by
    intro p c cs hname
    rw [List.filter_cons_of_pos hname.1, List.foldl_cons, Place.enter, if_neg hname.2]
  induction h with
  | here => rfl
  | skip hpart _ ih => rwa [List.filter_cons_of_neg (by simp [hpart])]
  | up _ ih => exact ih
  | down hname _ _ _ ih => rwa [hdown hname]
  | file hname | free hname => rw [hdown hname]; rfl

/-- Where a path leads, other disks let it lead too: it needs the directories on the way, and what is there is there. -/
theorem grown (hdirs : ∀ q, d.at? q = some .directory → d'.at? q = some .directory) (h : Leads d p cs spot)
    (hentry : spot.entry? ≠ some .directory) {e : Entry} (he : d'.at? spot.place = some e) :
    Leads d' p cs (.found spot.place e) := by
  induction h with
  | here => exact absurd rfl hentry
  | skip hpart _ ih => exact .skip hpart (ih hentry he)
  | up _ ih => exact .up (ih hentry he)
  | down hname hshort hat _ ih => exact .down hname hshort (hdirs _ hat) (ih hentry he)
  | file hname hshort | free hname hshort =>
    cases e with
    | directory => exact .down hname hshort he (.here _)
    | file b => exact .file hname hshort he

/-- Where directories stay, paths to directories go on leading to them. -/
theorem kept (hdirs : ∀ q, d.at? q = some .directory → d'.at? q = some .directory) (h : Leads d p cs spot)
    (hentry : spot.entry? = some .directory) : Leads d' p cs spot := by
  induction h with
  | here => exact .here _
  | skip hpart _ ih => exact .skip hpart (ih hentry)
  | up _ ih => exact .up (ih hentry)
  | down hname hshort hat _ ih => exact .down hname hshort (hdirs _ hat) (ih hentry)
  | file | free => cases hentry

/-- What is at the end of a path lies there, if it is not a directory. -/
theorem at? (h : Leads d p cs spot) (hentry : spot.entry? ≠ some .directory) : d.at? spot.place = spot.entry? := by
  induction h with
  | here => exact absurd rfl hentry
  | skip _ _ ih | up _ ih | down _ _ _ _ ih => exact ih hentry
  | file _ _ hat | free _ _ hat => exact hat

end Leads

theorem walk_append {d : Disk} {s : Spot} {cs cs' : List String} :
    d.walk s (cs ++ cs') = d.walk s cs >>= fun s' => d.walk s' cs' := by
  induction cs generalizing s with
  | nil => cases s <;> rfl
  | cons c cs ih =>
    match s with
    | .free _ => rfl
    | .found _ (.file _) => rfl
    | .found p .directory =>
      rw [List.cons_append, walk, walk]
      split
      · exact ih
      · split
        · exact ih
        · split
          · rfl
          · split <;> exact ih

/-- What is found at the end of a path lies there, unless the path ends with double dots. -/
theorem at?_of_walk_concat {d : Disk} {s : Spot} {cs : List String} {c : String} (hpart : FilePath.isPart c = true)
    (hup : c ≠ "..") {q : Place} {e : Entry} (h : d.walk s (cs ++ [c]) = .ok (.found q e)) : d.at? q = some e := by
  rw [walk_append] at h
  obtain ⟨s', -, h⟩ := Except.bind_eq_ok.mp h
  match s' with
  | .free _ => cases h
  | .found _ (.file _) => cases h
  | .found p .directory =>
    rw [walk, if_neg (by simp [hpart]), if_neg hup] at h
    split at h
    · cases h
    · split at h <;> cases h
      assumption

theorem root_ofString (path : String) :
    Place.root (FilePath.ofString path) = if path.toList.head? = some '/' then ["/"] else [] := by
  rw [Place.root, FilePath.isAbsolute, FilePath.ofString, FilePath.startOf]
  split
  · simp_all
  · simp_all
  · simp_all
  · rename_i hother
    have hhead : path.toList.head? ≠ some '/' := by
      intro h
      obtain ⟨cs, hcs⟩ := List.head?_eq_some_iff.mp h
      exact hother cs hcs
    simp [hhead]

theorem look_ok {d : Disk} {path : String} {spot : Spot} :
    d.look path = .ok spot ↔ path ≠ "" ∧ path.utf8ByteSize ≤ longestPath ∧
      d.walk (.found (Place.root (FilePath.ofString path)) .directory) (Text.split '/' path) = .ok spot := by
  rw [look, root_ofString]
  by_cases hempty : path = ""
  · simp [hempty]
  · by_cases hlong : longestPath < path.utf8ByteSize
    · simp [hempty, hlong, Nat.not_le.mpr hlong]
    · simp [hempty, hlong, Nat.le_of_not_lt hlong]

/-- A path leads to the place that it means. -/
theorem place_look {d : Disk} {path : String} {spot : Spot} (h : d.look path = .ok spot) :
    spot.place = Place.named path :=
  (leads_of_walk (look_ok.mp h).2.2).place

theorem at?_of_look {d : Disk} {path : String} {spot : Spot} (h : d.look path = .ok spot)
    (hentry : spot.entry? ≠ some .directory) : d.at? (Place.named path) = spot.entry? := by
  rw [← place_look h]
  exact (leads_of_walk (look_ok.mp h).2.2).at? hentry

theorem look_grown {d d' : Disk} (hdirs : ∀ p, d.at? p = some .directory → d'.at? p = some .directory) {path : String}
    {spot : Spot} {e : Entry} (h : d.look path = .ok spot) (hentry : spot.entry? ≠ some .directory)
    (he : d'.at? (Place.named path) = some e) : d'.look path = .ok (.found (Place.named path) e) := by
  obtain ⟨hempty, hlong, hwalk⟩ := look_ok.mp h
  rw [← place_look h] at he ⊢
  exact look_ok.mpr ⟨hempty, hlong, ((leads_of_walk hwalk).grown hdirs hentry he).walk⟩

theorem look_of_content? {d : Disk} {path : String} {b : ByteArray} (h : d.content? path = some b) :
    d.look path = .ok (.found (Place.named path) (.file b)) := by
  rw [content?, entry?] at h
  split at h
  · rename_i hentry
    split at hentry
    · rename_i hlook
      cases hentry
      cases h
      rw [hlook, ← place_look hlook]
      rfl
    · cases hentry
  · cases h

theorem content?_of_look {d : Disk} {path : String} {p : Place} {b : ByteArray}
    (h : d.look path = .ok (.found p (.file b))) : d.content? path = some b := by
  rw [content?, entry?, h]

theorem at?_of_content? {d : Disk} {path : String} {b : ByteArray} (h : d.content? path = some b) :
    d.at? (Place.named path) = some (.file b) :=
  at?_of_look (look_of_content? h) (by simp [Spot.entry?])

theorem read_ok {d : Disk} {path : String} {b : ByteArray} (h : d.read path = .ok b) : d.content? path = some b := by
  rw [read] at h
  split at h <;> cases h
  exact content?_of_look (by assumption)

/-- What a path leads to lies at its place, unless the path ends with double dots. -/
theorem at?_of_find {d : Disk} {p : FilePath} {init : List String} {c : String} {e : Entry} (hp : p.IsNormal)
    (hparts : p.parts = init ++ [c]) (hpart : FilePath.isPart c = true) (hup : c ≠ "..")
    (h : d.find p.text = .ok (some e)) : d.at? (Place.ofPath p) = some e := by
  rw [find] at h
  split at h
  · rename_i q f hlook
    cases h
    have hplace : q = Place.ofPath p := (place_look hlook).trans (Place.named_text hp)
    obtain ⟨lead, hsplit, -⟩ := FilePath.split_text hp (by simp [hparts])
    have hwalk := (look_ok.mp hlook).2.2
    rw [hsplit, hparts, ← List.append_assoc] at hwalk
    rw [← hplace]
    exact at?_of_walk_concat hpart hup hwalk
  · cases h
  · cases h

end Disk

end FluentShift.Files
