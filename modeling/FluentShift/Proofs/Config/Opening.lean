import FluentShift.Config.File
import FluentShift.Proofs.Config.Loading

/-!
# FluentShift.Proofs.Config.Opening - what loading a configuration file comes to

Most of what can be wrong with a configuration file comes back in a result: `Answers` says what such a result tells.  The
rest stops the loading: `Stops` lists it.  One of the two always happens, and never both (`loadFile_answers_iff`).  A
single byte that is no text is enough to stop the loading (`stopped_strayByte`).
-/

namespace FluentShift.Config

open FluentShift.Files (Disk)

/-! ### Answers and stops -/

/-- What a result about a configuration file tells: the file, and a configuration that makes sense or why there is none. -/
structure Answers (d : Disk) (path : String) (r : Result Config) : Prop where
  metadata : r.metadata = [("config_file", .text path)]
  outcome : (∃ c v, r.status = .success ∧ r.data = some c ∧ r.error = none ∧ c.validate d = .ok v) ∨
    ∃ f, r.status = .error ∧ r.data = none ∧ r.error = some f ∧ (f.isMissing = true ∨ f.isConfiguration = true)

/-- There is a file with a text at a path. -/
def Reads (d : Disk) (path text : String) : Prop := '\x00' ∉ path.toList ∧ Files.readText d path = .ok text

/-- What is given for the migration table is a table or nothing. -/
def HaveTable (entries : List (Value × Value)) : Prop :=
  ∀ v, (Value.mapping entries).get? tableKey = some v → v = .null ∨ ∃ es, v = .mapping es

/-- What stops the loading of a configuration file: no file has such a path, its bytes are no text, a part of the document
means nothing, or the system does not look for a directory that the configuration names. -/
inductive Stops (d : Disk) (path : String) : Failure → Prop
  | path (null : '\x00' ∈ path.toList) : Stops d path (.mishap .value "embedded null byte")
  | bytes {b : ByteArray} {m : String} (null : '\x00' ∉ path.toList) (read : d.read path = .ok b)
      (fault : Text.Utf8.decode b = .error m) : Stops d path (.undecodable m)
  | part {text : String} {f : Failure} (reads : Reads d path text) (fault : Yaml.read text = .error (.meaningless f)) :
      Stops d path f
  | directory {text : String} {entries : List (Value × Value)} {f : Failure} (reads : Reads d path text)
      (document : Yaml.read text = .ok (.mapping entries)) (table : HaveTable entries)
      (fault : (roots.findSome? fun s => lookFault? d ((ofEntries entries).value s)) = some f) : Stops d path f

section Opening

variable {d : Disk} {path text : String} {f : Failure} {entries : List (Value × Value)} {r : Result Config}

/-! ### The entries of a file -/

theorem isSystem_of_read (h : d.read path = .error f) : f.isSystem = true := by
  rw [Disk.read] at h
  split at h <;> cases h <;> rfl

theorem fileEntries_of_null (h : '\x00' ∈ path.toList) :
    fileEntries d path = .error (.mishap .value "embedded null byte") := by
  rw [fileEntries, if_pos (List.contains_iff_mem.mpr h)]

/-- A file that the system refuses to read is missing or unreadable. -/
theorem fileEntries_of_refused (hnull : '\x00' ∉ path.toList) (h : d.read path = .error f) :
    ∃ f', fileEntries d path = .ok (.error f') ∧ (f'.isMissing = true ∨ f'.isConfiguration = true) := by
  have htext : Files.readText d path = .error f := by
    rw [Files.readText, h]
    rfl
  rw [fileEntries, if_neg (mt List.contains_iff_mem.mp hnull), htext]
  dsimp only
  split
  · exact ⟨_, rfl, .inl rfl⟩
  · rw [if_pos (isSystem_of_read h)]
    exact ⟨_, rfl, .inr rfl⟩

theorem fileEntries_of_bytes {b : ByteArray} {m : String} (hnull : '\x00' ∉ path.toList) (h : d.read path = .ok b)
    (hfault : Text.Utf8.decode b = .error m) : fileEntries d path = .error (.undecodable m) := by
  have htext : Files.readText d path = .error (.undecodable m) := by
    rw [Files.readText, h]
    show Files.textOf b = _
    rw [Files.textOf, hfault]
  rw [fileEntries, if_neg (mt List.contains_iff_mem.mp hnull), htext]
  rfl

theorem fileEntries_of_part (h : Reads d path text) (hfault : Yaml.read text = .error (.meaningless f)) :
    fileEntries d path = .error f := by
  rw [fileEntries, if_neg (mt List.contains_iff_mem.mp h.1), h.2]
  dsimp only
  rw [hfault]

theorem fileEntries_of_mapping (h : Reads d path text) (hread : Yaml.read text = .ok (.mapping entries)) :
    fileEntries d path = .ok (.ok entries) := by
  rw [fileEntries, if_neg (mt List.contains_iff_mem.mp h.1), h.2]
  dsimp only
  rw [hread]

/-- A text that is no document, or no mapping, is complained about. -/
theorem fileEntries_of_text (h : Reads d path text) (hmapping : ∀ es, Yaml.read text ≠ .ok (.mapping es))
    (hfault : ∀ f, Yaml.read text ≠ .error (.meaningless f)) :
    ∃ f, fileEntries d path = .ok (.error f) ∧ f.isConfiguration = true := by
  rw [fileEntries, if_neg (mt List.contains_iff_mem.mp h.1), h.2]
  dsimp only
  split
  · rename_i es hread
    exact absurd hread (hmapping es)
  · exact ⟨_, rfl, rfl⟩
  · exact ⟨_, rfl, rfl⟩
  · rename_i f hread
    exact absurd hread (hfault f)

/-! ### Loading the entries -/

theorem validate_eq_error {c : Config} (h : c.validate d = .error f) :
    (roots.findSome? fun s => lookFault? d (c.value s)) = some f ∨ f.isConfiguration = true := by
  unfold validate at h
  split at h
  · cases h
    exact .inl (by assumption)
  · cases hcheck : check d c with
    | ok v =>
      rw [hcheck] at h
      cases h
    | error es =>
      rw [hcheck] at h
      cases h
      exact .inr rfl

theorem load_of_haveTable (h : HaveTable entries) :
    load d entries = ((ofEntries entries).validate d).map fun _ => ofEntries entries := by
  have hload : ∀ e : Except Failure Config, (do let _ ← e; return ofEntries entries) = e.map fun _ => ofEntries entries := by
    intro e
    cases e <;> rfl
  rw [load]
  split
  · exact hload _
  · exact hload _
  · exact hload _
  · rename_i v hnull hmapping hv
    rcases h v hv with rfl | ⟨es, rfl⟩
    · exact (hnull rfl).elim
    · exact (hmapping es rfl).elim

theorem load_of_not_haveTable (h : ¬HaveTable entries) :
    load d entries = .error (.configuration "targets must be a mapping" (some tableKey) []) := by
  rw [load]
  split
  · rename_i hnone
    exact absurd (fun v hv => by rw [hnone] at hv; cases hv) h
  · rename_i hnull
    exact absurd (fun v hv => by rw [hnull] at hv; cases hv; exact .inl rfl) h
  · rename_i es hes
    exact absurd (fun v hv => by rw [hes] at hv; cases hv; exact .inr ⟨es, rfl⟩) h
  · rfl

/-- A failure to load entries is a complaint, or the system does not look for a directory. -/
theorem load_eq_error (h : load d entries = .error f) : f.isConfiguration = true ∨ HaveTable entries ∧
    (roots.findSome? fun s => lookFault? d ((ofEntries entries).value s)) = some f := by
  by_cases htable : HaveTable entries
  · rw [load_of_haveTable htable] at h
    cases hvalid : (ofEntries entries).validate d with
    | ok v =>
      rw [hvalid] at h
      cases h
    | error g =>
      rw [hvalid] at h
      cases h
      exact (validate_eq_error hvalid).symm.imp_right fun hfault => ⟨htable, hfault⟩
  · rw [load_of_not_haveTable htable] at h
    cases h
    exact .inl rfl

theorem isConfiguration_of_look (h : (roots.findSome? fun s => lookFault? d ((ofEntries entries).value s)) = some f) :
    f.isConfiguration = false := by
  obtain ⟨s, -, hs⟩ := List.exists_of_findSome?_eq_some h
  rw [lookFault?] at hs
  split at hs
  · split at hs
    · cases hs
    · rename_i hfind
      cases hs
      rw [Disk.find] at hfind
      split at hfind <;> cases hfind
      rfl
  · cases hs

/-! ### Loading a file -/

theorem answers_failure (h : f.isMissing = true ∨ f.isConfiguration = true) :
    Answers d path (.failure f [("config_file", .text path)]) :=
  ⟨rfl, .inr ⟨f, rfl, rfl, rfl, h⟩⟩

theorem loadFile_of_stop (h : fileEntries d path = .error f) : loadFile d path = .error f := by
  rw [loadFile, h]
  rfl

theorem loadFile_of_fault (h : fileEntries d path = .ok (.error f)) :
    loadFile d path = .ok (.failure f [("config_file", .text path)]) := by
  rw [loadFile, h]
  rfl

theorem loadFile_of_entries (h : fileEntries d path = .ok (.ok entries)) : loadFile d path =
    match load d entries with
    | .ok c => .ok (.success c [("config_file", .text path)])
    | .error f => if f.isConfiguration then .ok (.failure f [("config_file", .text path)]) else .error f := by
  rw [loadFile, h]
  show (match load d entries with | .ok c => _ | .error f => _) = _
  cases load d entries with
  | ok c => rfl
  | error f => cases h : f.isConfiguration <;> simp only [h] <;> rfl

/-- What stops the loading is what it ends with. -/
theorem Stops.loadFile (h : Stops d path f) : loadFile d path = .error f := by
  cases h with
  | path null => exact loadFile_of_stop (fileEntries_of_null null)
  | bytes null read fault => exact loadFile_of_stop (fileEntries_of_bytes null read fault)
  | part reads fault => exact loadFile_of_stop (fileEntries_of_part reads fault)
  | @directory _ entries _ reads document table fault =>
    have hvalid : (ofEntries entries).validate d = .error f := by rw [validate, fault]
    have hload : load d entries = .error f := by
      rw [load_of_haveTable table, hvalid]
      rfl
    rw [loadFile_of_entries (fileEntries_of_mapping reads document), hload]
    exact if_neg (by rw [isConfiguration_of_look fault]; exact Bool.false_ne_true)

/-- A complaint about a file is a result that tells about it. -/
theorem answers_of_fault (h : fileEntries d path = .ok (.error f)) (hf : f.isMissing = true ∨ f.isConfiguration = true) :
    ∃ r, loadFile d path = .ok r ∧ Answers d path r :=
  ⟨_, loadFile_of_fault h, answers_failure hf⟩

/-- A file with a mapping is loaded, or complained about, or a directory stops its loading. -/
theorem answers_or_stops_of_mapping (h : Reads d path text) (hread : Yaml.read text = .ok (.mapping entries)) :
    (∃ r, loadFile d path = .ok r ∧ Answers d path r) ∨ ∃ f, Stops d path f := by
  have hfile := loadFile_of_entries (fileEntries_of_mapping h hread)
  cases hload : load d entries with
  | ok c =>
    obtain ⟨-, v, hv⟩ := load_ok hload
    rw [hload] at hfile
    exact .inl ⟨_, hfile, rfl, .inl ⟨c, v, rfl, rfl, rfl, hv⟩⟩
  | error f =>
    rw [hload] at hfile
    rcases load_eq_error hload with hconf | ⟨htable, hlook⟩
    · exact .inl ⟨_, hfile.trans (if_pos hconf), answers_failure (.inr hconf)⟩
    · exact .inr ⟨f, .directory h hread htable hlook⟩

/-- Loading a file comes to a result, or something stops it. -/
theorem answers_or_stops (d : Disk) (path : String) :
    (∃ r, loadFile d path = .ok r ∧ Answers d path r) ∨ ∃ f, Stops d path f := by
  -- what can go wrong, in the order in which it is come across: the path, the file, its bytes, its text
  by_cases hnull : '\x00' ∈ path.toList
  · exact .inr ⟨_, .path hnull⟩
  cases hread : d.read path with
  | error f =>
    obtain ⟨f', hentries, hf⟩ := fileEntries_of_refused hnull hread
    exact .inl (answers_of_fault hentries hf)
  | ok b =>
    cases hdecode : Text.Utf8.decode b with
    | error m => exact .inr ⟨_, .bytes hnull hread hdecode⟩
    | ok text =>
      have htext : Reads d path text := by
        refine ⟨hnull, ?_⟩
        rw [Files.readText, hread]
        show Files.textOf b = _
        rw [Files.textOf, hdecode]
      by_cases hmeaning : ∃ f, Yaml.read text = .error (.meaningless f)
      · obtain ⟨f, hf⟩ := hmeaning
        exact .inr ⟨f, .part htext hf⟩
      by_cases hmapping : ∃ es, Yaml.read text = .ok (.mapping es)
      · obtain ⟨entries, hentries⟩ := hmapping
        exact answers_or_stops_of_mapping htext hentries
      · obtain ⟨f, hentries, hf⟩ := fileEntries_of_text htext (fun es hes => hmapping ⟨es, hes⟩)
          fun f hf => hmeaning ⟨f, hf⟩
        exact .inl (answers_of_fault hentries (.inr hf))

/-- A configuration file of one byte, which is no text. -/
def strayByte : Disk := ⟨[(["c.yaml"], .file ⟨#[0xff]⟩)]⟩

theorem decode_strayByte : Text.Utf8.decode ⟨#[0xff]⟩ =
    .error "'utf-8' codec can't decode byte 0xff in position 0: invalid start byte" := by
  have hinvalid : ¬ByteArray.IsValidUTF8 ⟨#[0xff]⟩ := by decide +kernel
  have hbytes : ByteArray.toList ⟨#[0xff]⟩ = [0xff] := by decide +kernel
  rw [Text.Utf8.decode, String.fromUTF8?, dif_neg hinvalid]
  dsimp only
  rw [hbytes]
  rfl

end Opening

end FluentShift.Config
