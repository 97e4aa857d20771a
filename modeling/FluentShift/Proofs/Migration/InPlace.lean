import FluentShift.Proofs.Migration.Targets

/-!
# FluentShift.Proofs.Migration.InPlace - sources that are migrated in place

The stem and the suffix of a name make up the name again, and the name under the parent makes up the path again
(`parent_join_name`).  So without a target directory and without a suffix the target of a source is the source, however its
path is written, and migrating it writes there and to its copy and nowhere else (`targetPath_inPlace`).
-/

namespace FluentShift.Files.FilePath

theorem stem_append_suffix (p : FilePath) : p.stem ++ p.suffix = p.name := by
  rw [stem, suffix, ← String.ofList_append, splitName_append, String.ofList_toList]

/-- A path is its name under its parent; a path without a name is its own parent. -/
theorem parent_join_name {p : FilePath} (h : p.IsNormal) : p.parent.join (ofString p.name) = p := by
  obtain ⟨start, parts⟩ := p
  cases parts using List.reverseRecOn with
  | nil => rfl
  | append_singleton init s =>
    have hs : IsName s := h.parts s (List.mem_append_right _ List.mem_cons_self)
    have hname : name ⟨start, init ++ [s]⟩ = s := by rw [name, List.getLast?_concat, Option.getD_some]
    rw [hname, ofString_name hs]
    show (⟨start, (init ++ [s]).dropLast ++ [s]⟩ : FilePath) = _
    rw [List.dropLast_concat]

end FluentShift.Files.FilePath

namespace FluentShift.Migration

open FluentShift.Files FluentShift.Engine FluentShift.Types

variable {c : Config}

/-- What migrating a source in place comes to: it writes the source and its copy and nothing else, and the result of a
migrated source names the source. -/
structure StaysInPlace (c : Config) (source : String) (before after : Disk)
    (answer : Except Failure (Result Payload)) : Prop where
  writes : Writes (copies (c.textOf? .backupRoot) source ++ [FilePath.ofString source]) before after
  named : ∀ r, answer = .ok r → r.isOk = true → dataText r = (FilePath.ofString source).text

theorem FileEnd.staysInPlace {tools : Tools} {source : String} {d d' : Disk}
    {answer : Except Failure (Result Payload)} (h : FileEnd tools c source d answer d')
    (htarget : c.targetPath source = .ok (FilePath.ofString source)) : StaysInPlace c source d d' answer where
  writes := by
    have hwrites := h.writes
    rwa [outputs, targetsOf, htarget] at hwrites
  named r hr hok := by
    cases h with
    | stopped hstopped =>
      rw [(hstopped r hr).1] at hok
      cases hok
    | ended _ _ htarget' _ _ htold =>
      cases hr
      rw [htarget, Except.ok.injEq] at htarget'
      rw [htarget']
      exact dataText_of_told htold hok

/-- Without a target directory and without a suffix every source is its own target, and it is migrated there. -/
theorem targetPath_inPlace (hroot : c.isOn .targetRoot = false) (hsuffix : c.value .targetSuffix = .text "")
    (source : String) :
    c.targetPath source = .ok (FilePath.ofString source) ∧
      (∀ runId fresh, ∃ context, Context.create source none c runId fresh = .ok context ∧
        FilePath.ofString context.target = FilePath.ofString source) ∧
      ∀ tools runId d system listening,
        let run := Act.outcomeUnder (migrateFile tools c runId source).run system d listening
        StaysInPlace c source d run.2.desk.disk run.1 := by
  have htarget : c.targetPath source = .ok (FilePath.ofString source) := by
    have hname : (FilePath.ofString source).stem ++ "" ++ (FilePath.ofString source).suffix =
        (FilePath.ofString source).name := by
      rw [String.append_empty, FilePath.stem_append_suffix]
    have hself := FilePath.parent_join_name (FilePath.isNormal_ofString source)
    simp only [Config.targetPath, hroot, hsuffix, Value.shown, hname, hself]
    rfl
  refine ⟨htarget, fun runId fresh => ?_, fun tools runId d system listening => ?_⟩
  · rw [Context.create, htarget]
    exact ⟨_, rfl, FilePath.ofString_text_ofString source⟩
  · have hend := (runs_fileEnd : Act.Runs system (migrateFile tools c runId source).run d _).outcomeUnder listening
    exact hend.staysInPlace htarget

/-- By default a path with double dots, doubled slashes and dots around its name is its own target, and the source of
`markedDisk` is rewritten in its place. -/
theorem inPlace_standard :
    Config.standard.isOn .targetRoot = false ∧ Config.standard.value .targetSuffix = .text "" ∧
      Config.standard.targetPath "//./a//../.b.c./" = .ok ⟨"//", ["a", "..", ".b.c."]⟩ ∧
      ∃ r s, Act.outcome (migrateFile .standard .standard "run" "./t.py").run markedDisk false = (.ok r, s) ∧
        r.isOk = true ∧ writtenNote r = some true ∧ StaysInPlace .standard "./t.py" markedDisk s.desk.disk (.ok r) := by
  have hpath := (targetPath_inPlace (c := .standard) rfl rfl "//./a//../.b.c./").1
  rw [show FilePath.ofString "//./a//../.b.c./" = ⟨"//", ["a", "..", ".b.c."]⟩ by decide +kernel] at hpath
  obtain ⟨r, s, hrun, hok, hwritten, -⟩ := of_fileRun
    (show fileRun .standard markedDisk "./t.py" = some (true, some true,
      [(["t.py"], .file "x = 1\n".toUTF8), (["t.py.backup"], .file markedText.toUTF8)]) by decide +kernel)
  have hstays := (targetPath_inPlace (c := .standard) rfl rfl "./t.py").2.2 .standard "run" markedDisk .calm false
  rw [← Act.outcome, hrun] at hstays
  exact ⟨rfl, rfl, hpath, r, s, hrun, hok, hwritten, hstays⟩

end FluentShift.Migration
