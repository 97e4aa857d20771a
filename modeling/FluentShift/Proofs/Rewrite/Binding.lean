import FluentShift.Proofs.Rewrite.Accounting

/-!
# FluentShift.Proofs.Rewrite.Binding - what the fluent names of a rewritten file mean

A call is only rewritten if no scope of the file binds one of the fluent names it needs to anything but the fluent
function itself (`isFluentImport_of_required`).  The wrapper of tolerances may be the legacy function, though, since
validation compares only the entry point with it: then the new file can lack the import of a name that it needs
(`unimported_innerText`), and its chains can be legacy calls again (`relapsed_wrapperText`).
-/

namespace FluentShift.Rewrite

open FluentShift.Source FluentShift.Scope FluentShift.Types FluentShift.Imports FluentShift.Run

/-! ### Fluent names in the file before -/

/-- Where nothing conflicts with a symbol, the scopes of a table bind it to nothing but its fluent import. -/
theorem isFluentImport_of_conflictingBinding {m : Mapping} {t : Table} {symbol : String}
    (h : conflictingBinding m t symbol = none) {scope : ScopeId} (hscope : scope < t.scopes.size) :
    ∀ b ∈ t.own scope symbol, isFluentImport m b symbol = true := by
  intro b hb
  have hnone := List.findSome?_eq_none_iff.mp h scope (List.mem_range.mpr hscope)
  simpa using List.find?_eq_none.mp hnone b hb

open Run in
/-- Fixing the imports leaves the names that are needed as they are. -/
theorem exists_rewriteCalls {s : Setup} {f : SourceFile} {o : Outcome} (h : (rewrite s f).value = .ok o) :
    ∃ o₁, (rewriteCalls s f).value = .ok o₁ ∧ o.required = o₁.required := by
  obtain ⟨o₁, hcalls, hfix⟩ := (ends_of_value h).of_bind
  refine ⟨o₁, ?_, ?_⟩
  · rw [(rewriteCalls_gives s f).value]
    exact (rewriteCalls_gives s f).ends hcalls
  · unfold reconcileImports at hfix
    split at hfix
    · cases (gives_pure _).ends hfix
      rfl
    · obtain ⟨r, -, hfix⟩ := hfix.of_bind
      cases (gives_pure _).ends hfix
      rfl

/-- A file with rewritten calls binds the fluent names they need, in any of its scopes, to nothing but their fluent
imports. -/
theorem isFluentImport_of_required {s : Setup} {f : SourceFile} {o : Outcome} (hm : s.mapping.Accepted)
    (h : (rewrite s f).value = .ok o) {symbol : String} (hsymbol : symbol ∈ o.required) {scope : ScopeId}
    (hscope : scope < (Table.ofModule f.tree).scopes.size) :
    ∀ b ∈ (Table.ofModule f.tree).own scope symbol, isFluentImport s.mapping b symbol = true := by
  obtain ⟨o₁, hcalls, hsame⟩ := exists_rewriteCalls h
  have haccounted := rewriteCalls_accounted hm hcalls
  obtain ⟨r, hr, hrequired⟩ := (haccounted.required symbol).mp (hsame ▸ hsymbol)
  have hsite : r.site ∈ sitesOf s f := haccounted.ordered.subset (List.mem_map_of_mem hr)
  have hplannable := ((haccounted.rewritten_iff r.site hsite).mp (List.mem_map_of_mem hr)).toPlannable
  have hfree := hplannable.free _ (haccounted.classified r hr) symbol hrequired
  -- any other binding would be a conflict, and the call had been skipped for it
  refine isFluentImport_of_conflictingBinding ?_ hscope
  by_contra hsome
  obtain ⟨b, hb⟩ := Option.ne_none_iff_exists'.mp hsome
  refine hfree (List.mem_map.mpr ⟨(symbol, describeBinding b), List.mem_filterMap.mpr ⟨symbol, ?_, ?_⟩, rfl⟩)
  · rw [List.mem_eraseDups]
    rcases mem_requiredNames.mp hrequired with rfl | ⟨-, rfl⟩ <;> simp
  · rw [hb]
    rfl

/-! ### A fluent name that is a legacy one too -/

/-- Whether an import at the top level of a module gives a name of another module. -/
def importedAtTop (t : Tree) (module name : String) : Bool :=
  (importStatements t).any fun s => s.1.length = 2 &&
    (entriesOf s.2).any fun e => e = ⟨module, some name, none⟩ || e = ⟨module, some "*", none⟩

/-- The legacy function as the wrapper of tolerances. -/
def wrapperSetup : Setup :=
  { plainSetup with
    mapping := { Mapping.standard with fluentType := "junit.Assertions", toleranceWrapper := "assertEquals" } }

theorem accepted_wrapperSetup : wrapperSetup.mapping.Accepted := ⟨_, rfl⟩

/-- A text that imports the legacy function in another function, where it is called with a tolerance. -/
def innerText : String :=
  "def f():\n    from junit.Assertions import assertEquals\n    assertEquals(1, x, 0.1)\n"

/-- The fluent names that a text needs after its calls are rewritten, and which of them are imported at its top level. -/
def importedNames (s : Setup) (text : String) : Option (List (String × Bool)) := do
  let f ← SourceFile.parse? text
  let o ← (rewrite s f).value.toOption
  return o.required.map fun n => (n, importedAtTop o.file.tree s.mapping.fluentType n)

theorem of_importedNames {s : Setup} {text : String} {names : List (String × Bool)}
    (h : importedNames s text = some names) :
    ∃ f o, SourceFile.parse? text = some f ∧ (rewrite s f).value = .ok o ∧
      o.required.map (fun n => (n, importedAtTop o.file.tree s.mapping.fluentType n)) = names := by
  obtain ⟨f, hf, h⟩ := Option.bind_eq_some_iff.mp h
  obtain ⟨o, ho, h⟩ := Option.bind_eq_some_iff.mp h
  cases h
  exact ⟨f, o, hf, Except.eq_ok_of_toOption ho, rfl⟩

set_option maxRecDepth 100000 in
theorem importedNames_innerText :
    importedNames wrapperSetup innerText = some [("assertEquals", false), ("assertThat", true)] := by
  have hplain : ∀ n ∈ chainNames wrapperSetup.mapping, '_' ∉ n.toList := by decide
  simp only [importedNames, (rewrite_direct accepted_wrapperSetup hplain _).value]
  decide +kernel

/-- The chain in `innerText` needs a name that no import at the top level gives, although nothing else had that name. -/
theorem unimported_innerText :
    wrapperSetup.mapping.Accepted ∧
      ∃ f o, SourceFile.parse? innerText = some f ∧ (rewrite wrapperSetup f).value = .ok o ∧
        "assertEquals" ∈ o.required ∧ importedAtTop o.file.tree "junit.Assertions" "assertEquals" = false ∧
        ∀ scope < (Table.ofModule f.tree).scopes.size, ∀ b ∈ (Table.ofModule f.tree).own scope "assertEquals",
          isFluentImport wrapperSetup.mapping b "assertEquals" = true := by
  obtain ⟨f, o, hf, ho, hnames⟩ := of_importedNames importedNames_innerText
  have hmem : ("assertEquals", false) ∈ o.required.map fun n =>
      (n, importedAtTop o.file.tree wrapperSetup.mapping.fluentType n) := by
    rw [hnames]
    exact List.mem_cons_self ..
  obtain ⟨n, hn, heq⟩ := List.mem_map.mp hmem
  obtain ⟨rfl, htop⟩ := Prod.mk.inj heq
  exact ⟨accepted_wrapperSetup, f, o, hf, ho, hn, htop,
    fun _ hscope => isFluentImport_of_required accepted_wrapperSetup ho hn hscope⟩

/-- A text with one call of the legacy function, with a tolerance. -/
def wrapperText : String := "from junit.Assertions import assertEquals\nassertEquals(1, x, 0.1)\n"

/-- What a rewrite of a text leaves to do: how many calls were rewritten and how many skipped, and the texts of the
legacy calls in the new file. -/
structure Remains where
  rewritten : Nat
  skipped : Nat
  calls : List String
  deriving DecidableEq

/-- Rewrites a text and collects the legacy calls of the new one. -/
def remains (s : Setup) (text : String) : Option Remains := do
  let f ← SourceFile.parse? text
  let o ← (rewrite s f).value.toOption
  return ⟨o.rewritten.length, o.skipped.length, (sitesOf s o.file).map (·.call.text)⟩

theorem of_remains {s : Setup} {text : String} {r : Remains} (h : remains s text = some r) :
    ∃ f o, SourceFile.parse? text = some f ∧ (rewrite s f).value = .ok o ∧ o.rewritten.length = r.rewritten ∧
      o.skipped.length = r.skipped ∧ (sitesOf s o.file).map (·.call.text) = r.calls := by
  obtain ⟨f, hf, h⟩ := Option.bind_eq_some_iff.mp h
  obtain ⟨o, ho, h⟩ := Option.bind_eq_some_iff.mp h
  cases h
  exact ⟨f, o, hf, Except.eq_ok_of_toOption ho, rfl, rfl, rfl⟩

set_option maxRecDepth 100000 in
theorem remains_wrapperText : remains wrapperSetup wrapperText = some ⟨1, 0, ["assertEquals(0.1)"]⟩ := by
  have hplain : ∀ n ∈ chainNames wrapperSetup.mapping, '_' ∉ n.toList := by decide
  simp only [remains, (rewrite_direct accepted_wrapperSetup hplain _).value]
  decide +kernel

/-- No call of `wrapperText` is skipped, but the chain that replaces the only one holds a legacy call. -/
theorem relapsed_wrapperText :
    wrapperSetup.mapping.Accepted ∧
      ∃ f o, SourceFile.parse? wrapperText = some f ∧ (rewrite wrapperSetup f).value = .ok o ∧ o.rewritten ≠ [] ∧
        o.skipped = [] ∧
        (collect wrapperSetup.mapping (Table.ofModule o.file.tree) o.file.tree).map (·.call.text) =
          ["assertEquals(0.1)"] := by
  obtain ⟨f, o, hf, ho, hrewritten, hskipped, hcalls⟩ := of_remains remains_wrapperText
  exact ⟨accepted_wrapperSetup, f, o, hf, ho, List.ne_nil_of_length_eq_add_one hrewritten,
    List.length_eq_zero_iff.mp hskipped, hcalls⟩

end FluentShift.Rewrite
