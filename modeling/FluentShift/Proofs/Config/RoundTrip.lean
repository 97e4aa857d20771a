import FluentShift.Proofs.Config.Loading

/-!
# FluentShift.Proofs.Config.RoundTrip - configurations as plain data and back

A configuration written as plain data and loaded again is the configuration it was, whatever values it was given
(`Config.load_toValue`): all that was passed over when it was loaded first, and all defaults that were filled in, make no
difference any more.  The same holds of its migration table.
-/

namespace FluentShift

/-! ### Mappings with text keys -/

theorem Value.get?_record (fields : List (String × Value)) (key : String) :
    (Value.record fields).get? key = fields.lookup key := by
  show ((fields.map fun f => (Value.text f.1, f.2)).find? fun e => e.1.same (.text key)).map (·.2) = _
  induction fields with
  | nil => rfl
  | cons f fields ih =>
    rw [List.map_cons, List.find?_cons, List.lookup_cons]
    show Option.map _ (match decide (f.1 = key) with | true => _ | false => _) = _
    by_cases h : f.1 = key
    · rw [decide_eq_true h, h, beq_self_eq_true]
      rfl
    · rw [decide_eq_false h, beq_eq_false_iff_ne.mpr (Ne.symm h)]
      exact ih

/-- In a list with one entry for each of some things under their keys, the entry of each is found under its key. -/
theorem lookup_of_keys {κ : Type} {key : κ → String} (hkey : Function.Injective key) (value : κ → Value) {ks : List κ}
    {k : κ} (hk : k ∈ ks) : (ks.map fun k => (key k, value k)).lookup (key k) = some (value k) := by
  induction ks with
  | nil => cases hk
  | cons k' ks ih =>
    rw [List.map_cons, List.lookup_cons]
    by_cases h : k = k'
    · rw [h, beq_self_eq_true]
    · rw [beq_eq_false_iff_ne.mpr (hkey.ne h)]
      exact ih ((List.mem_cons.mp hk).resolve_left h)

theorem MappingField.key_injective : Function.Injective MappingField.key := by
  intro f f'
  cases f <;> cases f' <;> first | exact fun _ => rfl | exact fun h => absurd h (by decide)

theorem Setting.key_injective : Function.Injective Setting.key := by
  intro s s'
  cases s <;> cases s' <;> first | exact fun _ => rfl | exact fun h => absurd h (by decide)

theorem Setting.key_ne_tableKey (s : Setting) : s.key ≠ tableKey := by
  cases s <;> decide

/-! ### Tables and configurations -/

/-- A table laid over any other one as plain data is what it was. -/
theorem GivenMapping.replace_toValue (base g : GivenMapping) :
    ∃ es, g.toValue = .mapping es ∧ base.replace es = g := by
  refine ⟨_, rfl, ?_⟩
  refine congrArg GivenMapping.mk (funext fun f => ?_)
  show ((Value.record _).get? f.key).getD _ = _
  rw [Value.get?_record, lookup_of_keys MappingField.key_injective g.value (show f ∈ MappingField.all by cases f <;> decide)]
  rfl

namespace Config

variable {d : Files.Disk} {c : Config} {g : GivenMapping} {entries : List (Value × Value)}

/-- A table among entries is laid over the standard one. -/
theorem table_ofEntries {gs : List (Value × Value)} (h : (Value.mapping entries).get? tableKey = some (.mapping gs)) :
    (ofEntries entries).table = .table (GivenMapping.standard.replace gs) := by
  unfold ofEntries
  dsimp only
  rw [h]

/-- A configuration with a table is read back from its plain data, which has a table of its own. -/
theorem ofEntries_toValue (h : c.table = .table g) :
    ∃ es, c.toValue = .mapping es ∧ ofEntries es = c ∧ (Value.mapping es).get? tableKey = some g.toValue := by
  obtain ⟨table, value⟩ := c
  obtain rfl : table = .table g := h
  have htable : (toValue ⟨.table g, value⟩).get? tableKey = some g.toValue := by
    rw [toValue, Value.get?_record, List.lookup_cons_self]
  have hvalue : ∀ s : Setting, (toValue ⟨.table g, value⟩).get? s.key = some (value s) := by
    intro s
    rw [toValue, Value.get?_record, List.lookup_cons, beq_eq_false_iff_ne.mpr s.key_ne_tableKey]
    exact lookup_of_keys Setting.key_injective value (show s ∈ Setting.all by cases s <;> decide)
  refine ⟨_, rfl, ?_, htable⟩
  obtain ⟨es, hes, hreplace⟩ := GivenMapping.replace_toValue .standard g
  refine congrArg₂ Config.mk ?_ (funext fun s => ?_)
  · exact hreplace ▸ table_ofEntries (htable.trans (congrArg some hes))
  · exact congrArg (Option.getD · _) (hvalue s)

/-- Loading the plain data of a configuration with a table gives it back exactly if it makes sense. -/
theorem load_toValue_iff (h : c.table = .table g) :
    ∃ es, c.toValue = .mapping es ∧ (load d es = .ok c ↔ ∃ v, c.validate d = .ok v) := by
  obtain ⟨es, hes, hof, htable⟩ := ofEntries_toValue h
  obtain ⟨gs, hgs, -⟩ := GivenMapping.replace_toValue g g
  refine ⟨es, hes, ?_⟩
  rw [load, htable, hgs, hof]
  constructor
  · intro hload
    obtain ⟨v, hv, -⟩ := Except.bind_eq_ok.mp hload
    exact ⟨v, hv⟩
  · rintro ⟨v, hv⟩
    exact Except.bind_eq_ok.mpr ⟨v, hv, rfl⟩

/-- A loaded configuration is loaded again from its plain data, on the same disk, and so is its table. -/
theorem load_toValue (h : load d entries = .ok c) :
    (∃ es, c.toValue = .mapping es ∧ load d es = .ok c) ∧
      ∃ g es, c.table = .table g ∧ g.toValue = .mapping es ∧ GivenMapping.standard.replace es = g := by
  obtain ⟨-, v, hv⟩ := load_ok h
  obtain ⟨-, g, -, hg, -⟩ := validate_ok hv
  obtain ⟨es, hes, hload⟩ := load_toValue_iff (d := d) hg
  obtain ⟨gs, hgs, hreplace⟩ := GivenMapping.replace_toValue .standard g
  exact ⟨⟨es, hes, hload.mpr ⟨v, hv⟩⟩, g, gs, hg, hgs, hreplace⟩

/-- A number given as a text, an unknown key, and a table with two of its entries and another unknown key. -/
def partialText : List (Value × Value) :=
  [(.text "io_retries", .text "4"), (.text "colour", .null),
    (.text "targets", .mapping [(.text "entry_point", .text "check"), (.int 1, .text "x"),
      (.text "four_arg_delta_index", .real 30 1)])]

/-- The round trip of `partialText`. -/
theorem load_toValue_partialText :
    load .empty partialText = .ok (ofEntries partialText) ∧
      (∃ es, (ofEntries partialText).toValue = .mapping es ∧ load .empty es = .ok (ofEntries partialText)) ∧
      (∃ g es, (ofEntries partialText).table = .table g ∧ g.toValue = .mapping es ∧
        GivenMapping.standard.replace es = g) ∧
      ((ofEntries partialText).value .retries).text? = some "4" := by
  have h : load .empty partialText = .ok (ofEntries partialText) := rfl
  obtain ⟨hwhole, htable⟩ := load_toValue h
  exact ⟨h, hwhole, htable, rfl⟩

end Config

end FluentShift
