import FluentShift.Proofs.Files.Walk
import FluentShift.Result

/-!
# FluentShift.Proofs.Metadata - values under keys

What is found under a key after another one was set (`Metadata.get?_put`) or after metadata was laid over it
(`Metadata.get?_merge`).  Laying metadata over metadata is associative (`Metadata.merge_assoc`).
-/

namespace FluentShift

namespace Metadata

variable {key key' : String} {v v' : Value}

/-! ### Setting a key -/

theorem get?_put (m : Metadata) (key key' : String) (v : Value) :
    (m.put key v).get? key' = if key' = key then some v else m.get? key' := Files.Disk.lookup_put

theorem mem_keys_iff {m : Metadata} : (m.lookup key).isSome = true ↔ key ∈ m.map (·.1) := by
  constructor
  · intro h
    by_contra hnone
    refine Bool.false_ne_true (Eq.trans ?_ h)
    rw [List.lookup_eq_none_iff.mpr fun e he => bne_iff_ne.mpr fun heq => hnone (List.mem_map.mpr ⟨e, he, heq.symm⟩)]
    rfl
  · intro h
    by_contra hnone
    rw [Option.not_isSome_iff_eq_none, List.lookup_eq_none_iff] at hnone
    obtain ⟨e, he, rfl⟩ := List.mem_map.mp h
    exact bne_iff_ne.mp (hnone e he) rfl

/-- Every value of a key replaced. -/
def replace (m : Metadata) (key : String) (v : Value) : Metadata := m.map fun e => if e.1 = key then (key, v) else e

theorem replace_cons (e : String × Value) (m : Metadata) :
    replace (e :: m) key v = (if e.1 = key then (key, v) else e) :: m.replace key v := rfl

theorem put_of_mem {m : Metadata} (h : key ∈ m.map (·.1)) : m.put key v = m.replace key v :=
  if_pos (mem_keys_iff.mpr h)

theorem put_of_notMem {m : Metadata} (h : key ∉ m.map (·.1)) : m.put key v = m ++ [(key, v)] :=
  if_neg fun hsome => h (mem_keys_iff.mp hsome)

theorem keys_replace (m : Metadata) : (m.replace key v).map (·.1) = m.map (·.1) := by
  rw [replace, List.map_map]
  refine List.map_congr_left fun e _ => ?_
  by_cases h : e.1 = key
  · simp [h]
  · simp [h]

theorem nodup_put {m : Metadata} (h : (m.map (·.1)).Nodup) : ((m.put key v).map (·.1)).Nodup := by
  by_cases hmem : key ∈ m.map (·.1)
  · rw [put_of_mem hmem, keys_replace]
    exact h
  · rw [put_of_notMem hmem, List.map_append]
    refine List.nodup_append.mpr ⟨h, by simp, fun a ha b hb heq => hmem ?_⟩
    rwa [← show b = key from List.mem_singleton.mp hb, ← heq]

theorem replace_of_notMem {m : Metadata} (h : key ∉ m.map (·.1)) : m.replace key v = m := by
  rw [replace]
  conv_rhs => rw [← List.map_id m]
  refine List.map_congr_left fun e he => if_neg fun heq => h ?_
  exact List.mem_map.mpr ⟨e, he, heq⟩

theorem replace_replace (m : Metadata) : (m.replace key v').replace key v = m.replace key v := by
  rw [replace, replace, replace, List.map_map]
  refine List.map_congr_left fun e _ => ?_
  by_cases h : e.1 = key
  · simp [h]
  · simp [h]

theorem replace_comm (m : Metadata) (h : key' ≠ key) :
    (m.replace key' v').replace key v = (m.replace key v).replace key' v' := by
  rw [replace, replace, replace, replace, List.map_map, List.map_map]
  refine List.map_congr_left fun e _ => ?_
  by_cases hkey : e.1 = key
  · simp [hkey, Ne.symm h]
  · by_cases hkey' : e.1 = key'
    · simp [hkey', h]
    · simp [hkey, hkey']

theorem mem_keys_put (m : Metadata) : key ∈ (m.put key v).map (·.1) := by
  by_cases h : key ∈ m.map (·.1)
  · rw [put_of_mem h, keys_replace]
    exact h
  · rw [put_of_notMem h, List.map_append]
    exact List.mem_append_right _ List.mem_cons_self

theorem mem_keys_put_of_mem {m : Metadata} (h : key ∈ m.map (·.1)) : key ∈ (m.put key' v').map (·.1) := by
  by_cases h' : key' ∈ m.map (·.1)
  · rw [put_of_mem h', keys_replace]
    exact h
  · rw [put_of_notMem h', List.map_append]
    exact List.mem_append_left _ h

theorem put_put (m : Metadata) : (m.put key v').put key v = m.put key v := by
  rw [put_of_mem (mem_keys_put m)]
  by_cases h : key ∈ m.map (·.1)
  · rw [put_of_mem h, put_of_mem h, replace_replace]
  · rw [put_of_notMem h, put_of_notMem h, replace, List.map_append]
    have hrest := replace_of_notMem (v := v) h
    rw [replace] at hrest
    rw [hrest]
    simp

/-- Two keys can be set in either order once the first one has its place. -/
theorem put_comm {m : Metadata} (hmem : key ∈ m.map (·.1)) (h : key' ≠ key) :
    (m.put key' v').put key v = (m.put key v).put key' v' := by
  rw [put_of_mem (mem_keys_put_of_mem hmem), put_of_mem hmem]
  by_cases h' : key' ∈ m.map (·.1)
  · rw [put_of_mem h', put_of_mem (by rwa [keys_replace]), replace_comm m h]
  · rw [put_of_notMem h', put_of_notMem (by rwa [keys_replace]), replace, replace, List.map_append]
    simp [h]

theorem put_cons_of_ne {m : Metadata} (h : key' ≠ key) : put ((key', v') :: m) key v = (key', v') :: m.put key v := by
  by_cases hmem : key ∈ m.map (·.1)
  · rw [put_of_mem hmem, put_of_mem (List.mem_cons_of_mem _ hmem), replace_cons, if_neg h]
  · have hcons : key ∉ ((key', v') :: m).map (·.1) := by
      rw [List.map_cons, List.mem_cons]
      exact not_or.mpr ⟨Ne.symm h, hmem⟩
    rw [put_of_notMem hmem, put_of_notMem hcons]
    rfl

/-! ### Laying metadata over metadata -/

theorem get?_merge (m : Metadata) {upper : Metadata} (key : String) (h : (upper.map (·.1)).Nodup) :
    (m.merge upper).get? key = (upper.get? key).or (m.get? key) := by
  induction upper generalizing m with
  | nil => rfl
  | cons e upper ih =>
    obtain ⟨k, v⟩ := e
    obtain ⟨hnew, hnodup⟩ := List.nodup_cons.mp h
    show ((m.put k v).merge upper).get? key = _
    rw [ih _ hnodup, get?_put]
    by_cases hkey : key = k
    · subst hkey
      have hnone : get? upper key = none := by
        refine List.lookup_eq_none_iff.mpr fun e he => bne_iff_ne.mpr fun heq => hnew (List.mem_map.mpr ⟨e, he, ?_⟩)
        exact heq.symm
      rw [hnone, if_pos rfl, get?, List.lookup_cons_self]
      rfl
    · rw [if_neg hkey]
      exact congrArg (Option.or · _) (Files.Disk.lookup_cons_of_ne hkey).symm

/-- Metadata under other keys comes after what it is laid over. -/
theorem merge_append {lower m : Metadata} (h : ((lower ++ m).map (·.1)).Nodup) : lower.merge m = lower ++ m := by
  induction m generalizing lower with
  | nil => exact (List.append_nil lower).symm
  | cons e m ih =>
    have hnew : e.1 ∉ lower.map (·.1) := by
      rw [List.map_append, List.map_cons] at h
      exact fun hmem => (List.nodup_append.mp h).2.2 _ hmem _ List.mem_cons_self rfl
    show (lower.put e.1 e.2).merge m = _
    rw [put_of_notMem hnew, ih (by rwa [List.append_assoc]), List.append_assoc]
    rfl

/-- Metadata whose keys differ is not changed by laying it over nothing. -/
theorem merge_nil {m : Metadata} (h : (m.map (·.1)).Nodup) : merge [] m = m := merge_append h

/-- A key that is set later, and is there already, can be set before everything else. -/
theorem put_merge_of_mem {m : Metadata} (upper : Metadata) (h : key ∈ m.map (·.1)) :
    (m.merge upper).put key v = (m.put key v).merge (upper.replace key v) := by
  induction upper generalizing m with
  | nil => rfl
  | cons e upper ih =>
    show ((m.put e.1 e.2).merge upper).put key v = _
    rw [ih (mem_keys_put_of_mem h)]
    by_cases hkey : e.1 = key
    · rw [replace_cons, if_pos hkey, hkey, put_put]
      show _ = ((m.put key v).put key v).merge _
      rw [put_put]
    · rw [replace_cons, if_neg hkey, put_comm h hkey]
      rfl

theorem merge_put (m upper : Metadata) : m.merge (upper.put key v) = (m.merge upper).put key v := by
  induction upper generalizing m with
  | nil => rfl
  | cons e upper ih =>
    obtain ⟨k, w⟩ := e
    by_cases hkey : k = key
    · subst hkey
      rw [put_of_mem List.mem_cons_self, replace_cons, if_pos rfl]
      show (m.put k v).merge (replace upper k v) = ((m.put k w).merge upper).put k v
      rw [put_merge_of_mem upper (mem_keys_put m), put_put]
    · rw [put_cons_of_ne hkey]
      exact ih _

/-- It does not matter which two of three are laid over each other first. -/
theorem merge_assoc (m upper top : Metadata) : (m.merge upper).merge top = m.merge (upper.merge top) := by
  induction top generalizing upper with
  | nil => rfl
  | cons e top ih =>
    show ((m.merge upper).put e.1 e.2).merge top = m.merge ((upper.put e.1 e.2).merge top)
    rw [← merge_put, ih]

instance : Std.Associative Metadata.merge := ⟨merge_assoc⟩

end Metadata

end FluentShift
