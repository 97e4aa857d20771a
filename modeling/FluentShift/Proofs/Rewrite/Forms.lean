import FluentShift.Rewrite.Classification
import FluentShift.Proofs.Accepted

/-!
# FluentShift.Proofs.Rewrite.Forms - the forms of calls with two, three and four arguments

A call is classified exactly when it has two, three or four arguments (`classify_ok`, `exists_classify`,
`classify_error`), and then every argument has one slot of the form (`slotsOf`).
-/

namespace FluentShift.Rewrite

open FluentShift.Types

variable {m : Mapping}

/-- The slots of a form, and the places of their arguments. -/
def slotsOf (m : Mapping) : Shape → List (Slot × ArgumentIndex)
  | .equality => [(.expected, .at_ 0), (.actual, .at_ 1)]
  | .messageEquality => [(.expected, .at_ 0), (.actual, .at_ 1), (.message, .at_ 2)]
  | .tolerance => [(.expected, .at_ 0), (.actual, .at_ 1), (.delta, .at_ 2)]
  | .messageTolerance =>
    [(.expected, .at_ 0), (.actual, .at_ 1), (.message, m.messageIndex), (.delta, m.deltaIndex)]

/-- A classification takes as many arguments as there are tags, and its slots are those of its form. -/
theorem classify_ok {count : Int} {tags : List Tag} {c : Classification} (h : classify m count tags = .ok c) :
    tags.length = c.shape.arity ∧ c.slots = slotsOf m c.shape := by
  unfold classify at h
  split at h
  · cases h
  · split at h
    · cases h
      exact ⟨rfl, rfl⟩
    · split at h
      · cases h
        exact ⟨rfl, rfl⟩
      · cases h
        exact ⟨rfl, rfl⟩
    · obtain ⟨tag, -, h⟩ := Except.bind_eq_ok.mp h
      cases h
      exact ⟨rfl, rfl⟩
    · cases h

theorem pick_ok {α : Type} {xs : List α} {n : Nat} {x : α} (h : xs[n]? = some x) :
    ArgumentIndex.pick (.at_ n) xs = .ok x := by
  have hneg : ¬((n : Int) < 0) := by omega
  simp only [ArgumentIndex.pick, if_neg hneg, Int.toNat_natCast, h]

/-- Two, three and four arguments have a form. -/
theorem exists_classify (hm : m.Accepted) {tags : List Tag} (h : 2 ≤ tags.length ∧ tags.length ≤ 4) :
    ∃ c, classify m tags.length tags = .ok c := by
  unfold classify
  rw [if_neg (by simp)]
  match tags, h with
  | [_, _], _ => exact ⟨_, rfl⟩
  | [_, _, third], _ =>
    by_cases hthird : third = .floatingPoint
    · exact ⟨_, if_pos hthird⟩
    · exact ⟨_, if_neg hthird⟩
  | [a, b, third, fourth], _ =>
    have hpick : ∃ tag, ArgumentIndex.pick m.messageIndex [a, b, third, fourth] = .ok tag := by
      rcases hm.indices with ⟨h, -⟩ | ⟨h, -⟩
      · exact ⟨third, by rw [h]; exact pick_ok (n := 2) rfl⟩
      · exact ⟨fourth, by rw [h]; exact pick_ok (n := 3) rfl⟩
    obtain ⟨tag, htag⟩ := hpick
    exact ⟨_, Except.bind_eq_ok.mpr ⟨tag, htag, rfl⟩⟩

/-- Any other number of arguments has none, and the call is left alone for it. -/
theorem classify_error {tags : List Tag} (h : ¬(2 ≤ tags.length ∧ tags.length ≤ 4)) :
    ∃ f, classify m tags.length tags = .error f ∧ f.isTransformation = true := by
  unfold classify
  rw [if_neg (by simp)]
  match tags, h with
  | [], _ => exact ⟨_, rfl, rfl⟩
  | [_], _ => exact ⟨_, rfl, rfl⟩
  | [_, _], h => exact absurd h (by simp)
  | [_, _, _], h => exact absurd h (by simp)
  | [_, _, _, _], h => exact absurd h (by simp)
  | _ :: _ :: _ :: _ :: _ :: _, _ => exact ⟨_, rfl, rfl⟩

/-! ### The names that a form needs -/

/-- The entry point is needed always, the tolerance wrapper where there is a tolerance. -/
theorem mem_requiredNames {c : Classification} {s : String} :
    s ∈ requiredNames m c ↔ s = m.entryPoint ∨ c.shape.hasTolerance = true ∧ s = m.toleranceWrapper := by
  unfold requiredNames
  split
  · rename_i htol
    split
    · simp [htol, or_comm]
    · split
      · rename_i heq
        simp [htol, heq]
      · simp [htol]
  · rename_i htol
    simp [htol]

/-! ### The items in the slots -/

theorem nodup_slotsOf (m : Mapping) (shape : Shape) : ((slotsOf m shape).map Prod.fst).Nodup := by
  cases shape <;> simp [slotsOf]

theorem lookup_of_mem {α β : Type} [BEq α] [LawfulBEq α] {xs : List (α × β)} (hnodup : (xs.map Prod.fst).Nodup) {k : α}
    {v : β} (h : (k, v) ∈ xs) : xs.lookup k = some v := by
  obtain ⟨l₁, l₂, rfl⟩ := List.mem_iff_append.mp h
  refine List.lookup_eq_some_iff.mpr ⟨l₁, l₂, rfl, fun p hp => ?_⟩
  rw [List.map_append, List.nodup_append] at hnodup
  have hne := hnodup.2.2 p.1 (List.mem_map_of_mem hp) k (by simp)
  simpa using fun heq => hne heq.symm

section Items

variable {α β : Type} {c : Classification}

/-- The item of a list that belongs in a slot. -/
def slotItem (c : Classification) (xs : List α) (s : Slot) : Option α :=
  (c.slots.lookup s).bind fun i => (ArgumentIndex.pick i xs).toOption

/-- Picking from what is made of the items of a list. -/
theorem pick_of_map (f : α → β) (i : ArgumentIndex) (xs : List α) :
    ArgumentIndex.pick i (xs.map f) = (ArgumentIndex.pick i xs).map f := by
  unfold ArgumentIndex.pick
  cases i with
  | unusable => rfl
  | at_ n =>
    simp only [List.length_map, List.getElem?_map]
    generalize (if n < 0 then n + (xs.length : Int) else n) = k
    cases k with
    | negSucc k => cases xs[(Int.negSucc k).toNat]? <;> rfl
    | ofNat k => cases xs[(Int.ofNat k).toNat]? <;> rfl

theorem pick_map (f : α → β) (i : ArgumentIndex) (xs : List α) :
    (ArgumentIndex.pick i (xs.map f)).toOption = (ArgumentIndex.pick i xs).toOption.map f := by
  rw [pick_of_map]
  cases ArgumentIndex.pick i xs <;> rfl

theorem mem_of_pick {i : ArgumentIndex} {xs : List α} {x : α} (h : ArgumentIndex.pick i xs = .ok x) : x ∈ xs := by
  unfold ArgumentIndex.pick at h
  split at h
  · cases h
  · simp only at h
    split at h
    · rename_i hx
      cases h
      exact List.mem_of_getElem? hx
    · cases h

theorem slotItem_map (f : α → β) (xs : List α) (s : Slot) : slotItem c (xs.map f) s = (slotItem c xs s).map f := by
  unfold slotItem
  cases c.slots.lookup s with
  | none => rfl
  | some i => exact pick_map f i xs

theorem slotItem_of_pick (hc : c.slots = slotsOf m c.shape) {s : Slot} {i : ArgumentIndex} (hs : (s, i) ∈ c.slots)
    {xs : List α} {x : α} (h : ArgumentIndex.pick i xs = .ok x) : slotItem c xs s = some x := by
  have hlookup : c.slots.lookup s = some i := by
    rw [hc] at hs ⊢
    exact lookup_of_mem (nodup_slotsOf m c.shape) hs
  rw [slotItem, hlookup, Option.bind_some, h]
  rfl

theorem mem_of_slotItem {xs : List α} {s : Slot} {x : α} (h : slotItem c xs s = some x) : x ∈ xs := by
  obtain ⟨i, -, hi⟩ := Option.bind_eq_some_iff.mp h
  exact mem_of_pick (Except.eq_ok_of_toOption hi)

/-- The slots of a form hold every item once. -/
theorem slotItem_perm (hm : m.Accepted) (hc : c.slots = slotsOf m c.shape) {xs : List α}
    (hlen : xs.length = c.shape.arity) : (c.slots.filterMap fun s => slotItem c xs s.1).Perm xs := by
  -- the slots pick by their indices, so it remains to see these four lists of indices
  have hitems : (c.slots.filterMap fun s => slotItem c xs s.1) =
      c.slots.filterMap fun s => (ArgumentIndex.pick s.2 xs).toOption := by
    refine List.filterMap_congr fun s hs => ?_
    have hlookup : c.slots.lookup s.1 = some s.2 := by
      rw [hc] at hs ⊢
      exact lookup_of_mem (nodup_slotsOf m c.shape) hs
    rw [slotItem, hlookup]
    rfl
  rw [hitems, hc]
  cases hshape : c.shape with
  | equality =>
    rw [hshape] at hlen
    match xs, hlen with
    | [a, b], _ => exact List.Perm.refl _
  | messageEquality =>
    rw [hshape] at hlen
    match xs, hlen with
    | [a, b, d], _ => exact List.Perm.refl _
  | tolerance =>
    rw [hshape] at hlen
    match xs, hlen with
    | [a, b, d], _ => exact List.Perm.refl _
  | messageTolerance =>
    rw [hshape] at hlen
    match xs, hlen with
    | [a, b, d, e], _ =>
      rw [slotsOf]
      rcases hm.indices with ⟨hmessage, hdelta⟩ | ⟨hmessage, hdelta⟩
      · rw [hmessage, hdelta]
        exact List.Perm.refl _
      · rw [hmessage, hdelta]
        exact ((List.Perm.swap d e []).cons b).cons a

theorem mem_slots (hc : c.slots = slotsOf m c.shape) {s : Slot}
    (hs : s = .actual ∨ s = .expected ∨ s = .message ∧ c.shape.hasMessage = true ∨
      s = .delta ∧ c.shape.hasTolerance = true) : s ∈ c.slots.map Prod.fst := by
  rw [hc]
  rcases hs with rfl | rfl | ⟨rfl, h⟩ | ⟨rfl, h⟩ <;> cases hshape : c.shape <;>
    simp_all [slotsOf, Shape.hasMessage, Shape.hasTolerance]

/-- What agrees on the slots of a form agrees wherever the form is used. -/
theorem agree_of_slots (hc : c.slots = slotsOf m c.shape) {f g : Slot → α} (h : ∀ s i, (s, i) ∈ c.slots → f s = g s) :
    f .actual = g .actual ∧ f .expected = g .expected ∧ (c.shape.hasMessage = true → f .message = g .message) ∧
      (c.shape.hasTolerance = true → f .delta = g .delta) := by
  have slot : ∀ s, s ∈ c.slots.map Prod.fst → f s = g s := by
    intro s hs
    obtain ⟨⟨s', i⟩, hsi, rfl⟩ := List.mem_map.mp hs
    exact h s' i hsi
  refine ⟨slot .actual (mem_slots hc (.inl rfl)), slot .expected (mem_slots hc (.inr (.inl rfl))), fun hm => ?_,
    fun ht => ?_⟩
  · exact slot .message (mem_slots hc (.inr (.inr (.inl ⟨rfl, hm⟩))))
  · exact slot .delta (mem_slots hc (.inr (.inr (.inr ⟨rfl, ht⟩))))

end Items

end FluentShift.Rewrite
