import FluentShift.Types.Bindings
import Mathlib.Data.List.Induction
import Mathlib.Data.List.Perm.Subperm

/-!
# FluentShift.Proofs.Types.Bindings - the tables of names, in whatever order they are filled

The entry of a key is what all bindings of it agree on (`lookup_bindAll`): an empty entry takes in every type that is
recorded after it, so nobody can tell it from a conflict.  A name means the entry of the nearest scope that has one
(`lookup_of_outwards`), and neither depends on the order of the bindings (`bindAll_anyOrder`).
-/

namespace FluentShift.Types

open FluentShift.Source

/-! ### What types agree on -/

/-- What some types come to as one entry: nothing without a type, the type that all of them are, or an empty entry. -/
def agreed : List (Option TypeDesc) → Option (Option TypeDesc)
  | [] => none
  | d :: ds => some (if ∀ d' ∈ ds, d' = d then d else none)

/-- The entry of a key when one more type is recorded for it. -/
def settle (entry : Option (Option TypeDesc)) (d : Option TypeDesc) : Option TypeDesc :=
  match entry with
  | some old => if old = d then d else none
  | none => d

theorem settle_self (d : Option TypeDesc) : settle (some d) d = d := if_pos rfl

theorem settle_of_ne {d d' : Option TypeDesc} (h : d ≠ d') : settle (some d) d' = none := if_neg h

/-- An empty entry stays empty: what is unknown and what was in conflict are the same. -/
theorem settle_empty (d : Option TypeDesc) : settle (some none) d = none := by
  cases d with
  | none => exact settle_self none
  | some _ => exact settle_of_ne nofun

section Agreed

variable {ds : List (Option TypeDesc)} {d d' : Option TypeDesc}

theorem agreed_of_all (hd : d ∈ ds) (hall : ∀ d' ∈ ds, d' = d) : agreed ds = some d := by
  cases ds with
  | nil => cases hd
  | cons d₀ ds =>
    obtain rfl := hall d₀ List.mem_cons_self
    rw [agreed, if_pos fun d' hd' => hall d' (List.mem_cons_of_mem _ hd')]

theorem agreed_of_differ (hd : d ∈ ds) (hd' : d' ∈ ds) (hne : d ≠ d') : agreed ds = some none := by
  cases ds with
  | nil => cases hd
  | cons d₀ ds =>
    rw [agreed, if_neg]
    intro hall
    have hsame : ∀ x ∈ d₀ :: ds, x = d₀ := List.forall_mem_cons.mpr ⟨rfl, hall⟩
    exact hne ((hsame d hd).trans (hsame d' hd').symm)

theorem agreed_concat (ds : List (Option TypeDesc)) (d : Option TypeDesc) :
    agreed (ds ++ [d]) = some (settle (agreed ds) d) := by
  cases ds with
  | nil => simp [agreed, settle]
  | cons d₀ ds =>
    have hlast : d ∈ d₀ :: ds ++ [d] := List.mem_append_right _ List.mem_cons_self
    have hfirst : d₀ ∈ d₀ :: ds := List.mem_cons_self
    -- once two types differ, nothing that comes later makes them one again
    by_cases hall : ∀ x ∈ d₀ :: ds, x = d₀
    · rw [agreed_of_all hfirst hall]
      by_cases hd : d₀ = d
      · subst hd
        rw [settle_self]
        refine agreed_of_all hlast fun x hx => ?_
        rcases List.mem_append.mp hx with hx | hx
        · exact hall x hx
        · exact List.mem_singleton.mp hx
      · rw [settle_of_ne hd]
        exact agreed_of_differ (List.mem_append_left _ hfirst) hlast hd
    · push Not at hall
      obtain ⟨x, hx, hne⟩ := hall
      rw [agreed_of_differ hx hfirst hne, settle_empty]
      exact agreed_of_differ (List.mem_append_left _ hx) (List.mem_append_left _ hfirst) hne

/-- Only which types there are decides, not how often and in which order. -/
theorem agreed_congr {ds' : List (Option TypeDesc)} (h : ∀ d, d ∈ ds ↔ d ∈ ds') : agreed ds = agreed ds' := by
  cases ds with
  | nil =>
    have hnil : ds' = [] := List.eq_nil_iff_forall_not_mem.mpr fun d hd => List.not_mem_nil ((h d).mpr hd)
    rw [hnil]
  | cons d₀ ds =>
    have hfirst : d₀ ∈ d₀ :: ds := List.mem_cons_self
    by_cases hall : ∀ x ∈ d₀ :: ds, x = d₀
    · rw [agreed_of_all hfirst hall, agreed_of_all ((h d₀).mp hfirst) fun x hx => hall x ((h x).mpr hx)]
    · push Not at hall
      obtain ⟨x, hx, hne⟩ := hall
      rw [agreed_of_differ hx hfirst hne, agreed_of_differ ((h x).mp hx) ((h d₀).mp hfirst) hne]

end Agreed

/-! ### Entries -/

section Entries

variable {k k' : Key}

theorem lookup_filter_ne (h : k' ≠ k) (es : Entries) : (es.filter (·.1 ≠ k)).lookup k' = es.lookup k' := by
  induction es with
  | nil => rfl
  | cons e es ih =>
    obtain ⟨k₀, d⟩ := e
    rw [List.filter_cons]
    split
    · rw [List.lookup_cons, List.lookup_cons, ih]
    · rename_i hk
      obtain rfl : k₀ = k := by simpa using hk
      rw [List.lookup_cons, beq_eq_false_iff_ne.mpr h, ih]

/-- Recording a type settles the entry of its key and changes no other. -/
theorem lookup_bind (es : Entries) (k k' : Key) (d : Option TypeDesc) :
    (es.bind k d).lookup k' = if k' = k then some (settle (es.lookup k) d) else es.lookup k' := by
  unfold Entries.bind
  by_cases hk : k' = k
  · subst hk
    rw [if_pos rfl]
    split
    · rename_i old hold
      rw [hold, List.lookup_cons_self]
      rfl
    · rename_i hnone
      rw [hnone, List.lookup_cons_self]
      rfl
  · rw [if_neg hk]
    split
    · rw [List.lookup_cons, beq_eq_false_iff_ne.mpr hk]
      exact lookup_filter_ne hk es
    · rw [List.lookup_cons, beq_eq_false_iff_ne.mpr hk]

/-- The types that bindings give a key. -/
def typesOf (k : Key) (bs : List (Key × Option TypeDesc)) : List (Option TypeDesc) :=
  (bs.filter (·.1 = k)).map (·.2)

theorem mem_typesOf {bs : List (Key × Option TypeDesc)} {d : Option TypeDesc} :
    d ∈ typesOf k bs ↔ (k, d) ∈ bs := by
  simp [typesOf]

theorem typesOf_concat (bs : List (Key × Option TypeDesc)) (k' : Key) (d : Option TypeDesc) :
    typesOf k (bs ++ [(k', d)]) = if k = k' then typesOf k bs ++ [d] else typesOf k bs := by
  by_cases hk : k' = k
  · simp [typesOf, hk]
  · simp [typesOf, hk, Ne.symm hk]

end Entries

namespace Bindings

/-- Records several bindings, one after the other. -/
def bindAll (b : Bindings) (bs : List (Key × Option TypeDesc)) : Bindings := bs.foldl (fun b e => b.bind e.1 e.2) b

section BindAll

variable {b : Bindings} {bs bs' : List (Key × Option TypeDesc)} {k : Key}

theorem bindAll_concat (b : Bindings) (bs : List (Key × Option TypeDesc)) (e : Key × Option TypeDesc) :
    b.bindAll (bs ++ [e]) = (b.bindAll bs).bind e.1 e.2 :=
  List.foldl_append

@[simp] theorem scopes_bindAll (b : Bindings) (bs : List (Key × Option TypeDesc)) : (b.bindAll bs).scopes = b.scopes := by
  induction bs using List.reverseRecOn with
  | nil => rfl
  | append_singleton bs e ih => rw [bindAll_concat, bind, ih]

@[simp] theorem names_bindAll (b : Bindings) (bs : List (Key × Option TypeDesc)) : (b.bindAll bs).names = b.names := by
  induction bs using List.reverseRecOn with
  | nil => rfl
  | append_singleton bs e ih => rw [bindAll_concat, bind, ih]

/-- The entry of a key is what the bindings of the key agree on. -/
theorem lookup_bindAll (hb : b.entries = []) (bs : List (Key × Option TypeDesc)) (k : Key) :
    (b.bindAll bs).entries.lookup k = agreed (typesOf k bs) := by
  induction bs using List.reverseRecOn with
  | nil =>
    show b.entries.lookup k = none
    rw [hb]
    rfl
  | append_singleton bs e ih =>
    obtain ⟨k', d⟩ := e
    rw [bindAll_concat, typesOf_concat]
    show ((b.bindAll bs).entries.bind k' d).lookup k = _
    rw [lookup_bind]
    by_cases hk : k = k'
    · subst hk
      rw [if_pos rfl, if_pos rfl, agreed_concat, ih]
    · rw [if_neg hk, if_neg hk, ih]

end BindAll

/-! ### Scopes -/

/-- The scopes from a node outwards, nearest first. -/
inductive Outwards (scopes : List TypeScope) : Option Path → List TypeScope → Prop
  | nowhere : Outwards scopes none []
  | unknown {p : Path} (h : scopes.find? (·.node = p) = none) : Outwards scopes (some p) []
  | scope {p : Path} {s : TypeScope} {chain : List TypeScope} (h : scopes.find? (·.node = p) = some s)
      (rest : Outwards scopes s.parent chain) : Outwards scopes (some p) (s :: chain)

/-- The scopes of a chain whose names can be seen from where it starts: a class is only seen from itself. -/
def visible : List TypeScope → List TypeScope
  | [] => []
  | s :: chain => s :: chain.filter (!·.isClass)

/-- The entry of a name in a scope: the annotated one before the inferred one. -/
def entryIn (b : Bindings) (name : String) (s : TypeScope) : Option (Option TypeDesc) :=
  (b.entries.lookup ⟨s.node, name, .annotated⟩).or (b.entries.lookup ⟨s.node, name, .inferred⟩)

/-- What the nearest of some scopes that has an entry for a name says about it. -/
def nearest (b : Bindings) (name : String) (ss : List TypeScope) : Option TypeDesc :=
  (ss.findSome? (b.entryIn name)).join

namespace Outwards

variable {scopes : List TypeScope} {start : Option Path} {chain chain' : List TypeScope}

theorem unique (h : Outwards scopes start chain) (h' : Outwards scopes start chain') : chain = chain' := by
  induction h generalizing chain' with
  | nowhere => cases h'; rfl
  | unknown hnone =>
    cases h' with
    | unknown => rfl
    | scope hsome => rw [hnone] at hsome; cases hsome
  | scope hs _ ih =>
    cases h' with
    | unknown hnone => rw [hs] at hnone; cases hnone
    | scope hs' hrest =>
      rw [hs, Option.some.injEq] at hs'
      subst hs'
      rw [ih hrest]

theorem subset (h : Outwards scopes start chain) : chain ⊆ scopes := by
  induction h with
  | nowhere => exact List.nil_subset _
  | unknown => exact List.nil_subset _
  | scope hs _ ih => exact List.cons_subset.mpr ⟨List.mem_of_find?_eq_some hs, ih⟩

/-- Every scope of a chain starts the rest of it. -/
theorem exists_suffix (h : Outwards scopes start chain) {s : TypeScope} (hs : s ∈ chain) :
    ∃ rest, s :: rest <:+ chain ∧ Outwards scopes (some s.node) (s :: rest) := by
  induction h with
  | nowhere => cases hs
  | unknown => cases hs
  | @scope p s' chain hfind hrest ih =>
    have hnode : s'.node = p := by simpa using List.find?_some hfind
    rcases List.mem_cons.mp hs with rfl | hs
    · exact ⟨chain, List.suffix_rfl, by rw [hnode]; exact .scope hfind hrest⟩
    · obtain ⟨rest, hsuffix, hout⟩ := ih hs
      exact ⟨rest, hsuffix.trans (List.suffix_cons _ _), hout⟩

/-- A way outwards that ends passes no scope twice. -/
theorem nodup (h : Outwards scopes start chain) : chain.Nodup := by
  induction h with
  | nowhere => exact List.nodup_nil
  | unknown => exact List.nodup_nil
  | @scope p s chain hfind hrest ih =>
    refine List.nodup_cons.mpr ⟨fun hs => ?_, ih⟩
    have hnode : s.node = p := by simpa using List.find?_some hfind
    obtain ⟨rest, hsuffix, hout⟩ := hrest.exists_suffix hs
    have hself := hout.unique (hnode ▸ Outwards.scope hfind hrest)
    have hlen := hsuffix.length_le
    rw [hself, List.length_cons] at hlen
    omega

theorem length_le (h : Outwards scopes start chain) : chain.length ≤ scopes.length :=
  (h.nodup.subperm h.subset).length_le

end Outwards

section Search

variable {b : Bindings} {name : String} {chain : List TypeScope}

@[simp] theorem nearest_nil : b.nearest name [] = none := rfl

theorem nearest_cons (b : Bindings) (name : String) (s : TypeScope) (ss : List TypeScope) :
    b.nearest name (s :: ss) =
      match b.entryIn name s with
      | some d => d
      | none => b.nearest name ss := by
  unfold nearest
  rw [List.findSome?_cons]
  cases b.entryIn name s <;> rfl

/-- One step of a search: what the scope says, or else what is found from the scope around it. -/
theorem search_succ {p : Path} {s : TypeScope} (hs : b.scopes.find? (·.node = p) = some s) (fuel : Nat)
    (first : Bool) :
    b.search name (fuel + 1) first p =
      match if first || !s.isClass then b.entryIn name s else none with
      | some d => d
      | none => s.parent.bind (b.search name fuel false) := by
  obtain rfl : s.node = p := by simpa using List.find?_some hs
  obtain ⟨node, parent, isClass⟩ := s
  rw [search, hs]
  unfold entryIn
  cases b.entries.lookup ⟨node, name, .annotated⟩ <;> cases parent <;> rfl

/-- A search with enough steps finds what the nearest scope says; only where it starts it looks at a class. -/
theorem search_of_outwards {start : Option Path} (h : Outwards b.scopes start chain) {fuel : Nat}
    (hfuel : chain.length ≤ fuel) (first : Bool) :
    start.bind (b.search name fuel first) =
      b.nearest name (if first then visible chain else chain.filter (!·.isClass)) := by
  induction h generalizing fuel first with
  | nowhere => cases first <;> rfl
  | @unknown p hnone =>
    have hsearch : b.search name fuel first p = none := by
      cases fuel with
      | zero => rfl
      | succ fuel => rw [search, hnone]
    rw [Option.bind_some, hsearch]
    cases first <;> rfl
  -- a search that comes from inside passes over a class, as the chain without classes does
  | @scope p s chain hs hrest ih =>
    obtain ⟨fuel, rfl⟩ := Nat.exists_eq_add_one_of_ne_zero (Nat.ne_of_gt (Nat.lt_of_lt_of_le (Nat.succ_pos _) hfuel))
    have houter : s.parent.bind (b.search name fuel false) = b.nearest name (chain.filter (!·.isClass)) :=
      ih (Nat.le_of_succ_le_succ hfuel) false
    rw [Option.bind_some, search_succ hs, houter]
    cases first with
    | true => exact (nearest_cons b name s _).symm
    | false =>
      cases hclass : s.isClass with
      | true => simp [hclass]
      | false => simpa [hclass] using (nearest_cons b name s _).symm

/-- A name means what the nearest scope says that has an entry for it. -/
theorem lookup_of_outwards {node : Path} (h : Outwards b.scopes (b.names.lookup node) chain) (name : String) :
    b.lookup node name = b.nearest name (visible chain) := by
  have hsearch : (b.names.lookup node).bind (b.search name (b.scopes.length + 1) true) = b.nearest name (visible chain) :=
    search_of_outwards h (Nat.le_succ_of_le h.length_le) true
  rw [← hsearch, lookup]
  cases b.names.lookup node <;> rfl

end Search

/-! ### In any order -/

/-- The entry that some bindings leave for a key: none without a binding of it, what all of them say if they say the same,
and an empty one if they do not. -/
structure Leaves (bs : List (Key × Option TypeDesc)) (k : Key) (entry : Option (Option TypeDesc)) : Prop where
  absent : (∀ e ∈ bs, e.1 ≠ k) → entry = none
  common : ∀ d, (k, d) ∈ bs → (∀ e ∈ bs, e.1 = k → e.2 = d) → entry = some d
  mixed : ∀ d d', (k, d) ∈ bs → (k, d') ∈ bs → d ≠ d' → entry = some none

theorem leaves_agreed (bs : List (Key × Option TypeDesc)) (k : Key) : Leaves bs k (agreed (typesOf k bs)) where
  absent h := by
    have hnil : typesOf k bs = [] :=
      List.eq_nil_iff_forall_not_mem.mpr fun d hd => h (k, d) (mem_typesOf.mp hd) rfl
    rw [hnil]
    rfl
  common d hd hall := agreed_of_all (mem_typesOf.mpr hd) fun d' hd' => hall (k, d') (mem_typesOf.mp hd') rfl
  mixed _ _ hd hd' hne := agreed_of_differ (mem_typesOf.mpr hd) (mem_typesOf.mpr hd') hne

/-- Two stores with the same scopes, names and entries answer alike. -/
theorem lookup_congr {b b' : Bindings} (hscopes : b'.scopes = b.scopes) (hnames : b'.names = b.names)
    (hentries : ∀ k, b'.entries.lookup k = b.entries.lookup k) (node : Path) (name : String) :
    b'.lookup node name = b.lookup node name := by
  have hsearch : ∀ fuel first p, b'.search name fuel first p = b.search name fuel first p := by
    intro fuel
    induction fuel with
    | zero => exact fun _ _ => rfl
    | succ fuel ih =>
      intro first p
      simp only [search, hscopes, hentries, ih]
  simp only [lookup, hnames, hscopes, hsearch]

/-- The tables do not depend on the order of the bindings, and neither does what a name means: the entry of the nearest
scope that has one. -/
theorem bindAll_anyOrder {b : Bindings} (hb : b.entries = []) (bs : List (Key × Option TypeDesc)) :
    (∀ k, Leaves bs k ((b.bindAll bs).entries.lookup k)) ∧
      (∀ bs', bs'.Perm bs → (∀ k, (b.bindAll bs').entries.lookup k = (b.bindAll bs).entries.lookup k) ∧
        ∀ node name, (b.bindAll bs').lookup node name = (b.bindAll bs).lookup node name) ∧
      ∀ node chain, Outwards b.scopes (b.names.lookup node) chain → ∀ name,
        (b.bindAll bs).lookup node name = (b.bindAll bs).nearest name (visible chain) := by
  refine ⟨fun k => ?_, fun bs' hperm => ?_, fun node chain hchain name => ?_⟩
  · rw [lookup_bindAll hb]
    exact leaves_agreed bs k
  · have hentries : ∀ k, (b.bindAll bs').entries.lookup k = (b.bindAll bs).entries.lookup k := by
      intro k
      rw [lookup_bindAll hb, lookup_bindAll hb]
      refine agreed_congr fun d => ?_
      rw [mem_typesOf, mem_typesOf, hperm.mem_iff]
    refine ⟨hentries, lookup_congr ?_ ?_ hentries⟩
    · rw [scopes_bindAll, scopes_bindAll]
    · rw [names_bindAll, names_bindAll]
  · rw [← scopes_bindAll b bs, ← names_bindAll b bs] at hchain
    exact lookup_of_outwards hchain name

/-- A name in a method, the scopes around it and nothing recorded yet. -/
def inMethod : Bindings where
  entries := []
  scopes := [⟨[0, 0], some [0], false⟩, ⟨[0], some [], true⟩, ⟨[], none, false⟩]
  names := [([1, 0, 0], [0, 0])]

/-- `x` is a text in the class and twice an `int` in the module, where `y` is annotated with two types. -/
def inMethodBinds : List (Key × Option TypeDesc) :=
  [(⟨[], "x", .inferred⟩, some .int), (⟨[], "y", .annotated⟩, some .float), (⟨[0], "x", .inferred⟩, some .str),
    (⟨[], "y", .inferred⟩, some .int), (⟨[], "x", .inferred⟩, some .int), (⟨[], "y", .annotated⟩, some .str)]

theorem outwards_inMethod : Outwards inMethod.scopes (inMethod.names.lookup [1, 0, 0]) inMethod.scopes :=
  .scope rfl (.scope rfl (.scope rfl .nowhere))

/-- The module says what `x` is, the class does not; `y` is unknown although a value of it has been seen. -/
theorem bindAll_anyOrder_inMethod :
    (inMethod.bindAll inMethodBinds.reverse).lookup [1, 0, 0] "x" = some .int ∧
      (inMethod.bindAll inMethodBinds.reverse).lookup [1, 0, 0] "y" = none ∧
      (inMethod.bindAll inMethodBinds).entries.lookup ⟨[], "y", .annotated⟩ = some none ∧
      (inMethod.bindAll inMethodBinds).entries.lookup ⟨[0, 0], "x", .inferred⟩ = none := by
  obtain ⟨hleaves, horder, hlookup⟩ := bindAll_anyOrder (b := inMethod) rfl inMethodBinds
  obtain ⟨-, hreverse⟩ := horder _ inMethodBinds.reverse_perm
  refine ⟨?_, ?_, ?_, ?_⟩
  · rw [hreverse, hlookup _ _ outwards_inMethod]
    decide
  · rw [hreverse, hlookup _ _ outwards_inMethod]
    decide
  · exact (hleaves _).mixed (some .float) (some .str) (by decide) (by decide) (by decide)
  · exact (hleaves _).absent (by decide)

end Bindings

end FluentShift.Types
