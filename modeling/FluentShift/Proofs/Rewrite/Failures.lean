import FluentShift.Proofs.Rewrite.Repeat
import FluentShift.Proofs.Rewrite.Verbatim

/-!
# FluentShift.Proofs.Rewrite.Failures - what can go wrong in a migration

A chain starts with a word, so it may not stand right behind a keyword.  The call that it replaces can: the parentheses
that the call starts with go when it is replaced (`Glued`).  Apart from names that stand for slots (`Unslotted`), and from
imports that cannot be reconciled, that is the only thing that makes a migration fail (`migrateSource_answers`).
-/

namespace FluentShift.Rewrite

open FluentShift.Source FluentShift.Source.Tree FluentShift.Types FluentShift.Imports FluentShift.Run

variable {m : Mapping} {plans : List (Path × Classification)}

/-! ### The left edge of a tree -/

/-- The node `n` at path `q` stands at the left edge of a tree at path `p`: the tree prints nothing before it. -/
inductive AtLeft : Tree → Path → Path → Tree → Prop where
  | here {k : Kind} {ts : List Tree} {p : Path} : AtLeft (.node k ts) p p (.node k ts)
  | inside {k : Kind} {ts : List Tree} {i : Nat} {u n : Tree} {p q : Path} (hu : ts[i]? = some u)
      (hempty : ∀ v ∈ ts.take i, v.text = "") (h : AtLeft u (i :: p) q n) : AtLeft (.node k ts) p q n

theorem AtLeft.mem_nodesFrom {t n : Tree} {p q : Path} (h : AtLeft t p q n) :
    (q, n) ∈ t.nodesFrom (fun _ => true) p := by
  induction h with
  | here => exact mem_nodesFrom_self _ _ _
  | @inside k ts i u n p q hu _ _ ih =>
    have hchild : (i :: p, u) ∈ locate p ts := mem_locate.mpr ⟨i, rfl, hu⟩
    exact mem_nodesFrom_child hchild ih

/-- The first tree that prints anything says how trees in a row start. -/
theorem startsName_textAll_cons (t : Tree) (ts : List Tree) :
    startsName (textAll (t :: ts)).toList = if t.text = "" then startsName (textAll ts).toList else startsWithWord t := by
  split
  · rename_i ht
    rw [textAll_cons, ht, String.empty_append]
  · rename_i ht
    obtain ⟨c, cs, hcs⟩ := List.exists_cons_of_ne_nil (mt String.toList_eq_nil_iff.mp ht)
    rw [textAll_cons, String.toList_append, startsWithWord, hcs]
    rfl

theorem text_ne_of_startsWithWord {t : Tree} (h : startsWithWord t = true) : t.text ≠ "" := by
  intro ht
  simp [startsWithWord, ht] at h

theorem exists_of_startsName_textAll {ts : List Tree} (h : startsName (textAll ts).toList = true) :
    ∃ i u, ts[i]? = some u ∧ (∀ v ∈ ts.take i, v.text = "") ∧ startsWithWord u = true := by
  induction ts with
  | nil => cases h
  | cons t ts ih =>
    rw [startsName_textAll_cons] at h
    split at h
    · rename_i ht
      obtain ⟨i, u, hu, hempty, hword⟩ := ih h
      exact ⟨i + 1, u, hu, List.forall_mem_cons.mpr ⟨ht, hempty⟩, hword⟩
    · exact ⟨0, t, rfl, fun v hv => absurd hv List.not_mem_nil, h⟩

theorem startsName_textAll {ts : List Tree} {i : Nat} {u : Tree} (hu : ts[i]? = some u)
    (hbefore : ∀ v ∈ ts.take i, v.text = "" ∨ startsWithWord v = true) (hword : startsWithWord u = true) :
    startsName (textAll ts).toList = true := by
  induction ts generalizing i with
  | nil => cases hu
  | cons t ts ih =>
    rw [startsName_textAll_cons]
    cases i with
    | zero =>
      cases hu
      rw [if_neg (text_ne_of_startsWithWord hword), hword]
    | succ i =>
      obtain ⟨ht, hbefore⟩ := List.forall_mem_cons.mp hbefore
      split
      · exact ih hu hbefore
      · rename_i hne
        exact ht.resolve_left hne

theorem textAll_eq_empty_or {ts : List Tree} (h : ∀ t ∈ ts, t.text = "" ∨ startsWithWord t = true) :
    textAll ts = "" ∨ startsName (textAll ts).toList = true := by
  induction ts with
  | nil => exact .inl rfl
  | cons t ts ih =>
    obtain ⟨ht, hts⟩ := List.forall_mem_cons.mp h
    rw [startsName_textAll_cons, textAll_cons]
    rcases ht with ht | ht
    · rw [if_pos ht, ht, String.empty_append]
      exact ih hts
    · rw [if_neg (text_ne_of_startsWithWord ht)]
      exact .inr ht

theorem textAll_eq_empty {ts : List Tree} : textAll ts = "" ↔ ∀ t ∈ ts, t.text = "" := by
  induction ts with
  | nil => simp
  | cons t ts ih => rw [textAll_cons, String.append_eq_empty_iff, ih, List.forall_mem_cons]

/-! ### Keywords -/

/-- At place `i + 1` of a list stands a tree, and right before it a keyword. -/
def BehindWord (ts : List Tree) (i : Nat) (b : Tree) : Prop :=
  (∃ l, ts[i]? = some (.leaf l) ∧ l.kind = .mark ∧ startsWithWord (.leaf l) = true) ∧ ts[i + 1]? = some b

theorem behindWord_cons {a b : Tree} {ts : List Tree} {i : Nat} :
    BehindWord (a :: ts) (i + 1) b ↔ BehindWord ts i b := by
  simp [BehindWord]

/-- Something is wrong with a node exactly when one of its children starts with a word right behind a keyword. -/
theorem spacingClash_isSome (k : Kind) {ts : List Tree} :
    (spacingClash k ts).isSome = true ↔
      ∃ i b, BehindWord ts i b ∧ b.isTrivia = false ∧ startsWithWord b = true := by
  induction ts with
  | nil => simp [spacingClash, BehindWord]
  | cons a ts ih =>
    have hlater : (∃ i b, BehindWord ts i b ∧ b.isTrivia = false ∧ startsWithWord b = true) →
        ∃ i b, BehindWord (a :: ts) i b ∧ b.isTrivia = false ∧ startsWithWord b = true := by
      rintro ⟨i, b, hb, h⟩
      exact ⟨i + 1, b, behindWord_cons.mpr hb, h⟩
    cases ts with
    | nil =>
      refine ⟨fun h => by simp [spacingClash] at h, ?_⟩
      rintro ⟨_ | i, b, ⟨-, hb⟩, -⟩ <;> simp at hb
    | cons b ts =>
      -- only a leaf can be the word; whether it clashes is up to what comes next
      cases a with
      | node k' us =>
        refine ⟨fun h => hlater (ih.mp h), ?_⟩
        rintro ⟨_ | i, b', hb, h⟩
        · obtain ⟨l, hl, -⟩ := hb.1
          cases hl
        · exact ih.mpr ⟨i, b', behindWord_cons.mp hb, h⟩
      | leaf l =>
        rw [spacingClash_leaf]
        by_cases hclash : (l.kind = .mark && startsWithWord (.leaf l) && !b.isTrivia && startsWithWord b) = true
        · rw [if_pos hclash]
          simp only [Bool.and_eq_true, decide_eq_true_eq, Bool.not_eq_true'] at hclash
          obtain ⟨⟨⟨hmark, hword⟩, htrivia⟩, hnext⟩ := hclash
          exact ⟨fun _ => ⟨0, b, ⟨⟨l, rfl, hmark, hword⟩, rfl⟩, htrivia, hnext⟩, fun _ => rfl⟩
        · rw [if_neg hclash, ih]
          refine ⟨hlater, ?_⟩
          rintro ⟨_ | i, b', hb, htrivia, hnext⟩
          · obtain ⟨⟨l', hl', hmark, hword⟩, hb⟩ := hb
            cases hl'
            cases hb
            exact absurd (by simp [hmark, hword, htrivia, hnext]) hclash
          · exact ⟨i, b', behindWord_cons.mp hb, htrivia, hnext⟩

/-- The node `n` at path `q` of a tree stands right behind a keyword. -/
def Glued (t : Tree) (q : Path) (n : Tree) : Prop :=
  ∃ r k ts i b, t.at? r = some (.node k ts) ∧ BehindWord ts i b ∧ AtLeft b ((i + 1) :: r) q n

/-! ### Names that stand for slots -/

/-- No name of a tree stands for a slot while a template is read. -/
def Unslotted (t : Tree) : Prop := ∀ l ∈ t.leaves, l.kind = .name → ∀ s : Slot, l.text ≠ slotName s

theorem unslotted_node {k : Kind} {ts : List Tree} : Unslotted (.node k ts) ↔ ∀ t ∈ ts, Unslotted t := by
  simp only [Unslotted, show (Source.Tree.node k ts).leaves = leavesAll ts from rfl, leavesAll_eq_flatMap,
    List.mem_flatMap]
  exact ⟨fun h t ht l hl => h l ⟨t, ht, hl⟩, fun h l ⟨t, ht, hl⟩ => h t ht l hl⟩

theorem argument?_node {t : Tree} {a : Argument} (h : t.argument? = some a) : ∃ k ts, t = .node k ts ∧ a.value ∈ ts := by
  unfold argument? at h
  split at h
  · rename_i hkind
    obtain ⟨ts, rfl⟩ := exists_of_isKind hkind
    refine ⟨_, ts, rfl, List.mem_of_mem_filter (p := (!·.isTrivia)) ?_⟩
    change argumentOf? (ts.filter (!·.isTrivia)) = some a at h
    unfold argumentOf? at h
    split at h
    · rename_i heq
      cases h
      simp [heq]
    · rename_i heq
      split_ifs at h <;> cases h <;> simp [heq]
    · rename_i n e v heq
      split_ifs at h
      obtain ⟨s, -, rfl⟩ := Option.map_eq_some_iff.mp h
      simp [heq]
    · cases h
  · cases h

theorem Unslotted.argument {ts : List Tree} (h : Unslotted (.node .call ts)) {a : Argument}
    (ha : a ∈ (Source.Tree.node .call ts).arguments) : Unslotted a.value := by
  rw [arguments_call] at ha
  obtain ⟨t, ht, ha⟩ := List.mem_filterMap.mp ha
  have ht : t ∈ ts := List.mem_of_mem_filter (List.mem_of_mem_drop ht)
  obtain ⟨k, us, rfl, hvalue⟩ := argument?_node ha
  exact unslotted_node.mp (unslotted_node.mp h _ ht) _ hvalue

theorem Unslotted.at? {t u : Tree} {p : Path} (h : Unslotted t) (hat : t.at? p = some u) : Unslotted u := by
  induction p generalizing u with
  | nil =>
    cases hat
    exact h
  | cons i p ih =>
    rw [at?_cons] at hat
    obtain ⟨v, hv, hu⟩ := Option.bind_eq_some_iff.mp hat
    cases v with
    | leaf l => cases hu
    | node k ts => exact unslotted_node.mp (ih hv) _ (List.mem_of_getElem? hu)

/-! ### How a spliced tree starts -/

/-- A planned call without comments around its arguments. -/
def BecomesChain (plans : List (Path × Classification)) (q : Path) (n : Tree) : Prop :=
  (plans.lookup q).isSome = true ∧ hasArgumentComments n = false

/-- A chain starts with the entry point. -/
theorem startsWithWord_emit (hm : m.Accepted) {c : Classification} (hc : c.slots = slotsOf m c.shape) {call chain : Tree}
    (h : emit m c call = .ok chain) : startsWithWord chain = true := by
  obtain ⟨argument, -, htext⟩ := text_emit hm hc (emit_ok h).1 h
  obtain ⟨ch, cs, hentry, hstart, -⟩ := hm.isName.1.spelled
  have hfirst : ∃ rest, chain.text.toList = ch :: rest := by
    rw [htext]
    simp only [templateWith, String.toList_append, hentry, List.cons_append]
    exact ⟨_, rfl⟩
  obtain ⟨rest, hrest⟩ := hfirst
  rw [startsWithWord, hrest]
  exact Text.isNameContinue_of_isNameStart hstart

/-- How a tree at a path starts after splicing. -/
structure StartsAs (plans : List (Path × Classification)) (p : Path) (t u : Tree) : Prop where
  /-- A new word at the start is that of a chain at the left edge. -/
  word : startsWithWord u = true → startsWithWord t = true ∨ ∃ q n, AtLeft t p q n ∧ BecomesChain plans q n
  /-- A chain at the left edge is a word at the start. -/
  edge : ∀ q n, AtLeft t p q n → BecomesChain plans q n → startsWithWord u = true
  /-- No text goes without another one in its place. -/
  text : u.text = "" → t.text = ""
  /-- Where there was no text, a new one starts with a word. -/
  blank : t.text = "" → u.text = "" ∨ startsWithWord u = true

section Children

variable {R : Path × Tree → Spliced → Prop} {p : Path} {ts : List Tree} {ss : List Spliced}

theorem exists_spliced (h : List.Forall₂ R (locate p ts) ss) {i : Nat} {u : Tree} (hu : ts[i]? = some u) :
    ∃ s, (ss.map (·.tree))[i]? = some s.tree ∧ R (i :: p, u) s := by
  obtain ⟨hlen, hget⟩ := List.forall₂_iff_get.mp h
  have hloc : (locate p ts)[i]? = some (i :: p, u) := by rw [getElem?_locate, hu]; rfl
  obtain ⟨hi, heq⟩ := List.getElem?_eq_some_iff.mp hloc
  refine ⟨ss.get ⟨i, hlen ▸ hi⟩, ?_, heq ▸ hget i hi (hlen ▸ hi)⟩
  rw [List.getElem?_map, List.getElem?_eq_getElem (hlen ▸ hi)]
  rfl

theorem exists_unspliced (h : List.Forall₂ R (locate p ts) ss) {i : Nat} {v : Tree}
    (hv : (ss.map (·.tree))[i]? = some v) : ∃ u s, ts[i]? = some u ∧ R (i :: p, u) s ∧ s.tree = v := by
  have hlen : ts.length = ss.length := by
    rw [← h.length_eq, ← List.length_map (f := Prod.snd), map_snd_locate]
  obtain ⟨hi, -⟩ := List.getElem?_eq_some_iff.mp hv
  obtain ⟨u, hu⟩ : ∃ u, ts[i]? = some u := ⟨_, List.getElem?_eq_getElem (by simpa [hlen] using hi)⟩
  obtain ⟨s, hs, hR⟩ := exists_spliced h hu
  exact ⟨_, s, hu, hR, Option.some.inj (hs.symm.trans hv)⟩

theorem mem_take_iff {α : Type} {xs : List α} {i : Nat} {x : α} : x ∈ xs.take i ↔ ∃ j < i, xs[j]? = some x := by
  rw [List.mem_iff_getElem?]
  refine exists_congr fun j => ?_
  rw [List.getElem?_take]
  by_cases hj : j < i <;> simp [hj]

theorem startsAs_node {k : Kind}
    (h : List.Forall₂ (fun c s => StartsAs plans c.1 c.2 s.tree) (locate p ts) ss)
    (hself : ¬BecomesChain plans p (.node k ts)) :
    StartsAs plans p (.node k ts) (.node k (ss.map (·.tree))) := by
  refine ⟨fun hword => ?_, fun q n hleft hn => ?_, fun htext => ?_, fun htext => ?_⟩
  · obtain ⟨i, v, hv, hempty, hword⟩ := exists_of_startsName_textAll hword
    obtain ⟨u, s, hu, hstart, rfl⟩ := exists_unspliced h hv
    have hbefore : ∀ w ∈ ts.take i, w.text = "" := by
      intro w hw
      obtain ⟨j, hj, hw⟩ := mem_take_iff.mp hw
      obtain ⟨s', hs', hstart'⟩ := exists_spliced h hw
      exact hstart'.text (hempty _ (mem_take_iff.mpr ⟨j, hj, hs'⟩))
    rcases hstart.word hword with hword | ⟨q, n, hleft, hn⟩
    · exact .inl (startsName_textAll hu (fun w hw => .inl (hbefore w hw)) hword)
    · exact .inr ⟨q, n, .inside hu hbefore hleft, hn⟩
  · cases hleft with
    | here => exact absurd hn hself
    | @inside _ _ i u _ _ _ hu hempty hleft =>
      obtain ⟨s, hs, hstart⟩ := exists_spliced h hu
      refine startsName_textAll hs (fun w hw => ?_) (hstart.edge q n hleft hn)
      obtain ⟨j, hj, hw⟩ := mem_take_iff.mp hw
      obtain ⟨u', s', hu', hstart', rfl⟩ := exists_unspliced h hw
      exact hstart'.blank (hempty _ (mem_take_iff.mpr ⟨j, hj, hu'⟩))
  · refine textAll_eq_empty.mpr fun u hu => ?_
    obtain ⟨i, hu⟩ := List.mem_iff_getElem?.mp hu
    obtain ⟨s, hs, hstart⟩ := exists_spliced h hu
    exact hstart.text (textAll_eq_empty.mp htext _ (List.mem_of_getElem? hs))
  · refine textAll_eq_empty_or fun v hv => ?_
    obtain ⟨i, hv⟩ := List.mem_iff_getElem?.mp hv
    obtain ⟨u, s, hu, hstart, rfl⟩ := exists_unspliced h hv
    exact hstart.blank (textAll_eq_empty.mp htext _ (List.mem_of_getElem? hu))

end Children

/-- A spliced tree starts as before, apart from chains at its left edge. -/
theorem startsAs_of_splice (hm : m.Accepted) {t : Tree} {p : Path} {s : Spliced} (hplan : Planned m (plans.lookup ·) t p)
    (h : spliceFrom m plans t p = .ok s) : StartsAs plans p t s.tree := by
  refine spliceFrom_induct (P := fun p t s => Planned m (plans.lookup ·) t p → StartsAs plans p t s.tree)
    ?_ ?_ hplan.aimed h hplan
  · intro p l _
    exact ⟨fun h => .inl h, (fun _ _ h _ => by cases h), id, .inl⟩
  · intro p k ts ss s haim hss hs hplan
    have hchildren : List.Forall₂ (fun c s => StartsAs plans c.1 c.2 s.tree) (locate p ts) ss :=
      (forall₂_mem hss).imp fun c s hc => hc.2.2 (hplan.child hc.1)
    have hself := mem_nodesFrom_self k ts p
    cases hs with
    | kept hp => exact startsAs_node hchildren fun hn => by simp [BecomesChain, hp] at hn
    | chained hp he =>
      obtain ⟨hk, hslots, -⟩ := hplan _ hself _ hp
      have hword := startsWithWord_emit hm hslots he
      cases isKind_node.mp hk
      have hcall := call_of_splice haim (hss.imp fun c s h => h.1)
      have hclean : hasArgumentComments (.node .call ts) = false := hcall.2 ▸ (emit_ok he).2.1
      exact ⟨fun _ => .inr ⟨p, _, .here, by rw [hp]; rfl, hclean⟩, fun _ _ _ _ => hword,
        fun htext => absurd htext (text_ne_of_startsWithWord hword), fun _ => .inr hword⟩
    | refused hp he hf =>
      obtain ⟨hk, hslots, hlen⟩ := hplan _ hself _ hp
      cases isKind_node.mp hk
      have hcall := call_of_splice haim (hss.imp fun c s h => h.1)
      refine startsAs_node hchildren fun hn => ?_
      have hcom := hasArgumentComments_of_emit_error hm hslots he hf (hcall.1.trans hlen)
      rw [hcall.2, hn.2] at hcom
      cases hcom

/-! ### Where a chain may not stand -/

theorem spliceAll_eq {cs : List (Path × (Path → Except Failure Spliced))} {ss : List Spliced}
    (h : List.Forall₂ (fun c s => c.2 c.1 = .ok s) cs ss) :
    spliceAll cs = .ok (ss.map (·.tree), ss.flatMap (·.applied), ss.flatMap (·.failed)) := by
  induction h with
  | nil => rfl
  | cons hs _ ih => exact Except.bind_eq_ok.mpr ⟨_, hs, Except.bind_eq_ok.mpr ⟨_, ih, rfl⟩⟩

/-- A tree can be spliced only where no child of a node in it starts with a word right behind a keyword. -/
theorem spacingClash_of_splice {k : Kind} {ts : List Tree} {p : Path} {s : Spliced}
    (h : spliceFrom m plans (.node k ts) p = .ok s) :
    ∃ ss, List.Forall₂ (fun c s => spliceFrom m plans c.2 c.1 = .ok s) (locate p ts) ss ∧
      spacingClash k (ss.map (·.tree)) = none := by
  rw [spliceFrom_node] at h
  obtain ⟨r, hr, h⟩ := Except.bind_eq_ok.mp h
  obtain ⟨ss, hss, rfl⟩ := spliceAll_ok hr
  refine ⟨ss, List.forall₂_map_left_iff.mp hss, ?_⟩
  unfold spliceNode at h
  split at h
  · cases h
  · assumption

/-- What is inside a spliced tree is spliced too. -/
theorem spliceFrom_inside {t u : Tree} {p r : Path} {s : Spliced} (h : spliceFrom m plans t p = .ok s)
    (hat : t.at? r = some u) : ∃ s', spliceFrom m plans u (r ++ p) = .ok s' := by
  induction r generalizing u with
  | nil =>
    cases hat
    exact ⟨s, h⟩
  | cons i r ih =>
    rw [at?_cons] at hat
    obtain ⟨v, hv, hu⟩ := Option.bind_eq_some_iff.mp hat
    obtain ⟨s', hs'⟩ := ih hv
    cases v with
    | leaf l => cases hu
    | node k ts =>
      obtain ⟨ss, hss, -⟩ := spliceFrom_node_ok hs'
      obtain ⟨s, -, hs⟩ := exists_spliced hss hu
      exact ⟨s, hs⟩

/-- The planned calls below a node of a tree are planned calls of the tree. -/
theorem Planned.at? {chains : Path → Option Classification} {t u : Tree} {r : Path} (h : Planned m chains t [])
    (hat : t.at? r = some u) : Planned m chains u r := by
  intro n hn
  refine h n ?_
  obtain ⟨r', hr', hn, hkind⟩ := mem_nodesFrom.mp hn
  exact mem_nodesFrom.mpr ⟨n.1, (List.append_nil _).symm, by rw [hr', at?_append, hat]; exact hn, hkind⟩

/-- Right behind a keyword no call becomes a chain. -/
theorem not_glued_of_splice (hm : m.Accepted) {t n : Tree} {q : Path} {s : Spliced}
    (hplan : Planned m (plans.lookup ·) t []) (h : splice m plans t = .ok s) (hn : BecomesChain plans q n) :
    ¬Glued t q n := by
  rintro ⟨r, k, ts, i, b, hat, ⟨⟨l, hl, hmark, hword⟩, hb⟩, hleft⟩
  obtain ⟨s', hs'⟩ := spliceFrom_inside h hat
  rw [List.append_nil] at hs'
  have hplan' := hplan.at? hat
  obtain ⟨ss, hss, hclash⟩ := spacingClash_of_splice hs'
  have hlocate : ∀ {j : Nat} {u : Tree}, ts[j]? = some u → (j :: r, u) ∈ locate r ts :=
    fun hu => mem_locate.mpr ⟨_, rfl, hu⟩
  -- the keyword stays, and the chain is the word behind it
  obtain ⟨sl, hsl, hleaf⟩ := exists_spliced hss hl
  cases hleaf
  obtain ⟨sb, hsb, hsplice⟩ := exists_spliced hss hb
  have hnext := (startsAs_of_splice hm (hplan'.child (hlocate hb)) hsplice).edge q n hleft hn
  have halike := alike_of_splice (hplan'.child (hlocate hb)).aimed hsplice
  have htrivia : sb.tree.isTrivia = false := by
    rw [← halike.isTrivia_eq]
    cases hleft <;> rfl
  have hsome := (spacingClash_isSome k).mpr ⟨i, sb.tree, ⟨⟨l, hsl, hmark, hword⟩, hsb⟩, htrivia, hnext⟩
  rw [hclash] at hsome
  cases hsome

/-! ### What can be spliced -/

/-- A call without comments around its arguments gets a chain without names of slots. -/
theorem exists_emit_unslotted (hm : m.Accepted) (htemplate : ∀ c, Unmarked (template m c)) {c : Classification}
    (hc : c.slots = slotsOf m c.shape) {ts : List Tree} (hslots : Unslotted (.node .call ts))
    (hlen : (Source.Tree.node .call ts).arguments.length = c.shape.arity)
    (hcom : hasArgumentComments (.node .call ts) = false) :
    ∃ chain, emit m c (.node .call ts) = .ok chain ∧ Unslotted chain := by
  have hunreserved : Unreserved m c (.node .call ts) :=
    ⟨htemplate c, fun a ha l hl hname s _ => hslots.argument ha l hl hname s⟩
  obtain ⟨chain, hchain⟩ := (exists_emit_iff hm hc hlen hcom).mpr hunreserved
  refine ⟨chain, hchain, fun l hl hname s => ?_⟩
  obtain ⟨value, rfl, hvalue⟩ := emit_chain hm hc hchain
  rcases mem_leaves_chainTree hl with ⟨s', hs', hl⟩ | hl
  · obtain ⟨i, hi⟩ := (mem_roles hm hc).mp hs'
    obtain ⟨a, ha, heq⟩ := hvalue s' _ (hc ▸ hi)
    rw [heq] at hl
    exact hslots.argument (mem_of_pick ha) l hl hname s
  · exact ne_slotName (unmarked_leaf (htemplate c) hl) s

theorem spliceAll_answers {P : Spliced → Prop} {Q : Prop} {cs : List (Path × (Path → Except Failure Spliced))}
    (h : ∀ c ∈ cs, (∃ s, c.2 c.1 = .ok s ∧ P s) ∨ Q ∧ ∃ message, c.2 c.1 = .error (.source .node message)) :
    (∃ ss, List.Forall₂ (fun c s => c.2 c.1 = .ok s) cs ss ∧ ∀ s ∈ ss, P s) ∨
      Q ∧ ∃ message, spliceAll cs = .error (.source .node message) := by
  induction cs with
  | nil => exact .inl ⟨[], .nil, fun _ h => absurd h List.not_mem_nil⟩
  | cons c cs ih =>
    obtain ⟨hc, hcs⟩ := List.forall_mem_cons.mp h
    rcases hc with ⟨s, hs, hP⟩ | ⟨hQ, message, hc⟩
    · rcases ih hcs with ⟨ss, hss, hall⟩ | ⟨hQ, message, hcs⟩
      · exact .inl ⟨s :: ss, .cons hs hss, List.forall_mem_cons.mpr ⟨hP, hall⟩⟩
      · exact .inr ⟨hQ, message, Except.bind_eq_error.mpr (.inr ⟨s, hs, Except.bind_eq_error.mpr (.inl hcs)⟩)⟩
    · exact .inr ⟨hQ, message, Except.bind_eq_error.mpr (.inl hc)⟩

section Splicing

variable {root : Tree} (hm : m.Accepted) (htemplate : ∀ c, Unmarked (template m c))
  (hplan : Planned m (plans.lookup ·) root []) (hclash : Unclashed root)

include hm hplan hclash in
/-- What is wrong with a node after its children are spliced is a chain right behind a keyword. -/
theorem glued_of_spacingClash {k : Kind} {ts : List Tree} {p : Path} (hat : root.at? p = some (.node k ts))
    {ss : List Spliced} (hss : List.Forall₂ (fun c s => spliceFrom m plans c.2 c.1 = .ok s) (locate p ts) ss) :
    (spacingClash k (ss.map (·.tree))).isSome = true → ∃ q n, BecomesChain plans q n ∧ Glued root q n := by
  intro hsome
  obtain ⟨i, v, ⟨⟨l, hl, hmark, hword⟩, hv⟩, htrivia, hnext⟩ := (spacingClash_isSome k).mp hsome
  have hlocate : ∀ {j : Nat} {u : Tree}, ts[j]? = some u → (j :: p, u) ∈ locate p ts :=
    fun hu => mem_locate.mpr ⟨_, rfl, hu⟩
  have hplan' := hplan.at? hat
  -- the keyword was there before
  obtain ⟨u, su, hu, hsu, htree⟩ := exists_unspliced hss hl
  have hkeyword : u = .leaf l := by
    have halike := alike_of_splice (hplan'.child (hlocate hu)).aimed hsu
    rw [htree] at halike
    cases halike
    rfl
  obtain ⟨b, sb, hb, hsb, rfl⟩ := exists_unspliced hss hv
  have hplanb := hplan'.child (hlocate hb)
  rw [hkeyword] at hu
  rcases (startsAs_of_splice hm hplanb hsb).word hnext with hnext | ⟨q, n, hleft, hn⟩
  · -- a word right behind a keyword in the file
    rw [← (alike_of_splice hplanb.aimed hsb).isTrivia_eq] at htrivia
    have hbefore := (spacingClash_isSome k).mpr ⟨i, b, ⟨⟨l, hu, hmark, hword⟩, hb⟩, htrivia, hnext⟩
    rw [hclash p k ts hat] at hbefore
    cases hbefore
  · exact ⟨q, n, hn, p, k, ts, i, b, hat, ⟨⟨l, hu, hmark, hword⟩, hb⟩, hleft⟩

include hm htemplate hplan hclash in
/-- Where no name stands for a slot, only a chain right behind a keyword makes splicing fail. -/
theorem spliceFrom_answers (hslots : Unslotted root) {t : Tree} {p : Path} (hat : root.at? p = some t) :
    (∃ s, spliceFrom m plans t p = .ok s ∧ Unslotted s.tree) ∨
      (∃ q n, BecomesChain plans q n ∧ Glued root q n) ∧
        ∃ message, spliceFrom m plans t p = .error (.source .node message) := by
  induction t using induct generalizing p with
  | leaf l => exact .inl ⟨_, rfl, hslots.at? hat⟩
  | node k ts ih =>
    rw [spliceFrom_node]
    have hchild : ∀ c ∈ (locate p ts).map fun c => (c.1, spliceFrom m plans c.2),
        (∃ s, c.2 c.1 = .ok s ∧ Unslotted s.tree) ∨
          (∃ q n, BecomesChain plans q n ∧ Glued root q n) ∧ ∃ message, c.2 c.1 = .error (.source .node message) := by
      intro c' hc'
      obtain ⟨c, hc, rfl⟩ := List.mem_map.mp hc'
      refine ih c.2 (mem_of_mem_locate hc) ?_
      obtain ⟨i, hi, hci⟩ := mem_locate.mp hc
      rw [hi, at?_cons, hat]
      exact hci
    -- a child that fails makes the node fail, with its message; else the node has all of its new children
    rcases spliceAll_answers (P := fun s => Unslotted s.tree) hchild with ⟨ss, hss, hfree⟩ | ⟨hglued, message, hmessage⟩
    · have hsplices := List.forall₂_map_left_iff.mp hss
      have hunslotted : Unslotted (.node k (ss.map (·.tree))) := by
        refine unslotted_node.mpr fun v hv => ?_
        obtain ⟨s, hs, rfl⟩ := List.mem_map.mp hv
        exact hfree s hs
      have hnode : (∃ s, spliceNode m plans k p (ss.map (·.tree)) (ss.flatMap (·.applied)) (ss.flatMap (·.failed)) =
          .ok s ∧ Unslotted s.tree) ∨ (∃ q n, BecomesChain plans q n ∧ Glued root q n) ∧
            ∃ message, spliceNode m plans k p (ss.map (·.tree)) (ss.flatMap (·.applied)) (ss.flatMap (·.failed)) =
              .error (.source .node message) := by
        unfold spliceNode
        -- behind a keyword the new children may not fit; where they do, only a call that was planned can still fail
        cases hclashes : spacingClash k (ss.map (·.tree)) with
        | some message =>
          exact .inr ⟨glued_of_spacingClash hm hplan hclash hat hsplices (by rw [hclashes]; rfl), message, rfl⟩
        | none =>
          left
          cases hp : plans.lookup p with
          | none => exact ⟨_, rfl, hunslotted⟩
          | some c =>
            obtain ⟨hk, hc, hlen⟩ := hplan.at? hat _ (mem_nodesFrom_self k ts p) c hp
            cases isKind_node.mp hk
            obtain ⟨hargs, -⟩ := call_of_splice (hplan.at? hat).aimed hsplices
            cases hcom : hasArgumentComments (.node .call (ss.map (·.tree))) with
            | true =>
              obtain ⟨f, hf, htrans⟩ := emit_commented (m := m) (c := c) hcom
              simp only [hf, htrans, if_true]
              exact ⟨_, rfl, hunslotted⟩
            | false =>
              obtain ⟨chain, hchain, hfree⟩ := exists_emit_unslotted hm htemplate hc hunslotted (hargs.trans hlen) hcom
              simp only [hchain]
              exact ⟨_, rfl, hfree⟩
      rcases hnode with ⟨s, hs, hfree⟩ | ⟨hglued, message, hmessage⟩
      · exact .inl ⟨s, Except.bind_eq_ok.mpr ⟨_, spliceAll_eq hss, hs⟩, hfree⟩
      · exact .inr ⟨hglued, message, Except.bind_eq_error.mpr (.inr ⟨_, spliceAll_eq hss, hmessage⟩)⟩
    · exact .inr ⟨hglued, message, Except.bind_eq_error.mpr (.inl hmessage)⟩

end Splicing

/-! ### Whole texts -/

/-- Some call of a file that would be rewritten stands right behind a keyword. -/
def HasGlued (s : Setup) (f : SourceFile) : Prop :=
  ∃ c ∈ sitesOf s f, Rewritable s f c ∧ Glued f.tree c.path c.call

theorem Glued.at? {t n : Tree} {q : Path} (h : Glued t q n) : t.at? q = some n := by
  obtain ⟨p, k, ts, i, b, hat, ⟨-, hb⟩, hleft⟩ := h
  obtain ⟨r, hpath, hn, -⟩ := mem_nodesFrom.mp hleft.mem_nodesFrom
  have hchild : t.at? ((i + 1) :: p) = some b := by
    rw [at?_cons, hat]
    exact hb
  have hpath : q = r ++ (i + 1) :: p := hpath
  rw [hpath, at?_append, hchild]
  exact hn

section Plans

variable {s : Setup} {f : SourceFile} {ps : List Rewritten} {skipped : List Skipped} (hm : s.mapping.Accepted)
  (hplans : planSites (decideIn s f) (sitesOf s f) = .ok (ps, skipped))

include hplans

theorem hasGlued_of_becomesChain {q : Path} {n : Tree} (hn : BecomesChain (planKeys ps) q n) (hglued : Glued f.tree q n) :
    HasGlued s f := by
  obtain ⟨c, hc⟩ := Option.isSome_iff_exists.mp hn.1
  obtain ⟨r, hr, rfl, -⟩ := exists_of_lookup_planKeys hc
  have hnode : n = r.site.call := Option.some.inj (hglued.at?.symm.trans (call_of_plan hplans hr).1)
  rw [hnode] at hn hglued
  exact ⟨r.site, site_mem_of_plan hplans hr, ⟨plannable_of_plan hplans hr, hn.2⟩, hglued⟩

include hm in
theorem exists_becomesChain (h : HasGlued s f) : ∃ q n, BecomesChain (planKeys ps) q n ∧ Glued f.tree q n := by
  obtain ⟨c, hc, hrewritable, hglued⟩ := h
  obtain ⟨r, hr, rfl⟩ := List.mem_map.mp ((mem_plans_iff hplans hm hc).mpr hrewritable.toPlannable)
  refine ⟨r.site.path, r.site.call, ⟨?_, hrewritable.clean⟩, hglued⟩
  rw [lookup_planKeys_of_mem (nodup_paths_plans hplans) hr]
  rfl

end Plans

/-- Rewriting the calls of a file fails exactly when one of them stands right behind a keyword. -/
theorem rewriteResult_answers {s : Setup} {f : SourceFile} (hm : s.mapping.Accepted)
    (htemplate : ∀ c, Unmarked (template s.mapping c)) (hslots : Unslotted f.tree) (hclash : Unclashed f.tree) :
    (¬HasGlued s f ∧ ∃ o, rewriteResult s f = .ok o) ∨
      HasGlued s f ∧ ∃ message, rewriteResult s f = .error (.source .node message) := by
  obtain ⟨ps, skipped, hplans⟩ := exists_planSites (exists_decideIn (s := s) (f := f) hm) (sitesOf s f)
  have hplan := planned_plans hplans
  unfold rewriteResult
  by_cases hsites : (sitesOf s f).isEmpty = true
  · rw [if_pos hsites]
    refine .inl ⟨?_, _, rfl⟩
    rintro ⟨c, hc, -⟩
    rw [List.isEmpty_iff.mp hsites] at hc
    cases hc
  · rw [if_neg hsites, hplans]
    show _ ∧ (∃ o, (if ps.isEmpty then _ else _) = _) ∨ _ ∧ ∃ message, (if ps.isEmpty then _ else _) = _
    by_cases hempty : ps.isEmpty = true
    · rw [if_pos hempty]
      refine .inl ⟨fun h => ?_, _, rfl⟩
      obtain ⟨q, n, hn, -⟩ := exists_becomesChain hm hplans h
      rw [List.isEmpty_iff.mp hempty] at hn
      cases hn.1
    · rw [if_neg hempty]
      rcases spliceFrom_answers hm htemplate hplan hclash hslots (at?_nil f.tree) with
        ⟨spliced, hspliced, -⟩ | ⟨⟨q, n, hn, hglued⟩, message, hmessage⟩
      · refine .inl ⟨fun h => ?_, _, Except.bind_eq_ok.mpr ⟨spliced, hspliced, rfl⟩⟩
        obtain ⟨q, n, hn, hglued⟩ := exists_becomesChain hm hplans h
        exact not_glued_of_splice hm hplan hspliced hn hglued
      · exact .inr ⟨hasGlued_of_becomesChain hplans hn hglued, message, Except.bind_eq_error.mpr (.inl hmessage)⟩

/-- Editing the imports fails only where they cannot be reconciled. -/
theorem reconcileImports_answers (m : Mapping) (o : Outcome) :
    (∃ o', (reconcileImports m o).value = .ok o') ∨
      (reconcileImports m o).value = .error (.reconciliation "Failed to reconcile imports" (some m.fluentType)) := by
  -- no module is added as a whole
  have hnamed : (plan m o.required o.file.tree).any
      (fun e => e.kind = .add && e.module = "__future__" && e.name.isNone) = false := by
    rw [List.any_eq_false]
    intro e he
    unfold plan Edit.sorted at he
    rw [(Text.sortBy_perm _ _).mem_iff, List.mem_eraseDups, List.mem_append, List.mem_map, List.mem_map] at he
    rcases he with ⟨n, -, rfl⟩ | ⟨e, -, rfl⟩ <;> simp
  unfold reconcileImports
  split
  · exact .inl ⟨o, rfl⟩
  · unfold apply
    split_ifs with hnone hfuture
    · exact .inl ⟨_, rfl⟩
    · rw [hnamed] at hfuture
      cases hfuture
    · cases hadd : add o.file.lineBreak (wantedOf (plan m o.required o.file.tree)) o.file.closedTree with
      | none => exact .inr rfl
      | some t => exact .inl ⟨_, rfl⟩

/-- With no name that stands for a slot in the mapping or in the file, a migration gives a text or fails to reconcile the
imports, unless a call that it would rewrite stands right behind a keyword; then it fails for that. -/
theorem migrateSource_answers {s : Setup} {text : String} {f : SourceFile} (hm : s.mapping.Accepted)
    (hparse : SourceFile.parse? text = some f) (htemplate : ∀ c, Unmarked (template s.mapping c))
    (hslots : Unslotted f.tree) :
    (¬HasGlued s f ∧ ((∃ out, (migrateSource s text).value = .ok out) ∨
        (migrateSource s text).value =
          .error (.reconciliation "Failed to reconcile imports" (some s.mapping.fluentType)))) ∨
      HasGlued s f ∧ ∃ message, (migrateSource s text).value = .error (.source .node message) := by
  have hvalue : (migrateSource s text).value = Prod.fst <$> (do
      let o ← (rewriteCalls s f).value
      let o ← (reconcileImports s.mapping o).value
      return (if o.changed then o.file.code else text, o)) := by
    rw [migrateSource, value_map, value_migrateWithOutcome, readSource_eq hparse]
    rfl
  rw [hvalue, (rewriteCalls_gives s f).value]
  rcases rewriteResult_answers hm htemplate hslots (unclashed_parse? hparse) with
    ⟨hfree, o, ho⟩ | ⟨hglued, message, hmessage⟩
  · rw [ho]
    refine .inl ⟨hfree, ?_⟩
    rcases reconcileImports_answers s.mapping o with ⟨o', ho'⟩ | herror
    · left
      show ∃ out, Prod.fst <$> ((reconcileImports s.mapping o).value >>= _) = _
      rw [ho']
      exact ⟨_, rfl⟩
    · right
      show Prod.fst <$> ((reconcileImports s.mapping o).value >>= _) = _
      rw [herror]
      rfl
  · rw [hmessage]
    exact .inr ⟨hglued, message, rfl⟩

/-! ### A chain behind a keyword -/

/-- A text whose call starts with a parenthesis right behind a keyword. -/
def gluedText : String :=
  "from junit.Assertions import assertEquals\ndef f():\n    return(assertEquals)(1, 2)\n"

/-- Whether no name of a text stands for a slot: none has an underscore. -/
def isPlainText (text : String) : Bool :=
  ((SourceFile.parse? text).map fun f => f.tree.leaves.all fun l => !l.text.toList.contains '_').getD false

theorem of_isPlainText {text : String} (h : isPlainText text = true) :
    ∃ f, SourceFile.parse? text = some f ∧ Unslotted f.tree := by
  unfold isPlainText at h
  cases hparse : SourceFile.parse? text with
  | none =>
    rw [hparse] at h
    cases h
  | some f =>
    refine ⟨f, rfl, fun l hl _ s heq => ?_⟩
    rw [hparse] at h
    have hplain := List.all_eq_true.mp h l hl
    rw [heq] at hplain
    cases s <;> revert hplain <;> decide

/-- What is wrong with a node of the new tree, if a migration fails for that. -/
def nodeFault? (s : Setup) (text : String) : Option String :=
  match (migrateSource s text).value with
  | .error (.source .node message) => some message
  | _ => none

theorem of_nodeFault? {s : Setup} {text message : String} (h : nodeFault? s text = some message) :
    (migrateSource s text).value = .error (.source .node message) := by
  unfold nodeFault? at h
  split at h
  · next heq => cases h; exact heq
  · cases h

set_option maxRecDepth 100000 in
theorem isPlainText_gluedText : isPlainText gluedText = true := by decide +kernel

set_option maxRecDepth 100000 in
theorem nodeFault?_gluedText : nodeFault? plainSetup gluedText = some "Must have at least one space after 'return'." := by
  rw [nodeFault?, migrateSource, value_map, migrateWithOutcome_direct (s := plainSetup) Mapping.accepted_standard
    chainNames_standard]
  decide +kernel

/-- The call of `gluedText` stands right behind a keyword, and the migration fails. -/
theorem failed_gluedText :
    ∃ f, SourceFile.parse? gluedText = some f ∧ HasGlued plainSetup f ∧
      (migrateSource plainSetup gluedText).value =
        .error (.source .node "Must have at least one space after 'return'.") := by
  obtain ⟨f, hparse, hslots⟩ := of_isPlainText isPlainText_gluedText
  have herror := of_nodeFault? nodeFault?_gluedText
  refine ⟨f, hparse, ?_, herror⟩
  rcases migrateSource_answers (s := plainSetup) Mapping.accepted_standard hparse
    (unmarked_template chainNames_standard) hslots with ⟨-, ⟨out, hout⟩ | hout⟩ | ⟨hglued, -⟩
  · rw [herror] at hout
    cases hout
  · rw [herror] at hout
    cases hout
  · exact hglued

end FluentShift.Rewrite
