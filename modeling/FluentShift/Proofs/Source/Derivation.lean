import FluentShift.Proofs.Source.Spacing

/-!
# FluentShift.Proofs.Source.Derivation - the trees that a grammar can read

`Derives g ts` forgets the tokens and the steps of a run and keeps how its trees were put together; the leaves before a
wanted one are trivia.  What is read is derived (`derives_run`), so a shape that every derivation has is a shape of every
tree that is read.
-/

namespace FluentShift.Source

/-! ### Tokens behind trivia -/

/-- Only trivia stands in front of the tokens. -/
def Quiet (ts : List Token) : Prop := ∀ t ∈ ts, ∀ l ∈ t.lead, l.kind.isTrivia = true

namespace Token

theorem quiet_nil : Quiet [] := fun _ h => absurd h List.not_mem_nil

theorem quiet_of_leaves {ts : List Token} (h : ∀ l ∈ ts.flatMap leaves, l.kind.isTrivia = true) : Quiet ts :=
  fun t ht l hl => h l (List.mem_flatMap.mpr ⟨t, ht, List.mem_append_left _ hl⟩)

theorem quiet_cons {t : Token} {ts : List Token} (h : ∀ l ∈ t.lead, l.kind.isTrivia = true) (hts : Quiet ts) :
    Quiet (t :: ts) := by
  intro u hu
  rcases List.mem_cons.mp hu with rfl | hu
  · exact h
  · exact hts u hu

theorem quiet_append {ts us : List Token} (hts : Quiet ts) (hus : Quiet us) : Quiet (ts ++ us) :=
  fun t ht => (List.mem_append.mp ht).elim (hts t) (hus t)

/-- Closing blocks leaves trivia, in the tokens and after them. -/
theorem quiet_closeBlocks (width : Nat) (blocks : List Indent) {lines : List (List Leaf)}
    (h : ∀ l ∈ lines.flatten, l.kind.isTrivia = true) :
    Quiet (closeBlocks width blocks lines).1 ∧
      ∀ l ∈ (closeBlocks width blocks lines).2.2.flatten, l.kind.isTrivia = true := by
  rw [← closeBlocks_leaves width blocks lines] at h
  exact ⟨quiet_of_leaves fun l hl => h l (List.mem_append_left _ hl), fun l hl => h l (List.mem_append_right _ hl)⟩

theorem quiet_ofLeavesIn (blocks : List Indent) (fresh : Bool) {trivia : List Leaf}
    (h : ∀ l ∈ trivia, l.kind.isTrivia = true) (ls : List Leaf) : Quiet (ofLeavesIn blocks fresh trivia ls).1 := by
  have hnil : ∀ l ∈ ([] : List Leaf), l.kind.isTrivia = true := fun l hl => absurd hl List.not_mem_nil
  induction ls generalizing blocks fresh trivia with
  | nil =>
    unfold ofLeavesIn
    -- at the end of the input a block that is open is closed, with what came before it
    cases fresh with
    | true =>
      have hlines : ∀ l ∈ (trivialLines trivia).flatten, l.kind.isTrivia = true := by rwa [trivialLines_flatten]
      obtain ⟨hclosed, hleft⟩ := quiet_closeBlocks 0 blocks hlines
      exact quiet_append hclosed (quiet_cons hleft quiet_nil)
    | false =>
      have hclosed : Quiet (closeBlocks 0 blocks []).1 := (quiet_closeBlocks 0 blocks (by exact hnil)).1
      exact quiet_append (quiet_cons h hclosed) (quiet_cons hnil quiet_nil)
  | cons l ls ih =>
    unfold ofLeavesIn
    have hmore : ∀ l' : Leaf, l'.kind.isTrivia = true → ∀ x ∈ trivia ++ [l'], x.kind.isTrivia = true := by
      intro l' hl' x hx
      rcases List.mem_append.mp hx with hx | hx
      · exact h x hx
      · rwa [List.mem_singleton.mp hx]
    split
    · -- trivia is kept for the next token; any other leaf makes one, which begins without
      rename_i htrivia
      exact ih _ _ (hmore l htrivia)
    · split
      · cases fresh with
        | true => exact ih _ _ (hmore ⟨.lineBreak, l.text⟩ rfl)
        | false => exact quiet_cons h (ih _ _ hnil)
      · cases fresh with
        | true =>
          simp only [if_true]
          cases hopen : openLine blocks trivia with
          | error f => exact quiet_nil
          | ok r =>
            obtain ⟨tokens, lead, blocks'⟩ := r
            rw [← openLine_leaves hopen] at h
            exact quiet_append (quiet_of_leaves fun l hl => h l (List.mem_append_left _ hl))
              (quiet_cons (fun l hl => h l (List.mem_append_right _ hl)) (ih _ _ hnil))
        | false => exact quiet_cons h (ih _ _ hnil)

end Token

theorem quiet_tokens? {text : String} {ts : List Token} (h : tokens? text = some ts) : Quiet ts := by
  unfold tokens? at h
  split at h
  · cases h
  · rename_i ls hls
    split at h
    · cases h
    · rename_i ts' hts
      cases h
      unfold Token.ofLeaves? at hts
      split at hts
      · rename_i us hus
        cases hts
        have hquiet := Token.quiet_ofLeavesIn [] true (fun _ hl => absurd hl List.not_mem_nil) ls
        rwa [hus] at hquiet
      · cases hts

/-! ### Derivations -/

/-- The trees that a grammar of the source language can read. -/
inductive Derives : Grammar Rule → List Tree → Prop where
  | nothing : Derives .nothing []
  | want {w : Want} {lead : List Leaf} {body : TokenBody} {ls : List Leaf} :
      (∀ l ∈ lead, l.kind.isTrivia = true) → w.accept body = some ls → Derives (.want w) ((lead ++ ls).map .leaf)
  | seq {a b : Grammar Rule} {xs ys : List Tree} : Derives a xs → Derives b ys → Derives (.seq a b) (xs ++ ys)
  | left {a b : Grammar Rule} {xs : List Tree} : Derives a xs → Derives (.alt a b) xs
  | right {a b : Grammar Rule} {xs : List Tree} : Derives b xs → Derives (.alt a b) xs
  | none_ {a : Grammar Rule} : Derives (.many a) []
  | more {a : Grammar Rule} {xs ys : List Tree} : Derives a xs → Derives (.many a) ys → Derives (.many a) (xs ++ ys)
  | ahead {a : Grammar Rule} : Derives (.ahead a) []
  | notAhead {a : Grammar Rule} : Derives (.notAhead a) []
  | rule {r : Rule} {xs : List Tree} : Derives r.meaning xs → Derives (.rule r) xs
  | tree {k : Kind} {a : Grammar Rule} {xs : List Tree} : Derives a xs → Derives (.tree k a) (wrap k xs)
  | graft {a b : Grammar Rule} {xs ys : List Tree} : Derives a xs → Derives b ys → Derives (.graft a b) (join xs ys)
  | head {a b : Grammar Rule} {xs : List Tree} : Derives a xs → Derives (.chain a b) xs
  | link {a b : Grammar Rule} {xs ys : List Tree} : Derives (.chain a b) xs → Derives b ys →
      Derives (.chain a b) (join xs ys)
  | check {ok : List Tree → Bool} {a : Grammar Rule} {xs : List Tree} : Derives a xs → Derives (.check ok a) xs

namespace Grammar

/-- What a run reads is derived, and what it leaves is still quiet. -/
def Sound (g : Grammar Rule) (r : List Tree × List Token) : Prop := Derives g r.1 ∧ Quiet r.2

/-- The induction is on the steps that a run may take, for a grammar and for a chain of grafts together. -/
theorem sound_run_and_chain (fuel : Nat) :
    (∀ g ts r, Quiet ts → run Rule.meaning fuel g ts = some r → Sound g r) ∧
      ∀ a g xs us r, Derives (.chain a g) xs → Quiet us → run.runChain Rule.meaning fuel g xs us = some r →
        Sound (.chain a g) r := by
  induction fuel with
  | zero =>
    refine ⟨fun g ts r _ h => ?_, fun a g xs us r _ _ h => ?_⟩
    · cases h
    · cases h
  | succ fuel ih =>
    obtain ⟨hrun, hchain⟩ := ih
    refine ⟨fun g ts r hq h => ?_, fun a g xs us r hxs hq h => ?_⟩
    · unfold run at h
      cases g with
      | nothing =>
        cases h
        exact ⟨.nothing, hq⟩
      | want w =>
        cases ts with
        | nil => cases h
        | cons t ts =>
          obtain ⟨ls, hls, rfl⟩ := Option.map_eq_some_iff.mp h
          exact ⟨.want (hq t (List.mem_cons_self ..)) hls, fun u hu => hq u (List.mem_cons_of_mem _ hu)⟩
      | seq a b =>
        simp only at h
        split at h
        · cases h
        · rename_i ha
          split at h
          · cases h
          · rename_i hb
            cases h
            obtain ⟨hxs, hus⟩ := hrun _ _ _ hq ha
            obtain ⟨hys, hvs⟩ := hrun _ _ _ hus hb
            exact ⟨.seq hxs hys, hvs⟩
      | alt a b =>
        simp only at h
        split at h
        · rename_i ha
          cases h
          obtain ⟨hxs, hus⟩ := hrun _ _ _ hq ha
          exact ⟨.left hxs, hus⟩
        · obtain ⟨hxs, hus⟩ := hrun _ _ _ hq h
          exact ⟨.right hxs, hus⟩
      | many a =>
        simp only at h
        split at h
        · cases h
          -- a step that reads nothing ends the repetition, as one that fails does
          exact ⟨.none_, hq⟩
        · rename_i ha
          split at h
          · split at h
            · cases h
            · rename_i hmany
              cases h
              obtain ⟨hxs, hus⟩ := hrun _ _ _ hq ha
              obtain ⟨hys, hvs⟩ := hrun _ _ _ hus hmany
              exact ⟨.more hxs hys, hvs⟩
          · cases h
            exact ⟨.none_, hq⟩
      -- looking ahead gives the tokens back
      | ahead a =>
        simp only at h
        split at h <;> cases h
        exact ⟨.ahead, hq⟩
      | notAhead a =>
        simp only at h
        split at h <;> cases h
        exact ⟨.notAhead, hq⟩
      | rule name =>
        obtain ⟨hxs, hus⟩ := hrun _ _ _ hq h
        exact ⟨.rule hxs, hus⟩
      | tree k a =>
        obtain ⟨⟨xs, us⟩, ha, rfl⟩ := Option.map_eq_some_iff.mp h
        obtain ⟨hxs, hus⟩ := hrun _ _ _ hq ha
        exact ⟨.tree hxs, hus⟩
      | graft a b =>
        simp only at h
        split at h
        · cases h
        · rename_i ha
          obtain ⟨⟨ys, vs⟩, hb, rfl⟩ := Option.map_eq_some_iff.mp h
          obtain ⟨hxs, hus⟩ := hrun _ _ _ hq ha
          obtain ⟨hys, hvs⟩ := hrun _ _ _ hus hb
          exact ⟨.graft hxs hys, hvs⟩
      | chain a b =>
        simp only at h
        split at h
        · cases h
        · rename_i ha
          obtain ⟨hxs, hus⟩ := hrun _ _ _ hq ha
          exact hchain a _ _ _ _ (.head hxs) hus h
      | check ok a =>
        simp only at h
        split at h
        · cases h
        · rename_i ha
          split at h <;> cases h
          obtain ⟨hxs, hus⟩ := hrun _ _ _ hq ha
          exact ⟨.check hxs, hus⟩
    · -- each further link takes the tree so far as its first child
      unfold run.runChain at h
      split at h
      · cases h
        exact ⟨hxs, hq⟩
      · rename_i htail
        split at h
        · obtain ⟨hys, hvs⟩ := hrun _ _ _ hq htail
          exact hchain _ _ _ _ _ (.link hxs hys) hvs h
        · cases h
          exact ⟨hxs, hq⟩

theorem derives_run {fuel : Nat} {g : Grammar Rule} {ts : List Token} {r : List Tree × List Token} (hq : Quiet ts)
    (h : run Rule.meaning fuel g ts = some r) : Derives g r.1 :=
  ((sound_run_and_chain fuel).1 g ts r hq h).1

end Grammar

end FluentShift.Source
