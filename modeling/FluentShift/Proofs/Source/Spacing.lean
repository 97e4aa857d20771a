import FluentShift.Source.Parse
import FluentShift.Proofs.Source.Paths

/-!
# FluentShift.Proofs.Source.Spacing - no word of a text runs into the next

A name or keyword takes all the characters it can, so no name character comes after it (`spaced_lexemes`), and reading
keeps the leaves of a text in their order (`leaves_moduleOfTokens?`).  So in the tree of a text, too, no name character comes
right after a word (`spaced_parseModule?`).
-/

namespace FluentShift.Source

/-! ### Pieces of text in a row -/

/-- Whether a text starts with a character that would continue a name before it. -/
def startsName (cs : List Char) : Bool := (cs.head?.map Text.isNameContinue).getD false

/-- The pieces of leaves that are not empty; names and marks are words. -/
def spine (ls : List Leaf) : List (Bool × String) :=
  (ls.filter fun l => l.text ≠ "").map fun l => (l.kind = .mark || l.kind = .name, l.text)

/-- No name character comes right after a word that starts with one. -/
def Spaced : List (Bool × String) → Prop
  | [] => True
  | p :: ps =>
    (p.1 = true → startsName p.2.toList = true → startsName (ps.flatMap fun q => q.2.toList) = false) ∧ Spaced ps

theorem spine_append (ls ls' : List Leaf) : spine (ls ++ ls') = spine ls ++ spine ls' := by
  rw [spine, List.filter_append, List.map_append]
  rfl

theorem spine_cons (l : Leaf) (ls : List Leaf) :
    spine (l :: ls) = (if l.text = "" then [] else [(l.kind = .mark || l.kind = .name, l.text)]) ++ spine ls := by
  by_cases h : l.text = ""
  · simp [spine, h]
  · simp [spine, h]

/-- Empty pieces are no loss. -/
theorem flatMap_spine (ls : List Leaf) :
    ((spine ls).flatMap fun q => q.2.toList) = ls.flatMap fun l => l.text.toList := by
  induction ls with
  | nil => rfl
  | cons l ls ih =>
    rw [spine_cons, List.flatMap_append, ih, List.flatMap_cons]
    by_cases h : l.text = ""
    · simp [h]
    · simp [h]

theorem startsName_append {cs cs' : List Char} (h : startsName (cs ++ cs') = false) : startsName cs = false := by
  cases cs with
  | nil => rfl
  | cons c cs => exact h

theorem Spaced.left {ps qs : List (Bool × String)} (h : Spaced (ps ++ qs)) : Spaced ps := by
  induction ps with
  | nil => exact trivial
  | cons p ps ih =>
    refine ⟨fun hword hstart => ?_, ih h.2⟩
    have hafter := h.1 hword hstart
    rw [List.append_eq, List.flatMap_append] at hafter
    exact startsName_append hafter

theorem Spaced.right {ps qs : List (Bool × String)} (h : Spaced (ps ++ qs)) : Spaced qs := by
  induction ps with
  | nil => exact h
  | cons p ps ih => exact ih h.2

/-! ### Cutting -/

theorem startsName_drop_runLength (cs : List Char) :
    startsName (cs.drop (runLength Text.isNameContinue cs)) = false := by
  induction cs with
  | nil => rfl
  | cons c cs ih =>
    unfold runLength
    by_cases h : Text.isNameContinue c = true
    · rw [if_pos h, List.drop_succ_cons]
      exact ih
    · rw [if_neg h]
      simpa [startsName] using h

/-- The leaf is a number. -/
def IsNumber (k : LeafKind) : Prop := k = .integer ∨ k = .real ∨ k = .imaginary

theorem numberTail_kind {kind : LeafKind} (hkind : IsNumber kind) {n : Nat} {rest : List Char} {r : LeafKind × Nat}
    (h : numberTail kind n rest = some r) : IsNumber r.1 := by
  obtain ⟨e, -, h⟩ := Option.bind_eq_some_iff.mp h
  have hreal : IsNumber (if e = 0 then kind else .real) := by
    split
    · exact hkind
    · exact .inr (.inl rfl)
  simp only at h
  split at h
  · split at h
    · cases h; exact .inr (.inr rfl)
    · cases h; exact hreal
  · cases h; exact hreal

theorem fractionTail_kind {n : Nat} {rest : List Char} {r : LeafKind × Nat} (h : fractionTail n rest = some r) :
    IsNumber r.1 := by
  unfold fractionTail at h
  split at h
  · simp only at h
    split at h
    · split at h
      · obtain ⟨d, -, h⟩ := Option.bind_eq_some_iff.mp h
        exact numberTail_kind (.inr (.inl rfl)) h
      · obtain ⟨d, -, h⟩ := Option.bind_eq_some_iff.mp h
        exact numberTail_kind (.inr (.inl rfl)) h
    · obtain ⟨d, -, h⟩ := Option.bind_eq_some_iff.mp h
      exact numberTail_kind (.inr (.inl rfl)) h
  · exact numberTail_kind (.inl rfl) h

theorem basedInteger_kind {digit : Char → Bool} {cs : List Char} {r : LeafKind × Nat}
    (h : basedInteger digit cs = some r) : IsNumber r.1 := by
  obtain ⟨d, -, h⟩ := Option.bind_eq_some_iff.mp h
  by_cases hd : d = 0
  · simp [hd] at h
  · simp only [hd, if_false] at h
    split at h
    · split at h
      · cases h
      · cases h; exact .inl rfl
    · cases h; exact .inl rfl

theorem numberCut_kind {cs : List Char} {r : LeafKind × Nat} (h : numberCut cs = some r) : IsNumber r.1 := by
  unfold numberCut at h
  split at h
  · exact fractionTail_kind h
  · split at h
    · exact basedInteger_kind h
    · split at h
      · exact basedInteger_kind h
      · split at h
        · exact basedInteger_kind h
        · obtain ⟨d, -, h⟩ := Option.bind_eq_some_iff.mp h
          obtain ⟨⟨k, n⟩, hk, h⟩ := Option.bind_eq_some_iff.mp h
          simp only at h
          split at h
          · cases h
          · cases h
            exact fractionTail_kind hk
  · obtain ⟨d, -, h⟩ := Option.bind_eq_some_iff.mp h
    exact fractionTail_kind h

/-- No operator starts with a name character. -/
theorem isNameContinue_of_operator {c : Char} {cs : List Char} (h : operatorLength (c :: cs) ≠ 0) :
    Text.isNameContinue c = false := by
  have hlong : ∀ o ∈ longOperators, (o.head?.map Text.isNameContinue) = some false := by decide +kernel
  have hshort : shortOperators.any Text.isNameContinue = false := by decide +kernel
  unfold operatorLength at h
  split at h
  · rename_i o ho
    have hmem := List.mem_of_find?_eq_some ho
    have htake : (c :: cs).take o.length = o := by simpa using List.find?_some ho
    have hhead := hlong o hmem
    cases o with
    | nil => cases hhead
    | cons d ds =>
      have hd : c = d := (List.cons.inj htake).1
      rw [hd]
      simpa using hhead
  · split at h
    · rename_i hany
      obtain ⟨o, ho, htake⟩ := List.any_eq_true.mp hany
      have hc : c = o := by simpa using htake
      rw [hc]
      simpa using List.any_eq_false.mp hshort o ho
    · exact absurd rfl h

/-- What a cut says about the characters after it. -/
def Parts (c : Char) (cs : List Char) (cut : Cut) : Prop :=
  cut.kind = .mark ∨ cut.kind = .name → Text.isNameContinue c = true → startsName ((c :: cs).drop cut.length) = false

theorem parts_cutSymbol {modes : List Mode} {c : Char} {cs : List Char} {cut : Cut}
    (h : cutSymbol modes c cs = .ok cut) : Parts c cs cut := by
  intro _ hc
  exfalso
  have other : ∀ d, Text.isNameContinue d = false → c ≠ d := by
    rintro d hd rfl
    rw [hd] at hc
    cases hc
  have hopen : c ≠ '(' ∧ c ≠ '[' ∧ c ≠ '{' :=
    ⟨other _ (by decide +kernel), other _ (by decide +kernel), other _ (by decide +kernel)⟩
  have hclose : c ≠ ')' ∧ c ≠ ']' ∧ c ≠ '}' :=
    ⟨other _ (by decide +kernel), other _ (by decide +kernel), other _ (by decide +kernel)⟩
  have hcolon : c ≠ ':' := other _ (by decide +kernel)
  unfold cutSymbol at h
  simp only [hopen, hclose, hcolon, if_false, decide_false, Bool.or_false, Bool.and_false] at h
  rw [if_neg (by decide), if_neg (by decide)] at h
  split at h
  · cases h
  · rename_i n hn hlen
    rw [isNameContinue_of_operator (by omega : operatorLength (c :: cs) ≠ 0)] at hc
    cases hc

theorem parts_cutString {low : List Char} {modes : List Mode} {c : Char} {cs : List Char} {cut : Cut}
    (h : cutString low modes (c :: cs) = .ok cut) : Parts c cs cut := by
  intro hkind
  exfalso
  unfold cutString at h
  simp only at h
  split at h
  · cases h; simp at hkind
  · split at h
    · cases h; simp at hkind
    · cases h

theorem parts_cutToken {modes : List Mode} {c : Char} {cs : List Char} {cut : Cut}
    (h : cutToken modes c cs = .ok cut) : Parts c cs cut := by
  unfold cutToken at h
  simp only at h
  split at h
  · cases h; exact fun hkind => by simp at hkind
  · split at h
    · cases h; exact fun hkind => by split at hkind <;> simp at hkind
    · split at h
      · cases h; exact fun hkind => by simp at hkind
      · split at h
        · split at h
          · cases h
          · split at h
            · cases h
            · cases h; exact fun hkind => by simp at hkind
        · split at h
          · split at h
            · rename_i k n hn
              cases h
              have hk := numberCut_kind hn
              intro hkind
              exfalso
              rcases hk with hk | hk | hk <;> simp only at hk hkind <;> subst hk <;> simp at hkind
            · cases h
          · split at h
            · exact parts_cutString h
            · split at h
              · -- a word takes all the characters it can
                cases h
                intro _ _
                exact startsName_drop_runLength (c :: cs)
              · exact parts_cutSymbol h

theorem parts_nextCut {modes : List Mode} {c : Char} {cs : List Char} {cut : Cut}
    (h : nextCut modes c cs = .ok cut) : Parts c cs cut := by
  have hbrace : Text.isNameContinue '{' = false ∧ Text.isNameContinue '}' = false := by decide +kernel
  unfold nextCut at h
  split at h
  · unfold cutLiteral at h
    split at h
    · cases h; exact fun hkind => by simp at hkind
    · split at h
      · cases h
      · split at h
        · rename_i htake
          cases h
          have hc : c = '{' := by simpa using htake
          intro _ hcont
          rw [hc, hbrace.1] at hcont
          cases hcont
        · cases h
      · cases h; exact fun hkind => by simp at hkind
  · rename_i q ms
    unfold cutFormat at h
    split at h
    · cases h
    · rename_i hlen
      -- the format is empty only before a brace
      have hc : c = '{' ∨ c = '}' := by
        by_contra hne
        rw [not_or] at hne
        unfold formatLength at hlen
        rw [if_neg (by simp [hne])] at hlen
        split at hlen
        · cases hlen
        · obtain ⟨n, -, hn⟩ := Option.map_eq_some_iff.mp hlen
          omega
      intro _ hcont
      rcases hc with hc | hc <;> simp [hc, hbrace] at hcont
    · cases h; exact fun hkind => by simp at hkind
  · exact parts_cutToken h

/-- No name character comes right after a word of a text. -/
theorem spaced_lexemesIn {modes : List Mode} {cs : List Char} (h : (lexemesIn modes cs).2 = none) :
    Spaced (spine (lexemesIn modes cs).1) := by
  -- on the number of characters, since a cut may take more than one
  induction hn : cs.length using Nat.strongRecOn generalizing modes cs with
  | _ n ih =>
  subst hn
  cases cs with
  | nil =>
    unfold lexemesIn
    exact trivial
  | cons c rest =>
    unfold lexemesIn at h ⊢
    cases hcut : nextCut modes c rest with
    | error e =>
      simp only [hcut] at h
      cases h
    | ok cut =>
      simp only [hcut] at h ⊢
      by_cases hpos : 0 < cut.length
      · simp only [hpos, if_true] at h ⊢
        have hlt : ((c :: rest).drop cut.length).length < (c :: rest).length := by
          rw [List.length_drop, List.length_cons]
          omega
        have hrest := ih _ hlt h rfl
        have htext := lexemesIn_flatten cut.modes ((c :: rest).drop cut.length) h
        have htake : (c :: rest).take cut.length = c :: rest.take (cut.length - 1) := by
          obtain ⟨k, hk⟩ : ∃ k, cut.length = k + 1 := ⟨cut.length - 1, by omega⟩
          rw [hk, List.take_succ_cons]
          rfl
        -- an empty piece would not be written down, but this one has its first character
        have hne : String.ofList ((c :: rest).take cut.length) ≠ "" := by
          intro hempty
          have hlist := congrArg String.toList hempty
          rw [String.toList_ofList, htake] at hlist
          cases hlist
        rw [spine_cons, if_neg hne, List.singleton_append]
        refine ⟨fun hword hstart => ?_, hrest⟩
        rw [flatMap_spine, htext]
        refine parts_nextCut hcut (by simpa using hword) ?_
        rw [String.toList_ofList, htake] at hstart
        simpa [startsName] using hstart
      · simp only [hpos, if_false] at h
        cases h

theorem spaced_lexemes {text : String} {ls : List Leaf} (h : lexemes text = .ok ls) : Spaced (spine ls) := by
  unfold lexemes at h
  split at h
  · rename_i ls' heq
    cases h
    have hspaced : Spaced (spine (lexemesIn [] text.toList).1) := spaced_lexemesIn (by rw [heq])
    rwa [heq] at hspaced
  · cases h

/-! ### Tokens -/

namespace Token

/-- The leaves of a token. -/
def leaves (t : Token) : List Leaf :=
  t.lead ++ match t.body with
    | .leaf l => [l]
    | _ => []

theorem trivialLines_cons (l : Leaf) (ls : List Leaf) :
    trivialLines (l :: ls) =
      if l.kind = .lineBreak then [l] :: trivialLines ls
      else match trivialLines ls with
        | [] => [[l]]
        | line :: rest => (l :: line) :: rest := rfl

theorem trivialLines_flatten (ls : List Leaf) : (trivialLines ls).flatten = ls := by
  induction ls with
  | nil => rfl
  | cons l ls ih =>
    rw [trivialLines_cons]
    split
    · rw [List.flatten_cons, ih]
      rfl
    · cases hlines : trivialLines ls with
      | nil =>
        rw [hlines] at ih
        rw [← ih]
        rfl
      | cons line rest =>
        rw [hlines] at ih
        rw [← ih]
        rfl

theorem trivialLines_unbroken {ls : List Leaf} (hne : ls ≠ []) (h : ∀ l ∈ ls, l.kind ≠ .lineBreak) :
    trivialLines ls = [ls] := by
  induction ls with
  | nil => exact absurd rfl hne
  | cons l ls ih =>
    rw [trivialLines_cons, if_neg (h l (List.mem_cons_self ..))]
    cases ls with
    | nil => rfl
    | cons l' ls => rw [ih (List.cons_ne_nil _ _) fun x hx => h x (List.mem_cons_of_mem _ hx)]

theorem trivialLines_break (pre last : List Leaf) {b : Leaf} (hb : b.kind = .lineBreak) :
    trivialLines (pre ++ b :: last) = trivialLines (pre ++ [b]) ++ trivialLines last := by
  induction pre with
  | nil =>
    show trivialLines (b :: last) = trivialLines [b] ++ _
    rw [trivialLines_cons, trivialLines_cons, if_pos hb, if_pos hb]
    rfl
  | cons l pre ih =>
    show trivialLines (l :: (pre ++ b :: last)) = trivialLines (l :: (pre ++ [b])) ++ _
    rw [trivialLines_cons, trivialLines_cons, ih]
    split
    · rfl
    · cases hlines : trivialLines (pre ++ [b]) with
      | nil =>
        have hflat := trivialLines_flatten (pre ++ [b])
        rw [hlines] at hflat
        exact absurd hflat.symm (by simp)
      | cons line rest => rfl

/-- The unfinished last line of trivia. -/
theorem dropLast_trivialLines {ls : List Leaf}
    (h : (ls.reverse.takeWhile fun l => l.kind ≠ .lineBreak).reverse ≠ []) :
    (trivialLines ls).dropLast.flatten ++ (ls.reverse.takeWhile fun l => l.kind ≠ .lineBreak).reverse = ls := by
  have hsplit : (ls.reverse.dropWhile fun l => l.kind ≠ .lineBreak).reverse ++
      (ls.reverse.takeWhile fun l => l.kind ≠ .lineBreak).reverse = ls := by
    rw [← List.reverse_append, List.takeWhile_append_dropWhile, List.reverse_reverse]
  have hunbroken : ∀ l ∈ (ls.reverse.takeWhile fun l => l.kind ≠ .lineBreak).reverse, l.kind ≠ .lineBreak := by
    intro l hl
    have hall := List.all_takeWhile (p := fun l : Leaf => decide (l.kind ≠ .lineBreak)) (l := ls.reverse)
    simpa using List.all_eq_true.mp hall l (List.mem_reverse.mp hl)
  generalize (ls.reverse.takeWhile fun l => l.kind ≠ .lineBreak).reverse = last at h hsplit hunbroken ⊢
  cases hrest : ls.reverse.dropWhile fun l => l.kind ≠ .lineBreak with
  | nil =>
    rw [hrest] at hsplit
    have hlast : last = ls := hsplit
    rw [← hlast, trivialLines_unbroken h hunbroken]
    rfl
  | cons b pre =>
    have hb : b.kind = .lineBreak := by
      have hne : (ls.reverse.dropWhile fun l => l.kind ≠ .lineBreak) ≠ [] := by rw [hrest]; exact List.cons_ne_nil _ _
      have hhead := List.head_dropWhile_not (fun l : Leaf => decide (l.kind ≠ .lineBreak)) hne
      simpa only [hrest, List.head_cons, decide_eq_false_iff_not, not_not] using hhead
    rw [hrest, List.reverse_cons, List.append_assoc] at hsplit
    have hlines : trivialLines ls = trivialLines (pre.reverse ++ [b]) ++ [last] := by
      rw [← hsplit, ← trivialLines_unbroken h hunbroken]
      exact trivialLines_break pre.reverse last hb
    rw [hlines, List.dropLast_concat, trivialLines_flatten, List.append_assoc]
    exact hsplit

/-- Closing blocks keeps the lines. -/
theorem closeBlocks_leaves (width : Nat) (blocks : List Indent) (lines : List (List Leaf)) :
    (closeBlocks width blocks lines).1.flatMap leaves ++ (closeBlocks width blocks lines).2.2.flatten =
      lines.flatten := by
  induction blocks generalizing lines with
  | nil => rfl
  | cons i is ih =>
    unfold closeBlocks
    split
    · show (leaves _ ++ (closeBlocks width is _).1.flatMap leaves) ++ _ = _
      rw [List.append_assoc, ih]
      show ((lines.take _).flatten ++ []) ++ _ = _
      rw [List.append_nil, ← List.flatten_append, List.take_append_drop]
    · rfl

/-- Opening a line keeps the trivia before it. -/
theorem openLine_leaves {blocks blocks' : List Indent} {trivia lead : List Leaf} {tokens : List Token}
    (h : openLine blocks trivia = .ok (tokens, lead, blocks')) : tokens.flatMap leaves ++ lead = trivia := by
  unfold openLine at h
  simp only at h
  split at h
  · split at h
    · cases h; rfl
    · cases h
  · split at h
    · split at h
      · cases h; rfl
      · cases h
    · -- the lines before the unfinished one close blocks
      generalize hlast : (trivia.reverse.takeWhile fun l => l.kind ≠ .lineBreak).reverse = last at h
      generalize hwhole : (if last = [] then trivialLines trivia else (trivialLines trivia).dropLast) = whole at h
      have hflat : whole.flatten ++ last = trivia := by
        rw [← hwhole]
        split
        · rename_i hnil
          rw [hnil, List.append_nil, trivialLines_flatten]
        · rename_i hne
          rw [← hlast] at hne ⊢
          exact dropLast_trivialLines hne
      by_cases hwide : (lineIndent trivia).wide ≠ ((closeBlocks (lineIndent trivia).wide blocks whole).2.1.headD .outer).wide
      · rw [if_pos hwide] at h
        cases h
      · rw [if_neg hwide] at h
        split at h
        · cases h
        · cases h
          rw [← List.append_assoc, closeBlocks_leaves, hflat]

/-- The tokens of leaves keep their text; only the marks of an empty line and of the end of a text are new. -/
theorem spine_ofLeavesIn {blocks : List Indent} {fresh : Bool} {trivia ls : List Leaf}
    (h : (ofLeavesIn blocks fresh trivia ls).2 = none) :
    spine ((ofLeavesIn blocks fresh trivia ls).1.flatMap leaves) = spine (trivia ++ ls) := by
  induction ls generalizing blocks fresh trivia with
  | nil =>
    unfold ofLeavesIn
    cases fresh with
    | true =>
      show spine (((closeBlocks 0 blocks (trivialLines trivia)).1 ++ _).flatMap leaves) = _
      rw [List.flatMap_append]
      show spine (_ ++ (((closeBlocks 0 blocks (trivialLines trivia)).2.2.flatten ++ []) ++ [])) = _
      rw [List.append_nil, List.append_nil, closeBlocks_leaves, trivialLines_flatten, List.append_nil]
    | false =>
      show spine ((trivia ++ [⟨.endOfLine, ""⟩]) ++ ((closeBlocks 0 blocks []).1 ++ [(⟨[], .done⟩ : Token)]).flatMap leaves) = _
      have hclosed : (closeBlocks 0 blocks []).1.flatMap leaves = [] :=
        (List.append_eq_nil_iff.mp (closeBlocks_leaves 0 blocks [])).1
      rw [List.flatMap_append, hclosed, spine_append, spine_append]
      show (spine trivia ++ []) ++ [] = _
      rw [List.append_nil, List.append_nil, List.append_nil]
  | cons l ls ih =>
    unfold ofLeavesIn at h ⊢
    by_cases htrivia : l.kind.isTrivia = true
    · rw [if_pos htrivia] at h ⊢
      rw [ih h, List.append_assoc]
      rfl
    · rw [if_neg htrivia] at h ⊢
      by_cases hline : l.kind = .endOfLine
      · rw [if_pos hline] at h ⊢
        cases fresh with
        | true =>
          -- an empty line ends no statement, and keeps its text
          have hbreak : spine [⟨.lineBreak, l.text⟩] = spine [l] := by
            rw [spine_cons, spine_cons, hline]
            rfl
          show spine ((ofLeavesIn blocks true (trivia ++ [⟨.lineBreak, l.text⟩]) ls).1.flatMap leaves) = _
          rw [ih h, spine_append, spine_append, hbreak, ← spine_append, ← spine_append, List.append_assoc]
          rfl
        | false =>
          show spine ((trivia ++ [l]) ++ (ofLeavesIn blocks true [] ls).1.flatMap leaves) = _
          rw [spine_append, ih h, ← spine_append, List.append_assoc]
          rfl
      · rw [if_neg hline] at h ⊢
        cases fresh with
        | true =>
          simp only [if_true] at h ⊢
          cases hopen : openLine blocks trivia with
          | error f =>
            rw [hopen] at h
            cases h
          | ok r =>
            obtain ⟨tokens, lead, blocks'⟩ := r
            rw [hopen] at h
            show spine ((tokens ++ ⟨lead, .leaf l⟩ :: (ofLeavesIn blocks' false [] ls).1).flatMap leaves) = _
            rw [List.flatMap_append, List.flatMap_cons]
            show spine (_ ++ ((lead ++ [l]) ++ _)) = _
            rw [← List.append_assoc, ← List.append_assoc, openLine_leaves hopen, spine_append, ih h, ← spine_append,
              List.append_assoc]
            rfl
        | false =>
          show spine ((trivia ++ [l]) ++ (ofLeavesIn blocks false [] ls).1.flatMap leaves) = _
          rw [spine_append, ih h, ← spine_append, List.append_assoc]
          rfl

end Token

/-- The tokens of a text are its leaves, piece by piece. -/
theorem spine_tokens? {text : String} {ts : List Token} (h : tokens? text = some ts) :
    ∃ ls, lexemes text = .ok ls ∧ spine (ts.flatMap Token.leaves) = spine ls := by
  unfold tokens? at h
  split at h
  · cases h
  · rename_i ls hls
    split at h
    · cases h
    · rename_i ts' hts
      cases h
      unfold Token.ofLeaves? at hts
      split at hts
      · rename_i us hus
        cases hts
        have hnone : (Token.ofLeavesIn [] true [] ls).2 = none := by rw [hus]
        have hspine := Token.spine_ofLeavesIn hnone
        rw [hus] at hspine
        exact ⟨ls, hls, hspine⟩
      · cases hts

/-- The tokens of a text keep its words apart. -/
theorem spaced_tokens? {text : String} {ts : List Token} (h : tokens? text = some ts) :
    Spaced (spine (ts.flatMap Token.leaves)) := by
  obtain ⟨ls, hls, hspine⟩ := spine_tokens? h
  rw [hspine]
  exact spaced_lexemes hls

/-! ### Grammars -/

theorem leavesAll_append (ts us : List Tree) :
    Tree.leavesAll (ts ++ us) = Tree.leavesAll ts ++ Tree.leavesAll us := by
  simp only [Tree.leavesAll_eq_flatMap, List.flatMap_append]

theorem leavesAll_map_leaf (ls : List Leaf) : Tree.leavesAll (ls.map .leaf) = ls := by
  induction ls with
  | nil => rfl
  | cons l ls ih =>
    show [l] ++ _ = _
    rw [ih]
    rfl

theorem leavesAll_wrap (k : Kind) (ts : List Tree) : Tree.leavesAll (wrap k ts) = Tree.leavesAll ts := by
  unfold wrap
  rw [leavesAll_append]
  show _ ++ (Tree.leavesAll _ ++ []) = _
  rw [List.append_nil, ← leavesAll_append, List.takeWhile_append_dropWhile]

theorem leavesAll_join (head tail : List Tree) :
    Tree.leavesAll (join head tail) = Tree.leavesAll head ++ Tree.leavesAll tail := by
  unfold join
  split
  · rename_i k ts hlast
    obtain ⟨init, rfl⟩ := List.getLast?_eq_some_iff.mp hlast
    rw [leavesAll_wrap, List.dropLast_concat, leavesAll_append, leavesAll_append, leavesAll_append, List.append_assoc]
    show _ = _ ++ (_ ++ (Tree.leavesAll ts ++ []))
    rw [List.append_nil]
  · exact leavesAll_append head tail

/-- A leaf with names that may act as keywords taken for marks. -/
def asMark (l : Leaf) : Leaf := if l.kind = .name then ⟨.mark, l.text⟩ else l

theorem spine_map_asMark (ls : List Leaf) : spine (ls.map asMark) = spine ls := by
  induction ls with
  | nil => rfl
  | cons l ls ih =>
    rw [List.map_cons, spine_cons, spine_cons, ih, asMark]
    split
    · next h => simp [h]
    · rfl

/-- A wanted leaf is kept, and a name that acts as a keyword becomes a mark. -/
theorem map_asMark_accept {w : Want} {body : TokenBody} {ls : List Leaf} (h : w.accept body = some ls) :
    ls.map asMark = (Token.leaves ⟨[], body⟩).map asMark := by
  have soft : ∀ {l : Leaf}, l.kind = .name → [(⟨.mark, l.text⟩ : Leaf)].map asMark = [l].map asMark := by
    intro l hl
    simp [asMark, hl]
  unfold Want.accept at h
  split at h
  · split at h <;> cases h
    rfl
  · split at h
    · rename_i hname
      cases h
      rw [Bool.and_eq_true, decide_eq_true_eq] at hname
      exact soft hname.1
    · cases h
  · split at h <;> cases h
    rfl
  · split at h <;> cases h
    rfl
  · split at h
    · rename_i hname
      cases h
      exact soft hname
    · cases h
  · split at h <;> cases h
    rfl
  · cases h; rfl
  · cases h; rfl
  · cases h; rfl
  · cases h

namespace Grammar

variable {R : Type} {rules : R → Grammar R}

/-- What is read and what is left are the leaves of the tokens. -/
def Keeps (ts : List Token) (r : List Tree × List Token) : Prop :=
  (Tree.leavesAll r.1 ++ r.2.flatMap Token.leaves).map asMark = (ts.flatMap Token.leaves).map asMark

theorem Keeps.nothing (ts : List Token) : Keeps ts ([], ts) := rfl

theorem Keeps.append {ts us vs : List Token} {xs ys : List Tree} (h : Keeps ts (xs, us)) (h' : Keeps us (ys, vs)) :
    Keeps ts (xs ++ ys, vs) := by
  unfold Keeps at h h' ⊢
  rw [List.map_append] at h h'
  rw [← h, ← h', leavesAll_append, List.map_append, List.map_append, List.append_assoc]

theorem Keeps.of_leavesAll {ts us : List Token} {xs ys : List Tree} (h : Keeps ts (xs, us))
    (hleaves : Tree.leavesAll ys = Tree.leavesAll xs) : Keeps ts (ys, us) := by
  unfold Keeps at h ⊢
  rw [hleaves, h]

theorem Keeps.join {ts us vs : List Token} {xs ys : List Tree} (h : Keeps ts (xs, us)) (h' : Keeps us (ys, vs)) :
    Keeps ts (Source.join xs ys, vs) :=
  (h.append h').of_leavesAll (by rw [leavesAll_join, leavesAll_append])

theorem keeps_accept {w : Want} {t : Token} {ts : List Token} {ls : List Leaf} (h : w.accept t.body = some ls) :
    Keeps (t :: ts) ((t.lead ++ ls).map .leaf, ts) := by
  unfold Keeps
  dsimp only
  rw [leavesAll_map_leaf, List.flatMap_cons, List.map_append, List.map_append, List.map_append, map_asMark_accept h,
    ← List.map_append]
  rfl

/-- Reading by a grammar never drops or invents a leaf; the induction is on the steps it may take, for a
grammar and for a chain of grafts together. -/
theorem keeps_run_and_chain (fuel : Nat) :
    (∀ g ts r, run rules fuel g ts = some r → Keeps ts r) ∧
      ∀ g xs us ts r, Keeps ts (xs, us) → run.runChain rules fuel g xs us = some r → Keeps ts r := by
  induction fuel with
  | zero =>
    refine ⟨fun g ts r h => ?_, fun g xs us ts r _ h => ?_⟩
    · cases h
    · cases h
  | succ fuel ih =>
    obtain ⟨hrun, hchain⟩ := ih
    refine ⟨fun g ts r h => ?_, fun g xs us ts r hkeeps h => ?_⟩
    · unfold run at h
      cases g with
      | nothing =>
        cases h
        exact Keeps.nothing ts
      | want w =>
        cases ts with
        | nil => cases h
        | cons t ts =>
          obtain ⟨ls, hls, rfl⟩ := Option.map_eq_some_iff.mp h
          exact keeps_accept hls
      | seq a b =>
        simp only at h
        split at h
        · cases h
        · rename_i ha
          split at h
          · cases h
          · rename_i hb
            cases h
            exact (hrun _ _ _ ha).append (hrun _ _ _ hb)
      | alt a b =>
        simp only at h
        split at h
        · rename_i ha
          cases h
          exact hrun _ _ _ ha
        · exact hrun _ _ _ h
      | many a =>
        simp only at h
        split at h
        · cases h
          exact Keeps.nothing ts
        · rename_i ha
          split at h
          · split at h
            · cases h
            · rename_i hmany
              cases h
              exact (hrun _ _ _ ha).append (hrun _ _ _ hmany)
          · cases h
            exact Keeps.nothing ts
      | ahead a =>
        simp only at h
        split at h <;> cases h
        exact Keeps.nothing ts
      | notAhead a =>
        simp only at h
        split at h <;> cases h
        exact Keeps.nothing ts
      | rule name => exact hrun _ _ _ h
      | tree k a =>
        obtain ⟨⟨xs, us⟩, ha, rfl⟩ := Option.map_eq_some_iff.mp h
        exact (hrun _ _ _ ha).of_leavesAll (leavesAll_wrap k xs)
      | graft a b =>
        simp only at h
        split at h
        · cases h
        · rename_i ha
          obtain ⟨⟨ys, vs⟩, hb, rfl⟩ := Option.map_eq_some_iff.mp h
          exact (hrun _ _ _ ha).join (hrun _ _ _ hb)
      | chain a b =>
        simp only at h
        split at h
        · cases h
        · rename_i ha
          exact hchain _ _ _ _ _ (hrun _ _ _ ha) h
      | check ok a =>
        simp only at h
        split at h
        · cases h
        · rename_i ha
          split at h <;> cases h
          exact hrun _ _ _ ha
    · -- each further link takes the tree so far as its first child, with all its leaves
      unfold run.runChain at h
      split at h
      · cases h
        exact hkeeps
      · rename_i htail
        split at h
        · exact hchain _ _ _ _ _ (hkeeps.join (hrun _ _ _ htail)) h
        · cases h
          exact hkeeps

theorem keeps_run {fuel : Nat} {g : Grammar R} {ts : List Token} {r : List Tree × List Token}
    (h : run rules fuel g ts = some r) : Keeps ts r :=
  (keeps_run_and_chain fuel).1 g ts r h

end Grammar

/-! ### Whole texts -/

theorem text_toList (t : Tree) : t.text.toList = t.leaves.flatMap fun l => l.text.toList := by
  induction t using Tree.induct with
  | leaf l => exact (List.append_nil _).symm
  | node k ts ih =>
    show (Tree.textAll ts).toList = (Tree.leavesAll ts).flatMap _
    rw [Tree.textAll_eq_flatMap]
    induction ts with
    | nil => rfl
    | cons t ts ih' =>
      show _ = (t.leaves ++ Tree.leavesAll ts).flatMap _
      rw [List.flatMap_cons, List.flatMap_append, ih t (List.mem_cons_self ..),
        ih' fun u hu => ih u (List.mem_cons_of_mem _ hu)]

/-- The leaves of a module are those of its tokens. -/
theorem leaves_moduleOfTokens? {ts : List Token} {t : Tree} (h : moduleOfTokens? ts = some t) :
    t.leaves.map asMark = (ts.flatMap Token.leaves).map asMark := by
  obtain ⟨⟨trees, rest⟩, hrun, h⟩ := Option.bind_eq_some_iff.mp h
  have hkeeps := Grammar.keeps_run hrun
  unfold Grammar.Keeps at hkeeps
  simp only at h hkeeps
  split at h
  · cases h
    rw [← hkeeps]
    show _ = ((t.leaves ++ []) ++ []).map asMark
    rw [List.append_nil, List.append_nil]
  · split at h
    · rename_i k us hlast
      cases h
      obtain ⟨init, rfl⟩ := List.getLast?_eq_some_iff.mp hlast
      rw [← hkeeps, List.dropLast_concat, leavesAll_append]
      show (Tree.leavesAll (init ++ us)).map asMark = ((_ ++ (Tree.leavesAll us ++ [])) ++ []).map asMark
      rw [leavesAll_append, List.append_nil, List.append_nil]
    · cases h
  · cases h

theorem spine_moduleOfTokens? {ts : List Token} {t : Tree} (h : moduleOfTokens? ts = some t) :
    spine t.leaves = spine (ts.flatMap Token.leaves) := by
  rw [← spine_map_asMark, leaves_moduleOfTokens? h, spine_map_asMark]

/-- In the tree of a text no name character comes right after a word. -/
theorem spaced_parseModule? {text : String} {t : Tree} (h : parseModule? text = some t) : Spaced (spine t.leaves) := by
  obtain ⟨ts, hts, h⟩ := Option.bind_eq_some_iff.mp h
  rw [spine_moduleOfTokens? h]
  exact spaced_tokens? hts

/-- The tree of a text prints the text, without what is left out at its start. -/
theorem text_parseModule? {text : String} {t : Tree} (h : parseModule? text = some t) : t.text = trimStart text := by
  obtain ⟨ts, hts, h⟩ := Option.bind_eq_some_iff.mp h
  obtain ⟨ls, hls, hspine⟩ := spine_tokens? hts
  rw [← String.toList_inj, text_toList, ← flatMap_spine, spine_moduleOfTokens? h, hspine, flatMap_spine]
  exact flatMap_of_lexemes _ _ hls

/-- A part of a spaced tree is spaced. -/
theorem spaced_child {k : Kind} {ts : List Tree} {t : Tree} (h : Spaced (spine (Tree.node k ts).leaves)) (ht : t ∈ ts) :
    Spaced (spine t.leaves) := by
  obtain ⟨pre, post, rfl⟩ := List.append_of_mem ht
  have hspine : spine (Tree.node k (pre ++ t :: post)).leaves =
      spine (Tree.leavesAll pre) ++ (spine t.leaves ++ spine (Tree.leavesAll post)) := by
    show spine (Tree.leavesAll (pre ++ t :: post)) = _
    rw [leavesAll_append, spine_append]
    show _ ++ spine (t.leaves ++ _) = _
    rw [spine_append]
  rw [hspine] at h
  exact h.right.left

end FluentShift.Source
