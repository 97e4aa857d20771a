import FluentShift.Proofs.Source.Terms

/-!
# FluentShift.Proofs.Source.Writing - the text of a term is cut into its leaves

`Lexes modes cs ls`: the text `cs` has the leaves `ls` when `modes` are open.  The leaves of the text of a term are those
of its tree (`lexes_term`), so reading the text of a term gives its tree back (`parseExpression?_term`).
-/

namespace FluentShift.Source

/-! ### Characters of names -/

namespace Text

open FluentShift.Text

/-- A character that may start a name is none of those that start something else. -/
theorem ne_of_isNameStart {c d : Char} (hc : isNameStart c = true) (hd : isNameStart d = false) : c ≠ d := by
  rintro rfl
  rw [hc] at hd
  cases hd

theorem isDigit_of_isNameStart {c : Char} (hc : isNameStart c = true) : c.isDigit = false := by
  cases hd : c.isDigit with
  | false => rfl
  | true =>
    exfalso
    -- a digit is one of ten characters, and none of them starts a name
    have hlt : c.toNat < 58 ∧ 48 ≤ c.toNat := by
      simp only [Char.isDigit, Bool.and_eq_true, decide_eq_true_eq] at hd
      exact ⟨Nat.lt_succ_of_le hd.2, hd.1⟩
    have hten : ∀ n, n < 58 → 48 ≤ n → isNameStart (Char.ofNat n) = false := by decide
    have := hten c.toNat hlt.1 hlt.2
    rw [Char.ofNat_toNat] at this
    rw [hc] at this
    cases this

end Text

/-- A word that can be bound: it is spelled like a name, and neither reserved nor a constant. -/
structure IsName (s : String) : Prop where
  spelled : ∃ c cs, s.toList = c :: cs ∧ FluentShift.Text.isNameStart c = true ∧
    cs.all FluentShift.Text.isNameContinue = true
  notKeyword : keywords.contains s = false
  free : Term.IsFree s

/-- What may come right after a name: nothing that would be part of it or make it the prefix of a string. -/
def EndsName (cs : List Char) : Prop :=
  ∀ c ∈ cs.head?, FluentShift.Text.isNameContinue c = false ∧ c ≠ '"' ∧ c ≠ '\''

/-- The text has these leaves and no fault. -/
def Lexes (modes : List Mode) (cs : List Char) (ls : List Leaf) : Prop := lexemesIn modes cs = (ls, none)

theorem Lexes.step {modes : List Mode} {c : Char} {rest : List Char} {cut : Cut} {ls : List Leaf}
    (hcut : nextCut modes c rest = .ok cut) (hpos : 0 < cut.length)
    (h : Lexes cut.modes ((c :: rest).drop cut.length) ls) :
    Lexes modes (c :: rest) (⟨cut.kind, String.ofList ((c :: rest).take cut.length)⟩ :: ls) := by
  unfold Lexes at *
  rw [lexemesIn, hcut]
  simp only [hpos, if_true, h]

/-- Outside template strings. -/
def Plain (modes : List Mode) : Prop := ∀ m ∈ modes, m = .bracket ')'

theorem nextCut_plain {modes : List Mode} (hm : Plain modes) (c : Char) (rest : List Char) :
    nextCut modes c rest = cutToken modes c rest := by
  cases modes with
  | nil => rfl
  | cons m ms => rw [hm m (List.mem_cons_self ..)]; rfl

section Marks

variable {modes : List Mode} {rest : List Char} {ls : List Leaf}

theorem lexes_open (hm : Plain modes) (h : Lexes (.bracket ')' :: modes) rest ls) :
    Lexes modes ('(' :: rest) (⟨.mark, "("⟩ :: ls) := by
  have hcut : nextCut modes '(' rest = .ok ⟨.mark, 1, .bracket ')' :: modes⟩ := by
    rw [nextCut_plain hm]
    rfl
  exact Lexes.step hcut Nat.one_pos h

theorem lexes_close (h : Lexes modes rest ls) : Lexes (.bracket ')' :: modes) (')' :: rest) (⟨.mark, ")"⟩ :: ls) := by
  have hcut : nextCut (.bracket ')' :: modes) ')' rest = .ok ⟨.mark, 1, modes⟩ := rfl
  exact Lexes.step hcut Nat.one_pos h

theorem lexes_comma (hm : Plain modes) (h : Lexes modes rest ls) :
    Lexes modes (',' :: rest) (⟨.mark, ","⟩ :: ls) := by
  have hcut : nextCut modes ',' rest = .ok ⟨.mark, 1, modes⟩ := by
    cases modes with
    | nil => rfl
    | cons m ms => rw [hm m (List.mem_cons_self ..)]; rfl
  exact Lexes.step hcut Nat.one_pos h

theorem lexes_blank (hm : Plain modes) (hrest : ∀ c ∈ rest.head?, isBlank c = false) (h : Lexes modes rest ls) :
    Lexes modes (' ' :: rest) (⟨.blank, " "⟩ :: ls) := by
  have hrun : runLength isBlank rest = 0 := by
    cases rest with
    | nil => rfl
    | cons c cs => rw [runLength, hrest c rfl]; rfl
  have hcut : nextCut modes ' ' rest = .ok ⟨.blank, 1, modes⟩ := by
    rw [nextCut_plain hm]
    show Except.ok (Cut.mk .blank (runLength isBlank rest + 1) modes) = _
    rw [hrun]
  exact Lexes.step hcut Nat.one_pos h

theorem operatorLength_dot {c : Char} (hc : c ≠ '.') (cs : List Char) : operatorLength ('.' :: c :: cs) = 1 := by
  have hdots : ∀ o ∈ longOperators, o.head? = some '.' → o.take 2 = ['.', '.'] := by decide
  have hlong : ∀ o ∈ longOperators, 2 ≤ o.length := by decide
  have hnone : longOperators.find? (fun o => ('.' :: c :: cs).take o.length = o) = none := by
    rw [List.find?_eq_none]
    intro o ho htake
    have htake : ('.' :: c :: cs).take o.length = o := by simpa using htake
    have hlen := hlong o ho
    have hhead : o.head? = some '.' := by
      rw [← htake, List.head?_take, if_neg (by omega)]
      rfl
    have htwo := hdots o ho hhead
    rw [← htake, List.take_take, Nat.min_eq_left hlen] at htwo
    cases htwo
    exact hc rfl
  rw [operatorLength, hnone]
  rfl

theorem lexes_dot (hm : Plain modes) {c : Char} {cs : List Char} (hc : FluentShift.Text.isNameStart c = true)
    (h : Lexes modes (c :: cs) ls) : Lexes modes ('.' :: c :: cs) (⟨.mark, "."⟩ :: ls) := by
  have hdigit : (('.' : Char).isDigit || ('.' = '.' && ((c :: cs).headD ' ').isDigit)) = false := by
    simp [Text.isDigit_of_isNameStart hc]
  have hsymbol : cutSymbol modes '.' (c :: cs) = .ok ⟨.mark, 1, modes⟩ := by
    have hop := operatorLength_dot (Text.ne_of_isNameStart hc (d := '.') rfl) cs
    cases modes with
    | nil => simp [cutSymbol, hop]
    | cons m ms => rw [hm m (List.mem_cons_self ..)]; simp [cutSymbol, hop]
  have hcut : nextCut modes '.' (c :: cs) = .ok ⟨.mark, 1, modes⟩ := by
    rw [nextCut_plain hm, ← hsymbol]
    show (if (('.' : Char).isDigit || ('.' = '.' && ((c :: cs).headD ' ').isDigit)) = true then _ else _) = _
    rw [hdigit]
    rfl
  exact Lexes.step hcut Nat.one_pos h

end Marks

/-! ### Names in a text -/

section Names

variable {modes : List Mode} {rest : List Char} {ls : List Leaf}

theorem runLength_append {p : Char → Bool} {cs : List Char} (hcs : cs.all p = true)
    (hrest : ∀ c ∈ rest.head?, p c = false) : runLength p (cs ++ rest) = cs.length := by
  induction cs with
  | nil =>
    cases rest with
    | nil => rfl
    | cons c cs => rw [List.nil_append, runLength, hrest c rfl]; rfl
  | cons c cs ih =>
    rw [List.all_cons, Bool.and_eq_true] at hcs
    rw [List.cons_append, runLength, hcs.1, if_pos rfl, ih hcs.2, List.length_cons]

/-- No quote comes after the letters that a name starts with. -/
theorem dropWhile_isAlpha_append {cs : List Char} (hcs : cs.all FluentShift.Text.isNameContinue = true)
    (hrest : EndsName rest) : ∀ q ∈ ((cs ++ rest).dropWhile Char.isAlpha).head?, q ≠ '"' ∧ q ≠ '\'' := by
  have hcontinue : ∀ c, c.isAlpha = true → FluentShift.Text.isNameContinue c = true := by
    intro c hc
    simp [FluentShift.Text.isNameContinue, Char.isAlphanum, hc]
  induction cs with
  | nil =>
    intro q hq
    cases rest with
    | nil => cases hq
    | cons c cs =>
      have hc := hrest c rfl
      have halpha : c.isAlpha = false := by
        cases h : c.isAlpha with
        | false => rfl
        | true => rw [hcontinue c h] at hc; cases hc.1
      rw [List.nil_append, List.dropWhile_cons, halpha] at hq
      cases hq
      exact hc.2
  | cons c cs ih =>
    intro q hq
    rw [List.all_cons, Bool.and_eq_true] at hcs
    rw [List.cons_append, List.dropWhile_cons] at hq
    split at hq
    · exact ih hcs.2 q hq
    · cases hq
      refine ⟨?_, ?_⟩
      · rintro rfl
        exact absurd hcs.1 (by decide)
      · rintro rfl
        exact absurd hcs.1 (by decide)

theorem stringPrefix?_name {cs : List Char} (hcs : cs.all FluentShift.Text.isNameContinue = true)
    (hrest : EndsName rest) : stringPrefix? (cs ++ rest) = none := by
  have hdrop : (cs ++ rest).drop ((cs ++ rest).takeWhile Char.isAlpha).length = (cs ++ rest).dropWhile Char.isAlpha := by
    calc (cs ++ rest).drop ((cs ++ rest).takeWhile Char.isAlpha).length
        = ((cs ++ rest).takeWhile Char.isAlpha ++ (cs ++ rest).dropWhile Char.isAlpha).drop
            ((cs ++ rest).takeWhile Char.isAlpha).length := by rw [List.takeWhile_append_dropWhile]
      _ = (cs ++ rest).dropWhile Char.isAlpha := List.drop_left' rfl
  have hquote := dropWhile_isAlpha_append hcs hrest
  simp only [stringPrefix?, hdrop]
  cases h : (cs ++ rest).dropWhile Char.isAlpha with
  | nil => rfl
  | cons q tail =>
    rw [h] at hquote
    obtain ⟨h₁, h₂⟩ := hquote q rfl
    simp [h₁, h₂]

/-- A text that is spelled like a name. -/
def IsWord (s : String) : Prop :=
  ∃ c cs, s.toList = c :: cs ∧ FluentShift.Text.isNameStart c = true ∧ cs.all FluentShift.Text.isNameContinue = true

/-- The leaf of a word. -/
def wordLeaf (s : String) : Leaf := ⟨if keywords.contains s then .mark else .name, s⟩

theorem lexes_word (hm : Plain modes) {s : String} (hs : IsWord s) (hrest : EndsName rest) (h : Lexes modes rest ls) :
    Lexes modes (s.toList ++ rest) (wordLeaf s :: ls) := by
  obtain ⟨c, cs, htext, hstart, hall⟩ := hs
  have hcontinue : (c :: cs).all FluentShift.Text.isNameContinue = true := by
    rw [List.all_cons, FluentShift.Text.isNameContinue_of_isNameStart hstart, hall]
    rfl
  have hlen : runLength FluentShift.Text.isNameContinue (c :: cs ++ rest) = (c :: cs).length :=
    runLength_append hcontinue fun d hd => (hrest d hd).1
  have hne : ∀ d, FluentShift.Text.isNameStart d = false → c ≠ d := fun d hd => Text.ne_of_isNameStart hstart hd
  have hname : String.ofList (c :: cs) = s := by rw [← htext, String.ofList_toList]
  have htake : (c :: (cs ++ rest)).take (c :: cs).length = c :: cs := by simp
  have hcut : nextCut modes c (cs ++ rest) = .ok ⟨(wordLeaf s).kind, (c :: cs).length, modes⟩ := by
    have hprefix : stringPrefix? (c :: (cs ++ rest)) = none := stringPrefix?_name hcontinue hrest
    have hrun : runLength FluentShift.Text.isNameContinue (c :: (cs ++ rest)) = (c :: cs).length := hlen
    have hblank : isBlank c = false := by
      simp [isBlank, hne ' ' rfl, hne '\t' rfl, hne '\x0c' rfl]
    have hbreak : isBreak c = false := by simp [isBreak, hne '\n' rfl, hne '\r' rfl]
    rw [nextCut_plain hm, cutToken]
    simp only [hblank, hbreak, hne '#' rfl, hne '\\' rfl, hne '.' rfl, Text.isDigit_of_isNameStart hstart, hprefix,
      hstart, hrun, htake, hname, wordLeaf]
    rfl
  have hdrop : Lexes modes ((c :: (cs ++ rest)).drop (c :: cs).length) ls := by simpa using h
  have hstep := Lexes.step hcut (by simp) hdrop
  rw [htake, hname] at hstep
  rw [htext]
  exact hstep

theorem wordLeaf_name {s : String} (hs : IsName s) : wordLeaf s = ⟨.name, s⟩ := by
  rw [wordLeaf, if_neg (by rw [hs.notKeyword]; exact Bool.false_ne_true)]

theorem lexes_name (hm : Plain modes) {s : String} (hs : IsName s) (hrest : EndsName rest) (h : Lexes modes rest ls) :
    Lexes modes (s.toList ++ rest) (⟨.name, s⟩ :: ls) := by
  have hword := lexes_word hm hs.spelled hrest h
  rwa [wordLeaf_name hs] at hword

end Names

/-! ### Terms in a text -/

namespace Term

theorem All.imp {P Q : String → Prop} (h : ∀ s, P s → Q s) {e : Term} (he : e.All P) : e.All Q := by
  induction e with
  | name s => exact h s he
  | member e s ih => exact ⟨ih he.1, h s he.2⟩
  | apply e a ihe iha => exact ⟨ihe he.1, iha he.2⟩
  | apply₂ e a b ihe iha ihb => exact ⟨ihe he.1, iha he.2.1, ihb he.2.2⟩

/-- The text of a term starts with the start of a name. -/
theorem text_eq_cons {e : Term} (he : e.All IsName) :
    ∃ c cs, e.tree.text.toList = c :: cs ∧ FluentShift.Text.isNameStart c = true := by
  induction e with
  | name s =>
    obtain ⟨c, cs, h, hc, -⟩ := he.spelled
    exact ⟨c, cs, h, hc⟩
  | member e s ih =>
    obtain ⟨c, cs, h, hc⟩ := ih he.1
    exact ⟨c, _, by rw [tree, Tree.text_node, Tree.textAll_cons, String.toList_append, h]; rfl, hc⟩
  | apply e a ihe _ =>
    obtain ⟨c, cs, h, hc⟩ := ihe he.1
    exact ⟨c, _, by rw [tree, Tree.text_node, Tree.textAll_cons, String.toList_append, h]; rfl, hc⟩
  | apply₂ e a b ihe _ _ =>
    obtain ⟨c, cs, h, hc⟩ := ihe he.1
    exact ⟨c, _, by rw [tree, Tree.text_node, Tree.textAll_cons, String.toList_append, h]; rfl, hc⟩

theorem plain_bracket {modes : List Mode} (hm : Plain modes) : Plain (.bracket ')' :: modes) := by
  intro m h
  rcases List.mem_cons.mp h with rfl | h
  · rfl
  · exact hm m h

theorem endsName_cons {c : Char} (h : FluentShift.Text.isNameContinue c = false ∧ c ≠ '"' ∧ c ≠ '\'') (cs : List Char) :
    EndsName (c :: cs) := by
  intro d hd
  cases hd
  exact h

/-- The text of a term is cut into the leaves of its tree. -/
theorem lexes_term {e : Term} (he : e.All IsName) {modes : List Mode} (hm : Plain modes) {rest : List Char}
    (hrest : EndsName rest) {ls : List Leaf} (h : Lexes modes rest ls) :
    Lexes modes (e.tree.text.toList ++ rest) (e.tree.leaves ++ ls) := by
  induction e generalizing modes rest ls with
  | name s => exact lexes_name hm he hrest h
  | member e s ih =>
    obtain ⟨c, cs, hs, hc, -⟩ := he.2.spelled
    have hname := lexes_name hm he.2 hrest h
    rw [hs] at hname
    have hdot := lexes_dot hm hc hname
    have := ih he.1 hm (endsName_cons (by decide) _) hdot
    simpa [tree, mark, nameLeaf, Tree.leaves, Tree.leavesAll, hs] using this
  | apply e a ihe iha =>
    have harg := iha he.2 (plain_bracket hm) (endsName_cons (by decide) _) (lexes_close h)
    have := ihe he.1 hm (endsName_cons (by decide) _) (lexes_open hm harg)
    simpa [tree, mark, Tree.leaves, Tree.leavesAll] using this
  | apply₂ e a b ihe iha ihb =>
    obtain ⟨c, cs, hb, hc⟩ := text_eq_cons he.2.2
    have hsecond := ihb he.2.2 (plain_bracket hm) (endsName_cons (by decide) _) (lexes_close h)
    have hblank := lexes_blank (plain_bracket hm) (by
      rw [hb]
      intro d hd
      cases hd
      simp [isBlank, Text.ne_of_isNameStart hc (d := ' ') rfl, Text.ne_of_isNameStart hc (d := '\t') rfl,
        Text.ne_of_isNameStart hc (d := '\x0c') rfl]) hsecond
    have hfirst := iha he.2.1 (plain_bracket hm) (endsName_cons (by decide) _) (lexes_comma (plain_bracket hm) hblank)
    have := ihe he.1 hm (endsName_cons (by decide) _) (lexes_open hm hfirst)
    simpa [tree, mark, Tree.leaves, Tree.leavesAll] using this

/-! ### The tokens of a term -/

theorem ofLeavesIn_mark (s : String) (lead ls : List Leaf) :
    Token.ofLeavesIn [] false lead (⟨.mark, s⟩ :: ls) =
      (⟨lead, .leaf ⟨.mark, s⟩⟩ :: (Token.ofLeavesIn [] false [] ls).1, (Token.ofLeavesIn [] false [] ls).2) := rfl

theorem ofLeavesIn_blank (s : String) (lead ls : List Leaf) :
    Token.ofLeavesIn [] false lead (⟨.blank, s⟩ :: ls) = Token.ofLeavesIn [] false (lead ++ [⟨.blank, s⟩]) ls := rfl

/-- Inside a line, the leaves of a term become its tokens. -/
theorem ofLeavesIn_term (e : Term) (lead ls : List Leaf) :
    Token.ofLeavesIn [] false lead (e.tree.leaves ++ ls) =
      (e.tokens lead ++ (Token.ofLeavesIn [] false [] ls).1, (Token.ofLeavesIn [] false [] ls).2) := by
  induction e generalizing lead ls with
  | name s => rfl
  | member e s ih =>
    have h : (member e s).tree.leaves ++ ls = e.tree.leaves ++ (⟨.mark, "."⟩ :: ⟨.name, s⟩ :: ls) := by
      simp [tree, mark, nameLeaf, Tree.leaves, Tree.leavesAll]
    rw [h, ih, ofLeavesIn_mark, tokens, List.append_assoc]
    rfl
  | apply e a ihe iha =>
    have h : (apply e a).tree.leaves ++ ls =
        e.tree.leaves ++ (⟨.mark, "("⟩ :: (a.tree.leaves ++ (⟨.mark, ")"⟩ :: ls))) := by
      simp [tree, mark, Tree.leaves, Tree.leavesAll]
    rw [h, ihe, ofLeavesIn_mark, iha, ofLeavesIn_mark, tokens, List.append_assoc, List.cons_append, List.append_assoc]
    rfl
  | apply₂ e a b ihe iha ihb =>
    have h : (apply₂ e a b).tree.leaves ++ ls = e.tree.leaves ++ (⟨.mark, "("⟩ :: (a.tree.leaves ++ (⟨.mark, ","⟩ ::
        ⟨.blank, " "⟩ :: (b.tree.leaves ++ (⟨.mark, ")"⟩ :: ls))))) := by
      simp [tree, mark, Tree.leaves, Tree.leavesAll]
    rw [h, ihe, ofLeavesIn_mark, iha, ofLeavesIn_mark, ofLeavesIn_blank, ihb, ofLeavesIn_mark, tokens, List.append_assoc,
      List.cons_append, List.append_assoc, List.cons_append, List.append_assoc]
    rfl

/-- The first leaf of a text opens a line and no block. -/
theorem ofLeavesIn_fresh (s : String) (ls : List Leaf) :
    Token.ofLeavesIn [] true [] (⟨.name, s⟩ :: ls) = Token.ofLeavesIn [] false [] (⟨.name, s⟩ :: ls) := rfl

theorem leaves_eq_cons (e : Term) : ∃ s ls, e.tree.leaves = ⟨.name, s⟩ :: ls := by
  induction e with
  | name s => exact ⟨s, [], rfl⟩
  | member e s ih =>
    obtain ⟨n, ls, h⟩ := ih
    exact ⟨n, _, by rw [tree, Tree.leaves, Tree.leavesAll, h]; rfl⟩
  | apply e a ihe _ =>
    obtain ⟨n, ls, h⟩ := ihe
    exact ⟨n, _, by rw [tree, Tree.leaves, Tree.leavesAll, h]; rfl⟩
  | apply₂ e a b ihe _ _ =>
    obtain ⟨n, ls, h⟩ := ihe
    exact ⟨n, _, by rw [tree, Tree.leaves, Tree.leavesAll, h]; rfl⟩

theorem ofLeaves?_term (e : Term) : Token.ofLeaves? e.tree.leaves = .ok (e.tokens [] ++ closing) := by
  have h : Token.ofLeavesIn [] true [] e.tree.leaves = (e.tokens [] ++ closing, none) := by
    obtain ⟨s, ls, hs⟩ := leaves_eq_cons e
    have hline := ofLeavesIn_term e [] []
    rw [List.append_nil, hs] at hline
    rw [hs, ofLeavesIn_fresh, hline]
    rfl
  rw [Token.ofLeaves?, h]

/-! ### Reading the text of a term -/

theorem trimStart_term {e : Term} (he : e.All IsName) : trimStart e.tree.text = e.tree.text := by
  obtain ⟨c, cs, htext, hc⟩ := text_eq_cons he
  have hbom : (c :: cs).take 1 ≠ ['\ufeff'] := by
    intro h
    exact Text.ne_of_isNameStart hc (d := '\ufeff') (by decide +kernel) (List.cons.inj h).1
  have hfeed : decide (c = '\x0c') = false := by simp [Text.ne_of_isNameStart hc (d := '\x0c') rfl]
  rw [trimStart, htext]
  show String.ofList ((if (c :: cs).take 1 = ['\ufeff'] then _ else _ : List Char).dropWhile (· = '\x0c')) = _
  rw [if_neg hbom, List.dropWhile_cons, hfeed, ← htext]
  exact String.ofList_toList

theorem tokens?_term {e : Term} (he : e.All IsName) : tokens? e.tree.text = some (e.tokens [] ++ closing) := by
  have hnil : Lexes [] [] [] := by
    rw [Lexes, lexemesIn]
    rfl
  have hlex : Lexes [] (e.tree.text.toList ++ []) (e.tree.leaves ++ []) :=
    lexes_term he (fun _ h => by cases h) (fun _ h => by cases h) hnil
  rw [List.append_nil, List.append_nil] at hlex
  have hleaves : lexemes e.tree.text = .ok e.tree.leaves := by
    rw [lexemes, hlex]
  simp only [tokens?, hleaves, ofLeaves?_term]

/-- Reading the text of a term gives its tree. -/
theorem parseExpression?_term {e : Term} (he : e.All IsName) : parseExpression? e.tree.text = some e.tree := by
  have hread := reads_term e (he.imp fun _ h => h.free) (parseFuel (e.tokens [] ++ closing).length) (by
    rw [List.length_append, length_tokens, parseFuel]
    omega)
  have hparts : [e.tree].filter (!·.isTrivia) = [e.tree] := by simp [isTrivia_tree]
  simp only [parseExpression?, trimStart_term he, tokens?_term he, Option.bind_eq_bind, Option.bind_some, hread, hparts]
  rfl

end Term

end FluentShift.Source
